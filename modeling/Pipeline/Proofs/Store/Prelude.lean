import Pipeline.Proofs.Store.Completed
import Pipeline.Proofs.Store.Registration

/-!
# The prelude

A type of the prelude is implemented outside the declarations, so that no name of one is an alias. A
trait that is read has the parameters, the associated types and the methods of its entry. The
traits of wrappers and of components, which nobody has to implement, have no method with a body
inside the declarations, so that an impl without methods agrees with them.
-/

set_option autoImplicit false
set_option relaxedAutoImplicit false

namespace Pipeline

open Noted

namespace Site

variable {site : Site} {place : Location} {name : String}

/-- What a method of a trait is read from. -/
structure ReadsMethod (e : MethodEntry) (m : TraitMethod) : Prop where
  sig : ∃ parsed params ret, MethodSig.parse e.sig = .ok parsed ∧
    params.map (·.1) = parsed.params.map (·.1) ∧
    m.sig = { parsed with params := params, ret := ret }
  default : m.default.map .ok = e.default.map Snippet.parse

/-- What a trait is read from. -/
structure ReadsTrait (e : TraitEntry) (t : TraitDecl) : Prop where
  generics : t.generics.length = e.generics.length
  assoc : t.assoc.map (·.name) = e.assoc.map (·.1)
  methods : List.Forall₂ ReadsMethod e.methods t.methods
  specialization : ∀ written ∈ e.specialization, ∃ spec, t.specialization = some spec ∧
    List.Forall₂ (fun p q => q.1 = p.1 ∧ Snippet.parse p.2 = .ok q.2) written.defaults spec.defaults

theorem ReadsMethod.named {e : MethodEntry} {m : TraitMethod} (reads : ReadsMethod e m)
    (name : String) (params : List String)
    (written : (MethodSig.parse e.sig).toOption.map (fun sig => (sig.name, sig.params.map (·.1))) =
      some (name, params)) : m.sig.name = name ∧ m.sig.params.map (·.1) = params := by
  obtain ⟨parsed, read, ret, parses, names, same⟩ := reads.sig
  rw [parses] at written
  cases written
  rw [same]
  exact ⟨rfl, names⟩

theorem ReadsMethod.body {e : MethodEntry} {m : TraitMethod} (reads : ReadsMethod e m)
    {text : String} (written : e.default = some text) :
    ∃ body, m.default = some body ∧ Snippet.parse text = .ok body := by
  have default := reads.default
  rw [written] at default
  obtain ⟨body, given, parses⟩ := Option.map_eq_some_iff.mp default
  exact ⟨body, given, parses.symm⟩

/-- A type of which nothing but its parameters is written is implemented outside. -/
theorem typeDecl_native {e : TypeEntry} {d : TypeDecl} (bare : e = Prelude.nativeType e.generics)
    (read : (site.typeDecl place name e).value = some d) : d.kind = .native := by
  obtain ⟨generics, -, read⟩ := value_bind_eq_some.mp read
  split at read
  · cases read
  · obtain ⟨kind, readKind, read⟩ := value_bind_eq_some.mp read
    cases read
    rw [bare] at readKind
    cases readKind
    rfl

theorem traitDecl_module {e : TraitEntry} {t : TraitDecl}
    (read : (site.traitDecl place name e).value = some t) : t.module = site.module := by
  rw [traitDecl_eq] at read
  obtain ⟨generics, -, read⟩ := value_bind_eq_some.mp read
  obtain ⟨assoc, -, read⟩ := value_bind_eq_some.mp read
  obtain ⟨methods, -, read⟩ := value_bind_eq_some.mp read
  obtain ⟨specialization, -, read⟩ := value_bind_eq_some.mp read
  cases read
  rfl

theorem length_genericParams {written : List String} {read : List Generic × List Bound}
    (found : (site.genericParams place written).value = some read) :
    read.1.length = written.length := by
  obtain ⟨parsed, readTexts, found⟩ := value_bind_eq_some.mp found
  dsimp only at found
  split at found
  · cases found
  · obtain ⟨all, readAll, found⟩ := value_bind_eq_some.mp found
    cases found
    have texts := (value_mapM_eq_some.mp readTexts).length_eq
    have generics := (value_mapM_eq_some.mp readAll).length_eq
    simp only [List.length_zipIdx, List.length_map] at texts generics ⊢
    omega

theorem length_plainGenerics {written : List String} {generics : List Generic}
    (found : (site.plainGenerics place written).value = some generics) :
    generics.length = written.length := by
  obtain ⟨read, readAll, found⟩ := value_bind_eq_some.mp found
  dsimp only at found
  split at found
  · cases found
    exact length_genericParams readAll
  · cases found

theorem snippet_reads {text : Option String} {snippet : Option Snippet}
    (found : (Snippet.ofText? place text).value = some snippet) :
    snippet.map .ok = text.map Snippet.parse := by
  cases text with
  | none =>
    cases found
    rfl
  | some text =>
    obtain ⟨parsed, one, rfl⟩ := value_map_eq_some.mp found
    exact congrArg some (value_ofExcept_eq_some.mp one).symm

theorem traitMethods_reads {trait : String} {seen : List String} {i : Nat}
    {entries : List MethodEntry} {methods : List TraitMethod}
    (found : (site.traitMethods place trait seen i entries).value = some methods) :
    List.Forall₂ ReadsMethod entries methods := by
  induction entries generalizing seen i methods with
  | nil =>
    cases found
    exact .nil
  | cons e rest ih =>
    obtain ⟨sig, readSig, found⟩ := value_bind_eq_some.mp found
    split at found
    · cases found
    · obtain ⟨default, readDefault, found⟩ := value_bind_eq_some.mp found
      obtain ⟨others, there, found⟩ := value_bind_eq_some.mp found
      cases found
      refine .cons ⟨?_, snippet_reads readDefault⟩ (ih there)
      obtain ⟨parsed, parses, readSig⟩ := value_bind_eq_some.mp readSig
      obtain ⟨params, readParams, readSig⟩ := value_bind_eq_some.mp readSig
      obtain ⟨ret, -, readSig⟩ := value_bind_eq_some.mp readSig
      cases readSig
      refine ⟨parsed, params, ret, value_ofExcept_eq_some.mp parses, ?_, rfl⟩
      refine map_eq_of_mapM readParams fun p q one => ?_
      obtain ⟨t, -, same⟩ := value_bind_eq_some.mp one
      cases same
      rfl

theorem specialization_reads {written : SpecializationEntry} {spec : Specialization}
    (found : (site.specialization place written).value = some spec) :
    List.Forall₂ (fun p q => q.1 = p.1 ∧ Snippet.parse p.2 = .ok q.2) written.defaults
      spec.defaults := by
  obtain ⟨target, -, found⟩ := value_bind_eq_some.mp found
  obtain ⟨defaults, readAll, found⟩ := value_bind_eq_some.mp found
  cases found
  refine (value_mapM_eq_some.mp readAll).imp fun p q one => ?_
  obtain ⟨body, parses, same⟩ := value_bind_eq_some.mp one
  cases same
  exact ⟨rfl, value_ofExcept_eq_some.mp parses⟩

theorem traitDecl_reads {e : TraitEntry} {t : TraitDecl}
    (found : (site.traitDecl place name e).value = some t) : ReadsTrait e t := by
  rw [traitDecl_eq] at found
  obtain ⟨generics, readGenerics, found⟩ := value_bind_eq_some.mp found
  obtain ⟨assoc, readAssoc, found⟩ := value_bind_eq_some.mp found
  obtain ⟨methods, readMethods, found⟩ := value_bind_eq_some.mp found
  obtain ⟨specialization, readTarget, found⟩ := value_bind_eq_some.mp found
  cases found
  refine ⟨length_plainGenerics readGenerics, ?_, traitMethods_reads readMethods,
    fun written given => ?_⟩
  · refine map_eq_of_mapM readAssoc fun a decl one => ?_
    obtain ⟨bound, -, same⟩ := value_bind_eq_some.mp one
    cases same
    rfl
  · rw [Option.mem_def.mp given] at readTarget
    obtain ⟨spec, read, rfl⟩ := value_map_eq_some.mp readTarget
    exact ⟨spec, rfl, specialization_reads read⟩

end Site

namespace Store

variable {ds : List Document}

/-- A trait of the prelude is read from its entry. -/
theorem Sound.prelude_trait (sound : Sound (Prelude.document :: ds)) {e : String × TraitEntry}
    (listed : e ∈ Prelude.traits) :
    ∃ trait, (declarationsOf (Prelude.document :: ds)).1.traits.get?
        (Path.child preludeModule e.1) = some trait ∧
      trait.path = Path.child preludeModule e.1 ∧ trait.module = preludeModule ∧
      Site.ReadsTrait e.2 trait := by
  obtain ⟨trait, place, found, read⟩ := sound.trait_read (e := e) List.mem_cons_self listed
  have site : (siteOf (Prelude.document :: ds) Prelude.document).module = preludeModule :=
    siteOf_module _ _
  refine ⟨trait, found, ?_, ?_, Site.traitDecl_reads read⟩
  · rw [Site.traitDecl_path read, site]
  · rw [Site.traitDecl_module read, site]

/-- A type of the prelude is implemented outside the declarations. -/
theorem Sound.prelude_type (sound : Sound (Prelude.document :: ds)) {e : String × TypeEntry}
    (listed : e ∈ Prelude.types) :
    ∃ d, (declarationsOf (Prelude.document :: ds)).1.types.get? (Builtin.path e.1) = some d ∧
      d.kind = .native := by
  obtain ⟨d, place, found, read⟩ := sound.type_read (e := e) List.mem_cons_self listed
  have all : ∀ e ∈ Prelude.types, e.2 = Prelude.nativeType e.2.generics := by decide
  exact ⟨d, found, Site.typeDecl_native (all e listed) read⟩

/-- The name of a type of the prelude is neither an alias nor that of a struct. -/
theorem prelude_plain {maxDepth : Nat} {s : Store} (loaded : (load ds maxDepth).value = .ok s)
    {e : String × TypeEntry} (listed : e ∈ Prelude.types) :
    s.synonym? (Builtin.path e.1) = none ∧
      ∀ args, s.structOf? (.named (Builtin.path e.1) args) = none := by
  obtain ⟨sound, rfl⟩ := sound_of_load loaded
  obtain ⟨d, found, native⟩ := sound.prelude_type listed
  have type : (ofDocuments (Prelude.document :: ds) maxDepth).type? (Builtin.path e.1) = some d :=
    found
  constructor
  · simp [synonym?, type, native]
  · intro args
    simp [structOf?, Ty.path?, type, TypeDecl.isStruct, native]

end Store

/-! ### Traits that nobody has to implement -/

/-- True for a method that is always implemented outside the declarations. -/
def MethodEntry.isExternal (e : MethodEntry) : Bool :=
  match MethodSig.parse e.sig with
  | .ok sig => sig.tag = .external
  | .error _ => false

/-- What an impl without methods needs to agree with a trait of the prelude. -/
structure Prelude.Provides (t : TraitRef) (assoc : List (String × Ty)) (e : String × TraitEntry) :
    Prop where
  listed : e ∈ Prelude.traits
  path : t.path = Path.child preludeModule e.1
  args : t.args.length = e.2.generics.length
  constraints : t.assoc = []
  assoc : assoc.map (·.1) = e.2.assoc.map (·.1)
  once : (e.2.assoc.map (·.1)).Nodup
  external : ∀ m ∈ e.2.methods, m.isExternal = true

namespace Prelude

/-- A wrapper provides the trait of wrappers. -/
theorem provides_transparent (inner : Ty) :
    ∃ e, Provides (.plain Builtin.transparent []) [(Builtin.inner, inner)] e :=
  ⟨traits[4], by decide, rfl, rfl, rfl, rfl, by decide, by decide +kernel⟩

/-- A component provides the trait of its role. -/
theorem provides_capability {p : Ports} {decl : TypeDecl} {t : TraitRef}
    {assoc : List (String × Ty)} (provided : p.capability decl = .ok (t, assoc)) :
    ∃ e, Provides t assoc e := by
  unfold Ports.capability at provided
  split at provided
  · have source {item : Ty} : ∃ e, Provides (.plain Builtin.source []) [(Builtin.item, item)] e :=
      ⟨traits[5], by decide, rfl, rfl, rfl, rfl, by decide, by decide +kernel⟩
    split at provided
    · cases provided
      exact source
    · split at provided <;> cases provided
      exact source
  · split at provided <;> cases provided
    exact ⟨traits[6], by decide, rfl, rfl, rfl, rfl, by decide, by decide +kernel⟩
  · split at provided <;> cases provided
    exact ⟨traits[6], by decide, rfl, rfl, rfl, rfl, by decide, by decide +kernel⟩
  · split at provided <;> cases provided
    exact ⟨traits[7], by decide, rfl, rfl, rfl, rfl, by decide, by decide +kernel⟩

end Prelude

namespace ImplDecl

/-- An impl without methods agrees with a trait of which no method has to be given. -/
theorem implements_of_provides {d : ImplDecl} {t : TraitRef} {trait : TraitDecl}
    {e : String × TraitEntry} (provides : Prelude.Provides t d.assoc e)
    (reads : Site.ReadsTrait e.2 trait) (implements : d.traitRef = some t)
    (methods : d.methods = []) : d.Implements trait := by
  refine ⟨?_, fun name => ?_, ?_, ?_, fun m member default tag => ?_⟩
  · rw [traitArgs, implements, reads.generics]
    exact provides.args
  · rw [provides.assoc, reads.assoc]
  · exact provides.assoc ▸ provides.once
  · simp [methods]
  · obtain ⟨entry, listed, read⟩ := exists_of_forall₂ reads.methods member
    obtain ⟨parsed, params, ret, parses, -, same⟩ := read.sig
    have external := provides.external entry listed
    rw [MethodEntry.isExternal, parses] at external
    exact absurd (by simpa [same] using external) tag

end ImplDecl
end Pipeline
