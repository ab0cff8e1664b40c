import Pipeline.Proofs.Store.WellFormed

/-!
# Impls without `Self`

An impl in a loaded store mentions no generic parameters but its own, and `Self` in its methods
has become its target. `Self` outside the methods stays as it is written: names are resolved there
and nothing is put in its place. What is known of an impl without any `Self` thus depends on its
text, and for the impls that nobody has to write on the texts of the types they are made for.
-/

set_option autoImplicit false
set_option relaxedAutoImplicit false

namespace Pipeline

open Noted

/-! ### Canonical impls -/

/-- The parameters of a declaration, with all types and traits. -/
def Vocabulary.own (generics : List Generic) (selfTy : Bool) : Vocabulary :=
  ⟨fun _ => true, fun _ => true, (Generic.names generics).contains, selfTy⟩

/-- An impl without `Self` and without parameters but its own. -/
def ImplDecl.Canonical (d : ImplDecl) : Prop :=
  Ty.AllOver (.own d.generics false) (d.heads ++ d.methods.flatMap (·.sig.terms))

instance (d : ImplDecl) : Decidable d.Canonical :=
  inferInstanceAs (Decidable (Ty.AllOver _ _))

/-- The number of an impl is no type in it. -/
theorem ImplDecl.Canonical.number {d : ImplDecl} (canonical : d.Canonical) (i : Nat) :
    ImplDecl.Canonical { d with id := i } := canonical

/-- Every default of the parameters of a trait mentions only parameters before its own. -/
def TraitDecl.LooksBack (d : TraitDecl) : Prop :=
  ∀ (i : Nat) (g : Generic) (t : Ty), d.generics[i]? = some g → g.default = some t →
    t.Over (.own (d.generics.take i) true)

theorem TraitDecl.looksBack_iff {d : TraitDecl} : d.LooksBack ↔
    ∀ i : Fin d.generics.length, ∀ t ∈ d.generics[i].default,
      t.Over (.own (d.generics.take i) true) := by
  refine ⟨fun back i t given => ?_, fun all i g t found given => ?_⟩
  · exact back i _ t (List.getElem?_eq_getElem i.isLt) given
  · obtain ⟨below, rfl⟩ := List.getElem?_eq_some_iff.mp found
    exact all ⟨i, below⟩ t given

instance (d : TraitDecl) : Decidable d.LooksBack := decidable_of_iff' _ TraitDecl.looksBack_iff

/-- The types that a document writes and that impls are made of which nobody has to write: those in
wrappers, and those that a component takes and gives. -/
def Document.provided (d : Document) : List Ty :=
  d.types.flatMap (fun e => e.2.inner.toList.flatMap Ty.written) ++
    (d.input.toList ++ d.output.toList ++ d.item.toList).flatMap Ty.written

theorem Vocabulary.params_own {generics : List Generic} {selfTy : Bool} :
    ∀ g ∈ generics, (own generics selfTy).params g.name = true := fun _ member =>
  List.contains_iff_mem.mpr (List.mem_map_of_mem member)

/-- All that is known of what is read holds of its parameters. -/
theorem Site.known_within_own (index : SymbolIndex) (generics : List Generic) :
    (Site.known index generics).Within (.own generics true) := by
  intro part admitted
  cases part with
  | named path args => rfl
  | promise path args assoc => rfl
  | _ => exact admitted

namespace Site

variable {site : Site} {place : Location} {name : String}

theorem Sees.own (grounded : site.scope.Grounded site.index) (generics : List Generic)
    (selfTy : Bool) : site.Sees (.own generics selfTy) :=
  ⟨grounded, fun _ _ => rfl, fun _ _ => rfl⟩

theorem typeDecl_module {e : TypeEntry} {t : TypeDecl}
    (found : (site.typeDecl place name e).value = some t) : t.module = site.module := by
  obtain ⟨generics, -, found⟩ := value_bind_eq_some.mp found
  split at found
  · cases found
  · obtain ⟨shape, -, found⟩ := value_bind_eq_some.mp found
    cases found
    rfl

/-- What a wrapper wraps is read from its text. -/
theorem typeDecl_inner {e : TypeEntry} {t : TypeDecl} {inner : Ty}
    (found : (site.typeDecl place name e).value = some t) (kind : t.kind = .transparent inner) :
    ∃ text place, e.inner = some text ∧
      ((site.inside t.generics).ty place text).value = some inner := by
  obtain ⟨generics, -, found⟩ := value_bind_eq_some.mp found
  split at found
  · cases found
  · obtain ⟨shape, readKind, found⟩ := value_bind_eq_some.mp found
    cases found
    subst kind
    unfold typeKind at readKind
    split at readKind
    · obtain ⟨fields, -, readKind⟩ := value_bind_eq_some.mp readKind
      cases readKind
    · split at readKind
      · split at readKind <;> cases readKind
      · cases given : e.inner with
        | some text =>
          rw [given] at readKind
          obtain ⟨u, read, same⟩ := value_bind_eq_some.mp readKind
          cases same
          exact ⟨text, _, rfl, read⟩
        | none =>
          rw [given] at readKind
          cases synonym : e.synonym with
          | none =>
            rw [synonym] at readKind
            cases readKind
          | some target =>
            rw [synonym] at readKind
            obtain ⟨u, -, same⟩ := value_bind_eq_some.mp readKind
            cases same

/-- What the types of a component are read from. -/
structure ReadsPorts (site : Site) (d : Document) (c : ComponentDecl) : Prop where
  input : ∃ place, ((site.inside c.decl.generics).optTy place d.input).value = some c.ports.input
  output : ∃ place, ((site.inside c.decl.generics).optTy place d.output).value = some c.ports.output
  item : ∃ place, ((site.inside c.decl.generics).optTy place d.item).value = some c.ports.item
  kind : ∀ inner, c.decl.kind ≠ .transparent inner
  module : c.decl.module = site.module

theorem component_reads {d : Document} {kind : ComponentKind} {c : ComponentDecl}
    (found : (site.component d kind).value = some c) : site.ReadsPorts d c := by
  obtain ⟨generics, -, found⟩ := value_bind_eq_some.mp found
  obtain ⟨input, readInput, found⟩ := value_bind_eq_some.mp found
  obtain ⟨output, readOutput, found⟩ := value_bind_eq_some.mp found
  obtain ⟨item, readItem, found⟩ := value_bind_eq_some.mp found
  obtain ⟨columns, -, found⟩ := value_bind_eq_some.mp found
  obtain ⟨columnChecks, -, found⟩ := value_bind_eq_some.mp found
  obtain ⟨params, -, found⟩ := value_bind_eq_some.mp found
  obtain ⟨checks, -, found⟩ := value_bind_eq_some.mp found
  cases found
  refine ⟨⟨_, readInput⟩, ⟨_, readOutput⟩, ⟨_, readItem⟩, fun inner => ?_, rfl⟩
  dsimp only [componentShape]
  split <;> nofun

end Site

namespace Store

variable {ds : List Document}

/-! ### Impls that are written -/

/-- A trait whose defaults look back puts nothing into an impl but its own parameters. -/
theorem Sound.puts_own (sound : Sound ds) {trait : TraitDecl}
    (member : trait ∈ (declarationsOf ds).1.traits.values) (looksBack : trait.LooksBack)
    (generics : List Generic) : PendingImpl.Puts trait (.own generics false) := by
  have known := (sound.trait_known member).mono (Site.known_within_own _ _)
  simp only [TraitDecl.terms, Ty.allOver_append, Ty.allOver_flatMap] at known
  have more {parameters : List Generic} :
      (Vocabulary.own parameters true).Within
        ((Vocabulary.own generics false).extended (Generic.names parameters)) := by
    intro part admitted
    cases part with
    | param name => exact Bool.or_eq_true_iff.mpr (Or.inr admitted)
    | _ => exact admitted
  exact ⟨fun i g t found default => (looksBack i g t found default).mono more,
    fun m inside => (known.1.2 m inside).mono more⟩

/-- An impl whose text mentions `Self` in its methods alone is canonical. -/
theorem Sound.complete_canonical (sound : Sound ds) {doc : Document} (among : doc ∈ ds)
    {e : ImplEntry} {place : Location} {p : PendingImpl} {d : ImplDecl}
    (read : ((siteOf ds doc).implDecl place e).value = some p)
    (done : p.complete (contextOf ds) = pure d)
    (looksBack : ∀ t ∈ d.traitRef, ∀ trait ∈ (declarationsOf ds).1.traits.get? t.path,
      trait.LooksBack)
    (spelled : Ty.AllOver (.written false) e.heads) : d.Canonical := by
  have reads := Site.implDecl_reads read
  have heads := reads.heads_over (Site.Sees.own (sound.grounded among) p.decl.generics false)
    Vocabulary.params_own spelled
  have methods := reads.methods_over (Site.Sees.own (sound.grounded among) p.decl.generics true)
    Vocabulary.params_own rfl
  rcases PendingImpl.complete_eq_pure done with ⟨-, rfl⟩ | ⟨written, trait, given, found, completes⟩
  · exact Ty.allOver_append.mpr
      ⟨heads, PendingImpl.closeMethods_over (heads _ List.mem_cons_self) methods⟩
  · have back := looksBack _ completes.traitRef trait found
    rw [ImplDecl.Canonical, completes.generics]
    exact completes.over given (sound.puts_own (NameMap.mem_values found) back _) heads methods

/-! ### Impls that nobody has to write -/

theorem asTy_own (decl : TypeDecl) (selfTy : Bool) :
    decl.asTy.Over (.own decl.generics selfTy) :=
  Ty.over_named.mpr ⟨rfl, List.forall_mem_map.mpr fun g member =>
    Ty.over_param.mpr (Vocabulary.params_own g member)⟩

/-- The declaration of a component stands under its path. -/
theorem Sound.component_read (sound : Sound ds) {doc : Document} (among : doc ∈ ds)
    {kind : ComponentKind} {c : ComponentDecl} (role : doc.componentKind? = some kind)
    (read : ((siteOf ds doc).component doc kind).value = some c) :
    (declarationsOf ds).1.types.get? c.ports.path = some c.decl := by
  have of := Site.component_of read
  rw [of.ports, ← of.decl]
  refine sound.type_entered among (List.mem_append_right _ ?_)
  simp [Site.declared, role, read]

/-- What a wrapper wraps mentions `Self` only if a document writes it. -/
theorem Sound.inner_own (sound : Sound ds) {decl : TypeDecl} {inner : Ty}
    (member : decl ∈ (declarationsOf ds).1.types.values) (kind : decl.kind = .transparent inner) :
    ∃ doc ∈ ds, doc.module = decl.module ∧ (Ty.AllOver (.written false) doc.provided →
      inner.Over (.own decl.generics false)) := by
  obtain ⟨doc, among, ⟨e, listed, place, read⟩ | ⟨role, c, -, read, rfl⟩⟩ :=
    sound.origin_type member
  · refine ⟨doc, among, ?_, fun spelled => ?_⟩
    · rw [Site.typeDecl_module read, siteOf_module]
    · obtain ⟨text, place, given, found⟩ := Site.typeDecl_inner read kind
      refine Site.ty_over ((Site.Sees.own (sound.grounded among) _ _).inside Vocabulary.params_own)
        ?_ found
      have written := Ty.allOver_flatMap.mp (Ty.allOver_append.mp spelled).1 e listed
      rw [given] at written
      exact Ty.allOver_flatMap.mp written text (List.mem_singleton_self text)
  · exact absurd kind ((Site.component_reads read).kind inner)

/-- What a component takes and gives mentions `Self` only if its document writes it. -/
theorem Sound.ports_own (sound : Sound ds) {p : Ports} {decl : TypeDecl}
    (port : p ∈ (declarationsOf ds).1.ports)
    (found : (declarationsOf ds).1.types.get? p.path = some decl) :
    ∃ doc ∈ ds, doc.module = decl.module ∧ (Ty.AllOver (.written false) doc.provided →
      Ty.AllOver (.own decl.generics false)
        (p.input.toList ++ p.output.toList ++ p.item.toList)) := by
  obtain ⟨doc, among, kind, c, role, read, rfl⟩ := sound.origin_ports port
  cases (sound.component_read among role read).symm.trans found
  have reads := Site.component_reads read
  refine ⟨doc, among, ?_, fun spelled => ?_⟩
  · rw [reads.module, siteOf_module]
  · have sees : (siteOf ds doc).Sees (.own c.decl.generics false) :=
      Site.Sees.own (sound.grounded among) _ _
    have inner := sees.inside Vocabulary.params_own
    simp only [Document.provided, Ty.allOver_append, List.flatMap_append] at spelled
    obtain ⟨-, ⟨input, output⟩, item⟩ := spelled
    obtain ⟨_, readInput⟩ := reads.input
    obtain ⟨_, readOutput⟩ := reads.output
    obtain ⟨_, readItem⟩ := reads.item
    simp only [Ty.allOver_append, Ty.allOver_toList]
    exact ⟨⟨Site.optTy_over inner input readInput, Site.optTy_over inner output readOutput⟩,
      Site.optTy_over inner item readItem⟩

/-- An impl that is made for a type is canonical if what it is made of is. -/
theorem synthesize_canonical {context : Context} {decl : TypeDecl} {t : TraitRef}
    {assoc : List (String × Ty)} {isConst : Bool}
    (args : Ty.AllOver (.own decl.generics false) t.args) (constraints : t.assoc = [])
    (types : Ty.AllOver (.own decl.generics false) (assoc.map (·.2))) :
    (ImplDecl.synthesize context decl t assoc isConst).Canonical := by
  have trait : t.asTy.Over (.own decl.generics false) :=
    Ty.over_promise.mpr ⟨rfl, args, by rw [constraints]; nofun⟩
  exact Ty.allOver_append.mpr
    ⟨ImplDecl.synthesize_over (asTy_own decl false) trait types, Ty.allOver_nil⟩

/-! ### All impls -/

/-- The defaults of the trait of an impl look back. -/
def LooksBackFor (s : Store) (d : ImplDecl) : Prop :=
  ∀ t ∈ d.traitRef, ∀ trait ∈ s.trait? t.path, trait.LooksBack

instance (s : Store) (d : ImplDecl) : Decidable (s.LooksBackFor d) :=
  inferInstanceAs (Decidable (∀ t ∈ d.traitRef, ∀ trait ∈ s.trait? t.path, trait.LooksBack))

/-- The impls of a loaded store are those of the documents, behind the ones of the prelude, and
those that nobody has to write. They are canonical as far as their texts are: an impl whose text
mentions `Self` in its methods alone mentions it nowhere. -/
theorem load_canonical (ds : List Document) (maxDepth : Nat) (s : Store)
    (loaded : (load ds maxDepth).value = .ok s) :
    (∀ i e, ((Prelude.document :: ds).flatMap (·.impls))[i]? = some e →
      ∃ d, s.impl? i = some d ∧ d.origin = .declared ∧
        (Ty.AllOver (.written false) e.heads → s.LooksBackFor d → d.Canonical)) ∧
    ∀ i d, ((Prelude.document :: ds).flatMap (·.impls)).length ≤ i → s.impl? i = some d →
      d.origin = .synthesized ∧ ∃ doc ∈ Prelude.document :: ds, doc.module = d.module ∧
        (Ty.AllOver (.written false) doc.provided → d.Canonical) := by
  obtain ⟨sound, rfl⟩ := sound_of_load loaded
  obtain ⟨written, wrappers, components, parts, impls⟩ := sound.parts
  have impl? (i : Nat) : (ofDocuments (Prelude.document :: ds) maxDepth).impl? i =
      (written ++ (wrappers ++ components))[i]?.map fun d => { d with id := i } := by
    rw [← ImplDecl.number_getElem?, ← impls]
    rfl
  refine ⟨fun i e listed => ?_, fun i d behind found => ?_⟩
  · obtain ⟨p, pending, doc, among, -, place, read⟩ := getElem?_of_forall₂ sound.impls_read listed
    obtain ⟨d, here, done⟩ := getElem?_of_forall₂ parts.written pending
    have below : i < written.length := (List.getElem?_eq_some_iff.mp here).1
    refine ⟨{ d with id := i }, ?_, ?_, fun spelled looksBack => ?_⟩
    · rw [impl?, List.getElem?_append_left below, here]
      rfl
    · have origin := (Site.implDecl_reads read).origin
      rcases PendingImpl.complete_eq_pure done with ⟨-, rfl⟩ | ⟨_, _, -, -, completes⟩
      · exact origin
      · rw [completes.result]
        exact origin
    · exact (sound.complete_canonical among read done looksBack spelled).number i
  · have length := sound.impls_read.length_eq.trans parts.written.length_eq
    rw [impl?, List.getElem?_append_right (length ▸ behind)] at found
    obtain ⟨d, here, rfl⟩ := Option.map_eq_some_iff.mp found
    rcases List.mem_append.mp (List.mem_of_getElem? here) with wrapper | component
    · obtain ⟨decl, declared, one⟩ := parts.wrappers d wrapper
      obtain ⟨inner, kind, rfl⟩ := ImplDecl.ofWrapper?_eq_some one
      obtain ⟨doc, among, module, own⟩ := sound.inner_own declared kind
      refine ⟨rfl, doc, among, module, fun spelled => ?_⟩
      exact (synthesize_canonical Ty.allOver_nil rfl
        (Ty.allOver_cons.mpr ⟨own spelled, Ty.allOver_nil⟩)).number i
    · obtain ⟨p, port, before, one⟩ := parts.components d component
      obtain ⟨decl, t, assoc, type, provided, rfl⟩ := ImplDecl.ofPorts?_eq_some one
      obtain ⟨e, provides⟩ := Prelude.provides_capability provided
      obtain ⟨doc, among, module, own⟩ := sound.ports_own port type
      refine ⟨rfl, doc, among, module, fun spelled => ?_⟩
      have all := own spelled
      simp only [Ty.allOver_append, Ty.allOver_toList] at all
      obtain ⟨args, types⟩ := ImplDecl.capability_over provided (asTy_own decl false)
        all.1.1 all.1.2 all.2
      exact (synthesize_canonical args provides.constraints types).number i

/-- A document with a type and an impl of equality for it. -/
def till (trait method : String) : Document where
  module := "shop"
  origin := "shop"
  version := supportedVersion
  kind := .struct
  types := [("Money", ⟨[], [("cents", .short "u64")], [], none, none, none⟩)]
  impls := [{
    target := "Money"
    traitRef := some trait
    generics := []
    bounds := []
    assoc := []
    methods := [(method, "self.cents == other.cents")]
    isConst := false
    explain := none }]

/-- `Self` in the signature of a method has become the type. -/
theorem load_canonical_till :
    ∃ s, (load [till "PartialEq" "fn eq(self, other: Self) -> bool"] 4).value = .ok s ∧
      ∃ d, s.impl? 17 = some d ∧ s.LooksBackFor d ∧ d.Canonical := by
  have made : (load [till "PartialEq" "fn eq(self, other: Self) -> bool"] 4).value.toOption.map
      (fun s => (s.impl? 17).map fun d => decide (s.LooksBackFor d)) = some (some true) := by
    decide +kernel
  obtain ⟨s, loaded, back⟩ := Option.map_eq_some_iff.mp made
  have loaded := ok_of_toOption loaded
  obtain ⟨d, found, -, canonical⟩ := (load_canonical _ 4 s loaded).1 17 _ rfl
  rw [found, Option.map_some, Option.some.injEq, decide_eq_true_eq] at back
  exact ⟨s, loaded, d, found, back, canonical (by decide +kernel) back⟩

/-- `Self` in the arguments of the trait stays, and the impl is not found, where the one with the
type spelled out is. -/
theorem till_self_stays :
    ∃ s s', (load [till "PartialEq<Self>" "eq"] 4).value = .ok s ∧
      (load [till "PartialEq<Money>" "eq"] 4).value = .ok s' ∧
      (∃ d, s.impl? 17 = some d ∧ ¬ d.Canonical) ∧
      (s.resolve (.named "shop::Money" []) (.plain "std::PartialEq" [])).value =
        .notImplemented ∧
      (s'.resolve (.named "shop::Money" []) (.plain "std::PartialEq" [])).value =
        .met ⟨some 17, "std::PartialEq", .direct, [], false, []⟩ := by
  have both : (load [till "PartialEq<Self>" "eq"] 4).value.toOption.map (fun s =>
      ((s.impl? 17).map fun d => decide d.Canonical,
        (s.resolve (.named "shop::Money" []) (.plain "std::PartialEq" [])).value)) =
      some (some false, .notImplemented) ∧
    (load [till "PartialEq<Money>" "eq"] 4).value.toOption.map (fun s =>
      (s.resolve (.named "shop::Money" []) (.plain "std::PartialEq" [])).value) =
      some (.met ⟨some 17, "std::PartialEq", .direct, [], false, []⟩) := by
    decide +kernel
  obtain ⟨s, loaded, facts⟩ := Option.map_eq_some_iff.mp both.1
  obtain ⟨s', loaded', found⟩ := Option.map_eq_some_iff.mp both.2
  obtain ⟨kept, missed⟩ := Prod.mk.inj facts
  obtain ⟨d, here, kept⟩ := Option.map_eq_some_iff.mp kept
  exact ⟨s, s', ok_of_toOption loaded, ok_of_toOption loaded',
    ⟨d, here, of_decide_eq_false kept⟩, missed, found⟩

end Store

end Pipeline
