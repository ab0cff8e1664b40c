import Pipeline.Proofs.Store.WellFormed
import Pipeline.Proofs.Ty.Substitution

/-!
# Signatures written out

A method of an impl of a trait is written by its name alone, and gets the signature of the trait with
the target and the associated types of the impl put in; or its signature is written out, in which only
the target is put in. Documents that differ in this alone make stores that differ in the signatures of
these methods alone, and the signatures are the same unless the trait mentions one of its associated
types in them.
-/

set_option autoImplicit false
set_option relaxedAutoImplicit false

namespace Pipeline

/-! ### Replacing in two ways -/

namespace Ty

variable {f g : Ty → Option Ty} {kind : Ty → Bool}

/-- Two ways to replace parts of types come to different things for the parts of a kind; other parts
they leave to their own parts, or replace by the same without coming to a part of the kind. -/
structure Differ (f g : Ty → Option Ty) (kind : Ty → Bool) : Prop where
  other : ∀ part, kind part = true → part.replace f ≠ part.replace g
  same : ∀ part, kind part = false →
    f part = none ∧ g part = none ∨ part.replace f = part.replace g ∧ part.Without kind

theorem Without.outermost {t : Ty} (without : t.Without kind) : kind t = false := by
  unfold Without anyPart at without
  exact (Bool.or_eq_false_iff.mp without).1

/-- Two ways to replace come to the same exactly for types without the parts that they differ on. -/
theorem Differ.replace_eq_iff (differ : Differ f g kind) (t : Ty) :
    t.replace f = t.replace g ↔ t.Without kind := by
  have step {t : Ty} (inside : kind t = false → f t = none → g t = none →
      (t.replace f = t.replace g ↔ t.Without kind)) : t.replace f = t.replace g ↔ t.Without kind := by
    cases here : kind t with
    | true =>
      refine iff_of_false (differ.other t here) fun without => ?_
      cases here.symm.trans without.outermost
    | false =>
      rcases differ.same t here with ⟨keeps, keeps'⟩ | ⟨same, without⟩
      · exact inside here keeps keeps'
      · exact iff_of_true same without
  induction t using inductionOn with
  | named path args ih =>
    refine step fun here keeps keeps' => ?_
    rw [Ty.replace, Ty.replace, keeps, keeps', without_named, replaceList_eq_map, replaceList_eq_map]
    simp only [named.injEq, true_and, here, List.map_inj_left]
    exact forall₂_congr ih
  | fn params ret ihs ih =>
    refine step fun here keeps keeps' => ?_
    rw [Ty.replace, Ty.replace, keeps, keeps', without_fn, replaceList_eq_map, replaceList_eq_map]
    simp only [fn.injEq, true_and, here, List.map_inj_left]
    exact and_congr (forall₂_congr ihs) ih
  | promise path args assoc ihs ihc =>
    refine step fun here keeps keeps' => ?_
    rw [Ty.replace, Ty.replace, keeps, keeps', without_promise, replaceList_eq_map,
      replaceList_eq_map, replaceAssoc_eq_map, replaceAssoc_eq_map]
    simp only [promise.injEq, true_and, here, List.map_inj_left, Prod.mk.injEq]
    exact and_congr (forall₂_congr ihs) (forall₂_congr ihc)
  | projection base name ih =>
    refine step fun here keeps keeps' => ?_
    rw [Ty.replace, Ty.replace, keeps, keeps', without_projection]
    simp only [projection.injEq, and_true, true_and, here]
    exact ih
  | param | const | selfTy | infer | unit =>
    refine step fun here keeps keeps' => ?_
    rw [replace_leaf rfl keeps, replace_leaf rfl keeps', without_leaf rfl]
    exact iff_of_true rfl here

end Ty

/-- Two ways to replace come to the same signature exactly if they do for all its types. -/
theorem MethodSig.replace_eq_iff (f g : Ty → Option Ty) (s : MethodSig) :
    s.replace f = s.replace g ↔ ∀ t ∈ s.terms, t.replace f = t.replace g := by
  rw [MethodSig.terms, List.forall_mem_append, List.forall_mem_map, List.forall_mem_singleton]
  simp only [MethodSig.replace, MethodSig.mk.injEq, true_and, List.map_inj_left, Prod.mk.injEq]

/-- True for `Self::A` where an impl gives another type for the associated type `A`. -/
def ImplDecl.givesOther (d : ImplDecl) : Ty → Bool
  | .projection .selfTy name => (d.assoc? name).any (· ≠ .projection d.target name)
  | _ => false

/-- The signature of a trait without parameters is the same for an impl as the one that is written
out, unless it mentions an associated type that the impl gives another type for. -/
theorem ImplDecl.closeSig_eq_sigOfTrait_iff (d : ImplDecl) (sig : MethodSig) :
    Site.closeSig d.target sig = d.sigOfTrait [] sig ↔ ∀ t ∈ sig.terms, t.Without d.givesOther := by
  rw [Site.closeSig, sigOfTrait, MethodSig.replace_eq_iff]
  refine forall₂_congr fun t _ => Ty.Differ.replace_eq_iff ⟨fun part other => ?_, fun part same => ?_⟩ t
  · unfold givesOther at other
    split at other
    · rename_i name
      cases given : d.assoc? name with
      | none => simp [given] at other
      | some t =>
        have another : t ≠ .projection d.target name := by simpa [given] using other
        exact fun same => another (same.trans (Ty.replace_of_some given)).symm
    · cases other
  · cases part with
    | projection base name =>
      cases base with
      | selfTy =>
        refine Or.inr ⟨?_, Ty.without_projection.mpr ⟨same, (Ty.without_leaf rfl).mpr rfl⟩⟩
        cases given : d.assoc? name with
        | none => simp [Ty.replace, given]
        | some t =>
          have itself : t = .projection d.target name := by simpa [givesOther, given] using same
          exact itself.symm.trans (Ty.replace_of_some given).symm
      | _ => exact Or.inl ⟨rfl, rfl⟩
    | selfTy => exact Or.inr ⟨rfl, (Ty.without_leaf rfl).mpr rfl⟩
    | _ => exact Or.inl ⟨rfl, rfl⟩

/-! ### Documents with methods under other keys -/

/-- The same impl with its methods under other keys. -/
def ImplEntry.Rekeyed (e e' : ImplEntry) : Prop :=
  ∃ methods, methods.map (·.2) = e.methods.map (·.2) ∧ e' = { e with methods := methods }

/-- The same document with methods of its impls under other keys. -/
def Document.Rekeyed (d d' : Document) : Prop :=
  ∃ impls, List.Forall₂ ImplEntry.Rekeyed d.impls impls ∧ d' = { d with impls := impls }

theorem ImplEntry.rekeyed_refl (e : ImplEntry) : e.Rekeyed e := ⟨e.methods, rfl, rfl⟩

theorem Document.rekeyed_refl (d : Document) : d.Rekeyed d :=
  ⟨d.impls, List.forall₂_same.mpr fun e _ => e.rekeyed_refl, rfl⟩

namespace Store

variable {ds ds' : List Document}

/-- The names that documents declare are not those of methods. -/
theorem namesOf_rekeyed (all : List.Forall₂ Document.Rekeyed ds ds') : namesOf ds' = namesOf ds := by
  suffices ∀ n : Names, (n.addDocuments ds').1 = (n.addDocuments ds).1 from this _
  induction all with
  | nil => exact fun n => rfl
  | cons one _ ih =>
    obtain ⟨impls, -, rfl⟩ := one
    exact fun n => ih _

theorem siteOf_rekeyed (all : List.Forall₂ Document.Rekeyed ds ds') {d d' : Document}
    (one : d.Rekeyed d') : siteOf ds' d' = siteOf ds d := by
  obtain ⟨impls, -, rfl⟩ := one
  rw [siteOf, siteOf, namesOf_rekeyed all]
  rfl

/-- Impls are completed with the same declarations. -/
theorem contextOf_rekeyed (all : List.Forall₂ Document.Rekeyed ds ds') (sound : Sound ds)
    (sound' : Sound ds') : contextOf ds' = contextOf ds := by
  have each {α : Type} (entries : Declared → List α)
      (apart : ∀ read impls, entries { read with impls := impls } = entries read) :
      (ds'.map fun d => (siteOf ds' d).declared d).flatMap entries =
        (ds.map fun d => (siteOf ds d).declared d).flatMap entries := by
    rw [List.flatMap_map, List.flatMap_map, List.flatMap_def, List.flatMap_def]
    refine congrArg _ (map_eq_of_forall₂ all fun d d' one => ?_)
    rw [siteOf_rekeyed all one]
    obtain ⟨impls, -, rfl⟩ := one
    exact apart ((siteOf ds d).declared d) _
  rw [contextOf, contextOf, sound.declarations_eq, sound'.declarations_eq, Declarations.foldl_add,
    Declarations.foldl_add, namesOf_rekeyed all]
  dsimp only
  rw [each Declared.typeEntries fun _ _ => rfl, each Declared.traitEntries fun _ _ => rfl]

private theorem forall₂_zipIdx {α β : Type} {R : α → β → Prop} {xs : List α} {ys : List β}
    (all : List.Forall₂ R xs ys) (n : Nat) :
    List.Forall₂ (fun x y => R x.1 y.1 ∧ y.2 = x.2) (xs.zipIdx n) (ys.zipIdx n) := by
  induction all generalizing n with
  | nil => exact .nil
  | cons one _ ih => exact .cons ⟨one, rfl⟩ (ih (n + 1))

/-- The same impls stand at the same places. -/
theorem writtenImpls_rekeyed (all : List.Forall₂ Document.Rekeyed ds ds') :
    List.Forall₂ (fun w w' => w'.site = w.site ∧ w'.place = w.place ∧ w.entry.Rekeyed w'.entry)
      (writtenImpls ds) (writtenImpls ds') := by
  refine List.rel_flatMap all fun d d' one => ?_
  rw [siteOf_rekeyed all one]
  obtain ⟨impls, each, rfl⟩ := one
  refine List.forall₂_map_left_iff.mpr (List.forall₂_map_right_iff.mpr ?_)
  exact (forall₂_zipIdx each 0).imp fun e e' one => ⟨rfl, by rw [one.2]; rfl, one.1⟩

/-- Where an impl is read from, and what it is completed to. -/
theorem Sound.impl?_written (sound : Sound ds) (maxDepth : Nat) {i : Nat} {w : WrittenImpl}
    (listed : (writtenImpls ds)[i]? = some w) :
    ∃ p d, (w.site.implDecl w.place w.entry).value = some p ∧ p.complete (contextOf ds) = pure d ∧
      (ofDocuments ds maxDepth).impl? i = some { d with id := i } := by
  obtain ⟨written, wrappers, components, parts, impls⟩ := sound.parts
  obtain ⟨p, pending, read⟩ := getElem?_of_forall₂ sound.impls_placed listed
  obtain ⟨d, here, done⟩ := getElem?_of_forall₂ parts.written pending
  refine ⟨p, d, read, done, ?_⟩
  have below : i < written.length := (List.getElem?_eq_some_iff.mp here).1
  change (completedOf ds).1[i]? = _
  rw [impls, ImplDecl.number_getElem?, List.getElem?_append_left below, here]
  rfl

/-- The methods of an impl are all that its keys have a part in. -/
theorem implDecl_rekeyed {site : Site} {place : Location} {e e' : ImplEntry} {p p' : PendingImpl}
    (rekeyed : e.Rekeyed e') (read : (site.implDecl place e).value = some p)
    (read' : (site.implDecl place e').value = some p') :
    p'.place = p.place ∧ p'.decl = { p.decl with methods := p'.decl.methods } := by
  obtain ⟨methods, -, rfl⟩ := rekeyed
  obtain ⟨⟨generics, inline⟩, readGenerics, read⟩ := Noted.value_bind_eq_some.mp read
  obtain ⟨generics', readGenerics', read'⟩ := Noted.value_bind_eq_some.mp read'
  cases readGenerics.symm.trans readGenerics'
  obtain ⟨target, readTarget, read⟩ := Noted.value_bind_eq_some.mp read
  obtain ⟨target', readTarget', read'⟩ := Noted.value_bind_eq_some.mp read'
  cases readTarget.symm.trans readTarget'
  obtain ⟨traitRef, readTrait, read⟩ := Noted.value_bind_eq_some.mp read
  obtain ⟨traitRef', readTrait', read'⟩ := Noted.value_bind_eq_some.mp read'
  cases readTrait.symm.trans readTrait'
  obtain ⟨bounds, readBounds, read⟩ := Noted.value_bind_eq_some.mp read
  obtain ⟨bounds', readBounds', read'⟩ := Noted.value_bind_eq_some.mp read'
  cases readBounds.symm.trans readBounds'
  split at read
  · cases read
  · rename_i named
    rw [if_neg named] at read'
    obtain ⟨assoc, readAssoc, read⟩ := Noted.value_bind_eq_some.mp read
    obtain ⟨assoc', readAssoc', read'⟩ := Noted.value_bind_eq_some.mp read'
    cases readAssoc.symm.trans readAssoc'
    obtain ⟨own, -, read⟩ := Noted.value_bind_eq_some.mp read
    obtain ⟨own', -, read'⟩ := Noted.value_bind_eq_some.mp read'
    cases read
    cases read'
    exact ⟨rfl, rfl⟩

/-- Impls that differ in their methods are completed for one trait, and differ in their methods then. -/
theorem completesFor_rekeyed {context : Context} {p p' : PendingImpl} {d d' : ImplDecl}
    (decl : p'.decl = { p.decl with methods := p'.decl.methods }) (done : p.complete context = pure d)
    (done' : p'.complete context = pure d') {t : TraitRef} (implements : d.traitRef = some t) :
    ∃ written trait, p.decl.traitRef = some written ∧ p'.decl.traitRef = some written ∧
      context.traits.get? t.path = some trait ∧ p.CompletesFor written trait d ∧
        p'.CompletesFor written trait d' ∧ d' = { d with methods := d'.methods } := by
  rcases PendingImpl.complete_eq_pure done with ⟨none, rfl⟩ | ⟨written, trait, given, known, completes⟩
  · cases none.symm.trans implements
  have given' : p'.decl.traitRef = some written := by rw [decl, given]
  rcases PendingImpl.complete_eq_pure done' with
    ⟨none, -⟩ | ⟨written', trait', given₂, known', completes'⟩
  · cases none.symm.trans given'
  cases given₂.symm.trans given'
  cases known'.symm.trans known
  cases completes.traitRef.symm.trans implements
  refine ⟨written, trait, given, given', known, completes, completes', ?_⟩
  rw [completes'.result, completes.result, PendingImpl.headed, decl]
  rfl

/-! ### Methods under their names and under signatures -/

/-- Where a text stands decides nothing but the place of its faults. -/
theorem signature_value (site : Site) (place place' : Location) (text : String) :
    (site.signature place text).value = (site.signature place' text).value := by
  ext sig
  simp only [Site.signature, Site.resolve, Noted.value_bind_eq_some, Noted.value_ofExcept_eq_some,
    Noted.value_mapM_eq_some, Noted.value_pure]

variable {site : Site} {place : Location} {e : ImplEntry} {p : PendingImpl} {written : TraitRef}
  {trait : TraitDecl} {d : ImplDecl} {k : Nat}

/-- A method under its name gets the signature of the trait. -/
theorem CompletesFor.sig_of_name (reads : site.ReadsImpl place e p)
    (given : p.decl.traitRef = some written) (completes : p.CompletesFor written trait d)
    {name body : String} (bare : e.methods[k]? = some (name, body))
    (unsigned : Site.isSignature name = false) {method : TraitMethod}
    (own : trait.method? name = some method) :
    ∃ m, d.methods[k]? = some m ∧
      m.sig = d.sigOfTrait (trait.substFor d.traitArgs) method.sig := by
  obtain ⟨m₀, here, readSig⟩ := getElem?_of_forall₂ (Site.implMethods_reads reads.methods).1 bare
  obtain ⟨m, there, done⟩ := getElem?_of_forall₂ completes.methods here
  rw [Site.implSignature, unsigned, given] at readSig
  have named : m₀.sig.name = name := by
    rw [← Option.some.inj readSig]
    rfl
  refine ⟨m, there, ?_⟩
  obtain ⟨declared, found, -, ⟨-, sig⟩ | ⟨whole, -⟩⟩ := ImplDecl.completeMethod_eq_pure done
  · rw [named, own] at found
    cases found
    rw [sig, completes.result]
    rfl
  · have listed : name ∈ p.unsigned := by
      rw [reads.unsigned]
      refine List.mem_filter.mpr ⟨?_, by rw [unsigned]; rfl⟩
      exact List.mem_map_of_mem (List.mem_of_getElem? bare)
    rw [named, List.contains_iff_mem.mpr listed] at whole
    cases whole

/-- A method whose signature is written out keeps it, with the target for `Self`. -/
theorem CompletesFor.sig_of_text (reads : site.ReadsImpl place e p)
    (given : p.decl.traitRef = some written) (completes : p.CompletesFor written trait d)
    {key body : String} (whole : e.methods[k]? = some (key, body))
    (signed : Site.isSignature key = true) {place' : Location} {sig : MethodSig}
    (readSig : ((site.inside p.decl.generics).signature place' key).value = some sig) :
    ∃ m, d.methods[k]? = some m ∧ m.sig = Site.closeSig d.target sig := by
  obtain ⟨each, once, -⟩ := Site.implMethods_reads reads.methods
  obtain ⟨m₀, here, readSig'⟩ := getElem?_of_forall₂ each whole
  obtain ⟨m, there, done⟩ := getElem?_of_forall₂ completes.methods here
  rw [Site.implSignature, signed, if_pos rfl, signature_value _ _ place', readSig] at readSig'
  cases readSig'
  refine ⟨m, there, ?_⟩
  obtain ⟨declared, found, -, ⟨bare, -⟩ | ⟨-, -, sig⟩⟩ := ImplDecl.completeMethod_eq_pure done
  · -- A method under the same name alone would be a second one of its name.
    rw [reads.unsigned, List.contains_iff_mem, List.mem_filter] at bare
    obtain ⟨among, unsigned⟩ := bare
    obtain ⟨entry, inside, named⟩ := List.mem_map.mp among
    obtain ⟨j, listed⟩ := List.mem_iff_getElem?.mp inside
    obtain ⟨m₁, other, readName⟩ := getElem?_of_forall₂ each listed
    rw [Site.implSignature, named, if_neg (by simpa using unsigned), given] at readName
    have same : m₁.sig.name = m₀.sig.name := by
      rw [← Option.some.inj readName]
      rfl
    have below : j < (p.decl.methods.map (·.sig.name)).length := by
      rw [List.length_map]
      exact (List.getElem?_eq_some_iff.mp other).1
    obtain rfl : j = k := by
      refine (List.getElem?_inj below once).mp ?_
      rw [List.getElem?_map, List.getElem?_map, other, here, Option.map_some, Option.map_some, same]
    rw [whole] at listed
    cases listed
    rw [← named, signed] at unsigned
    cases unsigned
  · rw [sig, completes.result]

/-! ### Loaded stores -/

/-- A text is read as a signature where an impl of a store stands. -/
def ReadsSignature (s : Store) (d : ImplDecl) (text : String) (sig : MethodSig) : Prop :=
  ∃ scope ∈ s.scope? d.module, (Site.signature ⟨scope, s.index, Generic.names d.generics⟩
    (Location.ofDocument d.document) text).value = some sig

instance (s : Store) (d : ImplDecl) (text : String) (sig : MethodSig) :
    Decidable (s.ReadsSignature d text sig) :=
  inferInstanceAs (Decidable (∃ _ ∈ _, _))

/-- What is seen where an impl is written is told by the store. -/
theorem Sound.readsSignature (sound : Sound ds) {maxDepth : Nat} {w : WrittenImpl}
    (inside : w ∈ writtenImpls ds) {d : ImplDecl} (module : d.module = w.site.module) {text : String}
    {sig : MethodSig} (reads : (ofDocuments ds maxDepth).ReadsSignature d text sig) :
    ((w.site.inside d.generics).signature (Location.ofDocument d.document) text).value = some sig := by
  obtain ⟨doc, member, inside⟩ := List.mem_flatMap.mp inside
  obtain ⟨e, listed, rfl⟩ := List.mem_map.mp inside
  obtain ⟨scope, found, read⟩ := reads
  rw [module, siteOf_module] at found
  cases (sound.scope member).symm.trans found
  exact read

/-- Documents that differ in the keys of methods make stores that differ in the signatures of methods.
Where a method of an impl of a trait without parameters is once under its name and once under a text
that is read there as the signature of the trait, its signatures are the same exactly if that of the
trait mentions no associated type of `Self` that the impl gives another type for. -/
theorem signature_written_out (ds ds' : List Document)
    (rekeyed : List.Forall₂ Document.Rekeyed ds ds') (maxDepth : Nat) (s s' : Store)
    (loaded : (load ds maxDepth).value = .ok s) (loaded' : (load ds' maxDepth).value = .ok s')
    (i k : Nat) (e e' : ImplEntry)
    (listed : ((Prelude.document :: ds).flatMap (·.impls))[i]? = some e)
    (listed' : ((Prelude.document :: ds').flatMap (·.impls))[i]? = some e')
    (name key body body' : String) (bare : e.methods[k]? = some (name, body))
    (unsigned : Site.isSignature name = false) (whole : e'.methods[k]? = some (key, body'))
    (signed : Site.isSignature key = true) (d d' : ImplDecl) (found : s.impl? i = some d)
    (found' : s'.impl? i = some d') (t : TraitRef) (implements : d.traitRef = some t)
    (trait : TraitDecl) (declared : s.trait? t.path = some trait) (plain : trait.generics = [])
    (method : TraitMethod) (own : trait.method? name = some method)
    (reads : s'.ReadsSignature d' key method.sig) :
    d' = { d with methods := d'.methods } ∧
      ∃ m m', d.methods[k]? = some m ∧ d'.methods[k]? = some m' ∧
        (m'.sig = m.sig ↔ ∀ t ∈ method.sig.terms, t.Without d.givesOther) := by
  obtain ⟨sound, rfl⟩ := sound_of_load loaded
  obtain ⟨sound', rfl⟩ := sound_of_load loaded'
  have all : List.Forall₂ Document.Rekeyed (Prelude.document :: ds) (Prelude.document :: ds') :=
    .cons (Document.rekeyed_refl _) rekeyed
  rw [← map_entry_writtenImpls, List.getElem?_map] at listed listed'
  obtain ⟨w, here, rfl⟩ := Option.map_eq_some_iff.mp listed
  obtain ⟨w', here', rfl⟩ := Option.map_eq_some_iff.mp listed'
  obtain ⟨_, there, site, place, entry⟩ := getElem?_of_forall₂ (writtenImpls_rekeyed all) here
  cases there.symm.trans here'
  obtain ⟨p, c, read, done, made⟩ := sound.impl?_written maxDepth here
  obtain ⟨p', c', read', done', made'⟩ := sound'.impl?_written maxDepth here'
  cases made.symm.trans found
  cases made'.symm.trans found'
  rw [contextOf_rekeyed all sound sound'] at done'
  rw [site, place] at read'
  have decl := (implDecl_rekeyed entry read read').2
  obtain ⟨written, trait₀, given, given', known, completes, completes', same⟩ :=
    completesFor_rekeyed decl done done' implements
  cases known.symm.trans declared
  have readsImpl := Site.implDecl_reads read
  have module : c'.module = w'.site.module := by
    rw [same, completes.result, site]
    exact readsImpl.module
  have readSig := sound'.readsSignature (List.mem_of_getElem? here') (d := { c' with id := i }) module
    reads
  rw [show ({ c' with id := i } : ImplDecl).generics = p'.decl.generics from completes'.generics,
    site] at readSig
  obtain ⟨m, there, sig⟩ := CompletesFor.sig_of_name readsImpl given completes bare unsigned own
  obtain ⟨m', there', sig'⟩ := CompletesFor.sig_of_text (Site.implDecl_reads read') given' completes'
    whole signed readSig
  have none : trait.substFor c.traitArgs = [] := by
    rw [TraitDecl.substFor, plain]
    rfl
  refine ⟨by rw [same], m, m', there, there', ?_⟩
  rw [sig, sig', none, show c'.target = c.target by rw [same]]
  exact c.closeSig_eq_sigOfTrait_iff method.sig

/-- A document with a trait that has an associated type, and with an impl of it whose methods stand
under the keys. -/
def tray (same take : String) : Document where
  module := "shop"
  origin := "shop"
  version := supportedVersion
  kind := .struct
  types := [("Tray", ⟨[], [("cents", .short "u64")], [], none, none, none⟩)]
  traits := [("Holds", ⟨[], [("Item", none)],
    [⟨"const fn same(self, other: Self) -> bool", none⟩, ⟨"const fn take(self) -> Self::Item", none⟩],
    none, none⟩)]
  impls := [{
    target := "Tray"
    traitRef := some "Holds"
    generics := []
    bounds := []
    assoc := [("Item", "u64")]
    methods := [(same, "extern"), (take, "self.cents")]
    isConst := false
    explain := none }]

private theorem tray_rekeyed (same take same' take' : String) :
    (tray same take).Rekeyed (tray same' take') :=
  ⟨(tray same' take').impls,
    .cons ⟨[(same', "extern"), (take', "self.cents")], rfl, rfl⟩ .nil, rfl⟩

/-- A method of the trait, with `Self` in the place of the type. -/
def sameSig : MethodSig :=
  ⟨"same", .const, true, [("other", .selfTy)], .named Builtin.bool []⟩

/-- A method of the trait, with an associated type of `Self`. -/
def takeSig : MethodSig := ⟨"take", .const, true, [], .projection .selfTy "Item"⟩

/-- An impl of the trait, which has no parameters and declares a method of a signature. -/
def Declares (s : Store) (d : ImplDecl) (sig : MethodSig) : Prop :=
  d.traitRef = some (.plain "shop::Holds" []) ∧ ∃ trait ∈ s.trait? "shop::Holds",
    trait.generics = [] ∧ ∃ method ∈ trait.method? sig.name, method.sig = sig

instance (s : Store) (d : ImplDecl) (sig : MethodSig) : Decidable (Declares s d sig) :=
  inferInstanceAs (Decidable (_ ∧ _))

private theorem tray_load : (∃ s, (load [tray "same" "take"] 4).value = .ok s ∧
      ∃ d ∈ s.impl? 17, Declares s d sameSig ∧ ∀ t ∈ sameSig.terms, t.Without d.givesOther) ∧
    ∃ s, (load [tray "const fn same(self, other: Self) -> bool" "take"] 4).value = .ok s ∧
      ∃ d ∈ s.impl? 17, s.ReadsSignature d "const fn same(self, other: Self) -> bool" sameSig := by
  decide +kernel

/-- A signature without associated types may be written out. -/
theorem signature_written_out_tray : ∃ s s' d d' m m', (load [tray "same" "take"] 4).value = .ok s ∧
    (load [tray "const fn same(self, other: Self) -> bool" "take"] 4).value = .ok s' ∧
    s.impl? 17 = some d ∧ s'.impl? 17 = some d' ∧ d.methods[0]? = some m ∧
    d'.methods[0]? = some m' ∧ m'.sig = m.sig := by
  obtain ⟨⟨s, loaded, d, found, ⟨implements, trait, declared, plain, method, own, sig⟩, without⟩,
    s', loaded', d', found', reads⟩ := tray_load
  have rekeyed : List.Forall₂ Document.Rekeyed [tray "same" "take"]
      [tray "const fn same(self, other: Self) -> bool" "take"] := .cons (tray_rekeyed _ _ _ _) .nil
  obtain ⟨-, m, m', here, here', same⟩ := signature_written_out _ _ rekeyed 4 s s' loaded loaded' 17 0
    _ _ rfl rfl _ _ _ _ rfl (by decide) rfl (by decide) d d' found found' _ implements trait declared
    plain method own (sig ▸ reads)
  exact ⟨s, s', d, d', m, m', loaded, loaded', found, found', here, here', same.mpr (sig ▸ without)⟩

/-- Two methods of one signature return an associated type, one of them as the type that it is and
the other as the one of the target. -/
def TakesDiffer (d d' : ImplDecl) : Prop :=
  ∃ m ∈ d.methods[1]?, ∃ m' ∈ d'.methods[1]?, m.sig.ret = .named "std::u64" [] ∧
    m'.sig.ret = .projection (.named "shop::Tray" []) "Item"

private instance (d d' : ImplDecl) : Decidable (TakesDiffer d d') :=
  inferInstanceAs (Decidable (∃ _ ∈ _, _))

/-- In a signature that is written out, an associated type stays one of the target, where the name of
the method alone gives the type itself. -/
theorem tray_take_differs : ∃ s, (load [tray "same" "take"] 4).value = .ok s ∧
    ∃ s', (load [tray "same" "const fn take(self) -> Self::Item"] 4).value = .ok s' ∧
      ∃ d ∈ s.impl? 17, ∃ d' ∈ s'.impl? 17, Declares s d takeSig ∧
        s'.ReadsSignature d' "const fn take(self) -> Self::Item" takeSig ∧ TakesDiffer d d' := by
  decide +kernel

end Store
end Pipeline
