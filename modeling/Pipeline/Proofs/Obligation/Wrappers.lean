import Pipeline.Proofs.Obligation.Origin
import Pipeline.Proofs.Store.Expansion
import Pipeline.Proofs.Store.Impls
import Pipeline.Proofs.Ty.Matching

/-!
# What wrappers wrap

Every wrapper has an impl of the trait of wrappers, written or made, and each impl of this trait
says of some instances of a wrapper what they wrap. An impl that is written for some instances
keeps the one from being made that would be for all. What an instance wraps is therefore found if
the wrapper has an impl for all instances and no other trait stands in for that of wrappers.
-/

set_option autoImplicit false
set_option relaxedAutoImplicit false

namespace Pipeline

open Noted

/-! ### Impls of the trait of wrappers -/

namespace ImplDecl

/-- An impl says of instances of a wrapper what they wrap. -/
structure Wraps (types : NameMap TypeDecl) (d : ImplDecl) (decl : TypeDecl) (inner : Ty) :
    Prop where
  declared : types.get? decl.path = some decl
  kind : decl.kind = .transparent inner
  target : d.target = .named decl.path d.target.args
  assoc : d.assoc? Builtin.inner = some (inner.substitute (decl.substFor d.target))

variable {types : NameMap TypeDecl} {d : ImplDecl}

theorem wraps_of_wrapperFaults (own : ∀ path decl, types.get? path = some decl → decl.path = path)
    {place : Location} (clean : d.wrapperFaults types place = []) :
    ∃ decl inner, d.Wraps types decl inner := by
  unfold wrapperFaults at clean
  split at clean
  · cases clean
  · rename_i wrapped found
    split at clean
    · rename_i given
      obtain ⟨decl, declared, found⟩ := Option.bind_eq_some_iff.mp found
      obtain ⟨path, named, declared⟩ := Option.bind_eq_some_iff.mp declared
      obtain rfl := own path decl declared
      split at found
      · rename_i inner kind
        cases found
        refine ⟨decl, inner, declared, kind, ?_, given⟩
        cases target : d.target with
        | named path args =>
          rw [target] at named
          cases named
          rfl
        | _ =>
          rw [target] at named
          cases named
      · cases found
    · cases clean

end ImplDecl

namespace PendingImpl

variable {p : PendingImpl} {types : NameMap TypeDecl} {written : TraitRef} {trait : TraitDecl}
  {d : ImplDecl}

/-- An impl of the trait of wrappers that is completed says what is wrapped. -/
theorem wrapperFaults_of_completeFor (clean : p.completeFor types written trait = pure d)
    (wrapper : written.path = Builtin.transparent) : d.wrapperFaults types p.place = [] := by
  have completes := completeFor_eq_pure clean
  unfold completeFor at clean
  dsimp only at clean
  split at clean
  · cases congrArg Noted.faults clean
  · split at clean
    · cases congrArg Noted.faults clean
    · obtain ⟨_, -, clean⟩ := bind_eq_pure.mp clean
      obtain ⟨methods, -, clean⟩ := bind_eq_pure.mp clean
      obtain ⟨_, -, clean⟩ := bind_eq_pure.mp clean
      obtain ⟨_, wraps, -⟩ := bind_eq_pure.mp clean
      rw [completes.result]
      exact note_eq_pure.mp wraps

theorem wrapperFaults_of_complete {context : Context} (clean : p.complete context = pure d)
    {t : TraitRef} (implements : d.traitRef = some t) (wrapper : t.path = Builtin.transparent) :
    d.wrapperFaults context.types p.place = [] := by
  unfold complete at clean
  split at clean
  · rename_i inherent
    cases congrArg Noted.value clean
    cases implements.symm.trans inherent
  · split at clean
    · cases congrArg Noted.faults clean
    · cases (completeFor_eq_pure clean).traitRef.symm.trans implements
      exact wrapperFaults_of_completeFor clean wrapper

end PendingImpl

/-! ### Every wrapper has one -/

namespace ImplDecl

variable {context : Context}

theorem isWritten_append {impls : List ImplDecl} {path trait : String}
    (written : isWritten impls path trait = true) (more : List ImplDecl) :
    isWritten (impls ++ more) path trait = true := by
  rw [isWritten, List.any_append]
  exact Bool.or_eq_true_iff.mpr (Or.inl written)

theorem isWritten_number (impls : List ImplDecl) (path trait : String) :
    isWritten (number impls) path trait = isWritten impls path trait := by
  have unnumbered : impls.zipIdx.map (·.1) = impls := List.zipIdx_map_fst 0 impls
  conv_rhs => rw [← unnumbered]
  rw [isWritten, isWritten, number, List.any_map, List.any_map]
  rfl

/-- Where no impl for a wrapper is written, one is made. -/
theorem isWritten_addWrappers {decl : TypeDecl} {inner : Ty} (kind : decl.kind = .transparent inner)
    {types : List TypeDecl} (member : decl ∈ types) (impls : List ImplDecl) :
    isWritten (addWrappers context impls types).value decl.path Builtin.transparent = true := by
  induction types generalizing impls with
  | nil => cases member
  | cons first rest ih =>
    rcases List.mem_cons.mp member with rfl | behind
    · obtain ⟨d, made, target, trait⟩ : ∃ d, ofWrapper? context decl = some d ∧
          d.target.path? = some decl.path ∧ d.traitRef.any (·.path == Builtin.transparent) = true :=
        ⟨_, by rw [ofWrapper?, kind], rfl, rfl⟩
      have kept {impls : List ImplDecl}
          (written : isWritten impls decl.path Builtin.transparent = true) :
          isWritten (addWrappers context impls rest).value decl.path Builtin.transparent = true := by
        obtain ⟨added, same, -⟩ := @addWrappers_eq context impls rest
        rw [same]
        exact isWritten_append written added
      unfold addWrappers
      rw [made]
      dsimp only
      split
      · rename_i written
        exact kept written
      · refine kept ?_
        simp [isWritten, target, trait]
    · unfold addWrappers
      split
      · exact ih behind impls
      · split
        · exact ih behind impls
        · exact ih behind _

end ImplDecl

/-- No component is a wrapper. -/
theorem Ports.capability_ne_transparent {p : Ports} {decl : TypeDecl} {t : TraitRef}
    {assoc : List (String × Ty)} (provided : p.capability decl = .ok (t, assoc)) :
    t.path ≠ Builtin.transparent := by
  unfold capability at provided
  repeat' split at provided
  all_goals cases provided
  all_goals simp only [TraitRef.plain]
  all_goals decide

namespace Store

variable {ds : List Document}

/-- Every impl of the trait of wrappers says what is wrapped. -/
theorem Sound.wraps (sound : Sound ds) {d : ImplDecl} (member : d ∈ (completedOf ds).1)
    {t : TraitRef} (implements : d.traitRef = some t) (wrapper : t.path = Builtin.transparent) :
    ∃ decl inner, d.Wraps (declarationsOf ds).1.types decl inner := by
  refine sound.impl_induction (motive := fun d => ∀ t, d.traitRef = some t →
    t.path = Builtin.transparent → ∃ decl inner, d.Wraps (declarationsOf ds).1.types decl inner)
    (fun d i holds t implements wrapper => ?_) ?_ ?_ ?_ member t implements wrapper
  · obtain ⟨decl, inner, wraps⟩ := holds t implements wrapper
    exact ⟨decl, inner, wraps.declared, wraps.kind, wraps.target, wraps.assoc⟩
  · intro p _ d done t implements wrapper
    exact ImplDecl.wraps_of_wrapperFaults (fun _ _ found => Declarations.types_path found)
      (PendingImpl.wrapperFaults_of_complete done implements wrapper)
  · rintro decl declared inner kind t ⟨⟩ -
    refine ⟨decl, inner, get?_type declared, kind, rfl, ?_⟩
    exact congrArg some (Ty.substitute_own (fun _ _ => Generic.assign_own) inner).symm
  · rintro p - decl t assoc - provided u ⟨⟩ wrapper
    exact absurd wrapper (Ports.capability_ne_transparent provided)

/-- Every wrapper has an impl of the trait of wrappers. -/
theorem Sound.exists_wrapper (sound : Sound ds) {decl : TypeDecl} {inner : Ty}
    (declared : decl ∈ (declarationsOf ds).1.types.values) (kind : decl.kind = .transparent inner) :
    ∃ d ∈ (completedOf ds).1, d.target.path? = some decl.path ∧
      ∃ t, d.traitRef = some t ∧ t.path = Builtin.transparent := by
  have once : ((declarationsOf ds).1.ports.map (·.path)).Nodup :=
    Declarations.ports_once (fun _ _ found => ModuleScope.ofDocuments_own found) sound.once
  have written : ImplDecl.isWritten (completedOf ds).1 decl.path Builtin.transparent = true := by
    rw [completedOf, ImplDecl.completeAll]
    simp only [Logged.value_bind, Logged.value_pure]
    rw [ImplDecl.addComponents_value (fun _ _ found => Declarations.types_path found) once,
      ImplDecl.isWritten_number]
    exact ImplDecl.isWritten_append (ImplDecl.isWritten_addWrappers kind declared _) _
  obtain ⟨d, member, of⟩ := List.any_eq_true.mp written
  simp only [Bool.and_eq_true, decide_eq_true_eq] at of
  refine ⟨d, member, of.1, ?_⟩
  cases implements : d.traitRef with
  | none => simp [implements] at of
  | some t => exact ⟨t, rfl, by simpa [implements] using of.2⟩

end Store

/-! ### Impls for all instances -/

/-- An impl for all instances of a declared type: different parameters are its arguments, and there
are no bounds. -/
structure ImplDecl.IsGeneral (d : ImplDecl) (decl : TypeDecl) : Prop where
  target : d.target = .named decl.path (d.target.params.map .param)
  distinct : d.target.params.Nodup
  all : d.target.params.length = decl.generics.length
  unbounded : d.bounds = []

instance (d : ImplDecl) (decl : TypeDecl) : Decidable (d.IsGeneral decl) :=
  decidable_of_iff (d.target = .named decl.path (d.target.params.map .param) ∧
      d.target.params.Nodup ∧ d.target.params.length = decl.generics.length ∧ d.bounds = [])
    ⟨fun ⟨target, distinct, all, unbounded⟩ => ⟨target, distinct, all, unbounded⟩,
      fun general => ⟨general.target, general.distinct, general.all, general.unbounded⟩⟩

namespace ImplDecl

private theorem eraseDups_of_nodup {names : List String} (distinct : names.Nodup) :
    names.eraseDups = names := by
  induction names with
  | nil => rfl
  | cons name rest ih =>
    obtain ⟨fresh, distinct⟩ := List.nodup_cons.mp distinct
    have kept : rest.filter (fun other => !other == name) = rest := by
      refine List.filter_eq_self.mpr fun other member => ?_
      have apart : other ≠ name := by
        rintro rfl
        exact fresh member
      simpa using apart
    rw [List.eraseDups_cons, kept, ih distinct]

private theorem paramsList_map_param (names : List String) :
    Ty.paramsList (names.map .param) = names := by
  induction names with
  | nil => rfl
  | cons name rest ih =>
    rw [List.map_cons, Ty.paramsList, ih]
    rfl

/-- Different parameters are told by their positions. -/
private theorem canonical_params {path : String} {names : List String} (distinct : names.Nodup) :
    canonical [.named path (names.map .param)] =
      [.named path ((List.range names.length).map fun i => .param ("$" ++ Text.natText i))] := by
  have order : (Ty.paramsList [.named path (names.map .param)]).eraseDups = names := by
    rw [Ty.paramsList, Ty.params, paramsList_map_param, Ty.paramsList, List.append_nil,
      eraseDups_of_nodup distinct]
  rw [canonical, order]
  simp only [Ty.replaceList, Ty.replace, Ty.replaceList_eq_map, List.map_map]
  congr 2
  refine List.ext_getElem (by simp) fun i inside _ => ?_
  rw [List.length_map] at inside
  simp only [List.getElem_map, Function.comp_apply, List.getElem_range]
  refine Ty.replace_of_some ?_
  dsimp only
  rw [distinct.idxOf_getElem i inside]

/-- Nothing tells two impls for all instances of a type apart. -/
theorem IsGeneral.clash {d e : ImplDecl} {decl : TypeDecl} (general : d.IsGeneral decl)
    (other : e.IsGeneral decl) {t u : TraitRef} (implements : d.traitRef = some t)
    (also : e.traitRef = some u) (path : t.path = u.path) (args : t.args = []) (none : u.args = []) :
    Clash d e := by
  have key {d : ImplDecl} {t : TraitRef} (general : d.IsGeneral decl)
      (implements : d.traitRef = some t) (args : t.args = []) :
      d.traitKey? = some (t.path, [.named decl.path
        ((List.range decl.generics.length).map fun i => .param ("$" ++ Text.natText i))]) := by
    have canonical := @canonical_params decl.path _ general.distinct
    rw [← general.target, general.all] at canonical
    simp only [traitKey?, implements, general.unbounded, args, canonical]
    rfl
  refine Or.inl ⟨?_, ?_⟩
  · rw [key general implements args]
    rfl
  · rw [key general implements args, key other also none, path]

end ImplDecl

namespace Store

variable {store : Store} {holds : Resolver} {origin : CandidateOrigin} {isConst : ImplDecl → Bool}

/-! ### The candidate for an instance -/

/-- An impl for all instances of a declared type is a candidate for each of them. -/
theorem candidate?_general {d : ImplDecl} {decl : TypeDecl} (general : d.IsGeneral decl)
    (own : d.target.Over (.own d.generics true)) (plain : store.synonym? decl.path = none)
    {args : List Ty} (arity : args.length = decl.generics.length) (known : ∀ t ∈ args, t ≠ .infer)
    {query : TraitRef} (none : query.args = []) (unconstrained : query.assoc = []) :
    ∃ c s, store.candidate? holds (.named decl.path args) query origin isConst (d, []) = some c ∧
      d.target.args.map (Ty.substitute s) = args ∧
      c.assoc = d.assoc.map fun a => (a.1, store.normalize (a.2.substitute s)) := by
  obtain ⟨target, distinct, all, unbounded⟩ := general
  generalize d.target.params = names at target distinct all
  have expanded : store.normalize d.target = .named decl.path (names.map .param) := by
    rw [target, normalize, normalizeTo_named plain, List.map_map]
    exact congrArg _ (List.map_congr_left fun name _ => normalizeTo_leaf rfl)
  have listed : ∀ name ∈ names, name ∈ Generic.names d.generics := by
    intro name member
    rw [target, Ty.over_named] at own
    have parameter := own.2 _ (List.mem_map_of_mem member)
    exact List.contains_iff_mem.mp (Ty.over_param.mp parameter)
  obtain ⟨s, fits, -, become⟩ := Ty.unifyAll_params (s := []) distinct listed
    (all.trans arity.symm) known fun _ _ => rfl
  have aligned : store.alignImpl? d [] (.named decl.path args) query = some s := by
    unfold alignImpl?
    dsimp only
    rw [expanded, Ty.unify, Ty.align, if_pos ⟨rfl, by rw [List.length_map, all, arity]⟩, none]
    rw [Ty.unifyAll] at fits
    rw [fits]
    rfl
  refine ⟨⟨some d.id, query.path, origin, s, isConst d,
    d.assoc.map fun a => (a.1, store.normalize (a.2.substitute s))⟩, s, ?_, ?_, rfl⟩
  · rw [candidate?, matchImpl, aligned]
    simp only [unconstrained, unbounded, Candidate.assocFits, boundsHold]
    rfl
  · rw [target]
    exact become

/-- An impl is for instances of another declared type than the one of a path. -/
def IsForOther (store : Store) (path : String) (d : ImplDecl) : Prop :=
  ∃ other ∈ d.target.path?, store.synonym? other = none ∧ other ≠ path

instance (store : Store) (path : String) (d : ImplDecl) : Decidable (store.IsForOther path d) :=
  inferInstanceAs (Decidable (∃ other ∈ d.target.path?, _))

/-- An impl for another declared type is no candidate. -/
theorem IsForOther.candidate? {d : ImplDecl} {path : String} (other : store.IsForOther path d)
    {args : List Ty} {query : TraitRef} {given : List Ty} :
    store.candidate? holds (.named path args) query origin isConst (d, given) = none := by
  obtain ⟨name, named, plain, apart⟩ := other
  have misfit : store.alignImpl? d given (.named path args) query = none := by
    cases target : d.target with
    | named first inner =>
      rw [target] at named
      cases named
      unfold alignImpl?
      dsimp only
      rw [target, normalize, normalizeTo_named plain, Ty.unify, Ty.align,
        if_neg (fun same => apart same.1)]
    | _ =>
      rw [target] at named
      cases named
  rw [Store.candidate?, matchImpl, misfit]
  rfl

private theorem filterMap_eq_singleton {α β : Type} {f : α → Option β} {l : List α} {a : α} {b : β}
    (apart : l.Pairwise fun x y => ¬ ((f x).isSome = true ∧ (f y).isSome = true)) (member : a ∈ l)
    (found : f a = some b) : l.filterMap f = [b] := by
  induction l with
  | nil => cases member
  | cons x rest ih =>
    obtain ⟨first, apart⟩ := List.pairwise_cons.mp apart
    rcases List.mem_cons.mp member with rfl | behind
    · have nothing : rest.filterMap f = [] := by
        refine List.filterMap_eq_nil_iff.mpr fun y inside => ?_
        have one := first y inside
        rw [found] at one
        simpa using one
      rw [List.filterMap_cons_some found, nothing]
    · have none : f x = none := by
        have one := first a behind
        rw [found] at one
        simpa using one
      rw [List.filterMap_cons_none none, ih apart behind]

/-- Where no impl of a trait that specializes it fits, nothing stands in for a trait. -/
theorem specialized_eq_nil {ty : Ty} {query : TraitRef} {traits : List TraitDecl}
    (none : ∀ trait ∈ traits, ∀ d ∈ store.implsOf trait.path, ∀ given,
      store.candidate? holds ty query (.specialization trait.path) (fun _ => true) (d, given) =
        none) :
    (store.specialized holds ty query traits).value = [] := by
  induction traits with
  | nil => rfl
  | cons trait rest ih =>
    rw [List.forall_mem_cons] at none
    cases given : trait.specialization with
    | none => simp [specialized, given, ih none.2]
    | some spec =>
      have nothing : (store.candidates holds ty query (.specialization trait.path) (fun _ => true)
          ((store.implsOf trait.path).map fun d =>
            (d, impliedArgs trait spec.target d.traitArgs))).value = [] := by
        rw [candidates_value, List.filterMap_map, List.filterMap_eq_nil_iff]
        exact fun d member => none.1 d member _
      simp [specialized, given, nothing, ih none.2]

/-- A wrapper is no alias. -/
theorem synonym?_wrapper {decl : TypeDecl} {inner : Ty} (declared : store.type? decl.path = some decl)
    (kind : decl.kind = .transparent inner) : store.synonym? decl.path = none := by
  simp [synonym?, declared, kind]

/-- Only an impl for a wrapper fits its instances, and there is none but that for all of them. -/
private theorem Sound.isGeneral_of_fits {ds : List Document} (sound : Sound ds) {maxDepth : Nat}
    {decl : TypeDecl}
    (general : ∀ d ∈ (ofDocuments ds maxDepth).implsOf Builtin.transparent,
      d.target.path? = some decl.path → d.IsGeneral decl)
    {d : ImplDecl} (listed : d ∈ (ofDocuments ds maxDepth).implsOf Builtin.transparent)
    {args given : List Ty} {query : TraitRef}
    (fits : ((ofDocuments ds maxDepth).candidate? holds (.named decl.path args) query origin isConst
      (d, given)).isSome = true) : d.IsGeneral decl := by
  obtain ⟨member, t, implements, wrapper⟩ := mem_implsOf.mp listed
  obtain ⟨other, inner, wraps⟩ := sound.wraps member implements wrapper
  have target : d.target.path? = some other.path := by rw [wraps.target]; rfl
  refine general d listed ?_
  by_contra apart
  have elsewhere : (ofDocuments ds maxDepth).IsForOther decl.path d :=
    ⟨other.path, target, synonym?_wrapper wraps.declared wraps.kind,
      fun same => apart (same ▸ target)⟩
  rw [elsewhere.candidate?] at fits
  cases fits

/-- What the candidate of an impl for a wrapper says is wrapped comes from the declaration. -/
private theorem Sound.assoc_wrapper {ds : List Document} (sound : Sound (Prelude.document :: ds))
    {maxDepth : Nat} {store : Store}
    (made : ofDocuments (Prelude.document :: ds) maxDepth = store) {decl : TypeDecl}
    (declared : store.type? decl.path = some decl) {inner : Ty}
    (kind : decl.kind = .transparent inner) {d : ImplDecl}
    (listed : d ∈ store.implsOf Builtin.transparent) (target : d.target.path? = some decl.path)
    {args : List Ty} (arity : args.length = decl.generics.length) {s : Subst}
    (become : d.target.args.map (Ty.substitute s) = args) {c : Candidate}
    (assoc : c.assoc = d.assoc.map fun a => (a.1, store.normalize (a.2.substitute s))) :
    c.assoc? Builtin.inner =
      some (store.normalize (inner.substitute (Generic.assign decl.generics args))) := by
  subst made
  obtain ⟨member, t, implements, wrapper⟩ := mem_implsOf.mp listed
  obtain ⟨other, otherInner, wraps⟩ := sound.wraps member implements wrapper
  rw [wraps.target] at target
  have path : other.path = decl.path := Option.some.inj target
  obtain rfl : other = decl := by
    have also := wraps.declared
    rw [path] at also
    exact Option.some.inj (also.symm.trans declared)
  cases wraps.kind.symm.trans kind
  have own := sound.type_known (NameMap.mem_values declared)
  simp only [TypeDecl.terms, TypeKind.terms, kind, Ty.allOver_append, Ty.allOver_cons] at own
  have length : d.target.args.length = other.generics.length := by
    rw [← List.length_map (Ty.substitute s), become, arity]
  have covers : Generic.Covers other.generics d.target.args inner :=
    covers_of_own (own.2.1.mono (Site.known_within_own _ _)) (Nat.le_of_eq length.symm)
  have assoc? : c.assoc? Builtin.inner = (d.assoc? Builtin.inner).map fun t =>
      (ofDocuments (Prelude.document :: ds) maxDepth).normalize (t.substitute s) := by
    rw [Candidate.assoc?, assoc, List.find?_map, ImplDecl.assoc?, Option.map_map, Option.map_map]
    rfl
  rw [assoc?, wraps.assoc, Option.map_some, TypeDecl.substFor, covers.substitute, become]

/-- The impl of a wrapper for all its instances is the one candidate for each of them. -/
private theorem Sound.ownCandidates_wrapper {ds : List Document}
    (sound : Sound (Prelude.document :: ds)) {maxDepth : Nat} {store : Store}
    (made : ofDocuments (Prelude.document :: ds) maxDepth = store) {decl : TypeDecl}
    (declared : store.type? decl.path = some decl) {inner : Ty}
    (kind : decl.kind = .transparent inner)
    (general : ∀ d ∈ store.implsOf Builtin.transparent, d.target.path? = some decl.path →
      d.IsGeneral decl)
    {args : List Ty} (arity : args.length = decl.generics.length) (known : ∀ t ∈ args, t ≠ .infer)
    (trait : TraitDecl) {query : TraitRef} (path : query.path = Builtin.transparent)
    (none : query.args = []) (unconstrained : query.assoc = []) :
    ∃ c, store.ownCandidates holds trait (.named decl.path args) query .direct
        (fun d => !d.isBlanket) = [c] ∧
      c.assoc? Builtin.inner =
        some (store.normalize (inner.substitute (Generic.assign decl.generics args))) := by
  subst made
  obtain ⟨own, found, -, -, reads⟩ := sound.prelude_trait (e := Prelude.traits[4]) (by decide)
  have argless {d : ImplDecl} (member : d ∈ (completedOf (Prelude.document :: ds)).1) {t : TraitRef}
      (implements : d.traitRef = some t) (wrapper : t.path = Builtin.transparent) : t.args = [] :=
    List.length_eq_zero_iff.mp
      ((sound.length_traitArgs member implements (wrapper ▸ found)).trans reads.generics)
  obtain ⟨d, member, target, t, implements, wrapper⟩ :=
    sound.exists_wrapper (NameMap.mem_values declared) kind
  have listed : d ∈ (ofDocuments (Prelude.document :: ds) maxDepth).implsOf Builtin.transparent :=
    mem_implsOf.mpr ⟨member, t, implements, wrapper⟩
  have all := general d listed target
  have given : d.traitArgs = [] := by
    rw [ImplDecl.traitArgs, implements]
    exact argless member implements wrapper
  obtain ⟨c, s, fits, become, assoc⟩ := @candidate?_general _ holds .direct
    (fun d => d.isConst || trait.specialization.isSome) d decl all (sound.target_own member)
    (synonym?_wrapper declared kind) args arity known query none unconstrained
  refine ⟨c, ?_, ?_⟩
  · rw [ownCandidates, candidates_value, List.filterMap_map, path]
    refine filterMap_eq_singleton (a := d) ?_ ?_ (by rw [Function.comp_apply, given]; exact fits)
    · -- Two impls that fit are both for all instances, so that they would clash.
      refine ((sound.apart.filter _).filter _).imp_of_mem fun {a b} first second apart both => ?_
      have first := List.mem_of_mem_filter first
      have second := List.mem_of_mem_filter second
      obtain ⟨memberA, ta, implementsA, pathA⟩ := mem_implsOf.mp first
      obtain ⟨memberB, tb, implementsB, pathB⟩ := mem_implsOf.mp second
      exact apart ((sound.isGeneral_of_fits general first both.1).clash
        (sound.isGeneral_of_fits general second both.2) implementsA implementsB
        (pathA.trans pathB.symm) (argless memberA implementsA pathA)
        (argless memberB implementsB pathB))
    · refine List.mem_filter.mpr ⟨listed, ?_⟩
      rw [ImplDecl.isBlanket, all.target]
      rfl
  · exact sound.assoc_wrapper rfl declared kind listed target arity become assoc

/-- What an instance of a wrapper wraps is found if the wrapper has an impl for all instances, and
no other, and nothing stands in for the trait of wrappers. -/
theorem project_wrapper (ds : List Document) (maxDepth : Nat) (positive : 0 < maxDepth) (s : Store)
    (loaded : (load ds maxDepth).value = .ok s) (decl : TypeDecl)
    (declared : s.type? decl.path = some decl) (inner : Ty) (kind : decl.kind = .transparent inner)
    (unspecialized : ∀ trait ∈ s.specializationsOf Builtin.transparent,
      ∀ d ∈ s.implsOf trait.path, s.IsForOther decl.path d)
    (general : ∀ d ∈ s.implsOf Builtin.transparent, d.target.path? = some decl.path →
      d.IsGeneral decl)
    (args : List Ty) (arity : args.length = decl.generics.length)
    (known : ∀ t ∈ args, s.normalize t ≠ .infer)
    (expands : s.Expands (s.maxDepth + 1) (inner.substitute (decl.substFor (.named decl.path args)))) :
    (s.project (.named decl.path args) Builtin.transparent Builtin.inner).value =
      some (s.normalize (inner.substitute (decl.substFor (.named decl.path args)))) := by
  obtain ⟨sound, made⟩ := sound_of_load loaded
  obtain ⟨depth, rfl⟩ := Nat.exists_eq_add_of_lt positive
  have limit : s.maxDepth = depth + 1 := by
    rw [← made, ofDocuments]
    dsimp only
    omega
  obtain ⟨trait, found, -, -, reads⟩ := sound.prelude_trait (e := Prelude.traits[4]) (by decide)
  have found : s.trait? Builtin.transparent = some trait := made ▸ found
  have parameterless : trait.generics = [] := List.length_eq_zero_iff.mp reads.generics
  have plain := synonym?_wrapper declared kind
  have ty : s.normalize (.named decl.path args) = .named decl.path (args.map s.normalize) :=
    normalizeTo_named plain args
  have query : (s.obligation trait (.named decl.path args) (.plain Builtin.transparent [])).traitRef =
      .plain Builtin.transparent [] := by
    simp only [obligation, TraitDecl.completeArgs, parameterless, TraitRef.plain]
    rfl
  have same := @resolve_value s (.named decl.path args) (.plain Builtin.transparent []) trait found
    depth limit
  rw [query, ty, select_value] at same
  have arity' : (args.map s.normalize).length = decl.generics.length := by
    rw [List.length_map, arity]
  obtain ⟨c, only, wraps⟩ := sound.ownCandidates_wrapper made declared kind general arity'
    (List.forall_mem_map.mpr known) trait (rfl : (TraitRef.plain Builtin.transparent []).path = _)
    rfl rfl
  have nothing : (s.specialized (s.resolveInside depth
      [s.obligation trait (.named decl.path args) (.plain Builtin.transparent [])])
      (.named decl.path (args.map s.normalize)) (.plain Builtin.transparent [])
      (s.specializationsOf (TraitRef.plain Builtin.transparent []).path)).value = [] :=
    specialized_eq_nil fun trait member d inside given =>
      (unspecialized trait member d inside).candidate?
  rw [only, nothing] at same
  rw [project, Logged.value_map, same]
  change c.assoc? Builtin.inner = _
  rw [wraps]
  exact congrArg some (expands.normalizeTo_args (Nat.le_refl _)).2

/-- An impl that says what instances of a wrapper wrap. -/
def wrapperImpl (target : String) (generics : List String) (inner : String) : ImplEntry where
  target := target
  traitRef := some "Transparent"
  generics := generics
  bounds := []
  assoc := [("Inner", inner)]
  methods := []
  isConst := false
  explain := none

/-- A document with two wrappers, one with an impl for all its instances and one with an impl for
instances around numbers alone, and with an alias. -/
def packaging : Document where
  module := "shop"
  origin := "shop"
  version := supportedVersion
  kind := .struct
  types := [("Box", ⟨["T"], [], [], some "Vec<T>", none, none⟩),
    ("Crate", ⟨["T"], [], [], some "T", none, none⟩),
    ("Name", ⟨[], [], [], none, some "String", none⟩)]
  impls := [wrapperImpl "Box<U>" ["U"] "Vec<U>", wrapperImpl "Crate<u8>" [] "u8"]

/-- A wrapper of the document. -/
def packagingDecl (name : String) (inner : Ty) : TypeDecl :=
  ⟨Path.child "shop" name, name, "shop", [⟨"T", .type, none⟩], .transparent inner, none, none⟩

/-- The wrapper with an impl for all its instances. -/
def boxDecl : TypeDecl := packagingDecl "Box" (.named Builtin.vec [.param "T"])

/-- The wrapper with an impl for some of its instances. -/
def crateDecl : TypeDecl := packagingDecl "Crate" (.param "T")

/-- What an instance of a wrapper of the document is found to wrap. -/
def packed (s : Store) (decl : TypeDecl) (arg : Ty) : Option Ty :=
  (s.project (.named decl.path [arg]) Builtin.transparent Builtin.inner).value

/-- Nothing but one impl for all boxes says what they wrap. -/
private def BoxesWrapped (s : Store) : Prop :=
  s.type? boxDecl.path = some boxDecl ∧
    (∀ trait ∈ s.specializationsOf Builtin.transparent, ∀ d ∈ s.implsOf trait.path,
      s.IsForOther boxDecl.path d) ∧
    ∀ d ∈ s.implsOf Builtin.transparent, d.target.path? = some boxDecl.path → d.IsGeneral boxDecl

private instance (s : Store) : Decidable (BoxesWrapped s) := inferInstanceAs (Decidable (_ ∧ _))

/-- Names are an alias of strings, and lists of them expand to lists of strings. -/
private def NamesExpand (s : Store) : Prop :=
  (s.synonym? "shop::Name").map (·.2) = some (.named Builtin.string []) ∧
    s.synonym? Builtin.vec = none ∧ s.synonym? Builtin.string = none ∧
    s.normalize (.named "shop::Name" []) ≠ .infer ∧
    s.normalize (.named Builtin.vec [.named "shop::Name" []]) =
      .named Builtin.vec [.named Builtin.string []]

private instance (s : Store) : Decidable (NamesExpand s) := inferInstanceAs (Decidable (_ ∧ _))

/-- Crates of numbers wrap numbers, crates of strings nothing. -/
private def CratesDiffer (s : Store) : Prop :=
  s.type? crateDecl.path = some crateDecl ∧
    packed s crateDecl (.named "std::u8" []) = some (.named "std::u8" []) ∧
    packed s crateDecl (.named Builtin.string []) = none

private instance (s : Store) : Decidable (CratesDiffer s) := inferInstanceAs (Decidable (_ ∧ _))

private theorem packaging_loads : ∃ s, (load [packaging] 4).value = .ok s ∧ BoxesWrapped s ∧
    NamesExpand s ∧ CratesDiffer s := by
  decide +kernel

/-- A box of names, an alias, wraps a list of strings. -/
theorem project_wrapper_box :
    ∃ s, (load [packaging] 4).value = .ok s ∧ s.type? boxDecl.path = some boxDecl ∧
      packed s boxDecl (.named "shop::Name" []) =
        some (.named Builtin.vec [.named Builtin.string []]) := by
  obtain ⟨s, loaded, ⟨declared, unspecialized, general⟩, names, -⟩ := packaging_loads
  obtain ⟨name, vec, string, known, expanded⟩ := names
  obtain ⟨⟨synonymDecl, target⟩, synonym, ⟨⟩⟩ := Option.map_eq_some_iff.mp name
  have expands : s.Expands (s.maxDepth + 1) (.named Builtin.vec [.named "shop::Name" []]) := by
    refine .named vec (List.forall_mem_singleton.mpr (.synonym synonym ?_ nofun ?_))
    · exact Ty.over_named.mpr ⟨rfl, nofun⟩
    · exact .named string nofun
  have wraps := project_wrapper _ 4 (by decide) s loaded boxDecl declared _ rfl unspecialized general
    [.named "shop::Name" []] rfl (List.forall_mem_singleton.mpr known) expands
  exact ⟨s, loaded, declared, wraps.trans (congrArg some expanded)⟩

/-- A crate of strings wraps nothing, where a crate of numbers does. -/
theorem crate_of_strings_opaque :
    ∃ s, (load [packaging] 4).value = .ok s ∧ s.type? crateDecl.path = some crateDecl ∧
      packed s crateDecl (.named "std::u8" []) = some (.named "std::u8" []) ∧
      packed s crateDecl (.named Builtin.string []) = none := by
  obtain ⟨s, loaded, -, -, crates⟩ := packaging_loads
  exact ⟨s, loaded, crates⟩

end Store
end Pipeline
