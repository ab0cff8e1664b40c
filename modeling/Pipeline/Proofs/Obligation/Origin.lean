import Pipeline.Proofs.Obligation.Renumbering

/-!
# Where candidates come from

A candidate tells by its origin in which tier it was found. One that is found through a trait which
specializes the trait asked for stands for an impl of the specializing trait.
-/

set_option autoImplicit false
set_option relaxedAutoImplicit false

namespace Pipeline

/-- The candidates that a resolution is about. -/
def Resolution.candidates : Resolution → List Candidate
  | met c => [c]
  | ambiguous cs => cs
  | notImplemented => []

namespace Store

variable {store : Store} {holds : Resolver} {ty : Ty} {query : TraitRef} {c : Candidate}

theorem mem_implsOf {path : String} {d : ImplDecl} :
    d ∈ store.implsOf path ↔ d ∈ store.impls ∧ ∃ t, d.traitRef = some t ∧ t.path = path := by
  rw [implsOf, List.mem_filter]
  cases d.traitRef <;> simp

/-- The resolution of an obligation that is inside no other. -/
theorem resolve_value {ty : Ty} {t : TraitRef} {trait : TraitDecl}
    (declared : store.trait? t.path = some trait) {depth : Nat} (limit : store.maxDepth = depth + 1) :
    (store.resolve ty t).value =
      (store.select (store.resolveInside depth [store.obligation trait ty t]) trait
        (store.normalize ty) (store.obligation trait ty t).traitRef).value := by
  have inside : (store.resolve ty t).value = (store.resolveInside store.maxDepth [] ty t).value := rfl
  rw [inside, limit, resolveInside, declared]
  dsimp only
  rw [if_neg (by simp)]
  rfl

theorem mem_candidates {origin : CandidateOrigin} {isConst : ImplDecl → Bool}
    {items : List (ImplDecl × List Ty)}
    (member : c ∈ (store.candidates holds ty query origin isConst items).value) :
    c.origin = origin ∧ ∃ p ∈ items, c.implId = some p.1.id := by
  rw [candidates_value] at member
  obtain ⟨p, inside, found⟩ := List.mem_filterMap.mp member
  obtain ⟨m, -, rfl⟩ := Option.map_eq_some_iff.mp found
  exact ⟨rfl, p, inside, rfl⟩

/-- A candidate stands for an impl of the trait that its origin names. -/
def Stands (store : Store) (c : Candidate) (trait : TraitDecl) : Prop :=
  c.origin = .specialization trait.path ∧ ∃ d ∈ store.implsOf trait.path, c.implId = some d.id

theorem mem_specialized {traits : List TraitDecl}
    (member : c ∈ (store.specialized holds ty query traits).value) :
    ∃ trait ∈ traits, store.Stands c trait := by
  induction traits with
  | nil => cases member
  | cons trait rest ih =>
    have later (behind : c ∈ (store.specialized holds ty query rest).value) :
        ∃ other ∈ trait :: rest, store.Stands c other :=
      let ⟨other, among, stands⟩ := ih behind
      ⟨other, List.mem_cons_of_mem _ among, stands⟩
    cases given : trait.specialization with
    | none =>
      simp only [specialized, given] at member
      exact later member
    | some spec =>
      simp only [specialized, given, Logged.value_bind, Logged.value_pure, List.mem_append] at member
      rcases member with here | behind
      · obtain ⟨origin, p, inside, id⟩ := mem_candidates here
        obtain ⟨d, own, rfl⟩ := List.mem_map.mp inside
        exact ⟨trait, List.mem_cons_self, origin, d, own, id⟩
      · exact later behind

theorem candidates_ofTier (cs : List Candidate) :
    ((Resolution.ofTier cs).getD .notImplemented).candidates = cs := by
  match cs with
  | [] => rfl
  | [_] => rfl
  | _ :: _ :: _ => rfl

theorem candidates_firstTier (derived direct blanket : List Candidate) :
    (firstTier derived direct blanket).candidates =
      if derived = [] then if direct = [] then blanket else direct else derived := by
  match derived, direct with
  | [], [] => exact candidates_ofTier blanket
  | [], c :: rest =>
    have tier := candidates_ofTier (c :: rest)
    cases rest <;> exact tier
  | c :: rest, direct =>
    have tier := candidates_ofTier (c :: rest)
    cases rest <;> exact tier

/-- Every candidate of a resolution by tiers is in one of them. -/
theorem mem_candidates_firstTier {derived direct blanket : List Candidate}
    (member : c ∈ (firstTier derived direct blanket).candidates) :
    c ∈ derived ∨ c ∈ direct ∨ c ∈ blanket := by
  rw [candidates_firstTier] at member
  split at member
  · split at member
    · exact Or.inr (Or.inr member)
    · exact Or.inr (Or.inl member)
  · exact Or.inl member

theorem mem_of_firstTier {derived direct blanket : List Candidate}
    (found : firstTier derived direct blanket = .met c) :
    c ∈ derived ∨ c ∈ direct ∨ c ∈ blanket := by
  refine mem_candidates_firstTier ?_
  rw [found]
  exact List.mem_singleton_self c

theorem select_specialization {trait : TraitDecl} {via : String}
    (found : (store.select holds trait ty query).value = .met c)
    (origin : c.origin = .specialization via) :
    ∃ special ∈ store.specializationsOf query.path, store.Stands c special := by
  rw [select_value] at found
  cases promised : store.promisedBy? ty query with
  | some p =>
    rw [promised] at found
    cases found
    cases origin.symm.trans (promisedBy?_origin promised).2
  | none =>
    rw [promised, Option.map_none, Option.getD_none] at found
    rcases mem_of_firstTier found with derived | direct | blanket
    · exact mem_specialized derived
    · cases origin.symm.trans (mem_candidates direct).1
    · cases origin.symm.trans (mem_candidates blanket).1

/-- What specialization brings about comes from an impl of a specializing trait. -/
theorem resolve_specialization {t : TraitRef} {via : String}
    (found : (store.resolve ty t).value = .met c) (origin : c.origin = .specialization via) :
    ∃ special ∈ store.specializationsOf t.path, store.Stands c special := by
  have inside : (store.resolveInside store.maxDepth [] ty t).value = .met c := found
  unfold resolveInside at inside
  cases declared : store.trait? t.path with
  | none =>
    rw [declared] at inside
    cases inside
  | some trait =>
    simp only [declared] at inside
    split at inside
    · cases inside
    · rw [if_neg (by simp)] at inside
      have stands := select_specialization inside origin
      exact stands

end Store
end Pipeline
