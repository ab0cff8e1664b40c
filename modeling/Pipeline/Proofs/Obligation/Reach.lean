import Mathlib.Logic.Relation
import Pipeline.Proofs.Obligation.Derivation
import Pipeline.Proofs.Obligation.Renumbering

/-!
# What lies below an obligation

An obligation gives rise to the bounds of the impls that apply to it. Its resolution depends on the
obligations it is nested in only where these come up again below it.
-/

set_option autoImplicit false
set_option relaxedAutoImplicit false

namespace Pipeline.Store

/-- An impl that applies to the first obligation has a bound that asks for the second one. -/
def GivesRise (store : Store) (o o' : Obligation) : Prop :=
  ∃ d args s, store.Presents o.traitRef.path d args ∧ store.Applies d args o s ∧
    ∃ b ∈ d.bounds, store.Asks (b.ty.substitute s) (b.traitRef.substitute s) o'

/-- Two resolvers answer alike for the bounds of all impls that apply to an obligation. -/
def AlikeBelow (store : Store) (o : Obligation) (holds holds' : Resolver) : Prop :=
  ∀ d args s, store.Presents o.traitRef.path d args → store.Applies d args o s → ∀ b ∈ d.bounds,
    (holds (b.ty.substitute s) (b.traitRef.substitute s)).value =
      (holds' (b.ty.substitute s) (b.traitRef.substitute s)).value

variable {store : Store} {holds holds' : Resolver} {o o' : Obligation}

/-- What comes up below an obligation asks for the trait of a bound. -/
theorem path_of_transGen (below : Relation.TransGen store.GivesRise o o') :
    ∃ d ∈ store.impls, ∃ b ∈ d.bounds, o'.traitRef.path = b.traitRef.path := by
  have last {first : Obligation} (step : store.GivesRise first o') :
      ∃ d ∈ store.impls, ∃ b ∈ d.bounds, o'.traitRef.path = b.traitRef.path := by
    obtain ⟨d, args, s, presents, -, b, member, trait, -, rfl⟩ := step
    exact ⟨d, presents.mem_impls, b, member, rfl⟩
  cases below with
  | single step => exact last step
  | tail _ step => exact last step

/-! ### One step of the search -/

theorem boundsHold_congr {s s' : Subst} {bounds : List Bound}
    (alike : ∀ b ∈ bounds, (holds (b.ty.substitute s) (b.traitRef.substitute s)).value =
      (holds' (b.ty.substitute s') (b.traitRef.substitute s')).value) :
    (boundsHold holds s bounds).value = (boundsHold holds' s' bounds).value := by
  induction bounds with
  | nil => rfl
  | cons b rest ih =>
    rw [List.forall_mem_cons] at alike
    simp only [boundsHold, Logged.value_bind, alike.1]
    split
    · exact ih alike.2
    · rfl

/-- What it takes for an impl to match. -/
theorem matchImpl_eq_some {d : ImplDecl} {args : List Ty} {s : Subst} {assoc : List (String × Ty)} :
    (store.matchImpl holds d args o.ty o.traitRef).value = some (s, assoc) ↔
      store.Applies d args o s ∧ (boundsHold holds s d.bounds).value = true ∧
        assoc = d.assoc.map fun a => (a.1, store.normalize (a.2.substitute s)) := by
  unfold matchImpl
  cases aligned : store.alignImpl? d args o.ty o.traitRef with
  | none =>
    constructor
    · nofun
    · rintro ⟨applies, -, -⟩
      cases aligned.symm.trans (alignImpl_iff.mpr applies.form)
  | some s' =>
    have form_iff : store.Applies d args o s ↔ s' = s ∧ Candidate.assocFits
        (d.assoc.map fun a => (a.1, store.normalize (a.2.substitute s'))) o.traitRef.assoc = true := by
      constructor
      · intro applies
        obtain rfl := Option.some.inj (aligned.symm.trans (alignImpl_iff.mpr applies.form))
        exact ⟨rfl, applies.assoc⟩
      · rintro ⟨rfl, assoc⟩
        exact ⟨alignImpl_iff.mp aligned, assoc⟩
    rw [form_iff]
    dsimp only
    by_cases fits : Candidate.assocFits
      (d.assoc.map fun a => (a.1, store.normalize (a.2.substitute s'))) o.traitRef.assoc = true
    · rw [if_neg (by simp [fits]), Logged.value_bind]
      cases checked : (boundsHold holds s' d.bounds).value with
      | true =>
        constructor
        · intro found
          cases found
          exact ⟨⟨rfl, fits⟩, checked, rfl⟩
        · rintro ⟨⟨rfl, -⟩, -, rfl⟩
          rfl
      | false =>
        constructor
        · nofun
        · rintro ⟨⟨rfl, -⟩, true_bounds, -⟩
          cases checked.symm.trans true_bounds
    · rw [if_pos (by simpa using fits)]
      constructor
      · nofun
      · exact fun found => absurd found.1.2 fits

private theorem candidate?_congr (alike : store.AlikeBelow o holds holds')
    (origin : CandidateOrigin) (isConst : ImplDecl → Bool) {d : ImplDecl} {args : List Ty}
    (presents : store.Presents o.traitRef.path d args) :
    store.candidate? holds o.ty o.traitRef origin isConst (d, args) =
      store.candidate? holds' o.ty o.traitRef origin isConst (d, args) := by
  have same : (store.matchImpl holds d args o.ty o.traitRef).value =
      (store.matchImpl holds' d args o.ty o.traitRef).value := by
    ext ⟨s, assoc⟩
    rw [matchImpl_eq_some, matchImpl_eq_some]
    refine and_congr_right fun applies => ?_
    rw [boundsHold_congr (alike d args s presents applies)]
  rw [candidate?, same, candidate?]

private theorem ownCandidates_congr (alike : store.AlikeBelow o holds holds') (trait : TraitDecl)
    (origin : CandidateOrigin) (kept : ImplDecl → Bool) :
    store.ownCandidates holds trait o.ty o.traitRef origin kept =
      store.ownCandidates holds' trait o.ty o.traitRef origin kept := by
  rw [ownCandidates, ownCandidates, candidates_value, candidates_value]
  refine List.filterMap_congr fun p member => ?_
  obtain ⟨d, inside, rfl⟩ := List.mem_map.mp member
  exact candidate?_congr alike _ _ (.own (List.mem_of_mem_filter inside))

private theorem specialized_congr (alike : store.AlikeBelow o holds holds') {traits : List TraitDecl}
    (among : ∀ trait ∈ traits, trait ∈ store.specializationsOf o.traitRef.path) :
    (store.specialized holds o.ty o.traitRef traits).value =
      (store.specialized holds' o.ty o.traitRef traits).value := by
  induction traits with
  | nil => rfl
  | cons trait rest ih =>
    rw [List.forall_mem_cons] at among
    cases given : trait.specialization with
    | none =>
      simp only [specialized, given, Logged.value_bind, Logged.value_pure, ih among.2]
    | some spec =>
      simp only [specialized, given, Logged.value_bind, Logged.value_pure, ih among.2,
        candidates_value]
      refine congrArg (· ++ _) (List.filterMap_congr fun p member => ?_)
      obtain ⟨d, inside, rfl⟩ := List.mem_map.mp member
      exact candidate?_congr alike _ _ (.specialized among.1 given inside)

theorem select_congr (alike : store.AlikeBelow o holds holds') (trait : TraitDecl) :
    (store.select holds trait o.ty o.traitRef).value =
      (store.select holds' trait o.ty o.traitRef).value := by
  rw [select_value, select_value, specialized_congr alike fun _ member => member,
    ownCandidates_congr alike, ownCandidates_congr alike]

/-! ### The whole search -/

/-- Two stacks hold the same of what lies below an obligation, itself included. -/
def SameStack (store : Store) (o : Obligation) (stack stack' : List Obligation) : Prop :=
  ∀ o', Relation.ReflTransGen store.GivesRise o o' → (o' ∈ stack ↔ o' ∈ stack')

/-- Only those of the enclosing obligations count that come up again. -/
theorem resolveInside_congr {depth : Nat} {stack stack' : List Obligation} {ty : Ty} {t : TraitRef}
    (same : ∀ o, store.Asks ty t o → store.SameStack o stack stack') :
    (store.resolveInside depth stack ty t).value = (store.resolveInside depth stack' ty t).value := by
  induction depth generalizing stack stack' ty t with
  | zero => cases declared : store.trait? t.path <;> simp [resolveInside, declared]
  | succ depth ih =>
    cases declared : store.trait? t.path with
    | none => simp [resolveInside, declared]
    | some trait =>
      have here := same _ ⟨trait, declared, rfl⟩
      have alike : store.AlikeBelow (store.obligation trait ty t)
          (store.resolveInside depth (store.obligation trait ty t :: stack))
          (store.resolveInside depth (store.obligation trait ty t :: stack')) := by
        intro d args s presents applies b member
        -- Both stacks grow by the same obligation, and go on to agree on what is below the bound.
        refine ih fun o' asks o'' below => ?_
        have again := here o'' (.head ⟨d, args, s, presents, applies, b, member, asks⟩ below)
        rw [List.mem_cons, List.mem_cons, again]
      have cyclic := here _ .refl
      by_cases listed : store.obligation trait ty t ∈ stack
      · simp [resolveInside, declared, listed, cyclic.mp listed]
      · simp [resolveInside, declared, listed, cyclic.not.mp listed, select_congr alike]

/-! ### The depth limit -/

/-- The search for an obligation inside others ends within a depth: each of its branches comes to an
obligation that gives rise to no other, or again to one that it is nested in. -/
inductive EndsWithin (store : Store) : Nat → List Obligation → Obligation → Prop
  | again {n : Nat} {stack : List Obligation} {o : Obligation} : o ∈ stack →
      EndsWithin store n stack o
  | deeper {n : Nat} {stack : List Obligation} {o : Obligation} :
      (∀ o', store.GivesRise o o' → EndsWithin store n (o :: stack) o') →
      EndsWithin store (n + 1) stack o

/-- A limit that the search does not come to makes no difference. -/
theorem EndsWithin.resolveInside_eq {n depth depth' : Nat} {stack : List Obligation} {ty : Ty}
    {t : TraitRef} (ends : store.EndsWithin n stack o) (asks : store.Asks ty t o) (le : n ≤ depth)
    (le' : n ≤ depth') :
    (store.resolveInside depth stack ty t).value = (store.resolveInside depth' stack ty t).value := by
  induction ends generalizing depth depth' ty t with
  | @again n stack o listed =>
    obtain ⟨trait, declared, rfl⟩ := asks
    -- Whether it is the limit or the stack that ends the search, nothing is found.
    have abandoned (depth : Nat) : (store.resolveInside depth stack ty t).value = .notImplemented := by
      cases depth <;> simp [resolveInside, declared, listed]
    rw [abandoned, abandoned]
  | @deeper n stack o below ih =>
    obtain ⟨trait, declared, rfl⟩ := asks
    obtain ⟨depth, rfl⟩ := Nat.exists_eq_add_of_le' le
    obtain ⟨depth', rfl⟩ := Nat.exists_eq_add_of_le' le'
    have alike : store.AlikeBelow (store.obligation trait ty t)
        (store.resolveInside (depth + n) (store.obligation trait ty t :: stack))
        (store.resolveInside (depth' + n) (store.obligation trait ty t :: stack)) := by
      intro d args s presents applies b member
      cases found : store.trait? (b.traitRef.substitute s).path with
      | none => cases n <;> simp [resolveInside, found]
      | some trait' =>
        have asks' : store.Asks (b.ty.substitute s) (b.traitRef.substitute s) _ :=
          ⟨trait', found, rfl⟩
        exact ih _ ⟨d, args, s, presents, applies, b, member, asks'⟩ asks'
          (Nat.le_add_left n depth) (Nat.le_add_left n depth')
    by_cases listed : store.obligation trait ty t ∈ stack
    · simp [← Nat.add_assoc, resolveInside, declared, listed]
    · simp [← Nat.add_assoc, resolveInside, declared, listed, select_congr alike]

end Pipeline.Store
