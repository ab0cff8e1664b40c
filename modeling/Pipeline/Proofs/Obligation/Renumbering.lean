import Mathlib.Data.List.Perm.Basic
import Mathlib.Logic.Equiv.Defs
import Pipeline.Obligation.Resolve

/-!
# Impls in another order

The impls of a store are numbered by their positions. A store with the same impls in another order
resolves obligations in the same way, up to the numbers and to the order in which equally good
candidates are listed: every tier is the same collection of candidates.
-/

set_option autoImplicit false
set_option relaxedAutoImplicit false

namespace Pipeline

/-- An impl with another number. -/
def ImplDecl.renumber (σ : Nat → Nat) (d : ImplDecl) : ImplDecl := { d with id := σ d.id }

/-- A candidate with other numbers of impls. -/
def Candidate.renumber (σ : Nat → Nat) (c : Candidate) : Candidate :=
  { c with implId := c.implId.map σ }

/-- Resolutions that are the same but for the numbers of impls and the order of candidates. -/
inductive Resolution.Renumbered (σ : Nat → Nat) : Resolution → Resolution → Prop
  | met (c : Candidate) : Renumbered σ (.met c) (.met (c.renumber σ))
  | ambiguous {cs cs' : List Candidate} (perm : (cs.map (·.renumber σ)).Perm cs') :
      Renumbered σ (.ambiguous cs) (.ambiguous cs')
  | notImplemented : Renumbered σ .notImplemented .notImplemented

namespace Store

/-- The store with other impls. -/
def withImpls (store : Store) (impls : List ImplDecl) : Store := { store with impls := impls }

/-- The impls of a store in another order, each under the number that `σ` gives to its own. -/
structure Reorders (store : Store) (σ : Equiv.Perm Nat) (impls : List ImplDecl) : Prop where
  perm : (store.impls.map (·.renumber σ)).Perm impls
  impl? : ∀ i, impls[σ i]? = (store.impls[i]?).map (·.renumber σ)

variable {store : Store} {σ : Equiv.Perm Nat} {impls : List ImplDecl}

theorem Reorders.impl (reorders : store.Reorders σ impls) (i : Nat) :
    (store.withImpls impls).impl? (σ i) = (store.impl? i).map (·.renumber σ) :=
  reorders.impl? i

/-! ### What does not depend on impls -/

theorem normalizeTo_withImpls (depth : Nat) (t : Ty) :
    (store.withImpls impls).normalizeTo depth t = store.normalizeTo depth t := by
  induction depth generalizing t with
  | zero => rfl
  | succ depth ih =>
    have same : (store.withImpls impls).normalizeTo depth = store.normalizeTo depth := funext ih
    simp only [normalizeTo, same]
    rfl

@[simp] theorem normalize_withImpls :
    (store.withImpls impls).normalize = store.normalize :=
  funext fun t => normalizeTo_withImpls _ t

@[simp] theorem alignImpl?_renumber {d : ImplDecl} {args : List Ty} {ty : Ty} {query : TraitRef} :
    (store.withImpls impls).alignImpl? (d.renumber σ) args ty query =
      store.alignImpl? d args ty query := by
  simp only [alignImpl?, normalize_withImpls]
  rfl

@[simp] theorem obligation_withImpls {trait : TraitDecl} {ty : Ty} {t : TraitRef} :
    (store.withImpls impls).obligation trait ty t = store.obligation trait ty t := by
  simp only [obligation, normalize_withImpls]

/-! ### Candidates -/

/-- Resolvers that come to the same but for numbers and order. -/
def Agree (σ : Nat → Nat) (holds holds' : Resolver) : Prop :=
  ∀ ty t, Resolution.Renumbered σ (holds ty t).value (holds' ty t).value

variable {holds holds' : Resolver}

theorem satisfies_renumbered {r r' : Resolution} (same : Resolution.Renumbered σ r r')
    (constRequired : Bool) : r.satisfies constRequired = r'.satisfies constRequired := by
  cases same with
  | met c => rfl
  | ambiguous perm =>
    rename_i cs cs'
    have all : cs'.all (·.isConst) = cs.all (·.isConst) := by
      rw [← perm.all_eq, List.all_map]
      rfl
    simp only [Resolution.satisfies, all]
  | notImplemented => rfl

theorem boundsHold_agree (agree : Agree σ holds holds') (s : Subst) (bounds : List Bound) :
    (boundsHold holds s bounds).value = (boundsHold holds' s bounds).value := by
  induction bounds with
  | nil => rfl
  | cons b rest ih =>
    have first := satisfies_renumbered (agree (b.ty.substitute s) (b.traitRef.substitute s))
      b.constRequired
    simp only [boundsHold, Logged.value_bind, first]
    split
    · exact ih
    · rfl

theorem matchImpl_agree (agree : Agree σ holds holds') (d : ImplDecl) (args : List Ty) (ty : Ty)
    (query : TraitRef) :
    (store.matchImpl holds d args ty query).value =
      ((store.withImpls impls).matchImpl holds' (d.renumber σ) args ty query).value := by
  simp only [matchImpl, alignImpl?_renumber, normalize_withImpls]
  cases store.alignImpl? d args ty query with
  | none => rfl
  | some s =>
    have bounds := boundsHold_agree agree s d.bounds
    simp only [ImplDecl.renumber]
    by_cases fits : Candidate.assocFits
      (d.assoc.map fun a => (a.1, store.normalize (a.2.substitute s))) query.assoc = true
    · simp only [fits, Bool.not_true, Bool.false_eq_true, if_false, Logged.value_bind, bounds]
    · simp only [fits, Bool.not_false, if_true]

/-- The candidate that an impl is, if it matches. -/
def candidate? (store : Store) (holds : Resolver) (ty : Ty) (query : TraitRef)
    (origin : CandidateOrigin) (isConst : ImplDecl → Bool) (p : ImplDecl × List Ty) :
    Option Candidate :=
  (store.matchImpl holds p.1 p.2 ty query).value.map fun m =>
    ⟨some p.1.id, query.path, origin, m.1, isConst p.1, m.2⟩

theorem candidates_value (store : Store) (holds : Resolver) (ty : Ty) (query : TraitRef)
    (origin : CandidateOrigin) (isConst : ImplDecl → Bool) (items : List (ImplDecl × List Ty)) :
    (store.candidates holds ty query origin isConst items).value =
      items.filterMap (store.candidate? holds ty query origin isConst) := by
  induction items with
  | nil => rfl
  | cons p rest ih =>
    obtain ⟨d, args⟩ := p
    simp only [candidates, Logged.value_bind, List.filterMap_cons, candidate?, ← ih]
    cases (store.matchImpl holds d args ty query).value <;> rfl

/-- The same impls in another order are the same candidates in another order. -/
theorem candidates_agree (agree : Agree σ holds holds') (ty : Ty) (query : TraitRef)
    (origin : CandidateOrigin) {isConst : ImplDecl → Bool}
    (same : ∀ d, isConst (d.renumber σ) = isConst d) {items items' : List (ImplDecl × List Ty)}
    (perm : (items.map fun p => (p.1.renumber σ, p.2)).Perm items') :
    ((store.candidates holds ty query origin isConst items).value.map (·.renumber σ)).Perm
      ((store.withImpls impls).candidates holds' ty query origin isConst items').value := by
  rw [candidates_value, candidates_value, List.map_filterMap]
  refine List.Perm.trans (List.Perm.of_eq ?_)
    (perm.filterMap ((store.withImpls impls).candidate? holds' ty query origin isConst))
  rw [List.filterMap_map]
  refine List.filterMap_congr fun p _ => ?_
  simp only [candidate?, Function.comp_apply, ← matchImpl_agree agree, same, Option.map_map]
  rfl

theorem implsOf_agree (reorders : store.Reorders σ impls) (path : String) :
    ((store.implsOf path).map (·.renumber σ)).Perm ((store.withImpls impls).implsOf path) := by
  have filtered := reorders.perm.filter fun d => d.traitRef.any (·.path == path)
  rw [List.filter_map] at filtered
  exact filtered

theorem specialized_agree (reorders : store.Reorders σ impls) (agree : Agree σ holds holds')
    (ty : Ty) (query : TraitRef) (traits : List TraitDecl) :
    ((store.specialized holds ty query traits).value.map (·.renumber σ)).Perm
      ((store.withImpls impls).specialized holds' ty query traits).value := by
  induction traits with
  | nil => exact List.Perm.refl []
  | cons trait rest ih =>
    cases given : trait.specialization with
    | none =>
      simp only [specialized, given]
      exact ih
    | some spec =>
      simp only [specialized, given, Logged.value_bind, Logged.value_pure, List.map_append]
      refine List.Perm.append ?_ ih
      refine candidates_agree agree ty query _ (fun _ => rfl) ?_
      have items := (implsOf_agree reorders trait.path).map fun d =>
        (d, impliedArgs trait spec.target d.traitArgs)
      rw [List.map_map] at items ⊢
      exact items

/-! ### Resolutions -/

theorem ofTier_agree {cs cs' : List Candidate} (perm : (cs.map (·.renumber σ)).Perm cs') :
    Option.Rel (Resolution.Renumbered σ) (Resolution.ofTier cs) (Resolution.ofTier cs') := by
  match cs with
  | [] =>
    obtain rfl := perm.nil_eq
    exact .none
  | [c] =>
    obtain rfl := perm.singleton_eq
    exact .some (.met c)
  | c :: d :: rest =>
    match cs' with
    | [] => cases perm.length_eq
    | [_] => cases perm.length_eq
    | _ :: _ :: _ => exact .some (.ambiguous perm)

/-- The candidate that a type promises, if it is an opaque one. -/
def promisedBy? (store : Store) (ty : Ty) (query : TraitRef) : Option Candidate :=
  match ty with
  | .promise path args assoc => store.promised? ⟨path, args, assoc⟩ query
  | _ => none

/-- The resolution by the first tier that is not empty. -/
def firstTier (derived direct blanket : List Candidate) : Resolution :=
  (((Resolution.ofTier derived).or (Resolution.ofTier direct)).or
    (Resolution.ofTier blanket)).getD .notImplemented

/-- The candidates among the impls of the trait itself that are for all types, or that are not. -/
def ownCandidates (store : Store) (holds : Resolver) (trait : TraitDecl) (ty : Ty)
    (query : TraitRef) (origin : CandidateOrigin) (kept : ImplDecl → Bool) : List Candidate :=
  (store.candidates holds ty query origin (fun d => d.isConst || trait.specialization.isSome)
    (((store.implsOf query.path).filter kept).map fun d => (d, d.traitArgs))).value

theorem select_value (trait : TraitDecl) (ty : Ty) (query : TraitRef) :
    (store.select holds trait ty query).value =
      ((store.promisedBy? ty query).map .met).getD
        (firstTier (store.specialized holds ty query (store.specializationsOf query.path)).value
          (store.ownCandidates holds trait ty query .direct (fun d => !d.isBlanket))
          (store.ownCandidates holds trait ty query .blanket (·.isBlanket))) := by
  unfold select
  dsimp only
  split
  · rename_i c promised
    have given : store.promisedBy? ty query = some c := promised
    rw [given]
    rfl
  · rename_i unpromised
    have given : store.promisedBy? ty query = none := unpromised
    simp only [given, Option.map_none, Option.getD_none, Logged.value_bind, firstTier,
      ownCandidates, List.partition_eq_filter_filter]
    cases Resolution.ofTier (store.specialized holds ty query
      (store.specializationsOf query.path)).value with
    | some r => rfl
    | none =>
      simp only [Logged.value_bind, Option.none_or, Function.comp_def]
      split
      · rename_i r direct
        simp [direct]
      · rename_i direct
        simp [direct]

/-- Related values, and what stands for them where there are none. -/
theorem rel_getD {α β : Type} {R : α → β → Prop} {x : Option α} {y : Option β} {a : α} {b : β}
    (same : Option.Rel R x y) (rest : R a b) : R (x.getD a) (y.getD b) := by
  cases same with
  | some here => exact here
  | none => exact rest

theorem or_agree {r r' q q' : Option Resolution} (first : Option.Rel (Resolution.Renumbered σ) r r')
    (second : Option.Rel (Resolution.Renumbered σ) q q') :
    Option.Rel (Resolution.Renumbered σ) (r.or q) (r'.or q') := by
  cases first with
  | some same => exact .some same
  | none => exact second

theorem ownCandidates_agree (reorders : store.Reorders σ impls) (agree : Agree σ holds holds')
    (trait : TraitDecl) (ty : Ty) (query : TraitRef) (origin : CandidateOrigin)
    (kept : ImplDecl → Bool) (same : ∀ d, kept (d.renumber σ) = kept d) :
    ((store.ownCandidates holds trait ty query origin kept).map (·.renumber σ)).Perm
      ((store.withImpls impls).ownCandidates holds' trait ty query origin kept) := by
  refine candidates_agree agree ty query origin (fun _ => rfl) ?_
  have items := ((implsOf_agree reorders query.path).filter kept).map fun d => (d, d.traitArgs)
  have kept_map : kept ∘ (·.renumber σ) = kept := funext same
  rw [List.filter_map, kept_map, List.map_map] at items
  rw [List.map_map]
  exact items

private theorem promised?_origin {p query : TraitRef} {c : Candidate}
    (given : store.promised? p query = some c) : c.implId = none ∧ c.origin = .promised := by
  simp only [promised?, Option.bind_eq_bind] at given
  split at given
  · simp only [Option.bind_some, Option.ite_none_right_eq_some, Option.some.injEq] at given
    exact given.2 ▸ ⟨rfl, rfl⟩
  · obtain ⟨trait, -, given⟩ := Option.bind_eq_some_iff.mp given
    obtain ⟨spec, -, given⟩ := Option.bind_eq_some_iff.mp given
    split at given
    · simp only [Option.bind_some, Option.ite_none_right_eq_some, Option.some.injEq] at given
      exact given.2 ▸ ⟨rfl, rfl⟩
    · cases given

/-- What a type promises is no impl. -/
theorem promisedBy?_origin {ty : Ty} {query : TraitRef} {c : Candidate}
    (given : store.promisedBy? ty query = some c) : c.implId = none ∧ c.origin = .promised := by
  unfold promisedBy? at given
  split at given
  · exact promised?_origin given
  · cases given

theorem promisedBy?_renumber {ty : Ty} {query : TraitRef} {c : Candidate}
    (given : store.promisedBy? ty query = some c) : c.renumber σ = c := by
  have none_impl := (promisedBy?_origin given).1
  simp only [Candidate.renumber, none_impl, Option.map_none]
  rw [← none_impl]

theorem select_agree (reorders : store.Reorders σ impls) (agree : Agree σ holds holds')
    (trait : TraitDecl) (ty : Ty) (query : TraitRef) :
    Resolution.Renumbered σ (store.select holds trait ty query).value
      ((store.withImpls impls).select holds' trait ty query).value := by
  have derived := ofTier_agree
    (specialized_agree reorders agree ty query (store.specializationsOf query.path))
  have direct := ofTier_agree (ownCandidates_agree reorders agree trait ty query .direct
    (fun d => !d.isBlanket) fun _ => rfl)
  have blanket := ofTier_agree (ownCandidates_agree reorders agree trait ty query .blanket
    (·.isBlanket) fun _ => rfl)
  have tiers := or_agree (or_agree derived direct) blanket
  rw [select_value, select_value]
  have promised : (store.withImpls impls).promisedBy? ty query = store.promisedBy? ty query := rfl
  rw [promised]
  cases given : store.promisedBy? ty query with
  | some c =>
    have met := Resolution.Renumbered.met (σ := σ) c
    rw [promisedBy?_renumber given] at met
    exact met
  | none =>
    -- A tier has a candidate in one store if it has one in the other, so the same tier decides.
    simp only [Option.map_none, Option.getD_none, firstTier]
    exact rel_getD tiers .notImplemented

/-! ### The whole search -/

/-- Nested obligations are resolved in the same way. -/
theorem resolveInside_agree (reorders : store.Reorders σ impls) (depth : Nat)
    (stack : List Obligation) :
    Agree σ (store.resolveInside depth stack)
      ((store.withImpls impls).resolveInside depth stack) := by
  induction depth generalizing stack with
  | zero =>
    intro ty t
    have declared : (store.withImpls impls).trait? t.path = store.trait? t.path := rfl
    unfold resolveInside
    rw [declared]
    cases store.trait? t.path <;> exact .notImplemented
  | succ depth ih =>
    intro ty t
    have declared : (store.withImpls impls).trait? t.path = store.trait? t.path := rfl
    unfold resolveInside
    rw [declared]
    cases store.trait? t.path with
    | none => exact .notImplemented
    | some trait =>
      -- The stack holds obligations and no impls: both searches abandon the same obligations.
      simp only [obligation_withImpls]
      split
      · exact .notImplemented
      · exact select_agree reorders (ih _) trait _ _

/-- Resolution comes to the same but for numbers and order. -/
theorem resolveTo_agree (reorders : store.Reorders σ impls) (depth : Nat) :
    Agree σ (store.resolveTo depth) ((store.withImpls impls).resolveTo depth) :=
  resolveInside_agree reorders depth []

theorem resolve_agree (reorders : store.Reorders σ impls) :
    Agree σ store.resolve (store.withImpls impls).resolve :=
  resolveTo_agree reorders store.maxDepth

end Store
end Pipeline
