import Pipeline.Proofs.Obligation.Specialization

/-!
# What holds at declaration time

Whatever implements a trait that specializes another one does so at declaration time, whether it is
found through an impl for the type, through one for all types or through a third trait. The one
exception is an opaque type that promises the special trait itself: it is taken to promise no more
than an ordinary trait, so that a bound which asks for declaration time fails for it, although the
same type meets the trait implied at declaration time.
-/

set_option autoImplicit false
set_option relaxedAutoImplicit false

namespace Pipeline

/-- All candidates hold at declaration time, and a bound that asks for this holds where any bound
does, but for a type that promises the trait itself. -/
structure Resolution.ConstUnless (r : Resolution) (itself : Prop) : Prop where
  candidates : ∀ c ∈ r.candidates, c.isConst = true ↔ ¬ (c.origin = .promised ∧ itself)
  bounds : r.satisfies true = true ↔
    r.satisfies false = true ∧ ¬ (itself ∧ ∃ c, r = .met c ∧ c.origin = .promised)

namespace Store

/-- A type promises a trait, with whatever arguments. -/
def Promises (store : Store) (ty : Ty) (path : String) : Prop :=
  ∃ args assoc, store.normalize ty = .promise path args assoc

variable {store : Store} {holds : Resolver} {trait : TraitDecl} {ty : Ty} {query : TraitRef}
  {c : Candidate} {r : Resolution} {itself : Prop}

/-! ### The four places where candidates are made -/

theorem isConst_of_mem_ownCandidates (special : trait.specialization.isSome = true)
    {origin : CandidateOrigin} {kept : ImplDecl → Bool}
    (member : c ∈ store.ownCandidates holds trait ty query origin kept) : c.isConst = true := by
  rw [ownCandidates, candidates_value] at member
  obtain ⟨p, -, found⟩ := List.mem_filterMap.mp member
  obtain ⟨m, -, rfl⟩ := Option.map_eq_some_iff.mp found
  exact (Bool.or_eq_true _ _).mpr (Or.inr special)

/-- What a promise meets at declaration time is what its trait implies. -/
theorem isConst_promised? {promise : TraitRef} (given : store.promised? promise query = some c) :
    c.isConst = true ↔ promise.path ≠ query.path := by
  unfold promised? at given
  by_cases same : promise.path = query.path
  · simp only [same, if_true, Option.bind_eq_bind, Option.bind_some,
      Option.ite_none_right_eq_some, Option.some.injEq] at given
    simp [← given.2, same]
  · simp only [if_neg same, Option.bind_eq_bind] at given
    obtain ⟨trait, -, given⟩ := Option.bind_eq_some_iff.mp given
    obtain ⟨spec, -, given⟩ := Option.bind_eq_some_iff.mp given
    split at given
    · simp only [Option.bind_some, Option.ite_none_right_eq_some, Option.some.injEq] at given
      simp [← given.2, same]
    · cases given

theorem isConst_promisedBy? (given : store.promisedBy? ty query = some c) :
    c.isConst = true ↔ ¬ ∃ args assoc, ty = .promise query.path args assoc := by
  unfold promisedBy? at given
  split at given
  · rename_i path args assoc
    rw [isConst_promised? given, not_iff_not]
    refine ⟨fun same => ⟨args, assoc, same ▸ rfl⟩, ?_⟩
    rintro ⟨_, _, same⟩
    cases same
    rfl
  · cases given

/-! ### Resolutions -/

/-- Where impls alone are found, all hold at declaration time. -/
theorem constUnless_of_impls
    (impls : ∀ c ∈ r.candidates, c.isConst = true ∧ c.origin ≠ .promised) :
    r.ConstUnless itself := by
  refine ⟨fun c member => iff_of_true (impls c member).1 fun both => (impls c member).2 both.1, ?_⟩
  have unpromised : ¬ (itself ∧ ∃ c, r = .met c ∧ c.origin = .promised) := by
    rintro ⟨-, c, rfl, origin⟩
    exact (impls c List.mem_cons_self).2 origin
  rw [and_iff_left unpromised]
  cases r with
  | met c =>
    have here := (impls c List.mem_cons_self).1
    simp [Resolution.satisfies, here]
  | ambiguous cs =>
    have all : cs.all (·.isConst) = true := List.all_eq_true.mpr fun c member => (impls c member).1
    simp [Resolution.satisfies, all]
  | notImplemented => simp [Resolution.satisfies]

theorem constUnless_of_promised (origin : c.origin = .promised)
    (isConst : c.isConst = true ↔ ¬ itself) : (Resolution.met c).ConstUnless itself := by
  constructor
  · intro c' member
    obtain rfl := List.mem_singleton.mp member
    rw [isConst, and_iff_right origin]
  · have single : ∃ c', Resolution.met c = .met c' ∧ c'.origin = .promised := ⟨c, rfl, origin⟩
    rw [and_iff_left single, ← isConst]
    simp [Resolution.satisfies]

theorem select_constUnless (special : trait.specialization.isSome = true) :
    (store.select holds trait ty query).value.ConstUnless
      (∃ args assoc, ty = .promise query.path args assoc) := by
  rw [select_value]
  cases promised : store.promisedBy? ty query with
  | some c =>
    exact constUnless_of_promised (promisedBy?_origin promised).2 (isConst_promisedBy? promised)
  | none =>
    refine constUnless_of_impls fun c member => ?_
    rcases mem_candidates_firstTier member with derived | direct | blanket
    · obtain ⟨other, -, stands⟩ := mem_specialized derived
      exact ⟨isConst_of_mem_specialized derived, by rw [stands.1]; nofun⟩
    · exact ⟨isConst_of_mem_ownCandidates special direct, by rw [(mem_candidates direct).1]; nofun⟩
    · exact ⟨isConst_of_mem_ownCandidates special blanket,
        by rw [(mem_candidates blanket).1]; nofun⟩

/-- An obligation inside others is met at declaration time as it is by itself. -/
theorem resolveInside_constUnless {t : TraitRef} (declared : store.trait? t.path = some trait)
    (special : trait.specialization.isSome = true) (depth : Nat) (stack : List Obligation)
    (ty : Ty) : (store.resolveInside depth stack ty t).value.ConstUnless
      (store.Promises ty t.path) := by
  have abandoned : Resolution.notImplemented.ConstUnless (store.Promises ty t.path) :=
    constUnless_of_impls nofun
  cases depth with
  | zero =>
    simp only [resolveInside, declared]
    exact abandoned
  | succ depth =>
    simp only [resolveInside, declared]
    split
    · exact abandoned
    · exact select_constUnless special

/-- **What implements a special trait does so at declaration time**, alone, in a tie or inside the
search for something else, and a bound that asks for this holds whenever the plain one does: with
the one exception of a type that promises the special trait itself. -/
theorem special_constUnless (store : Store) (t : TraitRef) (trait : TraitDecl)
    (declared : store.trait? t.path = some trait) (special : trait.specialization.isSome = true)
    (ty : Ty) :
    (store.resolve ty t).value.ConstUnless (store.Promises ty t.path) ∧
      ∀ depth stack, (store.resolveInside depth stack ty t).value.ConstUnless
        (store.Promises ty t.path) :=
  ⟨resolveInside_constUnless declared special store.maxDepth [] ty,
    fun depth stack => resolveInside_constUnless declared special depth stack ty⟩

/-! ### Boxes -/

/-- A document in which boxes are plain if what they hold is exact, and cheap if it is exact at
declaration time. -/
def boxes : Document where
  module := "shop"
  origin := "shop"
  version := supportedVersion
  kind := .struct
  types := [("Boxed", ⟨["T"], [("value", .short "T")], [], none, none, none⟩),
    ("Money", ⟨[], [("cents", .short "u64")], [], none, none, none⟩)]
  traits := [("Alike", bareTrait [] none), ("Exact", bareTrait [] (some "Alike")),
    ("Plain", bareTrait [] none), ("Cheap", bareTrait [] none)]
  impls := [bareImpl "Money" "Exact" [], bareImpl "Boxed<T>" "Plain" ["T: Exact"],
    bareImpl "Boxed<T>" "Cheap" ["T: ~const Exact"]]

/-- A trait of the document, none of which has parameters. -/
def boxTrait (name : String) : TraitRef := .plain (Path.child "shop" name) []

def coins : Ty := .named "shop::Money" []

/-- An opaque type that promises to be exact. -/
def someExact : Ty := .promise "shop::Exact" [] []

def boxOf (ty : Ty) : Ty := .named "shop::Boxed" [ty]

private theorem boxes_load : ∃ s, (load [boxes] 4).value = .ok s ∧
    (∃ trait ∈ s.trait? (boxTrait "Exact").path, trait.specialization.isSome = true) ∧
    (s.resolve coins (boxTrait "Exact")).value.candidates.length = 1 ∧
    s.normalize coins = coins ∧
    (s.resolve someExact (boxTrait "Exact")).value.candidates.map (·.isConst) = [false] ∧
    (s.resolve someExact (boxTrait "Alike")).value.candidates.map (·.isConst) = [true] ∧
    (s.resolve (boxOf someExact) (boxTrait "Plain")).value.satisfies false = true ∧
    (s.resolve (boxOf someExact) (boxTrait "Cheap")).value = .notImplemented := by
  decide +kernel

/-- Money is exact by an impl that says nothing of declaration time, and therefore exact there. -/
theorem special_constUnless_money : ∃ s, (load [boxes] 4).value = .ok s ∧
    ∃ c ∈ (s.resolve coins (boxTrait "Exact")).value.candidates, c.isConst = true := by
  obtain ⟨s, loaded, ⟨trait, declared, special⟩, single, normal, -⟩ := boxes_load
  obtain ⟨c, member⟩ := List.length_pos_iff_exists_mem.mp (single ▸ Nat.one_pos)
  have const := (special_constUnless s (boxTrait "Exact") trait declared special coins).1.candidates
    c member
  refine ⟨s, loaded, c, member, const.mpr ?_⟩
  rintro ⟨-, args, assoc, promise⟩
  cases normal.symm.trans promise

/-- What promises to be exact is exact, though not at declaration time, where it is alike: boxes of
it are plain and not cheap. -/
theorem some_exact_not_const : ∃ s, (load [boxes] 4).value = .ok s ∧
    (∃ trait ∈ s.trait? (boxTrait "Exact").path, trait.specialization.isSome = true) ∧
    (s.resolve someExact (boxTrait "Exact")).value.candidates.map (·.isConst) = [false] ∧
    (s.resolve someExact (boxTrait "Alike")).value.candidates.map (·.isConst) = [true] ∧
    (s.resolve (boxOf someExact) (boxTrait "Plain")).value.satisfies false = true ∧
    (s.resolve (boxOf someExact) (boxTrait "Cheap")).value = .notImplemented := by
  obtain ⟨s, loaded, special, -, -, rest⟩ := boxes_load
  exact ⟨s, loaded, special, rest⟩

end Store
end Pipeline
