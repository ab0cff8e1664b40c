import Mathlib.Data.Nat.Find
import Pipeline.Obligation.Resolve

/-!
# Derivations of obligations

An obligation is derived by the promise of an opaque type, or by an impl whose bounds are derived
one level deeper. Derivations know nothing of tiers, of the order of impls and of obligations that
are already being resolved. Where no bound asks for more than an implementation, resolution finds
a candidate exactly for what has a derivation no deeper than the limit: a derivation of least
depth never comes back to an obligation that it is part of.
-/

set_option autoImplicit false
set_option relaxedAutoImplicit false

namespace Pipeline

/-- The opaque type that implements a trait. -/
def TraitRef.promiseTy (t : TraitRef) : Ty := .promise t.path t.args t.assoc

namespace Store

/-- A type and a trait ask for an obligation: the trait is declared, aliases are expanded, and the
arguments left out are there. -/
def Asks (store : Store) (ty : Ty) (t : TraitRef) (o : Obligation) : Prop :=
  ∃ trait, store.trait? t.path = some trait ∧ o = store.obligation trait ty t

/-- An impl gives arguments to a trait: it is an impl of the trait itself, or of one that
specializes it and says which arguments that implies. -/
inductive Presents (store : Store) (path : String) : ImplDecl → List Ty → Prop
  | own {d : ImplDecl} : d ∈ store.implsOf path → Presents store path d d.traitArgs
  | specialized {d : ImplDecl} {trait : TraitDecl} {spec : Specialization} :
      trait ∈ store.specializationsOf path → trait.specialization = some spec →
      d ∈ store.implsOf trait.path →
      Presents store path d (impliedArgs trait spec.target d.traitArgs)

/-- Types for the parameters of an impl that make its target and the arguments it presents fit an
obligation, and its associated types meet the constraints. -/
structure Applies (store : Store) (d : ImplDecl) (args : List Ty) (o : Obligation)
    (s : Subst) : Prop where
  form : ∃ s₀, Ty.unify (Generic.names d.generics) (store.normalize d.target) o.ty [] = (true, s₀) ∧
    args.length = o.traitRef.args.length ∧
    Ty.unifyAll (Generic.names d.generics) (args.map store.normalize) o.traitRef.args s₀ = (true, s)
  assoc : Candidate.assocFits (d.assoc.map fun a => (a.1, store.normalize (a.2.substitute s)))
    o.traitRef.assoc = true

/-- A type is derived to implement a trait in so many nested levels. -/
inductive Derivation (store : Store) : Nat → Ty → TraitRef → Prop
  | promised {n : Nat} {ty : Ty} {t p : TraitRef} {o : Obligation} {c : Candidate} :
      store.Asks ty t o → o.ty = p.promiseTy → store.promised? p o.traitRef = some c →
      Derivation store (n + 1) ty t
  | byImpl {n : Nat} {ty : Ty} {t : TraitRef} {o : Obligation} {d : ImplDecl} {args : List Ty}
      {s : Subst} :
      store.Asks ty t o → store.Presents o.traitRef.path d args → store.Applies d args o s →
      (∀ b ∈ d.bounds, Derivation store n (b.ty.substitute s) (b.traitRef.substitute s)) →
      Derivation store (n + 1) ty t

/-- No bound of an impl asks for an implementation that holds at declaration time. -/
def PlainBounds (store : Store) : Prop :=
  ∀ d ∈ store.impls, ∀ b ∈ d.bounds, b.constRequired = false

variable {store : Store}

/-! ### What one derivation says of others -/

theorem Asks.unique {ty : Ty} {t : TraitRef} {o o' : Obligation} (h : store.Asks ty t o)
    (h' : store.Asks ty t o') : o = o' := by
  obtain ⟨trait, found, rfl⟩ := h
  obtain ⟨trait', found', rfl⟩ := h'
  rw [found] at found'
  rw [Option.some.inj found']

theorem Presents.mem_impls {path : String} {d : ImplDecl} {args : List Ty}
    (h : store.Presents path d args) : d ∈ store.impls := by
  cases h with
  | own member => exact (List.mem_filter.mp member).1
  | specialized _ _ member => exact (List.mem_filter.mp member).1

theorem Derivation.mono {n m : Nat} {ty : Ty} {t : TraitRef} (h : store.Derivation n ty t)
    (le : n ≤ m) : store.Derivation m ty t := by
  induction h generalizing m with
  | promised asks opaqueTy found =>
    obtain ⟨k, rfl⟩ := Nat.exists_eq_add_of_lt (Nat.lt_of_succ_le le)
    exact .promised asks opaqueTy found
  | @byImpl n ty t o d args s asks presents applies _ ih =>
    obtain ⟨k, rfl⟩ := Nat.exists_eq_add_of_lt (Nat.lt_of_succ_le le)
    exact .byImpl asks presents applies fun b member => ih b member (Nat.le_add_right n k)

/-- A derivation depends only on the obligation asked for. -/
theorem Derivation.congr {n : Nat} {ty ty' : Ty} {t t' : TraitRef} {o : Obligation}
    (h : store.Derivation n ty t) (asks : store.Asks ty t o) (asks' : store.Asks ty' t' o) :
    store.Derivation n ty' t' := by
  cases h with
  | promised own opaqueTy found =>
    obtain rfl := asks.unique own
    exact .promised asks' opaqueTy found
  | byImpl own presents applies bounds =>
    obtain rfl := asks.unique own
    exact .byImpl asks' presents applies bounds

/-! ### One step of the search -/

/-- An obligation is met by a promise, or by an impl whose bounds satisfy `holds`. -/
def Inference (store : Store) (holds : Ty → TraitRef → Prop) (o : Obligation) : Prop :=
  (∃ p c, o.ty = TraitRef.promiseTy p ∧ store.promised? p o.traitRef = some c) ∨
    ∃ d args s, store.Presents o.traitRef.path d args ∧ store.Applies d args o s ∧
      ∀ b ∈ d.bounds, holds (b.ty.substitute s) (b.traitRef.substitute s)

theorem Inference.mono {holds more : Ty → TraitRef → Prop} {o : Obligation}
    (h : store.Inference holds o) (le : ∀ ty t, holds ty t → more ty t) : store.Inference more o := by
  rcases h with promised | ⟨d, args, s, presents, applies, bounds⟩
  · exact Or.inl promised
  · exact Or.inr ⟨d, args, s, presents, applies, fun b member => le _ _ (bounds b member)⟩

theorem derivation_succ_iff {n : Nat} {ty : Ty} {t : TraitRef} :
    store.Derivation (n + 1) ty t ↔ ∃ o, store.Asks ty t o ∧ store.Inference (store.Derivation n) o := by
  constructor
  · intro h
    cases h with
    | promised asks opaqueTy found => exact ⟨_, asks, Or.inl ⟨_, _, opaqueTy, found⟩⟩
    | byImpl asks presents applies bounds =>
      exact ⟨_, asks, Or.inr ⟨_, _, _, presents, applies, bounds⟩⟩
  · rintro ⟨o, asks, ⟨p, c, opaqueTy, found⟩ | ⟨d, args, s, presents, applies, bounds⟩⟩
    · exact .promised asks opaqueTy found
    · exact .byImpl asks presents applies bounds

/-- What a resolver finds implemented, in one way or in several. -/
def Finds (holds : Resolver) (ty : Ty) (t : TraitRef) : Prop := (holds ty t).value ≠ .notImplemented

private theorem satisfies_plain (r : Resolution) :
    r.satisfies false = true ↔ r ≠ .notImplemented := by
  cases r <;> simp [Resolution.satisfies]

private theorem boundsHold_iff {holds : Resolver} {s : Subst} {bounds : List Bound}
    (plain : ∀ b ∈ bounds, b.constRequired = false) :
    (boundsHold holds s bounds).value = true ↔
      ∀ b ∈ bounds, Finds holds (b.ty.substitute s) (b.traitRef.substitute s) := by
  induction bounds with
  | nil => simp [boundsHold]
  | cons b rest ih =>
    have rest_iff := ih fun c member => plain c (List.mem_cons_of_mem b member)
    have head_iff := satisfies_plain (holds (b.ty.substitute s) (b.traitRef.substitute s)).value
    simp only [boundsHold, Logged.value_bind, plain b (List.mem_cons_self), List.forall_mem_cons,
      Finds, ← head_iff]
    split
    · simp [*, Finds]
    · simp [*]

theorem alignImpl_iff {d : ImplDecl} {args : List Ty} {o : Obligation} {s : Subst} :
    store.alignImpl? d args o.ty o.traitRef = some s ↔
      ∃ s₀, Ty.unify (Generic.names d.generics) (store.normalize d.target) o.ty [] = (true, s₀) ∧
        args.length = o.traitRef.args.length ∧
        Ty.unifyAll (Generic.names d.generics) (args.map store.normalize) o.traitRef.args s₀ =
          (true, s) := by
  unfold alignImpl?
  dsimp only
  rcases Ty.unify (Generic.names d.generics) (store.normalize d.target) o.ty [] with ⟨fits, s₀⟩
  cases fits with
  | false => simp
  | true =>
    by_cases same : args.length = o.traitRef.args.length
    · rcases unified : Ty.unifyAll (Generic.names d.generics) (args.map store.normalize)
        o.traitRef.args s₀ with ⟨fits', s'⟩
      cases fits' <;> simp [same, unified]
    · simp [same]

private theorem matchImpl_isSome_iff {holds : Resolver} {d : ImplDecl} {args : List Ty}
    {o : Obligation} (plain : ∀ b ∈ d.bounds, b.constRequired = false) :
    (store.matchImpl holds d args o.ty o.traitRef).value.isSome = true ↔
      ∃ s, store.Applies d args o s ∧
        ∀ b ∈ d.bounds, Finds holds (b.ty.substitute s) (b.traitRef.substitute s) := by
  cases aligned : store.alignImpl? d args o.ty o.traitRef with
  | none =>
    constructor
    · simp [matchImpl, aligned]
    · rintro ⟨s, applies, _⟩
      rw [alignImpl_iff.mpr applies.form] at aligned
      cases aligned
  | some s =>
    have isSome_iff : (store.matchImpl holds d args o.ty o.traitRef).value.isSome = true ↔
        Candidate.assocFits (d.assoc.map fun a => (a.1, store.normalize (a.2.substitute s)))
          o.traitRef.assoc = true ∧ (boundsHold holds s d.bounds).value = true := by
      unfold matchImpl
      rw [aligned]
      dsimp only
      split
      · rename_i misfit
        simp only [Bool.not_eq_eq_eq_not, Bool.not_true] at misfit
        simp [misfit]
      · rename_i fits
        cases checked : (boundsHold holds s d.bounds).value <;> simp_all
    rw [isSome_iff, boundsHold_iff plain]
    constructor
    · rintro ⟨fits, bounds⟩
      exact ⟨s, ⟨alignImpl_iff.mp aligned, fits⟩, bounds⟩
    · rintro ⟨s', applies, bounds⟩
      have same : some s = some s' := aligned.symm.trans (alignImpl_iff.mpr applies.form)
      obtain rfl := Option.some.inj same
      exact ⟨applies.assoc, bounds⟩

/-- The candidates are those of the impls that match; only whether there are any counts here. -/
private theorem candidates_ne_nil_iff (holds : Resolver) (ty : Ty) (query : TraitRef)
    (origin : CandidateOrigin) (isConst : ImplDecl → Bool) (impls : List (ImplDecl × List Ty)) :
    (store.candidates holds ty query origin isConst impls).value ≠ [] ↔
      ∃ p ∈ impls, (store.matchImpl holds p.1 p.2 ty query).value.isSome = true := by
  induction impls with
  | nil => simp [candidates]
  | cons p rest ih =>
    obtain ⟨d, args⟩ := p
    simp only [List.mem_cons, exists_eq_or_imp, ← ih]
    simp only [candidates, Logged.value_bind]
    cases (store.matchImpl holds d args ty query).value <;> simp

private theorem specialized_ne_nil_iff {holds : Resolver} {ty : Ty} {query : TraitRef}
    {traits : List TraitDecl} :
    (store.specialized holds ty query traits).value ≠ [] ↔
      ∃ trait ∈ traits, ∃ spec, trait.specialization = some spec ∧
        ∃ d ∈ store.implsOf trait.path,
          (store.matchImpl holds d (impliedArgs trait spec.target d.traitArgs) ty
            query).value.isSome = true := by
  induction traits with
  | nil => simp [specialized]
  | cons trait rest ih =>
    simp only [specialized, List.mem_cons, exists_eq_or_imp]
    cases given : trait.specialization with
    | none => simp [ih]
    | some spec =>
      have here := store.candidates_ne_nil_iff holds ty query (.specialization trait.path)
        (fun _ => true) ((store.implsOf trait.path).map fun d =>
          (d, impliedArgs trait spec.target d.traitArgs))
      simp only [List.mem_map, exists_exists_and_eq_and] at here
      simp only [Option.some.injEq, exists_eq_left', ← here, ← ih, Logged.value_bind,
        Logged.value_pure, ne_eq, List.append_eq_nil_iff, not_and_or]

private theorem ofTier_eq_none_iff (cs : List Candidate) : Resolution.ofTier cs = none ↔ cs = [] := by
  rcases cs with _ | ⟨c, _ | ⟨c', rest⟩⟩ <;> simp [Resolution.ofTier]

private theorem ofTier_ne_notImplemented {cs : List Candidate} {r : Resolution}
    (h : Resolution.ofTier cs = some r) : r ≠ .notImplemented := by
  rcases cs with _ | ⟨c, _ | ⟨c', rest⟩⟩ <;> simp [Resolution.ofTier] at h <;> subst h <;> simp

/-- The candidates of all tiers together are those of the impls that present arguments. -/
private theorem tiers_ne_nil_iff (holds : Resolver) (o : Obligation) (isConst : ImplDecl → Bool)
    (plain : store.PlainBounds) :
    ((store.specialized holds o.ty o.traitRef
        (store.specializationsOf o.traitRef.path)).value ≠ [] ∨
      (store.candidates holds o.ty o.traitRef .direct isConst
        (((store.implsOf o.traitRef.path).partition (·.isBlanket)).2.map
          fun d => (d, d.traitArgs))).value ≠ [] ∨
      (store.candidates holds o.ty o.traitRef .blanket isConst
        (((store.implsOf o.traitRef.path).partition (·.isBlanket)).1.map
          fun d => (d, d.traitArgs))).value ≠ []) ↔
      ∃ d args s, store.Presents o.traitRef.path d args ∧ store.Applies d args o s ∧
        ∀ b ∈ d.bounds, Finds holds (b.ty.substitute s) (b.traitRef.substitute s) := by
  have matches_iff : ∀ {d args}, store.Presents o.traitRef.path d args →
      ((store.matchImpl holds d args o.ty o.traitRef).value.isSome = true ↔
        ∃ s, store.Applies d args o s ∧
          ∀ b ∈ d.bounds, Finds holds (b.ty.substitute s) (b.traitRef.substitute s)) :=
    fun presents => matchImpl_isSome_iff (plain _ presents.mem_impls)
  rw [specialized_ne_nil_iff, candidates_ne_nil_iff, candidates_ne_nil_iff]
  simp only [List.partition_eq_filter_filter, List.mem_map, exists_exists_and_eq_and,
    List.mem_filter, Function.comp_apply]
  constructor
  · rintro (⟨trait, member, spec, given, d, own, found⟩ | ⟨d, ⟨own, _⟩, found⟩ | ⟨d, ⟨own, _⟩, found⟩)
    · have presents := Presents.specialized member given own
      obtain ⟨s, applies, bounds⟩ := (matches_iff presents).mp found
      exact ⟨d, _, s, presents, applies, bounds⟩
    · obtain ⟨s, applies, bounds⟩ := (matches_iff (.own own)).mp found
      exact ⟨d, _, s, .own own, applies, bounds⟩
    · obtain ⟨s, applies, bounds⟩ := (matches_iff (.own own)).mp found
      exact ⟨d, _, s, .own own, applies, bounds⟩
  · rintro ⟨d, args, s, presents, applies, bounds⟩
    have found := (matches_iff presents).mpr ⟨s, applies, bounds⟩
    cases presents with
    | own member =>
      cases blanket : d.isBlanket with
      | true => exact Or.inr (Or.inr ⟨d, ⟨member, blanket⟩, found⟩)
      | false => exact Or.inr (Or.inl ⟨d, ⟨member, by simp [blanket]⟩, found⟩)
    | specialized member given own => exact Or.inl ⟨_, member, _, given, d, own, found⟩

/-- The first tier that is not empty decides, so that there is a candidate if any tier has one. -/
private theorem ofTiers_ne_notImplemented_iff (derived direct blanket : List Candidate) :
    (match Resolution.ofTier derived with
      | some r => r
      | none =>
        match Resolution.ofTier direct with
        | some r => r
        | none => (Resolution.ofTier blanket).getD .notImplemented) ≠ .notImplemented ↔
      derived ≠ [] ∨ direct ≠ [] ∨ blanket ≠ [] := by
  cases first : Resolution.ofTier derived with
  | some r =>
    have some_ne : derived ≠ [] := by rw [ne_eq, ← ofTier_eq_none_iff, first]; simp
    simp [some_ne, ofTier_ne_notImplemented first]
  | none =>
    rw [ofTier_eq_none_iff] at first
    cases second : Resolution.ofTier direct with
    | some r =>
      have some_ne : direct ≠ [] := by rw [ne_eq, ← ofTier_eq_none_iff, second]; simp
      simp [some_ne, ofTier_ne_notImplemented second]
    | none =>
      rw [ofTier_eq_none_iff] at second
      cases third : Resolution.ofTier blanket with
      | some r =>
        have some_ne : blanket ≠ [] := by rw [ne_eq, ← ofTier_eq_none_iff, third]; simp
        simp [some_ne, ofTier_ne_notImplemented third]
      | none =>
        rw [ofTier_eq_none_iff] at third
        simp [first, second, third]

private theorem select_ne_notImplemented_iff {holds : Resolver} (trait : TraitDecl)
    {o : Obligation} (plain : store.PlainBounds) :
    (store.select holds trait o.ty o.traitRef).value ≠ .notImplemented ↔
      store.Inference (Finds holds) o := by
  have tiers_iff := tiers_ne_nil_iff holds o (fun d => d.isConst || trait.specialization.isSome) plain
  unfold Inference
  rw [← tiers_iff, ← ofTiers_ne_notImplemented_iff]
  unfold select
  dsimp only
  split
  · rename_i c promised
    have opaqueTy : ∃ p, o.ty = TraitRef.promiseTy p ∧ store.promised? p o.traitRef = some c := by
      split at promised
      · rename_i path args assoc opaqueTy
        exact ⟨⟨path, args, assoc⟩, opaqueTy, promised⟩
      · cases promised
    obtain ⟨p, opaqueTy, found⟩ := opaqueTy
    simp only [Logged.value_pure, ne_eq, reduceCtorEq, not_false_eq_true, true_iff]
    exact Or.inl ⟨p, c, opaqueTy, found⟩
  · rename_i unpromised
    have none_promised : ¬ ∃ p c, o.ty = TraitRef.promiseTy p ∧
        store.promised? p o.traitRef = some c := by
      rintro ⟨p, c, opaqueTy, found⟩
      rw [opaqueTy] at unpromised
      simp only [TraitRef.promiseTy] at unpromised
      rw [found] at unpromised
      cases unpromised
    simp only [none_promised, false_or, Logged.value_bind]
    cases first : Resolution.ofTier (store.specialized holds o.ty o.traitRef
        (store.specializationsOf o.traitRef.path)).value with
    | some r => simp
    | none =>
      simp only [Logged.value_bind]
      split <;> simp_all

/-! ### The whole search -/

private theorem resolveInside_succ {depth : Nat} {stack : List Obligation} {ty : Ty} {t : TraitRef}
    {o : Obligation} (plain : store.PlainBounds) (asks : store.Asks ty t o) :
    (store.resolveInside (depth + 1) stack ty t).value ≠ .notImplemented ↔
      o ∉ stack ∧ store.Inference (Finds (store.resolveInside depth (o :: stack))) o := by
  obtain ⟨trait, declared, rfl⟩ := asks
  rw [← select_ne_notImplemented_iff trait plain]
  by_cases cyclic : store.obligation trait ty t ∈ stack
  · simp [resolveInside, declared, cyclic]
  · simp [resolveInside, declared, cyclic]

private theorem resolveInside_asks {depth : Nat} {stack : List Obligation} {ty : Ty} {t : TraitRef}
    (found : (store.resolveInside depth stack ty t).value ≠ .notImplemented) :
    ∃ o, store.Asks ty t o := by
  cases declared : store.trait? t.path with
  | none => cases depth <;> simp [resolveInside, declared] at found
  | some trait => exact ⟨_, trait, declared, rfl⟩

/-- Whatever a search finds has a derivation, also inside other obligations. -/
theorem derivation_of_resolveInside (plain : store.PlainBounds) {depth : Nat}
    {stack : List Obligation} {ty : Ty} {t : TraitRef}
    (found : (store.resolveInside depth stack ty t).value ≠ .notImplemented) :
    store.Derivation depth ty t := by
  induction depth generalizing stack ty t with
  | zero =>
    cases declared : store.trait? t.path <;> simp [resolveInside, declared] at found
  | succ depth ih =>
    obtain ⟨o, asks⟩ := resolveInside_asks found
    have step := ((resolveInside_succ plain asks).mp found).2
    exact derivation_succ_iff.mpr ⟨o, asks, step.mono fun _ _ => ih⟩

/-- No obligation of the stack has a derivation in `n` levels. -/
private def Fresh (store : Store) (stack : List Obligation) (n : Nat) : Prop :=
  ∀ o ∈ stack, ∀ ty t, store.Asks ty t o → ¬ store.Derivation n ty t

/-- A goal is found inside obligations that are harder to derive than itself. -/
private theorem resolveInside_of_derivation (plain : store.PlainBounds) {depth n : Nat}
    {stack : List Obligation} {ty : Ty} {t : TraitRef} (derived : store.Derivation n ty t)
    (le : n ≤ depth) (fresh : store.Fresh stack n) :
    (store.resolveInside depth stack ty t).value ≠ .notImplemented := by
  classical
  induction depth generalizing n stack ty t with
  | zero =>
    obtain rfl := Nat.le_zero.mp le
    cases derived
  | succ depth ih =>
    have some_depth : ∃ k, store.Derivation k ty t := ⟨n, derived⟩
    -- The least depth: no obligation of the same goal is derived in fewer levels.
    have least := Nat.find_spec some_depth
    have least_le : Nat.find some_depth ≤ n := Nat.find_min' some_depth derived
    cases shape : Nat.find some_depth with
    | zero =>
      rw [shape] at least
      cases least
    | succ j =>
      rw [shape] at least least_le
      obtain ⟨o, asks, step⟩ := derivation_succ_iff.mp least
      have not_sooner : ¬ store.Derivation j ty t := Nat.find_min some_depth (by omega)
      have fresh_inside : store.Fresh (o :: stack) j := by
        intro o' member ty' t' asks' derived'
        rcases List.mem_cons.mp member with rfl | member
        · exact not_sooner (derived'.congr asks' asks)
        · exact fresh o' member ty' t' asks' (derived'.mono (by omega))
      have not_cyclic : o ∉ stack := fun member => fresh o member ty t asks derived
      exact (resolveInside_succ plain asks).mpr ⟨not_cyclic,
        step.mono fun _ _ bound => ih bound (by omega) fresh_inside⟩

/-- Resolution finds a candidate exactly for what has a derivation no deeper than the limit. In
particular it never misses one by refusing an obligation that is already being resolved. -/
theorem resolveTo_ne_notImplemented_iff (store : Store) (plain : store.PlainBounds) (depth : Nat)
    (ty : Ty) (t : TraitRef) :
    (store.resolveTo depth ty t).value ≠ .notImplemented ↔ store.Derivation depth ty t := by
  have same : (store.resolveTo depth ty t).value = (store.resolveInside depth [] ty t).value := rfl
  rw [same]
  constructor
  · exact derivation_of_resolveInside plain
  · intro derived
    exact resolveInside_of_derivation plain derived le_rfl (by simp [Fresh])

/-- A bound on a parameter by a trait without arguments. -/
private def boundBy (param path : String) : Bound := ⟨.param param, .plain path [], false⟩

/-- An impl of a trait without arguments. -/
private def implOf (id : Nat) (generics : List String) (target : Ty) (path : String)
    (bounds : List Bound) : ImplDecl where
  id := id
  module := "m"
  document := "m.yaml"
  generics := generics.map fun name => ⟨name, .type, none⟩
  target := target
  traitRef := some (.plain path [])
  bounds := bounds
  assoc := []
  methods := []
  isConst := false
  origin := .declared

/-- Two traits imply each other for every type, and a third one implies the second of them. -/
def circularStore : Store where
  index := default
  scopes := []
  types := []
  traits := NameMap.ofList (["Base", "Loud", "Show"].map fun name =>
    (name, ⟨name, name, "m", [], [], [], none, none⟩))
  impls := [implOf 0 ["T"] (.param "T") "Show" [boundBy "T" "Loud"],
    implOf 1 ["T"] (.param "T") "Loud" [boundBy "T" "Show"],
    implOf 2 ["T"] (.param "T") "Loud" [boundBy "T" "Base"],
    implOf 3 [] (.named "Thing" []) "Base" []]
  extensions := []
  schemas := []
  maxDepth := 8

/-- The search for `Show` meets it again below `Loud` and still ends well at the third level, but
not before. -/
theorem circularStore_derivation :
    circularStore.PlainBounds ∧
      circularStore.Derivation 3 (.named "Thing" []) (.plain "Show" []) ∧
      ¬ circularStore.Derivation 2 (.named "Thing" []) (.plain "Show" []) := by
  have plain : circularStore.PlainBounds := by
    unfold PlainBounds
    decide
  refine ⟨plain, (resolveTo_ne_notImplemented_iff circularStore plain 3 _ _).mp (by decide), ?_⟩
  intro derived
  exact (resolveTo_ne_notImplemented_iff circularStore plain 2 _ _).mpr derived (by decide)

end Store
end Pipeline
