import Pipeline.Proofs.Obligation.Origin
import Pipeline.Proofs.Obligation.Reach
import Pipeline.Proofs.Store.Impls
import Pipeline.Proofs.Ty.Matching

/-!
# What specialization implies

A trait that specializes another one says which arguments of the other one its own arguments imply.
What meets an obligation of the special trait is laid over the arguments implied in its turn, and
nothing else is: neither what a third trait implies, nor what a promise without arguments leaves
open. It meets the obligation implied, at declaration time, if the block gives all arguments and
these tell what the bounds of the impl are about, and if the search does not come back to where it
started.
-/

set_option autoImplicit false
set_option relaxedAutoImplicit false

namespace Pipeline

/-- A block gives all arguments of the trait it implies, in terms of the parameters of its own
trait. -/
structure Specialization.Full (spec : Specialization) (trait base : TraitDecl) : Prop where
  path : spec.target.path = base.path
  all : spec.target.args.length = base.generics.length
  own : Ty.AllOver (.own trait.generics false) spec.target.args

namespace Store

/-- The trait that a block says a type implements, for arguments of the trait of the block. -/
def impliedTrait (trait : TraitDecl) (spec : Specialization) (self : Ty) (args : List Ty) :
    TraitRef :=
  .plain spec.target.path (impliedArgs trait (spec.target.withSelf self) args)

/-- All types of an obligation are known. -/
def Settled (store : Store) (o : Obligation) : Prop :=
  ∀ t ∈ o.ty :: o.traitRef.args, t.Without store.standsForOthers

/-- An impl of a trait can be laid over what a block implies: aliases in its arguments and in those
implied expand, and its target and the arguments implied mention all parameters that its bounds are
about. -/
structure Conveys (store : Store) (d : ImplDecl) (trait : TraitDecl) (spec : Specialization) :
    Prop where
  args : ∀ t ∈ d.traitArgs, store.Expands (store.maxDepth + 1) t
  implied : ∀ t ∈ impliedArgs trait spec.target d.traitArgs, store.Expands (store.maxDepth + 1) t
  once : ∀ t ∈ impliedArgs trait spec.target d.traitArgs,
    (store.normalize t).Without Ty.repeatsConstraint
  told : ∀ b ∈ d.bounds, ∀ t ∈ b.terms, ∀ name ∈ t.params,
    ∃ u ∈ d.target :: impliedArgs trait spec.target d.traitArgs, name ∈ (store.normalize u).params

variable {store : Store} {trait base : TraitDecl} {spec : Specialization} {d : ImplDecl}
  {o o' : Obligation} {s s' : Subst}

/-! ### The arguments implied -/

theorem impliedArgs_eq_map (trait : TraitDecl) (target : TraitRef) (args : List Ty) :
    impliedArgs trait target args =
      target.args.map (Ty.substitute (Generic.assign trait.generics args)) :=
  Ty.replaceList_eq_map _ target.args

theorem impliedTrait_eq (full : spec.Full trait base) (self : Ty) (args : List Ty) :
    impliedTrait trait spec self args = .plain base.path (impliedArgs trait spec.target args) := by
  have same : (spec.target.withSelf self).args = spec.target.args := by
    rw [TraitRef.withSelf, TraitRef.replace]
    dsimp only
    rw [Ty.replaceList_eq_map]
    refine (List.map_congr_left fun t member => ?_).trans (List.map_id _)
    refine Ty.replace_of_over (full.own t member) fun part admitted => ?_
    cases part with
    | selfTy => cases admitted
    | _ => rfl
  rw [impliedTrait, impliedArgs_eq_map, impliedArgs_eq_map, same, full.path]

/-- The obligation implied asks for the arguments implied, and for nothing more. -/
theorem obligation_implied (full : spec.Full trait base) (ty : Ty) (args : List Ty) :
    store.obligation base ty (impliedTrait trait spec (store.normalize ty) args) =
      ⟨store.normalize ty, .plain base.path ((impliedArgs trait spec.target args).map
        store.normalize)⟩ := by
  have length : base.generics.length ≤ (impliedArgs trait spec.target args).length := by
    rw [impliedArgs_eq_map, List.length_map, full.all]
  rw [impliedTrait_eq full, obligation, TraitRef.plain, TraitDecl.completeArgs,
    List.drop_eq_nil_of_le length]
  rfl

/-- An argument implied by what an impl presents becomes the one implied by the arguments asked
for, up to wildcards. -/
private theorem implied_below {t : Ty} {args given : List Ty}
    (covers : Generic.Covers trait.generics args t)
    (binds : s.Binds store.standsForOthers (Generic.names d.generics))
    (expands : store.Expands (store.maxDepth + 1)
      (t.substitute (Generic.assign trait.generics args)))
    (each : ∀ u ∈ args, store.Expands (store.maxDepth + 1) u)
    (become : List.Forall₂ Ty.Below ((args.map store.normalize).map (Ty.substitute s)) given) :
    ((store.normalize (t.substitute (Generic.assign trait.generics args))).substitute s).Below
      (store.normalize (t.substitute (Generic.assign trait.generics given))) := by
  have free (name : String) (u : Ty) (found : s.get? name = some u) : store.AliasFree u :=
    aliasFree_of_settled (binds name u found).2
  have inside := expands.substitute free
  rw [covers.substitute] at inside
  have expanded := (inside.1.normalizeTo_args (Nat.le_refl _)).2
  have same : (args.map (Ty.substitute s)).map store.normalize =
      (args.map store.normalize).map (Ty.substitute s) := by
    rw [List.map_map, List.map_map]
    exact List.map_congr_left fun u member => ((each u member).substitute free).2
  have below : (t.substitute _).Below (t.substitute _) :=
    (Ty.below_refl t).substitute fun _ => @Generic.assign_rel trait.generics _ _ _ become _
  rw [← same] at below
  have normal := store.normalizeTo_below (n := store.maxDepth + 1) below
  rw [normalize, ← inside.2, ← expanded]
  exact normal

/-- The arguments implied mention only what those presented do. -/
private theorem implied_decides {vars : List String} {t : Ty} {args : List Ty}
    (covers : Generic.Covers trait.generics args t)
    (expands : store.Expands (store.maxDepth + 1)
      (t.substitute (Generic.assign trait.generics args)))
    (decides : ∀ u ∈ args.map store.normalize, s.Decides vars u) :
    s.Decides vars (store.normalize (t.substitute (Generic.assign trait.generics args))) := by
  obtain ⟨expanded, same⟩ := expands.normalizeTo_args (Nat.le_refl _)
  rw [normalize, ← same]
  exact expanded.paramsIn (((Generic.covers_map _).mpr covers).paramsIn decides)

/-! ### An impl laid over both obligations -/

private theorem substitute_traitRef (t : TraitRef) (s : Subst) :
    (t.substitute s).asTy = t.asTy.substitute s := by
  rw [TraitRef.asTy, TraitRef.asTy, Ty.substitute_promise, TraitRef.substitute, TraitRef.replace]
  dsimp only
  rw [Ty.replaceList_eq_map, Ty.replaceAssoc_eq_map]
  rfl

private theorem asTy_injective {t u : TraitRef} (same : t.asTy = u.asTy) : t = u := by
  cases t
  cases u
  cases same
  rfl

/-- What a bound is about comes to the same by bindings that decide its parameters. -/
private theorem Conveys.substitute_bound (conveys : store.Conveys d trait spec)
    (binds : s.Binds store.standsForOthers (Generic.names d.generics)) (within : s'.Within s)
    (decides : ∀ u ∈ d.target :: impliedArgs trait spec.target d.traitArgs,
      s'.Decides (Generic.names d.generics) (store.normalize u)) {b : Pipeline.Bound}
    (member : b ∈ d.bounds) :
    b.ty.substitute s' = b.ty.substitute s ∧ b.traitRef.substitute s' = b.traitRef.substitute s := by
  have same (t : Ty) (about : t ∈ b.terms) : t.substitute s' = t.substitute s := by
    refine Ty.substitute_congr_params fun name inside => ?_
    rw [Ty.substitute_param, Ty.substitute_param]
    obtain ⟨u, listed, told⟩ := conveys.told b member t about name inside
    by_cases bindable : name ∈ Generic.names d.generics
    · have decided := Ty.paramsIn_iff.mp (decides u listed) name told
      rw [List.contains_iff_mem.mpr bindable, Bool.not_true, Bool.false_or] at decided
      obtain ⟨v, found⟩ := Option.isSome_iff_exists.mp decided
      rw [found, within name v found]
    · have unbound := binds.get?_eq_none bindable
      cases found : s'.get? name with
      | none => rw [unbound]
      | some v => cases unbound.symm.trans (within name v found)
  refine ⟨same b.ty List.mem_cons_self, asTy_injective ?_⟩
  rw [substitute_traitRef, substitute_traitRef]
  exact same _ (List.mem_cons_of_mem _ List.mem_cons_self)

/-- An impl that applies to an obligation of its trait applies to the obligation implied, and its
bounds are about the same. -/
theorem Conveys.applies (conveys : store.Conveys d trait spec) (full : spec.Full trait base)
    (settled : store.Settled o) (arity : d.traitArgs.length = trait.generics.length)
    (applies : store.Applies d d.traitArgs o s) (ty : o'.ty = o.ty)
    (args : o'.traitRef.args =
      (impliedArgs trait spec.target o.traitRef.args).map store.normalize)
    (unconstrained : o'.traitRef.assoc = []) :
    ∃ s', store.Applies d (impliedArgs trait spec.target d.traitArgs) o' s' ∧ ∀ b ∈ d.bounds,
      b.ty.substitute s' = b.ty.substitute s ∧
        b.traitRef.substitute s' = b.traitRef.substitute s := by
  obtain ⟨s₀, target, length, own⟩ := applies.form
  rw [Settled, List.forall_mem_cons] at settled
  have vague := @coversVague_standsForOthers store
  have first := vague.solves Subst.binds_nil settled.1 target
  have second := vague.solvesAll (by rw [List.length_map, length]) first.binds settled.2 own
  have covers (t : Ty) (member : t ∈ spec.target.args) :
      Generic.Covers trait.generics d.traitArgs t :=
    covers_of_own (full.own t member) (Nat.le_of_eq arity.symm)
  have expands := conveys.implied
  rw [impliedArgs_eq_map, List.forall_mem_map] at expands
  have become : List.Forall₂ Ty.Below
      (((impliedArgs trait spec.target d.traitArgs).map store.normalize).map (Ty.substitute s))
      o'.traitRef.args := by
    rw [args, impliedArgs_eq_map, impliedArgs_eq_map, List.map_map, List.map_map, List.map_map,
      List.forall₂_map_left_iff, List.forall₂_map_right_iff, List.forall₂_same]
    exact fun t member => implied_below (covers t member) second.binds (expands t member)
      conveys.args (second.becomes s .refl second.binds)
  have decides : ∀ u ∈ (impliedArgs trait spec.target d.traitArgs).map store.normalize,
      s.Decides (Generic.names d.generics) u := by
    rw [impliedArgs_eq_map, List.map_map, List.forall_mem_map]
    exact fun t member => implied_decides (covers t member) (expands t member) second.decides
  -- The implied arguments need not bind all parameters that the impl's own arguments do.
  obtain ⟨s', fits, grows⟩ := vague.reachesAll second.binds decides
    (List.forall_mem_map.mpr conveys.once) become second.keeps
  refine ⟨s', ⟨⟨s₀, ty ▸ target, ?_, fits⟩, ?_⟩, fun b member =>
    conveys.substitute_bound second.binds grows.within ?_ member⟩
  · rw [args, impliedArgs_eq_map, impliedArgs_eq_map, List.length_map, List.length_map,
      List.length_map]
  · rw [unconstrained]
    rfl
  · exact List.forall_mem_cons.mpr ⟨first.decides.mono grows.keeps,
      List.forall_mem_map.mp grows.decides⟩

/-! ### The tier of derived candidates -/

variable {holds holds' : Resolver} {c : Candidate}

/-- What is found through a special trait holds at declaration time. -/
theorem isConst_of_mem_specialized {ty : Ty} {query : TraitRef} {traits : List TraitDecl}
    (member : c ∈ (store.specialized holds ty query traits).value) : c.isConst = true := by
  induction traits with
  | nil => cases member
  | cons trait rest ih =>
    cases given : trait.specialization with
    | none =>
      simp only [specialized, given] at member
      exact ih member
    | some spec =>
      simp only [specialized, given, Logged.value_bind, Logged.value_pure, List.mem_append,
        candidates_value] at member
      rcases member with here | behind
      · obtain ⟨p, -, found⟩ := List.mem_filterMap.mp here
        obtain ⟨m, -, rfl⟩ := Option.map_eq_some_iff.mp found
        rfl
      · exact ih behind

/-- Every impl of a special trait that matches with the arguments implied is found. -/
theorem specialized_ne_nil {ty : Ty} {query : TraitRef} {traits : List TraitDecl}
    (among : trait ∈ traits) (given : trait.specialization = some spec)
    (own : d ∈ store.implsOf trait.path) {m : Subst × List (String × Ty)}
    (found : (store.matchImpl holds d (impliedArgs trait spec.target d.traitArgs) ty query).value =
      some m) : (store.specialized holds ty query traits).value ≠ [] := by
  induction traits with
  | nil => cases among
  | cons first rest ih =>
    cases first_given : first.specialization with
    | none =>
      rcases List.mem_cons.mp among with rfl | behind
      · cases first_given.symm.trans given
      · simpa [specialized, first_given] using ih behind
    | some first_spec =>
      simp only [specialized, first_given, Logged.value_bind, Logged.value_pure, ne_eq,
        List.append_eq_nil_iff, not_and_or]
      rcases List.mem_cons.mp among with rfl | behind
      · left
        cases first_given.symm.trans given
        rw [candidates_value, List.filterMap_eq_nil_iff]
        intro none
        have missing := none _ (List.mem_map_of_mem own)
        rw [candidate?, found] at missing
        cases missing
      · exact Or.inr (ih behind)

/-- A tier of candidates that hold at declaration time decides, and does so for bounds that ask for
this. -/
theorem firstTier_satisfies {derived direct blanket : List Candidate} (some_derived : derived ≠ [])
    (const : ∀ c ∈ derived, c.isConst = true) :
    (firstTier derived direct blanket).satisfies true = true := by
  match derived with
  | [] => exact absurd rfl some_derived
  | [c] => simpa [firstTier, Resolution.ofTier, Resolution.satisfies] using const
  | c :: c' :: rest => simpa [firstTier, Resolution.ofTier, Resolution.satisfies] using const

/-- A candidate that is no promise and not found through another trait is an impl that applies. -/
theorem exists_applies (met : (store.select holds trait o.ty o.traitRef).value = .met c)
    (origin : c.origin = .direct ∨ c.origin = .blanket) :
    ∃ d ∈ store.implsOf o.traitRef.path, c.implId = some d.id ∧ ∃ s,
      store.Applies d d.traitArgs o s ∧ (boundsHold holds s d.bounds).value = true := by
  have of_own {from_ : CandidateOrigin} {kept : ImplDecl → Bool}
      (member : c ∈ store.ownCandidates holds trait o.ty o.traitRef from_ kept) :
      ∃ d ∈ store.implsOf o.traitRef.path, c.implId = some d.id ∧ ∃ s,
        store.Applies d d.traitArgs o s ∧ (boundsHold holds s d.bounds).value = true := by
    rw [ownCandidates, candidates_value] at member
    obtain ⟨p, inside, found⟩ := List.mem_filterMap.mp member
    obtain ⟨d, listed, rfl⟩ := List.mem_map.mp inside
    obtain ⟨⟨s, assoc⟩, matched, rfl⟩ := Option.map_eq_some_iff.mp found
    obtain ⟨applies, bounds, -⟩ := matchImpl_eq_some.mp matched
    exact ⟨d, List.mem_of_mem_filter listed, rfl, s, applies, bounds⟩
  rw [select_value] at met
  cases promised : store.promisedBy? o.ty o.traitRef with
  | some p =>
    rw [promised] at met
    cases met
    rcases origin with direct | blanket
    · cases direct.symm.trans (promisedBy?_origin promised).2
    · cases blanket.symm.trans (promisedBy?_origin promised).2
  | none =>
    rw [promised, Option.map_none, Option.getD_none] at met
    rcases mem_of_firstTier met with derived | direct | blanket
    · obtain ⟨other, -, stands⟩ := mem_specialized derived
      rcases origin with direct | blanket
      · cases direct.symm.trans stands.1
      · cases blanket.symm.trans stands.1
    · exact of_own direct
    · exact of_own blanket

theorem promisedBy?_settled {ty : Ty} (settled : ty.Without store.standsForOthers)
    (query : TraitRef) : store.promisedBy? ty query = none := by
  cases ty with
  | promise path args assoc => exact absurd settled coversVague_standsForOthers.not_promise
  | _ => rfl

/-! ### The obligation implied -/

/-- What meets an obligation can be laid over the obligation implied. It is an impl of the trait
itself, or the promise of an opaque type with all its arguments; the search for the bounds of an
impl does not come back to either obligation. -/
inductive Conveyed (store : Store) (trait : TraitDecl) (spec : Specialization) (o o' : Obligation)
    (c : Candidate) : Prop
  | byImpl : c.origin = .direct ∨ c.origin = .blanket → store.Settled o →
      (∀ d ∈ store.implsOf trait.path, c.implId = some d.id → store.Conveys d trait spec) →
      (∀ below, Relation.TransGen store.GivesRise o below → below ≠ o ∧ below ≠ o') →
      Conveyed store trait spec o o' c
  | byPromise {args : List Ty} {assoc : List (String × Ty)} :
      c.origin = .promised → o.ty = .promise trait.path args assoc →
      trait.path ≠ spec.target.path → args.length = o.traitRef.args.length →
      (∀ t ∈ spec.target.args, store.AliasFree t ∧ t.Without Ty.repeatsConstraint) →
      (∀ t ∈ o.traitRef.args, store.AliasFree t) → Conveyed store trait spec o o' c

/-- An impl of a special trait is found for the obligation implied, whatever else is. -/
private theorem select_byImpl (full : spec.Full trait base)
    (given : trait.specialization = some spec)
    (special : trait ∈ store.specializationsOf base.path)
    (arity : ∀ d ∈ store.implsOf trait.path, d.traitArgs.length = trait.generics.length)
    {depth : Nat} {ty : Ty} (asked : o.ty = ty) (path : o.traitRef.path = trait.path)
    (implied : o' = ⟨ty, .plain base.path ((impliedArgs trait spec.target o.traitRef.args).map
      store.normalize)⟩)
    (met : (store.select (store.resolveInside depth [o]) trait o.ty o.traitRef).value = .met c)
    (origin : c.origin = .direct ∨ c.origin = .blanket) (settled : store.Settled o)
    (conveys : ∀ d ∈ store.implsOf trait.path, c.implId = some d.id → store.Conveys d trait spec)
    (apart : ∀ below, Relation.TransGen store.GivesRise o below → below ≠ o ∧ below ≠ o') :
    (store.select (store.resolveInside depth [o']) base o'.ty o'.traitRef).value.satisfies true =
      true := by
  obtain ⟨d, own, id, s, applies, bounds⟩ := exists_applies met origin
  rw [path] at own
  have conveys := conveys d own id
  have same_ty : o'.ty = o.ty := by rw [implied, asked]
  obtain ⟨s', applies', same⟩ := conveys.applies full settled (arity d own) applies same_ty
    (by rw [implied]; rfl) (by rw [implied]; rfl)
  have presents : store.Presents o.traitRef.path d d.traitArgs := path ▸ .own own
  -- Below the bounds of the impl, both searches see the same.
  have alike : (boundsHold (store.resolveInside depth [o]) s d.bounds).value =
      (boundsHold (store.resolveInside depth [o']) s' d.bounds).value := by
    refine boundsHold_congr fun b member => ?_
    rw [(same b member).1, (same b member).2]
    refine resolveInside_congr fun first asks below reached => ?_
    have further := apart below
      (.head' ⟨d, d.traitArgs, s, presents, applies, b, member, asks⟩ reached)
    simp [further.1, further.2]
  have found := matchImpl_eq_some.mpr ⟨applies', alike ▸ bounds, rfl⟩
  have unpromised : store.promisedBy? o'.ty o'.traitRef = none := by
    rw [implied]
    exact promisedBy?_settled (asked ▸ settled o.ty List.mem_cons_self) _
  have query : o'.traitRef.path = base.path := by rw [implied]; rfl
  rw [select_value, unpromised, Option.map_none, Option.getD_none]
  exact firstTier_satisfies (specialized_ne_nil (query ▸ special) given own found)
    fun _ => isConst_of_mem_specialized

theorem promisedBy?_of_origin (met : (store.select holds trait o.ty o.traitRef).value = .met c)
    (origin : c.origin = .promised) : store.promisedBy? o.ty o.traitRef = some c := by
  rw [select_value] at met
  cases promised : store.promisedBy? o.ty o.traitRef with
  | some p =>
    rw [promised] at met
    cases met
    rfl
  | none =>
    rw [promised, Option.map_none, Option.getD_none] at met
    rcases mem_of_firstTier met with derived | direct | blanket
    · obtain ⟨other, -, stands⟩ := mem_specialized derived
      cases origin.symm.trans stands.1
    · cases origin.symm.trans (mem_candidates direct).1
    · cases origin.symm.trans (mem_candidates blanket).1

/-- The promise of a special trait is a promise of the trait implied. -/
private theorem promised?_implied (full : spec.Full trait base)
    (declared : store.trait? trait.path = some trait) (given : trait.specialization = some spec)
    {args asked : List Ty} {assoc constraints : List (String × Ty)}
    (promised : store.promised? ⟨trait.path, args, assoc⟩ ⟨trait.path, asked, constraints⟩ = some c)
    (other : trait.path ≠ spec.target.path) (length : args.length = asked.length)
    (plain : ∀ t ∈ spec.target.args, store.AliasFree t ∧ t.Without Ty.repeatsConstraint)
    (free : ∀ t ∈ asked, store.AliasFree t) :
    store.promised? ⟨trait.path, args, assoc⟩
        (.plain base.path ((impliedArgs trait spec.target asked).map store.normalize)) =
      some ⟨none, base.path, .promised, [], true, assoc⟩ := by
  have fits : List.Forall₂ (fun t u => t.fits u = true) args asked := by
    simp only [promised?, Option.bind_eq_bind, if_true, Option.bind_some,
      Option.ite_none_right_eq_some, Bool.and_eq_true] at promised
    exact List.forall₂_iff_zip.mpr
      ⟨length, fun member => List.all_eq_true.mp promised.1.1 _ member⟩
  have same : (impliedArgs trait spec.target asked).map store.normalize =
      impliedArgs trait spec.target asked := by
    rw [impliedArgs_eq_map, List.map_map]
    refine List.map_congr_left fun t member => ?_
    have expanded : store.normalize (t.substitute (Generic.assign trait.generics asked)) =
        (store.normalize t).substitute (Generic.assign trait.generics asked) :=
      ((plain t member).1.expands.substitute fun _ u found =>
        free u (Generic.mem_of_get?_assign found)).2
    exact expanded.trans (congrArg _ (plain t member).1.normalizeTo)
  have implied : List.Forall₂ (fun t u => t.fits u = true) (impliedArgs trait spec.target args)
      (impliedArgs trait spec.target asked) := by
    rw [impliedArgs_eq_map, impliedArgs_eq_map, List.forall₂_map_left_iff,
      List.forall₂_map_right_iff, List.forall₂_same]
    exact fun t member => Ty.fits_substitute (plain t member).2 fun _ => Generic.assign_rel fits _
  have all : ((impliedArgs trait spec.target args).zip
      (impliedArgs trait spec.target asked)).all (fun a => a.1.fits a.2) = true :=
    List.all_eq_true.mpr fun a member => (List.forall₂_iff_zip.mp implied).2 member
  rw [same, promised?]
  simp only [TraitRef.plain, full.path ▸ other, declared, given, full.path, Option.bind_eq_bind,
    if_false, if_true, Option.bind_some, all, Candidate.assocFits, List.all_nil, Bool.and_self]

/-- A type that implements a special trait implements the trait implied at declaration time, with
the arguments implied: there is a candidate, and every one of them holds at declaration time. -/
theorem resolve_specialized (ds : List Document) (maxDepth : Nat) (s : Store)
    (loaded : (load ds maxDepth).value = .ok s) (trait base : TraitDecl) (spec : Specialization)
    (declared : s.trait? trait.path = some trait) (implied : s.trait? base.path = some base)
    (given : trait.specialization = some spec) (full : spec.Full trait base) (ty : Ty) (t : TraitRef)
    (path : t.path = trait.path) (c : Candidate) (met : (s.resolve ty t).value = .met c)
    (conveyed : s.Conveyed trait spec (s.obligation trait ty t)
      (s.obligation base ty (impliedTrait trait spec (s.normalize ty)
        (s.obligation trait ty t).traitRef.args)) c) :
    (s.resolve ty (impliedTrait trait spec (s.normalize ty)
      (s.obligation trait ty t).traitRef.args)).value.satisfies true = true := by
  obtain ⟨sound, made⟩ := sound_of_load loaded
  have declared' : s.trait? t.path = some trait := path ▸ declared
  have shape := @obligation_implied s _ _ _ full ty (s.obligation trait ty t).traitRef.args
  have implied' : s.trait? (impliedTrait trait spec (s.normalize ty)
      (s.obligation trait ty t).traitRef.args).path = some base := full.path ▸ implied
  cases limit : s.maxDepth with
  | zero =>
    have none : (s.resolve ty t).value = (s.resolveInside s.maxDepth [] ty t).value := rfl
    rw [none, limit, resolveInside, declared'] at met
    cases met
  | succ depth =>
    rw [resolve_value declared' limit] at met
    rw [resolve_value implied' limit]
    have own : (s.obligation trait ty t).traitRef.path = trait.path := path
    cases conveyed with
    | byImpl origin settled conveys apart =>
      have special : trait ∈ s.specializationsOf base.path :=
        List.mem_filter.mpr ⟨NameMap.mem_values declared, by simp [given, full.path]⟩
      have arity : ∀ d ∈ s.implsOf trait.path, d.traitArgs.length = trait.generics.length := by
        intro d member
        obtain ⟨inside, u, implements, named⟩ := mem_implsOf.mp member
        subst made
        rw [ImplDecl.traitArgs, implements]
        exact sound.length_traitArgs inside implements (named ▸ declared)
      exact select_byImpl full given special arity rfl own shape met origin settled conveys apart
    | @byPromise args assoc origin promise other length plain free =>
      have promise : s.normalize ty = .promise trait.path args assoc := promise
      have promised : s.promised? ⟨trait.path, args, assoc⟩ ⟨trait.path,
          (s.obligation trait ty t).traitRef.args, (s.obligation trait ty t).traitRef.assoc⟩ =
            some c := by
        have by_type : s.promisedBy? (s.normalize ty) (s.obligation trait ty t).traitRef = some c :=
          @promisedBy?_of_origin s trait (s.obligation trait ty t) _ c met origin
        rw [promise] at by_type
        exact own ▸ by_type
      have stands := promised?_implied full declared given promised other length plain free
      rw [shape, select_value, promise, promisedBy?, stands]
      rfl

/-- A trait without methods. -/
def bareTrait (generics : List String) (implied : Option String) : TraitEntry where
  generics := generics
  assoc := []
  methods := []
  specialization := implied.map fun target => ⟨target, []⟩
  explain := none

/-- An impl without methods. -/
def bareImpl (target trait : String) (generics : List String) : ImplEntry where
  target := target
  traitRef := some trait
  generics := generics
  bounds := []
  assoc := []
  methods := []
  isConst := false
  explain := none

/-- A document in which titles imply names, and books have titles of all types that are loud. -/
def titles : Document where
  module := "shop"
  origin := "shop"
  version := supportedVersion
  kind := .struct
  types := [("Book", ⟨[], [("pages", .short "u64")], [], none, none, none⟩),
    ("Text", ⟨[], [], [], none, some "String", none⟩)]
  traits := [("Loud", bareTrait [] none), ("Named", bareTrait ["K"] none),
    ("Titled", bareTrait ["A"] (some "Named<Vec<A>>"))]
  impls := [bareImpl "String" "Loud" [], bareImpl "Book" "Titled<T>" ["T: Loud"]]

/-- A type of the document. -/
def book : Ty := .named "shop::Book" []

/-- An opaque type that promises titles without saying of which type. -/
def someTitled : Ty := .promise "shop::Titled" [] []

/-- Titles of a type. -/
def titled (arg : Ty) : TraitRef := .plain "shop::Titled" [arg]

/-- Names by lists of strings, which titles that are strings imply. -/
def namedByStrings : TraitRef :=
  .plain "shop::Named" [.named Builtin.vec [.named Builtin.string []]]

/-- What the block of titles says. -/
private def TitlesBlock (trait base : TraitDecl) (spec : Specialization) : Prop :=
  trait.path = "shop::Titled" ∧ base.path = "shop::Named" ∧ spec.target.path = base.path ∧
    spec.target.args.length = base.generics.length ∧
    Ty.AllOver (.own trait.generics false) spec.target.args

private instance (trait base : TraitDecl) (spec : Specialization) :
    Decidable (TitlesBlock trait base spec) :=
  inferInstanceAs (Decidable (_ ∧ _))

/-- What comes of asking for the titles of a book, which are an alias. -/
private def TitlesAsked (s : Store) (trait : TraitDecl) (spec : Specialization) : Prop :=
  (s.resolve book (titled (.named "shop::Text" []))).value.candidate?.map (·.origin) =
      some .direct ∧
    s.obligation trait book (titled (.named "shop::Text" [])) =
      ⟨book, titled (.named Builtin.string [])⟩ ∧
    (∀ t ∈ [book, .named Builtin.string []], t.Without s.standsForOthers) ∧
    impliedTrait trait spec (s.normalize book) [.named Builtin.string []] = namedByStrings

private instance (s : Store) (trait : TraitDecl) (spec : Specialization) :
    Decidable (TitlesAsked s trait spec) :=
  inferInstanceAs (Decidable (_ ∧ _))

/-- What the impl for books says. -/
private def TitlesConveyed (s : Store) (trait : TraitDecl) (spec : Specialization) : Prop :=
  (∀ d ∈ s.implsOf "shop::Titled", (∀ t ∈ d.traitArgs, s.AliasFree t) ∧
    (∀ t ∈ impliedArgs trait spec.target d.traitArgs,
      s.AliasFree t ∧ (s.normalize t).Without Ty.repeatsConstraint) ∧
    ∀ b ∈ d.bounds, ∀ t ∈ b.terms, ∀ name ∈ t.params,
      ∃ u ∈ d.target :: impliedArgs trait spec.target d.traitArgs, name ∈ (s.normalize u).params) ∧
  ∀ d ∈ s.impls, ∀ b ∈ d.bounds, b.traitRef.path = "shop::Loud"

private instance (s : Store) (trait : TraitDecl) (spec : Specialization) :
    Decidable (TitlesConveyed s trait spec) :=
  inferInstanceAs (Decidable (_ ∧ _))

/-- What comes of asking an opaque type. -/
private def TitlesPromised (s : Store) : Prop :=
  (s.resolve someTitled (titled (.named Builtin.string []))).value.candidate?.isSome ∧
    (s.resolve someTitled namedByStrings).value = .notImplemented

private instance (s : Store) : Decidable (TitlesPromised s) := inferInstanceAs (Decidable (_ ∧ _))

private theorem titles_load : ∃ s, (load [titles] 4).value = .ok s ∧ TitlesPromised s ∧
    ∃ trait ∈ s.trait? "shop::Titled", ∃ base ∈ s.trait? "shop::Named",
      ∃ spec ∈ trait.specialization,
        TitlesBlock trait base spec ∧ TitlesAsked s trait spec ∧ TitlesConveyed s trait spec := by
  decide +kernel

/-- A book has titles that are strings by an impl, and is therefore named by lists of strings. -/
theorem resolve_specialized_book : ∃ s, (load [titles] 4).value = .ok s ∧
    (s.resolve book (titled (.named "shop::Text" []))).value.candidate?.isSome ∧
    (s.resolve book namedByStrings).value.satisfies true = true := by
  obtain ⟨s, loaded, -, trait, declared, base, implied, spec, given, block, asked, conveyed⟩ :=
    titles_load
  obtain ⟨path, base_path, target, all, own⟩ := block
  obtain ⟨met, obligation, settled, same⟩ := asked
  obtain ⟨c, found, origin⟩ := Option.map_eq_some_iff.mp met
  have met : (s.resolve book (titled (.named "shop::Text" []))).value = .met c := by
    generalize (s.resolve book (titled (.named "shop::Text" []))).value = r at found
    cases r with
    | met c' => exact congrArg _ (Option.some.inj found)
    | ambiguous cs => cases found
    | notImplemented => cases found
  have full : spec.Full trait base := ⟨target, all, own⟩
  have conveys : s.Conveyed trait spec (s.obligation trait book (titled (.named "shop::Text" [])))
      (s.obligation base book (impliedTrait trait spec (s.normalize book)
        (s.obligation trait book (titled (.named "shop::Text" []))).traitRef.args)) c := by
    refine .byImpl (Or.inl origin) ?_ (fun d member _ => ?_) fun below reached => ?_
    · rw [obligation]
      exact settled
    · obtain ⟨args, implied, told⟩ := conveyed.1 d (path ▸ member)
      exact ⟨fun t inside => (args t inside).expands, fun t inside => (implied t inside).1.expands,
        fun t inside => (implied t inside).2, told⟩
    · obtain ⟨d, member, b, bound, below_path⟩ := path_of_transGen reached
      rw [conveyed.2 d member b bound] at below_path
      constructor
      · rintro rfl
        exact absurd (show "shop::Titled" = "shop::Loud" from below_path) (by decide)
      · rintro rfl
        rw [obligation_implied full, base_path] at below_path
        exact absurd (show "shop::Named" = "shop::Loud" from below_path) (by decide)
  have implies := resolve_specialized _ 4 s loaded trait base spec (path ▸ declared)
    (base_path ▸ implied) given full book (titled (.named "shop::Text" [])) path.symm c met conveys
  rw [obligation, show (titled (.named Builtin.string [])).args = [.named Builtin.string []] from rfl,
    same] at implies
  exact ⟨s, loaded, by rw [found]; rfl, implies⟩

/-- An opaque type that promises titles of all types is not named by any. -/
theorem some_titled_unnamed : ∃ s, (load [titles] 4).value = .ok s ∧
    (s.resolve someTitled (titled (.named Builtin.string []))).value.candidate?.isSome ∧
    (s.resolve someTitled namedByStrings).value = .notImplemented := by
  obtain ⟨s, loaded, promised, -⟩ := titles_load
  exact ⟨s, loaded, promised⟩

end Store
end Pipeline
