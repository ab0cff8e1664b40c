import Pipeline.Proofs.Ty.Openness
import Pipeline.Ty.Unify

/-!
# Merging types with parts left open

Two types fit if there is a type above both of them. That two types fit a third one is no reason for
them to fit each other, since it may leave open where they differ. But types each two of which fit
lie below one type together, if their opaque types constrain nothing: a constraint that only one of
two types has is not compared.
-/

set_option autoImplicit false
set_option relaxedAutoImplicit false

namespace Pipeline.Ty

/-! ### Types without constraints -/

/-- True for an opaque type that constrains an associated type. -/
def isConstrained : Ty → Bool
  | promise _ _ (_ :: _) => true
  | _ => false

mutual

/-- The type without the constraints of its opaque types. -/
def bare : Ty → Ty
  | named path args => named path (bareList args)
  | fn params ret => fn (bareList params) (bare ret)
  | promise path args _ => promise path (bareList args) []
  | projection base name => projection (bare base) name
  | t => t

/-- All types of a list without constraints. -/
def bareList : List Ty → List Ty
  | [] => []
  | t :: ts => bare t :: bareList ts

end

theorem bareList_eq_map (ts : List Ty) : bareList ts = ts.map bare := by
  induction ts with
  | nil => rfl
  | cons t rest ih => rw [bareList, ih, List.map_cons]

@[simp] theorem bare_named (path : String) (args : List Ty) :
    (named path args).bare = named path (args.map bare) := by rw [bare, bareList_eq_map]

@[simp] theorem bare_fn (params : List Ty) (ret : Ty) :
    (fn params ret).bare = fn (params.map bare) ret.bare := by rw [bare, bareList_eq_map]

@[simp] theorem bare_promise (path : String) (args : List Ty) (assoc : List (String × Ty)) :
    (promise path args assoc).bare = promise path (args.map bare) [] := by rw [bare, bareList_eq_map]

@[simp] theorem bare_projection (base : Ty) (name : String) :
    (projection base name).bare = projection base.bare name := by rw [bare]

theorem without_isConstrained_bare (t : Ty) : t.bare.Without isConstrained := by
  induction t using inductionOn with
  | named path args ih =>
    rw [bare_named, without_named]
    exact ⟨rfl, List.forall_mem_map.mpr ih⟩
  | fn params ret ihs ih =>
    rw [bare_fn, without_fn]
    exact ⟨rfl, List.forall_mem_map.mpr ihs, ih⟩
  | promise path args assoc ihs =>
    rw [bare_promise, without_promise]
    exact ⟨rfl, List.forall_mem_map.mpr ihs, List.forall_mem_nil _⟩
  | projection base name ih =>
    rw [bare_projection, without_projection]
    exact ⟨rfl, ih⟩
  | param | const | selfTy | infer | unit => rfl

/-- A promise without constraints has none. -/
private theorem assoc_eq_nil {path : String} {args : List Ty} {assoc : List (String × Ty)}
    (free : (promise path args assoc).Without isConstrained) : assoc = [] := by
  cases assoc with
  | nil => rfl
  | cons => exact absurd (without_promise.mp free).1 (by simp [isConstrained])

theorem bare_eq_self {t : Ty} (free : t.Without isConstrained) : t.bare = t := by
  induction t using inductionOn with
  | named path args ih =>
    rw [without_named] at free
    rw [bare_named, List.map_congr_left fun t member => ih t member (free.2 t member), List.map_id']
  | fn params ret ihs ih =>
    rw [without_fn] at free
    rw [bare_fn, List.map_congr_left fun t member => ihs t member (free.2.1 t member),
      List.map_id', ih free.2.2]
  | promise path args assoc ihs =>
    obtain rfl := assoc_eq_nil free
    rw [without_promise] at free
    rw [bare_promise, List.map_congr_left fun t member => ihs t member (free.2.1 t member),
      List.map_id']
  | projection base name ih =>
    rw [without_projection] at free
    rw [bare_projection, ih free.2]
  | param | const | selfTy | infer | unit => rfl

/-- Nothing is left open where nothing was. -/
theorem Without.bare {t : Ty} (closed : t.Without isInfer) : t.bare.Without isInfer := by
  induction t using inductionOn with
  | named path args ih =>
    rw [without_named] at closed
    rw [bare_named, without_named]
    exact ⟨rfl, List.forall_mem_map.mpr fun t member => ih t member (closed.2 t member)⟩
  | fn params ret ihs ih =>
    rw [without_fn] at closed
    rw [bare_fn, without_fn]
    exact ⟨rfl, List.forall_mem_map.mpr fun t member => ihs t member (closed.2.1 t member),
      ih closed.2.2⟩
  | promise path args assoc ihs =>
    rw [without_promise] at closed
    rw [bare_promise, without_promise]
    exact ⟨rfl, List.forall_mem_map.mpr fun t member => ihs t member (closed.2.1 t member),
      List.forall_mem_nil _⟩
  | projection base name ih =>
    rw [without_projection] at closed
    rw [bare_projection, without_projection]
    exact ⟨rfl, ih closed.2⟩
  | param | const | selfTy | infer | unit => exact closed

private theorem forall₂_map {R S : Ty → Ty → Prop} {f g : Ty → Ty} {ts us : List Ty}
    (each : List.Forall₂ R ts us) (inside : ∀ t ∈ ts, ∀ u, R t u → S (f t) (g u)) :
    List.Forall₂ S (ts.map f) (us.map g) := by
  induction each with
  | nil => exact .nil
  | cons here _ ih =>
    rw [List.forall_mem_cons] at inside
    exact .cons (inside.1 _ here) (ih inside.2)

theorem Below.bare {t u : Ty} (below : t.Below u) : t.bare.Below u.bare := by
  induction t using inductionOn generalizing u with
  | named path args ih =>
    obtain ⟨args', rfl, inside⟩ := below
    rw [bare_named, bare_named]
    exact ⟨_, rfl, belowList_iff.mpr (forall₂_map (belowList_iff.mp inside) fun t member _ =>
      ih t member)⟩
  | fn params ret ihs ih =>
    obtain ⟨params', ret', rfl, inside, result⟩ := below
    rw [bare_fn, bare_fn]
    exact ⟨_, _, rfl, belowList_iff.mpr (forall₂_map (belowList_iff.mp inside) fun t member _ =>
      ihs t member), ih result⟩
  | promise path args assoc ihs =>
    obtain ⟨args', assoc', rfl, inside, -⟩ := below
    rw [bare_promise, bare_promise]
    exact ⟨_, _, rfl, belowList_iff.mpr (forall₂_map (belowList_iff.mp inside) fun t member _ =>
      ihs t member), trivial⟩
  | projection base name ih =>
    obtain ⟨base', rfl, inside⟩ := below
    rw [bare_projection, bare_projection]
    exact ⟨_, rfl, ih inside⟩
  | infer => trivial
  | param | const | selfTy | unit =>
    obtain rfl := below
    exact below_refl _

/-! ### Types that fit, part by part -/

theorem alignList_each {onParam : OnParam} {ps ts : List Ty} {s s' : Subst}
    (same : ps.length = ts.length) (fits : alignList onParam ps ts s = (true, s')) :
    List.Forall₂ (fun p t => ∃ s s', align onParam p t s = (true, s')) ps ts := by
  induction ps generalizing ts s with
  | nil =>
    obtain rfl := List.length_eq_zero_iff.mp same.symm
    exact .nil
  | cons p rest ih =>
    cases ts with
    | nil => cases same
    | cons t ts =>
      obtain ⟨s₁, first, fits⟩ := alignList_cons_iff.mp fits
      exact .cons ⟨s, s₁, first⟩ (ih (Nat.succ.inj same) fits)

theorem alignAssoc_each {onParam : OnParam} {ps ts : List (String × Ty)} {s s' : Subst}
    (fits : alignAssoc onParam ps ts s = (true, s')) :
    ∀ c ∈ ps, ∀ d, ts.find? (·.1 == c.1) = some d →
      ∃ s s', align onParam c.2 d.2 s = (true, s') := by
  induction ps generalizing s with
  | nil => nofun
  | cons c rest ih =>
    rw [List.forall_mem_cons]
    obtain ⟨absent, fits⟩ | ⟨d, s₁, there, first, fits⟩ := alignAssoc_cons_iff.mp fits
    · exact ⟨fun d found => (Option.some_ne_none d (found.symm.trans absent)).elim, ih fits⟩
    · refine ⟨fun d found => ⟨s, s₁, ?_⟩, ih fits⟩
      obtain rfl := Option.some.inj (there.symm.trans found)
      exact first

private theorem fits_iff_align {p t : Ty} (s : Subst) :
    p.fits t = true ↔ align (fun _ _ _ => none) p t s = (true, s) := by
  rw [align_rigid, Prod.mk.injEq, and_iff_left rfl]

private theorem fits_of_align {p t : Ty}
    (aligned : ∃ s s', align (fun _ _ _ => none) p t s = (true, s')) : p.fits t = true := by
  obtain ⟨s, s', aligned⟩ := aligned
  rw [align_rigid] at aligned
  exact congrArg Prod.fst aligned

theorem fits_infer (t : Ty) : t.fits infer = true := by cases t <;> rfl

theorem fits_leaf {t u : Ty} (leaf : t.isLeaf = true) (fits : t.fits u = true) :
    t = infer ∨ u = infer ∨ t = u := by
  cases t <;> cases u <;> simp_all [Ty.fits, align, rigid, isLeaf]

theorem fits_named_iff {path path' : String} {args args' : List Ty} :
    (named path args).fits (named path' args') = true ↔
      path = path' ∧ List.Forall₂ (fun t u => t.fits u = true) args args' := by
  constructor
  · intro fits
    rw [fits_iff_align [], align_named_iff] at fits
    obtain ⟨⟨⟩, -⟩ | ⟨_, ⟨⟩, length, aligned⟩ := fits
    exact ⟨rfl, (alignList_each length aligned).imp fun _ _ => fits_of_align⟩
  · rintro ⟨rfl, each⟩
    exact fits_named each

theorem fits_fn_iff {params params' : List Ty} {ret ret' : Ty} :
    (fn params ret).fits (fn params' ret') = true ↔
      List.Forall₂ (fun t u => t.fits u = true) params params' ∧ ret.fits ret' = true := by
  constructor
  · intro fits
    rw [fits_iff_align [], align_fn_iff] at fits
    obtain ⟨⟨⟩, -⟩ | ⟨_, _, s₁, ⟨⟩, length, first, aligned⟩ := fits
    exact ⟨(alignList_each length first).imp fun _ _ => fits_of_align,
      fits_of_align ⟨s₁, [], aligned⟩⟩
  · rintro ⟨each, result⟩
    exact fits_fn each result

theorem fits_promise_iff {path path' : String} {args args' : List Ty}
    {assoc assoc' : List (String × Ty)} :
    (promise path args assoc).fits (promise path' args' assoc') = true ↔
      path = path' ∧ List.Forall₂ (fun t u => t.fits u = true) args args' ∧
        ∀ c ∈ assoc, ∀ d, assoc'.find? (·.1 == c.1) = some d → c.2.fits d.2 = true := by
  constructor
  · intro fits
    rw [fits_iff_align [], align_promise_iff] at fits
    obtain ⟨⟨⟩, -⟩ | ⟨_, _, s₁, ⟨⟩, length, first, aligned⟩ := fits
    exact ⟨rfl, (alignList_each length first).imp fun _ _ => fits_of_align,
      fun c member d found => fits_of_align (alignAssoc_each aligned c member d found)⟩
  · rintro ⟨rfl, each, constraints⟩
    exact fits_promise each constraints

theorem fits_projection_iff {base base' : Ty} {name name' : String} :
    (projection base name).fits (projection base' name') = true ↔
      name = name' ∧ base.fits base' = true := by
  constructor
  · intro fits
    rw [fits_iff_align [], align_projection_iff] at fits
    obtain ⟨⟨⟩, -⟩ | ⟨_, ⟨⟩, aligned⟩ := fits
    exact ⟨rfl, fits_of_align ⟨[], [], aligned⟩⟩
  · rintro ⟨rfl, inside⟩
    exact fits_projection inside

/-! ### Types above others -/

private theorem forall₂_comp {α β γ : Type} {R : α → β → Prop} {S : β → γ → Prop} {T : α → γ → Prop}
    {as : List α} {bs : List β} {cs : List γ} (first : List.Forall₂ R as bs)
    (second : List.Forall₂ S bs cs) (both : ∀ a ∈ as, ∀ b c, R a b → S b c → T a c) :
    List.Forall₂ T as cs := by
  induction first generalizing cs with
  | nil =>
    cases second
    exact .nil
  | cons here _ ih =>
    cases second with
    | cons here' there' =>
      rw [List.forall_mem_cons] at both
      exact .cons (both.1 _ _ here here') (ih there' both.2)

theorem Below.trans {t u v : Ty} (below : t.Below u) (above : u.Below v) : t.Below v := by
  induction t using inductionOn generalizing u v with
  | named path args ih =>
    obtain ⟨args', rfl, inside⟩ := below
    obtain ⟨args'', rfl, inside'⟩ := above
    exact ⟨args'', rfl, belowList_iff.mpr (forall₂_comp (belowList_iff.mp inside)
      (belowList_iff.mp inside') fun t member _ _ => ih t member)⟩
  | fn params ret ihs ih =>
    obtain ⟨params', ret', rfl, inside, result⟩ := below
    obtain ⟨params'', ret'', rfl, inside', result'⟩ := above
    exact ⟨params'', ret'', rfl, belowList_iff.mpr (forall₂_comp (belowList_iff.mp inside)
      (belowList_iff.mp inside') fun t member _ _ => ihs t member), ih result result'⟩
  | promise path args assoc ihs ihc =>
    obtain ⟨args', assoc', rfl, inside, constraints⟩ := below
    obtain ⟨args'', assoc'', rfl, inside', constraints'⟩ := above
    refine ⟨args'', assoc'', rfl, belowList_iff.mpr (forall₂_comp (belowList_iff.mp inside)
      (belowList_iff.mp inside') fun t member _ _ => ihs t member), ?_⟩
    exact belowAssoc_iff.mpr (forall₂_comp (belowAssoc_iff.mp constraints)
      (belowAssoc_iff.mp constraints') fun c member _ _ here there =>
        ⟨here.1.trans there.1, ihc c member here.2 there.2⟩)
  | projection base name ih =>
    obtain ⟨base', rfl, inside⟩ := below
    obtain ⟨base'', rfl, inside'⟩ := above
    exact ⟨base'', rfl, ih inside inside'⟩
  | infer => trivial
  | param | const | selfTy | unit =>
    obtain rfl := below
    exact above

section

attribute [local simp] Below

theorem below_named {t : Ty} {path : String} {args : List Ty} (below : t.Below (named path args)) :
    t = infer ∨ ∃ args', t = named path args' ∧ BelowList args' args := by
  cases t <;> simp_all

theorem below_fn {t ret : Ty} {params : List Ty} (below : t.Below (fn params ret)) :
    t = infer ∨ ∃ params' ret', t = fn params' ret' ∧ BelowList params' params ∧ ret'.Below ret := by
  cases t <;> simp_all

theorem below_promise {t : Ty} {path : String} {args : List Ty} {assoc : List (String × Ty)}
    (below : t.Below (promise path args assoc)) :
    t = infer ∨ ∃ args' assoc', t = promise path args' assoc' ∧ BelowList args' args ∧
      BelowAssoc assoc' assoc := by
  cases t <;> simp_all

theorem below_projection {t base : Ty} {name : String} (below : t.Below (projection base name)) :
    t = infer ∨ ∃ base', t = projection base' name ∧ base'.Below base := by
  cases t <;> simp_all

theorem below_leaf {t u : Ty} (leaf : u.isLeaf = true) (below : t.Below u) :
    t = infer ∨ t = u := by
  cases t <;> cases u <;> simp_all [isLeaf]

end

/-- Types below one type fit, if there are no constraints to compare. -/
theorem fits_of_below {t u m : Ty} (free : t.Without isConstrained) (below : t.Below m)
    (other : u.Below m) : t.fits u = true := by
  have each {ts us ms : List Ty} (inside : ∀ t ∈ ts, ∀ {u m}, t.Below m → u.Below m → t.fits u = true)
      (below : BelowList ts ms) (other : BelowList us ms) :
      List.Forall₂ (fun t u => t.fits u = true) ts us :=
    forall₂_comp (belowList_iff.mp below) (belowList_iff.mp other).flip fun t member _ _ =>
      inside t member
  induction t using inductionOn generalizing u m with
  | named path args ih =>
    obtain ⟨ms, rfl, inside⟩ := below
    rcases below_named other with rfl | ⟨args', rfl, inside'⟩
    · exact fits_infer _
    · exact fits_named (each (fun t member _ _ => ih t member ((without_named.mp free).2 t member))
        inside inside')
  | fn params ret ihs ih =>
    obtain ⟨ms, m, rfl, inside, result⟩ := below
    rw [without_fn] at free
    rcases below_fn other with rfl | ⟨params', ret', rfl, inside', result'⟩
    · exact fits_infer _
    · exact fits_fn (each (fun t member _ _ => ihs t member (free.2.1 t member)) inside inside')
        (ih free.2.2 result result')
  | promise path args assoc ihs =>
    obtain ⟨ms, _, rfl, inside, -⟩ := below
    obtain rfl := assoc_eq_nil free
    rcases below_promise other with rfl | ⟨args', assoc', rfl, inside', -⟩
    · exact fits_infer _
    · exact fits_promise (each (fun t member _ _ => ihs t member
        ((without_promise.mp free).2.1 t member)) inside inside') nofun
  | projection base name ih =>
    obtain ⟨m, rfl, inside⟩ := below
    rcases below_projection other with rfl | ⟨base', rfl, inside'⟩
    · exact fits_infer _
    · exact fits_projection (ih (without_projection.mp free).2 inside inside')
  | infer => rfl
  | param | const | selfTy | unit =>
    obtain rfl := below
    rcases below_leaf rfl other with rfl | rfl
    · exact fits_infer _
    · exact fits_self rfl

/-- A type above two others that fits what both of them fit. -/
structure Merges (t u m : Ty) : Prop where
  free : m.Without isConstrained
  left : t.Below m
  right : u.Below m
  fits : ∀ v : Ty, t.fits v = true → u.fits v = true → m.fits v = true

theorem Merges.infer_right {t : Ty} (free : t.Without isConstrained) : Merges t infer t :=
  ⟨free, below_refl t, trivial, fun _ fits _ => fits⟩

theorem Merges.infer_left {t : Ty} (free : t.Without isConstrained) : Merges infer t t :=
  ⟨free, trivial, below_refl t, fun _ _ fits => fits⟩

private theorem exists_mergeList {ts us : List Ty}
    (each : List.Forall₂ (fun t u => t.fits u = true) ts us)
    (free : ∀ u ∈ us, u.Without isConstrained)
    (merge : ∀ t ∈ ts, ∀ {u : Ty}, u.Without isConstrained → t.fits u = true → ∃ m, Merges t u m) :
    ∃ ms : List Ty, (∀ m ∈ ms, m.Without isConstrained) ∧ BelowList ts ms ∧ BelowList us ms ∧
      ∀ vs, List.Forall₂ (fun t v => t.fits v = true) ts vs →
        List.Forall₂ (fun u v => u.fits v = true) us vs →
        List.Forall₂ (fun m v => m.fits v = true) ms vs := by
  induction each with
  | nil => exact ⟨[], nofun, trivial, trivial, fun _ none _ => none⟩
  | cons here _ ih =>
    rw [List.forall_mem_cons] at free merge
    obtain ⟨m, merges⟩ := merge.1 free.1 here
    obtain ⟨ms, frees, left, right, both⟩ := ih free.2 merge.2
    refine ⟨m :: ms, List.forall_mem_cons.mpr ⟨merges.free, frees⟩, ⟨merges.left, left⟩,
      ⟨merges.right, right⟩, fun vs fits fits' => ?_⟩
    cases fits with
    | cons here there =>
      cases fits' with
      | cons here' there' => exact .cons (merges.fits _ here here') (both _ there there')

/-- Types that fit lie below a type together, and what fits both of them fits this. -/
theorem exists_merge {t u : Ty} (free : t.Without isConstrained) (free' : u.Without isConstrained)
    (fits : t.fits u = true) : ∃ m, Merges t u m := by
  induction t using inductionOn generalizing u with
  | named path args ih =>
    rw [without_named] at free
    have ih (t : Ty) (member : t ∈ args) {u : Ty} := @ih t member u (free.2 t member)
    cases u with
    | infer => exact ⟨_, .infer_right (without_named.mpr free)⟩
    | named path' args' =>
      obtain ⟨rfl, each⟩ := fits_named_iff.mp fits
      obtain ⟨ms, frees, left, right, both⟩ := exists_mergeList each (without_named.mp free').2 ih
      refine ⟨named path ms, without_named.mpr ⟨rfl, frees⟩, ⟨ms, rfl, left⟩, ⟨ms, rfl, right⟩,
        fun v fits fits' => ?_⟩
      cases v with
      | infer => rfl
      | named path'' args'' =>
        rw [fits_named_iff] at fits fits' ⊢
        exact ⟨fits.1, both _ fits.2 fits'.2⟩
      | _ => cases fits
    | _ => cases fits
  | fn params ret ihs ih =>
    rw [without_fn] at free
    have ihs (t : Ty) (member : t ∈ params) {u : Ty} := @ihs t member u (free.2.1 t member)
    cases u with
    | infer => exact ⟨_, .infer_right (without_fn.mpr free)⟩
    | fn params' ret' =>
      rw [without_fn] at free'
      obtain ⟨each, result⟩ := fits_fn_iff.mp fits
      obtain ⟨ms, frees, left, right, both⟩ := exists_mergeList each free'.2.1 ihs
      obtain ⟨m, merges⟩ := ih free.2.2 free'.2.2 result
      refine ⟨fn ms m, without_fn.mpr ⟨rfl, frees, merges.free⟩, ⟨ms, m, rfl, left, merges.left⟩,
        ⟨ms, m, rfl, right, merges.right⟩, fun v fits fits' => ?_⟩
      cases v with
      | infer => rfl
      | fn params'' ret'' =>
        rw [fits_fn_iff] at fits fits' ⊢
        exact ⟨both _ fits.1 fits'.1, merges.fits _ fits.2 fits'.2⟩
      | _ => cases fits
    | _ => cases fits
  | promise path args assoc ihs =>
    obtain rfl := assoc_eq_nil free
    rw [without_promise] at free
    have ihs (t : Ty) (member : t ∈ args) {u : Ty} := @ihs t member u (free.2.1 t member)
    cases u with
    | infer => exact ⟨_, .infer_right (without_promise.mpr free)⟩
    | promise path' args' assoc' =>
      obtain rfl := assoc_eq_nil free'
      obtain ⟨rfl, each, -⟩ := fits_promise_iff.mp fits
      obtain ⟨ms, frees, left, right, both⟩ := exists_mergeList each (without_promise.mp free').2.1 ihs
      refine ⟨promise path ms [], without_promise.mpr ⟨rfl, frees, List.forall_mem_nil _⟩,
        ⟨ms, [], rfl, left, trivial⟩, ⟨ms, [], rfl, right, trivial⟩, fun v fits fits' => ?_⟩
      cases v with
      | infer => rfl
      | promise path'' args'' assoc'' =>
        rw [fits_promise_iff] at fits fits' ⊢
        exact ⟨fits.1, both _ fits.2.1 fits'.2.1, nofun⟩
      | _ => cases fits
    | _ => cases fits
  | projection base name ih =>
    rw [without_projection] at free
    cases u with
    | infer => exact ⟨_, .infer_right (without_projection.mpr free)⟩
    | projection base' name' =>
      obtain ⟨rfl, inside⟩ := fits_projection_iff.mp fits
      obtain ⟨m, merges⟩ := ih free.2 (without_projection.mp free').2 inside
      refine ⟨projection m name, without_projection.mpr ⟨rfl, merges.free⟩, ⟨m, rfl, merges.left⟩,
        ⟨m, rfl, merges.right⟩, fun v fits fits' => ?_⟩
      cases v with
      | infer => rfl
      | projection base'' name'' =>
        rw [fits_projection_iff] at fits fits' ⊢
        exact ⟨fits.1, merges.fits _ fits.2 fits'.2⟩
      | _ => cases fits
    | _ => cases fits
  | infer => exact ⟨u, .infer_left free'⟩
  | param | const | selfTy | unit =>
    rcases fits_leaf rfl fits with same | rfl | rfl
    · cases same
    · exact ⟨_, .infer_right free⟩
    · exact ⟨_, free, below_refl _, below_refl _, fun _ fits _ => fits⟩

/-- Types each two of which fit lie below one type together. -/
theorem exists_above {ts : List Ty} (free : ∀ t ∈ ts, t.Without isConstrained)
    (each : ts.Pairwise fun t u => t.fits u = true) :
    ∃ m : Ty, ∀ t ∈ ts, t.Below m := by
  -- What has been merged fits all types that are left.
  have merged (m : Ty) (before : m.Without isConstrained) (fits : ∀ t ∈ ts, m.fits t = true) :
      ∃ m' : Ty, m.Below m' ∧ ∀ t ∈ ts, t.Below m' := by
    induction ts generalizing m with
    | nil => exact ⟨m, below_refl m, nofun⟩
    | cons t rest ih =>
      rw [List.forall_mem_cons] at free fits
      rw [List.pairwise_cons] at each
      obtain ⟨n, merges⟩ := exists_merge before free.1 fits.1
      obtain ⟨m', above, all⟩ := ih free.2 each.2 n merges.free fun u member =>
        merges.fits u (fits.2 u member) (each.1 u member)
      exact ⟨m', merges.left.trans above,
        List.forall_mem_cons.mpr ⟨merges.right.trans above, all⟩⟩
  obtain ⟨m, -, all⟩ := merged infer rfl fun _ _ => rfl
  exact ⟨m, all⟩

/-! ### Leaving nothing open -/

/-- The type with the unit type in the places of its wildcards. -/
def closed (t : Ty) : Ty := t.replace fun
  | infer => some unit
  | _ => none

theorem closed_named (path : String) (args : List Ty) :
    (named path args).closed = named path (args.map closed) := by
  rw [closed, Ty.replace]
  exact congrArg (named path) (replaceList_eq_map _ args)

theorem closed_fn (params : List Ty) (ret : Ty) :
    (fn params ret).closed = fn (params.map closed) ret.closed := by
  rw [closed, Ty.replace]
  exact congrArg (fn · ret.closed) (replaceList_eq_map _ params)

theorem closed_promise (path : String) (args : List Ty) (assoc : List (String × Ty)) :
    (promise path args assoc).closed =
      promise path (args.map closed) (assoc.map fun c => (c.1, c.2.closed)) := by
  rw [closed, Ty.replace]
  dsimp only
  rw [replaceList_eq_map, replaceAssoc_eq_map]
  rfl

theorem closed_projection (base : Ty) (name : String) :
    (projection base name).closed = projection base.closed name := by
  rw [closed, Ty.replace]
  rfl

theorem without_isInfer_closed (t : Ty) : t.closed.Without isInfer := by
  induction t using inductionOn with
  | named path args ih =>
    rw [closed_named, without_named]
    exact ⟨rfl, List.forall_mem_map.mpr ih⟩
  | fn params ret ihs ih =>
    rw [closed_fn, without_fn]
    exact ⟨rfl, List.forall_mem_map.mpr ihs, ih⟩
  | promise path args assoc ihs ihc =>
    rw [closed_promise, without_promise]
    exact ⟨rfl, List.forall_mem_map.mpr ihs, List.forall_mem_map.mpr ihc⟩
  | projection base name ih =>
    rw [closed_projection, without_projection]
    exact ⟨rfl, ih⟩
  | param | const | selfTy | infer | unit => rfl

private theorem forall₂_self_map {α : Type} {R : α → α → Prop} {f : α → α} {xs : List α}
    (each : ∀ x ∈ xs, R x (f x)) : List.Forall₂ R xs (xs.map f) :=
  List.forall₂_map_right_iff.mpr (List.forall₂_same.mpr each)

theorem below_closed (t : Ty) : t.Below t.closed := by
  induction t using inductionOn with
  | named path args ih =>
    rw [closed_named]
    exact ⟨_, rfl, belowList_iff.mpr (forall₂_self_map ih)⟩
  | fn params ret ihs ih =>
    rw [closed_fn]
    exact ⟨_, _, rfl, belowList_iff.mpr (forall₂_self_map ihs), ih⟩
  | promise path args assoc ihs ihc =>
    rw [closed_promise]
    exact ⟨_, _, rfl, belowList_iff.mpr (forall₂_self_map ihs),
      belowAssoc_iff.mpr (forall₂_self_map fun c member => ⟨rfl, ihc c member⟩)⟩
  | projection base name ih =>
    rw [closed_projection]
    exact ⟨_, rfl, ih⟩
  | infer => trivial
  | param | const | selfTy | unit => rfl

end Pipeline.Ty
