import Mathlib.Data.List.Forall2
import Pipeline.Proofs.Induction
import Pipeline.Ty.Unify

/-!
# Types that fit

A type fits another one if its parts do. In particular it fits itself, unless an opaque type in it
constrains one associated type twice: the constraints of a target are looked up by name, and the
first one of a name is found.
-/

set_option autoImplicit false
set_option relaxedAutoImplicit false

namespace Pipeline.Ty

variable {p : Ty → Bool}

/-! ### Parts -/

theorem anyPartList_eq_false {ts : List Ty} :
    anyPartList p ts = false ↔ ∀ t ∈ ts, t.anyPart p = false := by
  induction ts with
  | nil => simp [anyPartList]
  | cons t rest ih => simp [anyPartList, ih]

theorem anyPartAssoc_eq_false {assoc : List (String × Ty)} :
    anyPartAssoc p assoc = false ↔ ∀ c ∈ assoc, c.2.anyPart p = false := by
  induction assoc with
  | nil => simp [anyPartAssoc]
  | cons c rest ih => simp [anyPartAssoc, ih]

/-! ### Laying types over each other -/

/-- True for an opaque type that constrains an associated type more than once. -/
def repeatsConstraint : Ty → Bool
  | promise _ _ assoc => !decide (assoc.map (·.1)).Nodup
  | _ => false

/-- No variable is bound. -/
private def noVariable : OnParam := fun _ _ _ => none

theorem find?_name {assoc : List (String × Ty)} (distinct : (assoc.map (·.1)).Nodup)
    {c : String × Ty} (member : c ∈ assoc) : assoc.find? (·.1 == c.1) = some c := by
  induction assoc with
  | nil => cases member
  | cons first rest ih =>
    rw [List.map_cons, List.nodup_cons] at distinct
    rcases List.mem_cons.mp member with rfl | inside
    · simp
    · have different : first.1 ≠ c.1 := by
        intro same
        exact distinct.1 (same ▸ List.mem_map_of_mem inside)
      rw [List.find?_cons_of_neg (by simpa using different)]
      exact ih distinct.2 inside

section Alike

variable {R : Subst → Subst → Prop} {onParam onParam' : OnParam}

/-- The same is said of a fit, and the bindings made are related. -/
def Alike (R : Subst → Subst → Prop) (r r' : Bool × Subst) : Prop := r.1 = r'.1 ∧ R r.2 r'.2

/-- Goes on with the bindings made, if there is a fit. -/
private def andThen (next : Subst → Bool × Subst) : Bool × Subst → Bool × Subst
  | (true, s) => next s
  | (false, s) => (false, s)

private theorem Alike.andThen {r r' : Bool × Subst} {next next' : Subst → Bool × Subst}
    (first : Alike R r r') (more : ∀ s s', R s s' → Alike R (next s) (next' s')) :
    Alike R (Ty.andThen next r) (Ty.andThen next' r') := by
  obtain ⟨fits, s⟩ := r
  obtain ⟨fits', s'⟩ := r'
  obtain ⟨same, related⟩ := first
  obtain rfl : fits = fits' := same
  cases fits with
  | true => exact more s s' related
  | false => exact ⟨rfl, related⟩

private theorem alignList_alike {ps ts : List Ty} {s s' : Subst}
    (each : ∀ p ∈ ps, ∀ t s s', R s s' → Alike R (align onParam p t s) (align onParam' p t s'))
    (related : R s s') : Alike R (alignList onParam ps ts s) (alignList onParam' ps ts s') := by
  induction ps generalizing ts s s' with
  | nil => exact ⟨rfl, related⟩
  | cons p rest ih =>
    cases ts with
    | nil => exact ⟨rfl, related⟩
    | cons t ts =>
      rw [List.forall_mem_cons] at each
      exact (each.1 t s s' related).andThen fun _ _ => ih each.2

private theorem alignAssoc_alike {ps ts : List (String × Ty)} {s s' : Subst}
    (each : ∀ c ∈ ps, ∀ t s s', R s s' → Alike R (align onParam c.2 t s) (align onParam' c.2 t s'))
    (related : R s s') : Alike R (alignAssoc onParam ps ts s) (alignAssoc onParam' ps ts s') := by
  induction ps generalizing s s' with
  | nil => exact ⟨rfl, related⟩
  | cons c rest ih =>
    rw [List.forall_mem_cons] at each
    rw [alignAssoc, alignAssoc]
    cases ts.find? (·.1 == c.1) with
    | none => exact ih each.2 related
    | some found => exact (each.1 found.2 s s' related).andThen fun _ _ => ih each.2

/-- What is laid over a type from related bindings, with parameters that are treated alike, ends
alike. -/
theorem align_alike (params : ∀ name t s s', R s s' →
      Alike R ((onParam name t s).getD (rigid name t, s))
        ((onParam' name t s').getD (rigid name t, s')))
    (p t : Ty) {s s' : Subst} (related : R s s') :
    Alike R (align onParam p t s) (align onParam' p t s') := by
  induction p using inductionOn generalizing t s s' with
  | param name => exact params name t s s' related
  | infer => exact ⟨rfl, related⟩
  | named path args ih =>
    have inside {ts : List Ty} :
        Alike R (alignList onParam args ts s) (alignList onParam' args ts s') :=
      alignList_alike (fun p member t _ _ => ih p member t) related
    simp only [align]
    cases t with
    | named path' args' =>
      dsimp only
      split
      · exact inside
      · exact ⟨rfl, related⟩
    | _ => exact ⟨rfl, related⟩
  | fn params ret ihs ih =>
    have inside {ts : List Ty} :
        Alike R (alignList onParam params ts s) (alignList onParam' params ts s') :=
      alignList_alike (fun p member t _ _ => ihs p member t) related
    simp only [align]
    cases t with
    | fn params' ret' =>
      dsimp only
      split
      · exact inside.andThen fun _ _ => ih ret'
      · exact ⟨rfl, related⟩
    | _ => exact ⟨rfl, related⟩
  | promise path args assoc ihs ihc =>
    have inside {ts : List Ty} :
        Alike R (alignList onParam args ts s) (alignList onParam' args ts s') :=
      alignList_alike (fun p member t _ _ => ihs p member t) related
    simp only [align]
    cases t with
    | promise path' args' assoc' =>
      dsimp only
      split
      · exact inside.andThen fun _ _ => alignAssoc_alike fun c member t _ _ => ihc c member t
      · exact ⟨rfl, related⟩
    | _ => exact ⟨rfl, related⟩
  | projection base name ih =>
    simp only [align]
    cases t with
    | projection base' name' =>
      dsimp only
      split
      · exact ih base' related
      · exact ⟨rfl, related⟩
    | _ => exact ⟨rfl, related⟩
  | const | selfTy | unit => simp only [align]; cases t <;> exact ⟨rfl, related⟩

end Alike

/-! ### What a pattern has been laid over

A pattern with parts fits the wildcard, from which it learns nothing, or a type of the same form which
its parts have been laid over. -/

section Forms

variable {onParam : OnParam} {t : Ty} {s s' : Subst}

attribute [local simp] align alignList alignAssoc

theorem align_named_iff {path : String} {args : List Ty} :
    align onParam (named path args) t s = (true, s') ↔
      (t = infer ∧ s' = s) ∨ ∃ args', t = named path args' ∧ args.length = args'.length ∧
        alignList onParam args args' s = (true, s') := by
  cases t with
  | infer => simp [eq_comm]
  | named path' args' =>
    by_cases same : path = path' ∧ args.length = args'.length
    · simp [same]
    · simp only [align, if_neg same]
      simpa [eq_comm] using fun here length => absurd ⟨here, length⟩ same
  | _ => simp

theorem align_fn_iff {params : List Ty} {ret : Ty} :
    align onParam (fn params ret) t s = (true, s') ↔
      (t = infer ∧ s' = s) ∨ ∃ params' ret' s₁, t = fn params' ret' ∧
        params.length = params'.length ∧ alignList onParam params params' s = (true, s₁) ∧
          align onParam ret ret' s₁ = (true, s') := by
  cases t with
  | infer => simp [eq_comm]
  | fn params' ret' =>
    by_cases same : params.length = params'.length
    · rcases first : alignList onParam params params' s with ⟨_ | _, s₁⟩ <;> simp [same, first]
    · simp [same]
  | _ => simp

theorem align_promise_iff {path : String} {args : List Ty} {assoc : List (String × Ty)} :
    align onParam (promise path args assoc) t s = (true, s') ↔
      (t = infer ∧ s' = s) ∨ ∃ args' assoc' s₁, t = promise path args' assoc' ∧
        args.length = args'.length ∧ alignList onParam args args' s = (true, s₁) ∧
          alignAssoc onParam assoc assoc' s₁ = (true, s') := by
  cases t with
  | infer => simp [eq_comm]
  | promise path' args' assoc' =>
    by_cases same : path = path' ∧ args.length = args'.length
    · rcases first : alignList onParam args args' s with ⟨_ | _, s₁⟩ <;> simp [same, first]
    · simp only [align, if_neg same]
      simpa [eq_comm] using fun here length => absurd ⟨here, length⟩ same
  | _ => simp

theorem align_projection_iff {base : Ty} {name : String} :
    align onParam (projection base name) t s = (true, s') ↔
      (t = infer ∧ s' = s) ∨ ∃ base', t = projection base' name ∧
        align onParam base base' s = (true, s') := by
  cases t with
  | infer => simp [eq_comm]
  | projection base' name' => by_cases same : name = name' <;> simp [same, eq_comm]
  | _ => simp

theorem alignList_cons_iff {p : Ty} {ps ts : List Ty} :
    alignList onParam (p :: ps) (t :: ts) s = (true, s') ↔
      ∃ s₁, align onParam p t s = (true, s₁) ∧ alignList onParam ps ts s₁ = (true, s') := by
  rcases first : align onParam p t s with ⟨_ | _, s₁⟩ <;> simp [first]

theorem alignAssoc_cons_iff {c : String × Ty} {ps ts : List (String × Ty)} :
    alignAssoc onParam (c :: ps) ts s = (true, s') ↔
      (ts.find? (·.1 == c.1) = none ∧ alignAssoc onParam ps ts s = (true, s')) ∨
        ∃ d s₁, ts.find? (·.1 == c.1) = some d ∧ align onParam c.2 d.2 s = (true, s₁) ∧
          alignAssoc onParam ps ts s₁ = (true, s') := by
  cases found : ts.find? (·.1 == c.1) with
  | none => simp [found]
  | some d =>
    rcases first : align onParam c.2 d.2 s with ⟨_ | _, s₁⟩ <;> simp [found, first]

end Forms

/-! ### Types that fit part by part -/

/-- Without variables nothing is bound. -/
theorem align_rigid (p t : Ty) (s : Subst) :
    align (fun _ _ _ => none) p t s = (p.fits t, s) := by
  have alike : Alike (fun s₁ s₂ => s₁ = s ∧ s₂ = []) (align noVariable p t s)
      (align noVariable p t []) := by
    apply align_alike _ p t ⟨rfl, rfl⟩
    intro name t s₁ s₂ related
    exact ⟨rfl, related⟩
  exact Prod.ext alike.1 alike.2.1

private theorem alignList_fits {ps ts : List Ty} {s : Subst}
    (each : List.Forall₂ (fun p t => p.fits t = true) ps ts) :
    alignList noVariable ps ts s = (true, s) := by
  induction each with
  | nil => rfl
  | @cons p t _ _ here _ ih =>
    have first : align noVariable p t s = (p.fits t, s) := align_rigid p t s
    rw [alignList, first, here]
    exact ih

private theorem alignAssoc_fits {ps ts : List (String × Ty)} {s : Subst}
    (each : ∀ c ∈ ps, ∀ d, ts.find? (·.1 == c.1) = some d → c.2.fits d.2 = true) :
    alignAssoc noVariable ps ts s = (true, s) := by
  induction ps with
  | nil => rfl
  | cons c rest ih =>
    rw [List.forall_mem_cons] at each
    rw [alignAssoc]
    cases found : ts.find? (·.1 == c.1) with
    | none => exact ih each.2
    | some d =>
      have first : align noVariable c.2 d.2 s = (c.2.fits d.2, s) := align_rigid c.2 d.2 s
      dsimp only
      rw [first, each.1 d found]
      exact ih each.2

theorem fits_named {path : String} {args args' : List Ty}
    (each : List.Forall₂ (fun t u => t.fits u = true) args args') :
    (named path args).fits (named path args') = true := by
  rw [fits, align, if_pos ⟨rfl, each.length_eq⟩]
  exact congrArg Prod.fst (alignList_fits each)

theorem fits_fn {params params' : List Ty} {ret ret' : Ty}
    (each : List.Forall₂ (fun t u => t.fits u = true) params params')
    (result : ret.fits ret' = true) : (fn params ret).fits (fn params' ret') = true := by
  have inside : alignList (fun _ _ _ => none) params params' [] = (true, []) := alignList_fits each
  rw [fits, align, if_pos each.length_eq, inside]
  exact result

theorem fits_promise {path : String} {args args' : List Ty} {assoc assoc' : List (String × Ty)}
    (each : List.Forall₂ (fun t u => t.fits u = true) args args')
    (constraints : ∀ c ∈ assoc, ∀ d, assoc'.find? (·.1 == c.1) = some d → c.2.fits d.2 = true) :
    (promise path args assoc).fits (promise path args' assoc') = true := by
  have inside : alignList (fun _ _ _ => none) args args' [] = (true, []) := alignList_fits each
  rw [fits, align, if_pos ⟨rfl, each.length_eq⟩, inside]
  exact congrArg Prod.fst (alignAssoc_fits constraints)

theorem fits_projection {base base' : Ty} {name : String} (inside : base.fits base' = true) :
    (projection base name).fits (projection base' name) = true := by
  rw [fits, align, if_pos rfl]
  exact inside

/-- A type fits itself if no opaque type in it repeats a constraint. -/
theorem fits_self {t : Ty} (distinct : t.anyPart repeatsConstraint = false) :
    t.fits t = true := by
  induction t using inductionOn with
  | named path args ih =>
    have inside : anyPartList repeatsConstraint args = false := by
      simpa [anyPart, repeatsConstraint] using distinct
    exact fits_named (List.forall₂_same.mpr fun t member =>
      ih t member (anyPartList_eq_false.mp inside t member))
  | fn params ret ihs ih =>
    have inside : anyPartList repeatsConstraint params = false ∧
        ret.anyPart repeatsConstraint = false := by
      simpa [anyPart, repeatsConstraint] using distinct
    exact fits_fn (List.forall₂_same.mpr fun t member =>
      ihs t member (anyPartList_eq_false.mp inside.1 t member)) (ih inside.2)
  | promise path args assoc ihs ihc =>
    have inside : (assoc.map (·.1)).Nodup ∧ anyPartList repeatsConstraint args = false ∧
        anyPartAssoc repeatsConstraint assoc = false := by
      simpa [anyPart, repeatsConstraint] using distinct
    refine fits_promise (List.forall₂_same.mpr fun t member =>
      ihs t member (anyPartList_eq_false.mp inside.2.1 t member)) fun c member d found => ?_
    cases (find?_name inside.1 member).symm.trans found
    exact ihc c member (anyPartAssoc_eq_false.mp inside.2.2 c member)
  | projection base name ih =>
    have inside : base.anyPart repeatsConstraint = false := by
      simpa [anyPart, repeatsConstraint] using distinct
    exact fits_projection (ih inside)
  | param name => simp [fits, align, rigid]
  | const value => simp [fits, align]
  | selfTy | infer | unit => rfl

end Pipeline.Ty
