import Pipeline.Proofs.Ty.Matching

/-!
# Occurrences of variables

To lay a pattern over a type that it fits is to lay its variables over parts of this type, one after
another. A variable keeps the first type that it is laid over, and what it is laid over later is
compared with this type alone; so the order of its occurrences makes no difference exactly if any two
of these types fit each other.
-/

set_option autoImplicit false
set_option relaxedAutoImplicit false

namespace Pipeline.Ty

variable {vars : List String}

/-! ### Variables of a pattern -/

mutual

/-- The variables of a pattern in the order in which they are met, with the types that they are laid
over. -/
def overlays (vars : List String) : Ty → Ty → List (String × Ty)
  | param name, t => if vars.contains name then [(name, t)] else []
  | named _ args, named _ args' => overlaysList vars args args'
  | fn params ret, fn params' ret' => overlaysList vars params params' ++ overlays vars ret ret'
  | promise _ args assoc, promise _ args' assoc' =>
    overlaysList vars args args' ++ overlaysAssoc vars assoc assoc'
  | projection base _, projection base' _ => overlays vars base base'
  | _, _ => []

/-- The variables of patterns that are laid over types pairwise. -/
def overlaysList (vars : List String) : List Ty → List Ty → List (String × Ty)
  | p :: ps, t :: ts => overlays vars p t ++ overlaysList vars ps ts
  | _, _ => []

/-- The variables of constraints that are laid over those of the same names. -/
def overlaysAssoc (vars : List String) :
    List (String × Ty) → List (String × Ty) → List (String × Ty)
  | [], _ => []
  | (name, p) :: ps, ts =>
    ((ts.find? (·.1 == name)).map fun d => overlays vars p d.2).getD [] ++ overlaysAssoc vars ps ts

end

/-- Lays variables over types, one after another. -/
def visit (vars : List String) (order : List (String × Ty)) (s : Subst) : Bool × Subst :=
  unifyAll vars (order.map fun o => param o.1) (order.map (·.2)) s

theorem visit_cons (o : String × Ty) (rest : List (String × Ty)) (s : Subst) :
    visit vars (o :: rest) s = match unify vars (param o.1) o.2 s with
      | (true, s) => visit vars rest s
      | (false, s) => (false, s) := rfl

/-- What is laid over types in two parts is laid over them part by part. -/
theorem visit_append {before after : List (String × Ty)} {s s' : Subst}
    (first : visit vars before s = (true, s')) :
    visit vars (before ++ after) s = visit vars after s' := by
  induction before generalizing s with
  | nil =>
    cases first
    rfl
  | cons o rest ih =>
    rw [visit_cons] at first
    rw [List.cons_append, visit_cons]
    split at first
    · exact ih first
    · cases first

theorem visit_of_append {before after : List (String × Ty)} {s : Subst}
    (fits : (visit vars (before ++ after) s).1 = true) : (visit vars before s).1 = true := by
  induction before generalizing s with
  | nil => rfl
  | cons o rest ih =>
    rw [List.cons_append, visit_cons] at fits
    rw [visit_cons]
    split at fits
    · exact ih fits
    · cases fits

private theorem visit_of_alignList {ps ts : List Ty} {s s' : Subst} (same : ps.length = ts.length)
    (each : ∀ p ∈ ps, ∀ t s s', unify vars p t s = (true, s') →
      visit vars (overlays vars p t) s = (true, s'))
    (fits : alignList (bindVar vars) ps ts s = (true, s')) :
    visit vars (overlaysList vars ps ts) s = (true, s') := by
  induction ps generalizing ts s with
  | nil => cases ts <;> exact fits
  | cons p rest ih =>
    cases ts with
    | nil => cases same
    | cons t ts =>
      rw [List.forall_mem_cons] at each
      obtain ⟨s₁, first, fits⟩ := alignList_cons_iff.mp fits
      rw [overlaysList, visit_append (each.1 t s s₁ first)]
      exact ih (Nat.succ.inj same) each.2 fits

private theorem visit_of_alignAssoc {ps ts : List (String × Ty)} {s s' : Subst}
    (each : ∀ c ∈ ps, ∀ t s s', unify vars c.2 t s = (true, s') →
      visit vars (overlays vars c.2 t) s = (true, s'))
    (fits : alignAssoc (bindVar vars) ps ts s = (true, s')) :
    visit vars (overlaysAssoc vars ps ts) s = (true, s') := by
  induction ps generalizing s with
  | nil => exact fits
  | cons c rest ih =>
    rw [List.forall_mem_cons] at each
    rw [overlaysAssoc]
    obtain ⟨found, fits⟩ | ⟨d, s₁, found, first, fits⟩ := alignAssoc_cons_iff.mp fits
    · rw [found]
      exact ih each.2 fits
    · rw [found, Option.map_some, Option.getD_some, visit_append (each.1 d.2 s s₁ first)]
      exact ih each.2 fits

/-- Where a pattern fits, its variables have been laid over types one after another. -/
theorem visit_of_unify {p t : Ty} {s s' : Subst} (fits : unify vars p t s = (true, s')) :
    visit vars (overlays vars p t) s = (true, s') := by
  induction p using inductionOn generalizing t s s' with
  | param name =>
    by_cases listed : vars.contains name = true
    · rw [overlays, if_pos listed, visit_cons, fits]
      rfl
    · have own : unify vars (param name) t s = (rigid name t, s) := by
        rw [unify, align, bindVar, if_neg listed]
        rfl
      obtain ⟨-, rfl⟩ := Prod.mk.inj (own.symm.trans fits)
      rw [overlays, if_neg listed]
      rfl
  | named path args ih =>
    rw [unify, align_named_iff] at fits
    obtain ⟨rfl, rfl⟩ | ⟨args', rfl, length, fits⟩ := fits
    · rfl
    · exact visit_of_alignList length (fun p member _ _ _ => ih p member) fits
  | fn params ret ihs ih =>
    rw [unify, align_fn_iff] at fits
    obtain ⟨rfl, rfl⟩ | ⟨params', ret', s₁, rfl, length, first, fits⟩ := fits
    · rfl
    · rw [overlays, visit_append
        (visit_of_alignList length (fun p member _ _ _ => ihs p member) first)]
      exact ih fits
  | promise path args assoc ihs ihc =>
    rw [unify, align_promise_iff] at fits
    obtain ⟨rfl, rfl⟩ | ⟨args', assoc', s₁, rfl, length, first, fits⟩ := fits
    · rfl
    · rw [overlays, visit_append
        (visit_of_alignList length (fun p member _ _ _ => ihs p member) first)]
      exact visit_of_alignAssoc (fun c member _ _ _ => ihc c member) fits
  | projection base name ih =>
    rw [unify, align_projection_iff] at fits
    obtain ⟨rfl, rfl⟩ | ⟨base', rfl, fits⟩ := fits
    · rfl
    · exact ih fits
  | infer | const | selfTy | unit =>
    obtain rfl : s = s' := by cases t <;> exact congrArg Prod.snd fits
    rfl

theorem unify_eq_visit {p t : Ty} {s : Subst} (fits : (unify vars p t s).1 = true) :
    unify vars p t s = visit vars (overlays vars p t) s := by
  have reached : unify vars p t s = (true, (unify vars p t s).2) := Prod.ext fits rfl
  exact reached.trans (visit_of_unify reached).symm

/-! ### Orders of occurrences -/

private theorem mem_overlaysList {ps ts : List Ty} {o : String × Ty}
    (member : o ∈ overlaysList vars ps ts) : ∃ c ∈ ps.zip ts, o ∈ overlays vars c.1 c.2 := by
  induction ps generalizing ts with
  | nil => cases ts <;> cases member
  | cons p rest ih =>
    cases ts with
    | nil => cases member
    | cons t ts =>
      rw [overlaysList, List.mem_append] at member
      rw [List.zip_cons_cons]
      rcases member with here | there
      · exact ⟨(p, t), List.mem_cons_self, here⟩
      · obtain ⟨c, among, inside⟩ := ih there
        exact ⟨c, List.mem_cons_of_mem _ among, inside⟩

theorem mem_overlaysAssoc {ps ts : List (String × Ty)} {o : String × Ty} :
    o ∈ overlaysAssoc vars ps ts ↔
      ∃ c ∈ ps, ∃ d, ts.find? (·.1 == c.1) = some d ∧ o ∈ overlays vars c.2 d.2 := by
  induction ps with
  | nil => simp [overlaysAssoc]
  | cons c rest ih =>
    rw [overlaysAssoc, List.mem_append, ih, List.exists_mem_cons_iff]
    refine or_congr_left ?_
    cases ts.find? (·.1 == c.1) <;> simp

theorem mem_vars_of_mem_overlays {p t : Ty} {o : String × Ty} (member : o ∈ overlays vars p t) :
    o.1 ∈ vars := by
  induction p using inductionOn generalizing t with
  | param name =>
    rw [overlays] at member
    split at member
    · rename_i listed
      obtain rfl := List.mem_singleton.mp member
      exact List.contains_iff_mem.mp listed
    · cases member
  | named path args ih =>
    cases t with
    | named path' args' =>
      obtain ⟨c, among, inside⟩ := mem_overlaysList (show o ∈ overlaysList vars _ _ from member)
      exact ih c.1 (List.of_mem_zip among).1 inside
    | _ => cases member
  | fn params ret ihs ih =>
    cases t with
    | fn params' ret' =>
      rw [overlays, List.mem_append] at member
      rcases member with member | result
      · obtain ⟨c, among, inside⟩ := mem_overlaysList member
        exact ihs c.1 (List.of_mem_zip among).1 inside
      · exact ih result
    | _ => cases member
  | promise path args assoc ihs ihc =>
    cases t with
    | promise path' args' assoc' =>
      rw [overlays, List.mem_append, mem_overlaysAssoc] at member
      rcases member with member | ⟨c, among, d, -, inside⟩
      · obtain ⟨c, among, inside⟩ := mem_overlaysList member
        exact ihs c.1 (List.of_mem_zip among).1 inside
      · exact ihc c among inside
    | _ => cases member
  | projection base name ih =>
    cases t with
    | projection base' name' => exact ih (show o ∈ overlays vars _ _ from member)
    | _ => cases member
  | const | selfTy | infer | unit => cases member

theorem unify_param {name : String} (listed : name ∈ vars) (t : Ty) (s : Subst) :
    unify vars (param name) t s = match s.get? name with
      | some bound => (bound.fits t, s)
      | none => (true, if t = infer then s else s.insert name t) := by
  rw [unify, align, bindVar, if_pos (List.contains_iff_mem.mpr listed)]
  cases s.get? name <;> rfl

/-- Variables may be laid over types that fit pairwise, if what is bound before fits them too. -/
theorem visit_of_fits {order : List (String × Ty)} {s : Subst}
    (each : order.Pairwise fun a b => a.1 = b.1 → a.2.fits b.2 = true)
    (listed : ∀ o ∈ order, o.1 ∈ vars)
    (before : ∀ o ∈ order, ∀ bound, s.get? o.1 = some bound → bound.fits o.2 = true) :
    (visit vars order s).1 = true := by
  induction order generalizing s with
  | nil => rfl
  | cons o rest ih =>
    rw [List.pairwise_cons] at each
    rw [List.forall_mem_cons] at listed before
    rw [visit_cons, unify_param listed.1]
    cases found : s.get? o.1 with
    | some bound =>
      dsimp only
      rw [before.1 bound found]
      exact ih each.2 listed.2 before.2
    | none =>
      refine ih each.2 listed.2 fun b member bound now => ?_
      split at now
      · exact before.2 b member bound now
      · rw [NameMap.get?_insert] at now
        split at now
        · rename_i same
          cases now
          exact each.1 b member same
        · exact before.2 b member bound now

theorem fits_of_visit {name : String} {t u : Ty} (listed : name ∈ vars)
    (fits : (visit vars [(name, t), (name, u)] []).1 = true) : t.fits u = true := by
  by_cases left_open : t = infer
  · rw [left_open]
    rfl
  · have bound : unify vars (param name) t [] = (true, NameMap.insert name t []) := by
      rw [unify_param listed]
      exact congrArg (Prod.mk true) (if_neg left_open)
    rw [visit_cons, bound] at fits
    dsimp only at fits
    rw [visit_cons, unify_param listed, Subst.get?_insert_self] at fits
    dsimp only at fits
    split at fits
    · rename_i same
      exact (Prod.mk.inj same).1
    · cases fits

/-- The order in which variables are laid over types makes no difference exactly if any two types of
one variable fit each other. -/
theorem visit_perm_iff {order : List (String × Ty)} (listed : ∀ o ∈ order, o.1 ∈ vars) :
    (∀ order', order'.Perm order → (visit vars order' []).1 = true) ↔
      order.Pairwise fun a b => a.1 = b.1 → a.2.fits b.2 = true ∧ b.2.fits a.2 = true := by
  constructor
  · intro all
    rw [List.pairwise_iff_forall_sublist]
    rintro ⟨name, t⟩ ⟨_, u⟩ inside rfl
    have known : name ∈ vars := listed (name, t) (inside.subset List.mem_cons_self)
    obtain ⟨rest, split⟩ := inside.exists_perm_append
    have other : ([(name, u), (name, t)] ++ rest).Perm order :=
      ((List.Perm.swap _ _ _).append_right rest).trans split.symm
    exact ⟨fits_of_visit known (visit_of_append (all _ split.symm)),
      fits_of_visit known (visit_of_append (all _ other))⟩
  · intro each order' perm
    have symmetric : ∀ {a b : String × Ty},
        (a.1 = b.1 → a.2.fits b.2 = true ∧ b.2.fits a.2 = true) →
          b.1 = a.1 → b.2.fits a.2 = true ∧ a.2.fits b.2 = true :=
      fun both same => (both same.symm).symm
    have each' := (perm.pairwise_iff symmetric).mpr each
    exact visit_of_fits (each'.imp fun both same => (both same).1)
      (fun o member => listed o (perm.subset member)) nofun

end Pipeline.Ty
