import Mathlib.Data.List.Forall2
import Pipeline.Proofs.Store.Expansion

/-!
# Types with parts left open

A type with wildcards lies below every type that has something else in their places. Substitutions
and the expansion of aliases keep this order.
-/

set_option autoImplicit false
set_option relaxedAutoImplicit false

namespace Pipeline

namespace Ty

/-- True for the wildcard. -/
def isInfer : Ty → Bool
  | infer => true
  | _ => false

mutual

/-- The first type is the second one with wildcards in the places of some parts. -/
def Below : Ty → Ty → Prop
  | infer, _ => True
  | named path args, u => ∃ args', u = named path args' ∧ BelowList args args'
  | fn params ret, u => ∃ params' ret', u = fn params' ret' ∧ BelowList params params' ∧ Below ret ret'
  | promise path args assoc, u => ∃ args' assoc', u = promise path args' assoc' ∧
      BelowList args args' ∧ BelowAssoc assoc assoc'
  | projection base name, u => ∃ base', u = projection base' name ∧ Below base base'
  | t, u => t = u

/-- The order on lists of types, member by member. -/
def BelowList : List Ty → List Ty → Prop
  | [], [] => True
  | t :: ts, u :: us => Below t u ∧ BelowList ts us
  | _, _ => False

/-- The order on constraints of the same names, one by one. -/
def BelowAssoc : List (String × Ty) → List (String × Ty) → Prop
  | [], [] => True
  | (n, t) :: ts, (m, u) :: us => n = m ∧ Below t u ∧ BelowAssoc ts us
  | _, _ => False

end

theorem belowList_iff {ts us : List Ty} : BelowList ts us ↔ List.Forall₂ Below ts us := by
  induction ts generalizing us with
  | nil => cases us <;> simp [BelowList]
  | cons t ts ih => cases us <;> simp [BelowList, ih]

theorem belowAssoc_iff {ts us : List (String × Ty)} :
    BelowAssoc ts us ↔ List.Forall₂ (fun c d => c.1 = d.1 ∧ c.2.Below d.2) ts us := by
  induction ts generalizing us with
  | nil => cases us <;> simp [BelowAssoc]
  | cons t ts ih => cases us <;> simp [BelowAssoc, ih, and_assoc]

theorem below_refl (t : Ty) : t.Below t := by
  induction t using inductionOn with
  | named path args ih =>
    exact ⟨args, rfl, belowList_iff.mpr (List.forall₂_same.mpr ih)⟩
  | fn params ret ihs ih =>
    exact ⟨params, ret, rfl, belowList_iff.mpr (List.forall₂_same.mpr ihs), ih⟩
  | promise path args assoc ihs ihc =>
    exact ⟨args, assoc, rfl, belowList_iff.mpr (List.forall₂_same.mpr ihs),
      belowAssoc_iff.mpr (List.forall₂_same.mpr fun c member => ⟨rfl, ihc c member⟩)⟩
  | projection base name ih => exact ⟨base, rfl, ih⟩
  | infer => trivial
  | param | const | selfTy | unit => rfl

private theorem eq_of_forall₂ {α : Type} {R : α → α → Prop} {xs ys : List α}
    (all : List.Forall₂ R xs ys) (same : ∀ x ∈ xs, ∀ y, R x y → x = y) : xs = ys := by
  induction all with
  | nil => rfl
  | cons here _ ih =>
    rw [List.forall_mem_cons] at same
    rw [same.1 _ here, ih same.2]

/-- Without wildcards nothing is left open. -/
theorem Below.eq {t u : Ty} (below : t.Below u) (closed : t.Without isInfer) : t = u := by
  induction t using inductionOn generalizing u with
  | named path args ih =>
    obtain ⟨args', rfl, inside⟩ := below
    rw [eq_of_forall₂ (belowList_iff.mp inside) fun t member u below =>
      ih t member below ((without_named.mp closed).2 t member)]
  | fn params ret ihs ih =>
    obtain ⟨params', ret', rfl, inside, result⟩ := below
    rw [without_fn] at closed
    rw [ih result closed.2.2, eq_of_forall₂ (belowList_iff.mp inside) fun t member u below =>
      ihs t member below (closed.2.1 t member)]
  | promise path args assoc ihs ihc =>
    obtain ⟨args', assoc', rfl, inside, constraints⟩ := below
    rw [without_promise] at closed
    have same := eq_of_forall₂ (belowAssoc_iff.mp constraints) fun c member d below =>
      Prod.ext below.1 (ihc c member below.2 (closed.2.2 c member))
    rw [same, eq_of_forall₂ (belowList_iff.mp inside) fun t member u below =>
      ihs t member below (closed.2.1 t member)]
  | projection base name ih =>
    obtain ⟨base', rfl, inside⟩ := below
    rw [ih inside (without_projection.mp closed).2]
  | infer => exact absurd closed (by decide)
  | param | const | selfTy | unit => exact below

end Ty

/-! ### Substitutions and aliases -/

/-- The order on substitutions for the same parameters. -/
def Subst.Below (s s' : Subst) : Prop := ∀ name, Option.Rel Ty.Below (s.get? name) (s'.get? name)

private theorem map_below {R : Ty → Ty → Prop} {f g : Ty → Ty} {ts us : List Ty}
    (inside : List.Forall₂ R ts us) (each : ∀ t ∈ ts, ∀ u, R t u → (f t).Below (g u)) :
    List.Forall₂ Ty.Below (ts.map f) (us.map g) := by
  induction inside with
  | nil => exact .nil
  | cons here _ ih =>
    rw [List.forall_mem_cons] at each
    exact .cons (each.1 _ here) (ih each.2)

private theorem mapAssoc_below {f g : Ty → Ty} {ts us : List (String × Ty)}
    (inside : List.Forall₂ (fun c d => c.1 = d.1 ∧ c.2.Below d.2) ts us)
    (each : ∀ c ∈ ts, ∀ u, c.2.Below u → (f c.2).Below (g u)) :
    List.Forall₂ (fun c d => c.1 = d.1 ∧ c.2.Below d.2) (ts.map fun c => (c.1, f c.2))
      (us.map fun c => (c.1, g c.2)) := by
  induction inside with
  | nil => exact .nil
  | cons here _ ih =>
    rw [List.forall_mem_cons] at each
    exact .cons ⟨here.1, each.1 _ here.2⟩ (ih each.2)

theorem Ty.Below.substitute {t u : Ty} {s s' : Subst} (below : t.Below u) (put : s.Below s') :
    (t.substitute s).Below (u.substitute s') := by
  induction t using inductionOn generalizing u with
  | named path args ih =>
    obtain ⟨args', rfl, inside⟩ := below
    rw [substitute_named, substitute_named]
    exact ⟨_, rfl, belowList_iff.mpr (map_below (belowList_iff.mp inside) fun t member u below =>
      ih t member below)⟩
  | fn params ret ihs ih =>
    obtain ⟨params', ret', rfl, inside, result⟩ := below
    rw [substitute_fn, substitute_fn]
    exact ⟨_, _, rfl, belowList_iff.mpr (map_below (belowList_iff.mp inside) fun t member u below =>
      ihs t member below), ih result⟩
  | promise path args assoc ihs ihc =>
    obtain ⟨args', assoc', rfl, inside, constraints⟩ := below
    rw [substitute_promise, substitute_promise]
    exact ⟨_, _, rfl, belowList_iff.mpr (map_below (belowList_iff.mp inside) fun t member u below =>
      ihs t member below), belowAssoc_iff.mpr (mapAssoc_below (belowAssoc_iff.mp constraints)
        fun c member u below => ihc c member below)⟩
  | projection base name ih =>
    obtain ⟨base', rfl, inside⟩ := below
    rw [substitute_projection, substitute_projection]
    exact ⟨_, rfl, ih inside⟩
  | infer => trivial
  | param name =>
    cases (show param name = u from below)
    rw [substitute_param, substitute_param]
    have given := put name
    generalize s.get? name = x at given ⊢
    generalize s'.get? name = y at given ⊢
    cases given with
    | some here => exact here
    | none => exact below_refl _
  | const | selfTy | unit =>
    obtain rfl := below
    exact below_refl _

namespace Store

variable {store : Store} {n : Nat}

theorem normalizeTo_below {t u : Ty} (below : t.Below u) :
    (store.normalizeTo n t).Below (store.normalizeTo n u) := by
  induction n using Nat.strongRecOn generalizing t u with
  | _ n deeper =>
    induction t using Ty.inductionOn generalizing u with
    | named path args ih =>
      obtain ⟨args', rfl, inside⟩ := below
      have inside := Ty.belowList_iff.mp inside
      cases synonym : store.synonym? path with
      | none =>
        rw [normalizeTo_named synonym, normalizeTo_named synonym]
        exact ⟨_, rfl, Ty.belowList_iff.mpr (map_below inside fun t member u below =>
          ih t member below)⟩
      | some found =>
        cases n with
        | zero => exact ⟨args', rfl, Ty.belowList_iff.mpr inside⟩
        | succ n =>
          rw [normalizeTo_synonym synonym, normalizeTo_synonym synonym]
          have expanded := map_below inside fun t _ u below => deeper n n.lt_succ_self below
          exact deeper n n.lt_succ_self
            ((Ty.below_refl found.2).substitute fun _ => Generic.assign_rel expanded _)
    | fn params ret ihs ih =>
      obtain ⟨params', ret', rfl, inside, result⟩ := below
      rw [normalizeTo_fn, normalizeTo_fn]
      exact ⟨_, _, rfl, Ty.belowList_iff.mpr (map_below (Ty.belowList_iff.mp inside)
        fun t member u below => ihs t member below), ih result⟩
    | promise path args assoc ihs ihc =>
      obtain ⟨args', assoc', rfl, inside, constraints⟩ := below
      rw [normalizeTo_promise, normalizeTo_promise]
      exact ⟨_, _, rfl, Ty.belowList_iff.mpr (map_below (Ty.belowList_iff.mp inside)
        fun t member u below => ihs t member below), Ty.belowAssoc_iff.mpr
          (mapAssoc_below (Ty.belowAssoc_iff.mp constraints) fun c member u below =>
            ihc c member below)⟩
    | projection base name ih =>
      obtain ⟨base', rfl, inside⟩ := below
      rw [normalizeTo_projection, normalizeTo_projection]
      exact ⟨_, rfl, ih inside⟩
    | infer =>
      rw [normalizeTo_leaf rfl]
      trivial
    | param | const | selfTy | unit =>
      obtain rfl := below
      exact Ty.below_refl _

end Store
end Pipeline
