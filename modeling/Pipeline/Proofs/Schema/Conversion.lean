import Pipeline.Proofs.Eval.Outcome
import Pipeline.Schema.Conform

/-!
# What a conversion amounts to

A value is given the type expected in one of four ways: as it is, inside an option, inside a wrapper
around the type wrapped, or inside a wrapper around a type from which there is a conversion.
-/

set_option autoImplicit false
set_option relaxedAutoImplicit false

namespace Pipeline

/-- Where no value is given, there is a fault. -/
def Conformer.Grave (conform : Conformer) : Prop :=
  ∀ t place faults, (conform t place).value = .error faults → faults ≠ []

namespace Store

variable {store : Store}

/-- There is a conversion into a type from another one. -/
def ConvertsFrom (store : Store) (expected source : Ty) : Prop :=
  ∃ d ∈ store.implsOf Builtin.from_, ∃ written subst, d.traitArgs.head? = some written ∧
    Ty.unify (Generic.names d.generics) d.target expected [] = (true, subst) ∧
    source = written.substitute subst ∧
    (store.implements expected (.plain Builtin.from_ [source])).value = true

private theorem conversions_sound {v : Value} {expected : Ty} {impls : List ImplDecl}
    {found : List (Ty × Value)} (known : ∀ d ∈ impls, d ∈ store.implsOf Builtin.from_)
    (before : ∀ c ∈ found, store.ConvertsFrom expected c.1 ∧
      (store.accept v c.1).value = some c.2) :
    ∀ c ∈ (store.conversions v expected impls found).value, store.ConvertsFrom expected c.1 ∧
      (store.accept v c.1).value = some c.2 := by
  induction impls generalizing found with
  | nil => exact before
  | cons d rest ih =>
    rw [List.forall_mem_cons] at known
    unfold conversions
    split
    · exact ih known.2 before
    · rename_i written given
      split
      · exact ih known.2 before
      · rename_i subst unified
        simp only [Logged.value_bind]
        cases accepted : (store.accept v (written.substitute subst)).value with
        | none => exact ih known.2 before
        | some inner =>
          simp only [Logged.value_bind]
          split
          · rename_i applies
            refine ih known.2 fun c member => ?_
            rcases List.mem_append.mp member with old | new
            · exact before c old
            · obtain rfl := List.mem_singleton.mp new
              rw [Bool.and_eq_true] at applies
              exact ⟨⟨d, known.1, written, subst, given, unified, rfl, applies.1⟩, accepted⟩
          · exact ih known.2 before

/-- A conversion wraps what the value is as one of the type converted from. -/
theorem convertsFrom_of_conversions {v : Value} {expected source : Ty} {inner : Value}
    (found : (source, inner) ∈
      (store.conversions v expected (store.implsOf Builtin.from_) []).value) :
    store.ConvertsFrom expected source ∧ (store.accept v source).value = some inner :=
  conversions_sound (fun _ member => member) (fun _ none => by cases none) _ found

theorem wrap_eq_some {v w : Value} {expected : Ty}
    (found : (store.wrap v expected).value = some w) :
    ∃ t inner, (store.project expected Builtin.transparent Builtin.inner).value = some t ∧
      (store.accept v t).value = some inner ∧ w = .wrapped expected inner := by
  unfold wrap at found
  simp only [Logged.value_bind] at found
  cases projected : (store.project expected Builtin.transparent Builtin.inner).value with
  | none => simp [projected] at found
  | some t =>
    simp only [projected, Logged.value_bind, Logged.value_pure, Option.map_eq_some_iff] at found
    obtain ⟨inner, accepted, rfl⟩ := found
    exact ⟨t, inner, rfl, accepted, rfl⟩

/-- A value converted, without what is said about the way. -/
inductive Converts (store : Store) (inOption : Ty → Option Value) (v : Value) (t : Ty) :
    Value → Prop
  | present {elem : Ty} {w : Value} : t.path? = some Builtin.option → t.args.head? = some elem →
      inOption elem = some w → Converts store inOption v t (.some w)
  | transparent {inner : Ty} {w : Value} :
      (store.project t Builtin.transparent Builtin.inner).value = some inner →
      (store.accept v inner).value = some w → Converts store inOption v t (.wrapped t w)
  | from {source : Ty} {w : Value} : store.ConvertsFrom t source →
      (store.accept v source).value = some w → Converts store inOption v t (.wrapped t w)

/-- The value inside an option of the type expected, if this is one. -/
def presentIn (inOption : Ty → Logged (Option Value)) (t : Ty) : Option Value :=
  if t.path? = some Builtin.option then t.args.head?.bind fun elem => (inOption elem).value else none

theorem convert_value (inOption : Ty → Logged (Option Value)) (v : Value) (t : Ty)
    (place : Location) :
    (store.convert inOption v t place).value = match presentIn inOption t with
      | some inner => .ok (some (.some inner, .present))
      | none =>
        match (store.wrap v t).value with
        | some w => .ok (some (w, .transparent))
        | none =>
          match (store.conversions v t (store.implsOf Builtin.from_) []).value with
          | [] => .ok none
          | [(source, inner)] => .ok (some (.wrapped t inner, .from source))
          | found => .error [conversionTie place v t (found.map (·.1))] := by
  have rest : (do
      match ← store.wrap v t with
      | some w => return .ok (some (w, .transparent))
      | none =>
        match ← store.conversions v t (store.implsOf Builtin.from_) [] with
        | [] => return .ok none
        | [(source, inner)] => return .ok (some (.wrapped t inner, .from source))
        | found => return .error [conversionTie place v t (found.map (·.1))] :
        Logged (Except (List Diagnostic) (Option (Value × Conversion)))).value =
      match (store.wrap v t).value with
        | some w => .ok (some (w, .transparent))
        | none =>
          match (store.conversions v t (store.implsOf Builtin.from_) []).value with
          | [] => .ok none
          | [(source, inner)] => .ok (some (.wrapped t inner, .from source))
          | found => .error [conversionTie place v t (found.map (·.1))] := by
    simp only [Logged.value_bind]
    split
    · rfl
    · simp only [Logged.value_bind]
      split <;> rfl
  unfold convert presentIn
  split
  · cases t.args.head? with
    | none => exact rest
    | some elem =>
      simp only [Logged.value_bind, Option.bind_some]
      cases (inOption elem).value with
      | none => exact rest
      | some inner => rfl
  · exact rest

theorem convert_eq_ok {inOption : Ty → Logged (Option Value)} {v w : Value} {t : Ty}
    {place : Location} {via : Conversion}
    (found : (store.convert inOption v t place).value = .ok (some (w, via))) :
    store.Converts (fun elem => (inOption elem).value) v t w := by
  rw [convert_value] at found
  split at found
  · rename_i inner present
    cases found
    unfold presentIn at present
    split at present
    · rename_i path
      obtain ⟨elem, head, present⟩ := Option.bind_eq_some_iff.mp present
      exact .present path head present
    · cases present
  · split at found
    · rename_i wrapped
      cases found
      obtain ⟨inner, w', projected, accepted, rfl⟩ := wrap_eq_some wrapped
      exact .transparent projected accepted
    · split at found
      · cases found
      · rename_i source inner only
        cases found
        obtain ⟨converts, accepted⟩ :=
          convertsFrom_of_conversions (only ▸ List.mem_singleton.mpr rfl)
        exact .from converts accepted
      · cases found

theorem convert_eq_error {inOption : Ty → Logged (Option Value)} {v : Value} {t : Ty}
    {place : Location} {faults : List Diagnostic}
    (failed : (store.convert inOption v t place).value = .error faults) : faults ≠ [] := by
  rw [convert_value] at failed
  repeat' split at failed
  all_goals cases failed
  simp

theorem conformBy_grave (inOption : Location → Ty → Logged (Option Value)) (v : Value) :
    Conformer.Grave (store.conformBy inOption v) := by
  intro t place faults failed
  unfold conformBy at failed
  simp only [Logged.value_bind] at failed
  split at failed
  · cases failed
  · simp only [Logged.value_bind] at failed
    split at failed
    · rename_i some_faults converted
      cases failed
      exact convert_eq_error converted
    · cases failed
      simp
    · cases failed

theorem conformPlain_grave (v : Value) : Conformer.Grave (store.conformPlain v) := by
  intro t place
  unfold conformPlain
  cases store.expandedHeight t with
  | zero => exact conformBy_grave _ v t place
  | succ depth => exact conformBy_grave _ v t place

/-- A value becomes one of a type without aliases as it is or by a conversion. -/
theorem conformBy_eq_ok {inOption : Location → Ty → Logged (Option Value)} {v w : Value} {t : Ty}
    {place : Location} {via : Option Conversion}
    (found : (store.conformBy inOption v t place).value = .ok (w, via)) :
    (store.accept v (store.normalize t)).value = some w ∨
      (store.accept v (store.normalize t)).value = none ∧
        store.Converts (fun elem => (inOption place elem).value) v (store.normalize t) w := by
  unfold conformBy at found
  simp only [Logged.value_bind] at found
  split at found
  · rename_i accepted
    cases found
    exact Or.inl accepted
  · rename_i refused
    simp only [Logged.value_bind] at found
    split at found
    · cases found
    · cases found
    · rename_i converted
      cases found
      exact Or.inr ⟨refused, convert_eq_ok converted⟩

end Store
end Pipeline
