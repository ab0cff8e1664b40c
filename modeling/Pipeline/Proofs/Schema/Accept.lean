import Pipeline.Proofs.Value.Parts
import Pipeline.Schema.Accept

/-!
# Accepted values

Accepting leaves a value as it is, apart from integers that become floats, and from what lists and
options hold.
-/

set_option autoImplicit false
set_option relaxedAutoImplicit false

namespace Pipeline.Store

variable {store : Store}

theorem acceptBy_cases {v w : Value} {t : Ty} {otherwise : Ty → Logged (Option Value)}
    (found : (store.acceptBy v t otherwise).value = some w) :
    (w = v ∧ ((store.normalize t = .infer ∨ ∃ name, store.normalize t = .param name) ∨
      ∃ path args assoc, store.normalize t = .promise path args assoc ∧
        (store.implements v.ty ⟨path, args, assoc⟩).value = true)) ∨
      (otherwise (store.normalize t)).value = some w := by
  unfold acceptBy at found
  split at found
  · rename_i form
    cases found
    exact Or.inl ⟨rfl, Or.inl (Or.inl form)⟩
  · rename_i name form
    cases found
    exact Or.inl ⟨rfl, Or.inl (Or.inr ⟨name, form⟩)⟩
  · rename_i path args assoc form
    simp only [Logged.value_bind, Logged.value_pure, keepIf] at found
    split at found
    · rename_i applies
      cases found
      exact Or.inl ⟨rfl, Or.inr ⟨path, args, assoc, form, applies⟩⟩
    · cases found
  · exact Or.inr found

theorem keepIf_eq_some {condition : Bool} {v w : Value}
    (found : keepIf condition v = some w) : w = v ∧ condition = true := by
  unfold keepIf at found
  split at found
  · cases found
    exact ⟨rfl, by assumption⟩
  · cases found

theorem acceptAll_cons {v : Value} {rest ws : List Value} {t : Ty}
    (found : (store.acceptAll (v :: rest) t).value = some ws) :
    ∃ w ws', ws = w :: ws' ∧ (store.accept v t).value = some w ∧
      (store.acceptAll rest t).value = some ws' := by
  simp only [acceptAll, Logged.value_bind] at found
  split at found
  · cases found
  · rename_i w accepted
    simp only [Logged.value_bind, Logged.value_pure, Option.map_eq_some_iff] at found
    obtain ⟨ws', others, rfl⟩ := found
    exact ⟨w, ws', rfl, accepted, others⟩

theorem mem_of_acceptAll {items ws : List Value} {t : Ty}
    (found : (store.acceptAll items t).value = some ws) :
    (∀ w ∈ ws, ∃ v ∈ items, (store.accept v t).value = some w) ∧
      ∀ v ∈ items, ∃ w ∈ ws, (store.accept v t).value = some w := by
  induction items generalizing ws with
  | nil =>
    cases found
    exact ⟨nofun, nofun⟩
  | cons v rest ih =>
    obtain ⟨w, ws', rfl, here, there⟩ := acceptAll_cons found
    obtain ⟨backwards, forwards⟩ := ih there
    constructor
    · intro w' member
      rcases List.mem_cons.mp member with rfl | inside
      · exact ⟨v, List.mem_cons_self, here⟩
      · obtain ⟨v', old, accepted⟩ := backwards w' inside
        exact ⟨v', List.mem_cons_of_mem _ old, accepted⟩
    · intro v' member
      rcases List.mem_cons.mp member with rfl | inside
      · exact ⟨w, List.mem_cons_self, here⟩
      · obtain ⟨w', new, accepted⟩ := forwards v' inside
        exact ⟨w', List.mem_cons_of_mem _ new, accepted⟩

/-- What a value becomes when it is accepted. -/
inductive Accepted (store : Store) : Value → Value → Prop
  | kept (v : Value) : Accepted store v v
  | float (n : Int) : Accepted store (.int n) (.float (Float.ofInt n))
  | list {items ws : List Value} {t : Ty} : (store.acceptAll items t).value = some ws →
      Accepted store (.list items) (.list ws)
  | some {v w : Value} {t : Ty} : (store.accept v t).value = some w →
      Accepted store (.some v) (.some w)

private theorem acceptBy_accepted {v w : Value} {t : Ty} {otherwise : Ty → Logged (Option Value)}
    (found : (store.acceptBy v t otherwise).value = some w)
    (formed : (otherwise (store.normalize t)).value = some w → store.Accepted v w) :
    store.Accepted v w := by
  rcases acceptBy_cases found with ⟨rfl, -⟩ | other
  · exact .kept w
  · exact formed other

theorem accept_accepted {v w : Value} {t : Ty} (found : (store.accept v t).value = some w) :
    store.Accepted v w := by
  have kept : ∀ {condition : Bool} {u : Value}, keepIf condition v = some u → store.Accepted v u := by
    intro condition u same
    rw [(keepIf_eq_some same).1]
    exact .kept v
  cases v with
  | int n =>
    refine acceptBy_accepted found fun formed => ?_
    obtain ⟨path, -, formed⟩ := Option.bind_eq_some_iff.mp formed
    split at formed
    · exact kept formed
    · rw [(keepIf_eq_some formed).1]
      exact .float n
  | list items =>
    refine acceptBy_accepted found fun listed => ?_
    split at listed
    · simp only [Logged.value_bind, Logged.value_pure, Option.map_eq_some_iff] at listed
      obtain ⟨ws, accepted, rfl⟩ := listed
      exact .list accepted
    · cases listed
  | some v =>
    refine acceptBy_accepted found fun present => ?_
    split at present
    · simp only [Logged.value_bind, Logged.value_pure, Option.map_eq_some_iff] at present
      obtain ⟨w, accepted, rfl⟩ := present
      exact .some accepted
    · cases present
  | none =>
    refine acceptBy_accepted found fun formed => ?_
    split at formed
    · cases formed
      exact .kept .none
    · cases formed
  | closure names source =>
    refine acceptBy_accepted found fun formed => ?_
    split at formed
    · exact kept formed
    · cases formed
  | bool | float | str =>
    refine acceptBy_accepted found fun formed => ?_
    obtain ⟨path, -, formed⟩ := Option.bind_eq_some_iff.mp formed
    exact kept formed
  | _ => exact acceptBy_accepted found kept

variable {P : Value → Prop}

/-- A condition that holds of a value holds of it as it is accepted. -/
theorem accept_all (lenient : Value.Lenient P) {v w : Value} {t : Ty}
    (found : (store.accept v t).value = some w) (all : Value.All P v) : Value.All P w := by
  induction v using Value.inductionOn generalizing t w with
  | list items ih =>
    cases accept_accepted found with
    | kept => exact all
    | list accepted =>
      refine Value.all_list lenient (Value.allItems_iff.mpr fun w member => ?_)
      obtain ⟨v, inside, here⟩ := (mem_of_acceptAll accepted).1 w member
      exact ih v inside here (Value.allItems_iff.mp all.2 v inside)
  | some v ih =>
    cases accept_accepted found with
    | kept => exact all
    | some accepted => exact Value.all_some lenient (ih accepted all.2)
  | record | wrapped =>
    cases accept_accepted found
    exact all
  | leaf v leaf =>
    cases accept_accepted found with
    | kept => exact all
    | float n => exact lenient _ rfl rfl
    | list | some => cases leaf

end Pipeline.Store
