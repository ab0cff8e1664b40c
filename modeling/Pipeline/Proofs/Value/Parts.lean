import Pipeline.Proofs.Induction
import Pipeline.Value.Operation

/-!
# Parts of values

A condition on a value and on all values inside it. Operations make new values of those they are
given; they make no references and no records without a type, so that a condition on these alone
holds of what they make if it holds of what they are given.
-/

set_option autoImplicit false
set_option relaxedAutoImplicit false

namespace Pipeline.Value

/-- True for a record that has not been given a type. -/
def isUntyped : Value → Bool
  | record .infer _ => true
  | _ => false

/-- True for a reference. -/
def isRef : Value → Bool
  | ref _ _ => true
  | _ => false

/-- A condition that values can violate only by being references or records without a type. -/
def Lenient (P : Value → Prop) : Prop := ∀ v, v.isRef = false → v.isUntyped = false → P v

mutual

/-- A condition holds of a value and of all values inside it. -/
def All (P : Value → Prop) : Value → Prop
  | list items => P (list items) ∧ AllItems P items
  | some v => P (some v) ∧ All P v
  | record t fields => P (record t fields) ∧ AllFields P fields
  | wrapped t v => P (wrapped t v) ∧ All P v
  | v => P v

/-- A condition holds of all values of a list. -/
def AllItems (P : Value → Prop) : List Value → Prop
  | [] => True
  | v :: rest => All P v ∧ AllItems P rest

/-- A condition holds of the values of all fields. -/
def AllFields (P : Value → Prop) : List (String × Value) → Prop
  | [] => True
  | (_, v) :: rest => All P v ∧ AllFields P rest

end

variable {P : Value → Prop}

theorem allItems_iff {items : List Value} : AllItems P items ↔ ∀ v ∈ items, All P v := by
  induction items with
  | nil => simp [AllItems]
  | cons v rest ih => rw [List.forall_mem_cons, ← ih]; rfl

theorem allFields_iff {fields : List (String × Value)} :
    AllFields P fields ↔ ∀ f ∈ fields, All P f.2 := by
  induction fields with
  | nil => simp [AllFields]
  | cons f rest ih => rw [List.forall_mem_cons, ← ih]; rfl

theorem All.self {v : Value} (all : All P v) : P v := by
  cases v with
  | list | some | record | wrapped => exact all.1
  | _ => exact all

theorem All.mono {Q : Value → Prop} (implies : ∀ v, P v → Q v) {v : Value} (all : All P v) :
    All Q v := by
  induction v using inductionOn with
  | leaf v leaf =>
    cases v with
    | list | some | record | wrapped => cases leaf
    | _ => exact implies _ all
  | list items ih =>
    exact ⟨implies _ all.1, allItems_iff.mpr fun v member =>
      ih v member (allItems_iff.mp all.2 v member)⟩
  | some v ih => exact ⟨implies _ all.1, ih all.2⟩
  | record t fields ih =>
    exact ⟨implies _ all.1, allFields_iff.mpr fun f member =>
      ih f member (allFields_iff.mp all.2 f member)⟩
  | wrapped t v ih => exact ⟨implies _ all.1, ih all.2⟩

theorem all_deferred (lenient : Lenient P) (t : Ty) (call : String) : All P (deferred t call) :=
  lenient _ rfl rfl

theorem all_bool (lenient : Lenient P) (b : Bool) : All P (bool b) := lenient _ rfl rfl

theorem all_some (lenient : Lenient P) {v : Value} (all : All P v) : All P (some v) :=
  ⟨lenient _ rfl rfl, all⟩

theorem all_wrapped (lenient : Lenient P) {t : Ty} {v : Value} (all : All P v) :
    All P (wrapped t v) :=
  ⟨lenient _ rfl rfl, all⟩

theorem all_list (lenient : Lenient P) {items : List Value} (all : AllItems P items) :
    All P (list items) :=
  ⟨lenient _ rfl rfl, all⟩

theorem all_intoOption (lenient : Lenient P) {v : Value} (all : All P v) :
    All P (intoOption v) := by
  cases v with
  | none | some => exact all
  | _ => exact all_some lenient all

/-! ### Operators -/

/-- True for a truth value, a number or a text. -/
def isPlain : Value → Bool
  | bool _ => true
  | int _ => true
  | float _ => true
  | str _ => true
  | _ => false

variable {l r v w : Value}

theorem all_of_isPlain (lenient : Lenient P) (plain : v.isPlain = true) : All P v := by
  cases v with
  | bool | int | float | str => exact lenient _ rfl rfl
  | _ => cases plain

private theorem isPlain_of_ofInt {n : Int} (found : ofInt n = .ok w) : w.isPlain = true := by
  unfold ofInt at found
  split at found <;> cases found
  rfl

private theorem isPlain_of_ofFloat {x : Float} (found : ofFloat x = .ok w) : w.isPlain = true := by
  unfold ofFloat at found
  split at found <;> cases found
  rfl

private theorem isPlain_of_calculateInt {op : BinaryOp} {a b : Int}
    (found : calculateInt op a b = .ok w) : w.isPlain = true := by
  unfold calculateInt at found
  repeat' split at found
  all_goals first | exact isPlain_of_ofInt found | cases found

private theorem isPlain_of_calculateFloat {op : BinaryOp} {a b : Float}
    (found : calculateFloat op a b = .ok w) : w.isPlain = true := by
  unfold calculateFloat at found
  repeat' split at found
  all_goals first | exact isPlain_of_ofFloat found | cases found

/-- What is put off by an operator before its operand keeps the type of the operand. -/
theorem plain_or_of_unary {op : UnaryOp} (found : unary op v = .ok w) :
    w.isPlain = true ∨ ∃ call, w = deferred v.ty call := by
  unfold unary at found
  split at found
  · cases found
    exact Or.inl rfl
  · exact Or.inl (isPlain_of_ofInt found)
  · cases found
    exact Or.inl rfl
  · split at found
    · cases found
      exact Or.inr ⟨_, rfl⟩
    · split at found <;> cases found

theorem plain_or_of_compareBy {op : BinaryOp} (found : compareBy op l r = .ok w) :
    w.isPlain = true ∨ ∃ call, w = deferredBool call := by
  unfold compareBy at found
  split at found
  · cases found
    exact Or.inr ⟨_, rfl⟩
  · cases ordered : order l r with
    | error e => rw [ordered] at found; cases found
    | ok o =>
      rw [ordered] at found
      cases o <;> cases found <;> exact Or.inl rfl

/-- What is put off by a calculation keeps the type of one of the operands. -/
theorem plain_or_of_calculate {op : BinaryOp} (found : calculate op l r = .ok w) :
    w.isPlain = true ∨ ∃ call, w = deferred l.ty call ∨ w = deferred r.ty call := by
  unfold calculate at found
  split at found
  · cases found
    split
    · exact Or.inr ⟨_, Or.inr rfl⟩
    · exact Or.inr ⟨_, Or.inl rfl⟩
  · split at found
    · exact Or.inl (isPlain_of_calculateInt found)
    · cases found
      exact Or.inl rfl
    · split at found
      · exact Or.inl (isPlain_of_calculateFloat found)
      · cases found

theorem plain_or_join (op : BinaryOp) (short : Bool) (l r : Value) (lTruth rTruth : Option Bool) :
    (join op short l r lTruth rTruth).isPlain = true ∨
      ∃ call, join op short l r lTruth rTruth = deferredBool call := by
  unfold join
  split
  · exact Or.inl rfl
  · split
    · exact Or.inl rfl
    · exact Or.inr ⟨_, rfl⟩
  · exact Or.inr ⟨_, rfl⟩

theorem all_of_unary (lenient : Lenient P) {op : UnaryOp} (found : unary op v = .ok w) :
    All P w := by
  rcases plain_or_of_unary found with plain | ⟨call, rfl⟩
  · exact all_of_isPlain lenient plain
  · exact all_deferred lenient _ _

theorem all_of_compareBy (lenient : Lenient P) {op : BinaryOp} (found : compareBy op l r = .ok w) :
    All P w := by
  rcases plain_or_of_compareBy found with plain | ⟨call, rfl⟩
  · exact all_of_isPlain lenient plain
  · exact all_deferred lenient _ _

theorem all_of_calculate (lenient : Lenient P) {op : BinaryOp} (found : calculate op l r = .ok w) :
    All P w := by
  rcases plain_or_of_calculate found with plain | ⟨call, rfl | rfl⟩
  · exact all_of_isPlain lenient plain
  · exact all_deferred lenient _ _
  · exact all_deferred lenient _ _

theorem all_join (lenient : Lenient P) (op : BinaryOp) (short : Bool) (l r : Value)
    (lTruth rTruth : Option Bool) : All P (join op short l r lTruth rTruth) := by
  rcases plain_or_join op short l r lTruth rTruth with plain | ⟨call, made⟩
  · exact all_of_isPlain lenient plain
  · rw [made]
    exact all_deferred lenient _ _

private theorem all_of_option? {v inner : Value} (all : All P v)
    (found : v.option? = Option.some (Option.some inner)) : All P inner := by
  cases v with
  | some v =>
    cases found
    exact all.2
  | _ => cases found

/-- A built-in method makes a plain value, or hands out a part of what it is given. -/
theorem all_of_builtin (plain : ∀ v, v.isPlain = true → All P v) {name : String}
    {receiver w : Value} {args : List Value} (here : All P receiver) (each : AllItems P args)
    (found : builtin name receiver args = Option.some (.ok w)) : All P w := by
  unfold builtin at found
  split at found
  · cases found
    exact plain _ rfl
  · cases found
    exact plain _ rfl
  · obtain ⟨n, -, made⟩ := Option.map_eq_some_iff.mp found
    cases made
    exact plain _ rfl
  · obtain ⟨n, -, made⟩ := Option.map_eq_some_iff.mp found
    cases made
    exact plain _ rfl
  · split at found <;> cases found
    · exact plain _ rfl
    · exact plain _ rfl
  · split at found <;> cases found
    exact plain _ rfl
  · split at found <;> cases found
    exact plain _ rfl
  · obtain ⟨o, -, made⟩ := Option.map_eq_some_iff.mp found
    cases made
    exact plain _ rfl
  · obtain ⟨o, -, made⟩ := Option.map_eq_some_iff.mp found
    cases made
    exact plain _ rfl
  · obtain ⟨o, present, made⟩ := Option.map_eq_some_iff.mp found
    cases o with
    | none => cases made
    | some inner =>
      cases made
      exact all_of_option? here present
  · obtain ⟨o, present, made⟩ := Option.map_eq_some_iff.mp found
    cases o with
    | none =>
      cases made
      exact each.1
    | some inner =>
      cases made
      exact all_of_option? here present
  · cases found

end Pipeline.Value
