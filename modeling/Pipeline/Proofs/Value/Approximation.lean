import Pipeline.Eval.Basic
import Pipeline.Proofs.Induction

/-!
# Approximations of values

A value approximates another one when this may come in its place once more is known. References and
deferred values approximate everything. A known value approximates itself alone, and so does every
operation on known values; what an operation makes of unknown ones is unknown again.

Filling is the narrower relation of inputs, where nothing but the unknown parts changes. Of a struct
that was made from unknown parts the type may change as well, and an unknown value that was put into
an option may turn out to be an option itself.
-/

set_option autoImplicit false
set_option relaxedAutoImplicit false

namespace Pipeline.Value

mutual

/-- The second value is the first one with any of its references and deferred values replaced by
arbitrary values. -/
def Fills : Value → Value → Prop
  | ref _ _, _ => True
  | deferred _ _, _ => True
  | list items, w => ∃ items', w = list items' ∧ FillsItems items items'
  | some v, w => ∃ v', w = some v' ∧ Fills v v'
  | record t fields, w => ∃ fields', w = record t fields' ∧ FillsFields fields fields'
  | wrapped t v, w => ∃ v', w = wrapped t v' ∧ Fills v v'
  | v, w => w = v

/-- Filling of the values of a list, each by itself. -/
def FillsItems : List Value → List Value → Prop
  | [], [] => True
  | v :: rest, w :: rest' => Fills v w ∧ FillsItems rest rest'
  | _, _ => False

/-- Filling of the values of fields, each by itself. -/
def FillsFields : List (String × Value) → List (String × Value) → Prop
  | [], [] => True
  | (n, v) :: rest, (m, w) :: rest' => n = m ∧ Fills v w ∧ FillsFields rest rest'
  | _, _ => False

end

/-- An unknown value by itself or in options. -/
def isHole : Value → Bool
  | ref _ _ => true
  | deferred _ _ => true
  | some v => isHole v
  | _ => false

mutual

/-- The second value may come in the place of the first one once more is known. -/
def Approx : Value → Value → Prop
  | ref _ _, _ => True
  | deferred _ _, _ => True
  | list items, w => ∃ items', w = list items' ∧ ApproxItems items items'
  | some v, w => v.isHole = true ∨ ∃ v', w = some v' ∧ Approx v v'
  | record t fields, w => ∃ t' fields', w = record t' fields' ∧ ApproxFields fields fields' ∧
      (fieldsKnown fields = true → t' = t)
  | wrapped t v, w => ∃ v', w = wrapped t v' ∧ Approx v v'
  | v, w => w = v

/-- Approximation of the values of a list, each by itself. -/
def ApproxItems : List Value → List Value → Prop
  | [], [] => True
  | v :: rest, w :: rest' => Approx v w ∧ ApproxItems rest rest'
  | _, _ => False

/-- Approximation of the values of fields, each by itself. -/
def ApproxFields : List (String × Value) → List (String × Value) → Prop
  | [], [] => True
  | (n, v) :: rest, (m, w) :: rest' => n = m ∧ Approx v w ∧ ApproxFields rest rest'
  | _, _ => False

end

/-! ### Unknown and known values -/

theorem Approx.of_isHole {v : Value} (hole : v.isHole = true) (w : Value) : Approx v w := by
  cases v <;> simp_all [isHole, Approx]

theorem not_isKnown_of_isHole {v : Value} (hole : v.isHole = true) : v.isKnown = false := by
  induction v using inductionOn with
  | leaf v leaf => cases v <;> simp_all [isHole, isKnown, isLeaf]
  | list items ih => simp [isHole] at hole
  | some v ih => exact ih hole
  | record t fields ih => simp [isHole] at hole
  | wrapped t v ih => simp [isHole] at hole

private theorem approxItems_refl {items : List Value} (each : ∀ v ∈ items, Approx v v) :
    ApproxItems items items := by
  induction items with
  | nil => simp [ApproxItems]
  | cons v rest ih =>
    rw [List.forall_mem_cons] at each
    exact ⟨each.1, ih each.2⟩

private theorem approxFields_refl {fields : List (String × Value)}
    (each : ∀ f ∈ fields, Approx f.2 f.2) : ApproxFields fields fields := by
  induction fields with
  | nil => simp [ApproxFields]
  | cons f rest ih =>
    rw [List.forall_mem_cons] at each
    exact ⟨rfl, each.1, ih each.2⟩

theorem Approx.refl (v : Value) : Approx v v := by
  induction v using inductionOn with
  | leaf v leaf => cases v <;> simp_all [Approx, isLeaf]
  | list items ih => exact ⟨items, rfl, approxItems_refl ih⟩
  | some v ih => exact Or.inr ⟨v, rfl, ih⟩
  | record t fields ih => exact ⟨t, fields, rfl, approxFields_refl ih, fun _ => rfl⟩
  | wrapped t v ih => exact ⟨v, rfl, ih⟩

theorem ApproxFields.refl (fields : List (String × Value)) : ApproxFields fields fields :=
  approxFields_refl fun f _ => Approx.refl f.2

private theorem approxItems_eq {items items' : List Value} (known : areKnown items = true)
    (each : ∀ v ∈ items, v.isKnown = true → ∀ w, Approx v w → w = v)
    (approx : ApproxItems items items') : items' = items := by
  induction items generalizing items' with
  | nil => cases items' <;> simp_all [ApproxItems]
  | cons v rest ih =>
    rw [List.forall_mem_cons] at each
    simp only [areKnown, Bool.and_eq_true] at known
    cases items' with
    | nil => simp [ApproxItems] at approx
    | cons w rest' =>
      rw [each.1 known.1 w approx.1, ih known.2 each.2 approx.2]

private theorem approxFields_eq {fields fields' : List (String × Value)}
    (known : fieldsKnown fields = true)
    (each : ∀ f ∈ fields, f.2.isKnown = true → ∀ w, Approx f.2 w → w = f.2)
    (approx : ApproxFields fields fields') : fields' = fields := by
  induction fields generalizing fields' with
  | nil => cases fields' <;> simp_all [ApproxFields]
  | cons f rest ih =>
    obtain ⟨n, v⟩ := f
    rw [List.forall_mem_cons] at each
    simp only [fieldsKnown, Bool.and_eq_true] at known
    cases fields' with
    | nil => simp [ApproxFields] at approx
    | cons f' rest' =>
      obtain ⟨m, w⟩ := f'
      obtain ⟨rfl, here, there⟩ := approx
      rw [each.1 known.1 w here, ih known.2 each.2 there]

/-- A known value approximates nothing but itself. -/
theorem Approx.eq_of_isKnown {v w : Value} (approx : Approx v w) (known : v.isKnown = true) :
    w = v := by
  induction v using inductionOn generalizing w with
  | leaf v leaf => cases v <;> simp_all [Approx, isLeaf, isKnown]
  | list items ih =>
    obtain ⟨items', rfl, approx⟩ := approx
    rw [approxItems_eq known (fun v member known w approx => ih v member approx known) approx]
  | some v ih =>
    rcases approx with hole | ⟨v', rfl, approx⟩
    · have unknown := not_isKnown_of_isHole hole
      simp only [isKnown, unknown, Bool.false_eq_true] at known
    · rw [ih approx known]
  | record t fields ih =>
    obtain ⟨t', fields', rfl, approx, same⟩ := approx
    rw [same known, approxFields_eq known (fun f member known w approx => ih f member approx known)
      approx]
  | wrapped t v ih =>
    obtain ⟨v', rfl, approx⟩ := approx
    rw [ih approx known]

theorem ApproxItems.eq_of_areKnown {items items' : List Value} (approx : ApproxItems items items')
    (known : areKnown items = true) : items' = items :=
  approxItems_eq known (fun _ _ known _ approx => approx.eq_of_isKnown known) approx

theorem ApproxFields.eq_of_fieldsKnown {fields fields' : List (String × Value)}
    (approx : ApproxFields fields fields') (known : fieldsKnown fields = true) :
    fields' = fields :=
  approxFields_eq known (fun _ _ known _ approx => approx.eq_of_isKnown known) approx

/-- A value that is not known approximates everything, or it is built like what it approximates. -/
theorem Approx.some_of_not_isHole {v w : Value} (approx : Approx (.some v) w)
    (filled : v.isHole = false) : ∃ v', w = .some v' ∧ Approx v v' := by
  rcases approx with hole | built
  · rw [filled] at hole
    cases hole
  · exact built

/-! ### Filling -/

private theorem fillsItems_approx {items items' : List Value}
    (each : ∀ v ∈ items, ∀ w, Fills v w → Approx v w) (filled : FillsItems items items') :
    ApproxItems items items' := by
  induction items generalizing items' with
  | nil => cases items' <;> simp_all [FillsItems, ApproxItems]
  | cons v rest ih =>
    rw [List.forall_mem_cons] at each
    cases items' with
    | nil => simp [FillsItems] at filled
    | cons w rest' => exact ⟨each.1 w filled.1, ih each.2 filled.2⟩

private theorem fillsFields_approx {fields fields' : List (String × Value)}
    (each : ∀ f ∈ fields, ∀ w, Fills f.2 w → Approx f.2 w) (filled : FillsFields fields fields') :
    ApproxFields fields fields' := by
  induction fields generalizing fields' with
  | nil => cases fields' <;> simp_all [FillsFields, ApproxFields]
  | cons f rest ih =>
    rw [List.forall_mem_cons] at each
    cases fields' with
    | nil => simp [FillsFields] at filled
    | cons f' rest' => exact ⟨filled.1, each.1 f'.2 filled.2.1, ih each.2 filled.2.2⟩

theorem Fills.approx {v w : Value} (filled : Fills v w) : Approx v w := by
  induction v using inductionOn generalizing w with
  | leaf v leaf => cases v <;> simp_all [Fills, Approx, isLeaf]
  | list items ih =>
    obtain ⟨items', rfl, inside⟩ := filled
    exact ⟨items', rfl, fillsItems_approx (fun v member w => ih v member) inside⟩
  | some v ih =>
    obtain ⟨v', rfl, inside⟩ := filled
    exact Or.inr ⟨v', rfl, ih inside⟩
  | record t fields ih =>
    obtain ⟨fields', rfl, inside⟩ := filled
    exact ⟨t, fields', rfl, fillsFields_approx (fun f member w => ih f member) inside, fun _ => rfl⟩
  | wrapped t v ih =>
    obtain ⟨v', rfl, inside⟩ := filled
    exact ⟨v', rfl, ih inside⟩

theorem FillsFields.approx {fields fields' : List (String × Value)}
    (filled : FillsFields fields fields') : ApproxFields fields fields' :=
  fillsFields_approx (fun _ _ _ filled => filled.approx) filled

end Pipeline.Value
