import Pipeline.Proofs.Schema.Conformance
import Pipeline.Proofs.Store.Expansion
import Pipeline.Proofs.Store.Prelude

/-!
# Options of what is accepted

A value that can be given a type can be given an option of that type: it is accepted as the option
that it is, or put into one. Records without a type are excepted, which become structs and nothing
else.
-/

set_option autoImplicit false
set_option relaxedAutoImplicit false

namespace Pipeline

/-- A value is given a type. -/
def Conformer.Takes (conform : Conformer) (t : Ty) (place : Location) : Prop :=
  ∃ made, (conform t place).value = .ok made

theorem Ty.height_pos (t : Ty) : 1 ≤ t.height := by
  cases t <;> simp [Ty.height]

namespace Store

variable {store : Store}

/-! ### More depth for options -/

theorem aliasHeight_pos (store : Store) : 1 ≤ store.aliasHeight := by
  unfold aliasHeight
  refine List.foldlRecOn (motive := fun n : Nat => 1 ≤ n) _ _ (Nat.le_refl 1) fun n pos d _ => ?_
  split
  · exact Nat.mul_pos pos (Ty.height_pos _)
  · exact pos

theorem expandedHeight_option (store : Store) (t : Ty) :
    ∃ depth, store.expandedHeight (.named Builtin.option [t]) = depth + 1 ∧
      store.expandedHeight t ≤ depth := by
  have pos := store.aliasHeight_pos
  refine ⟨store.expandedHeight t + (store.aliasHeight - 1), ?_, Nat.le_add_right _ _⟩
  have height : (Ty.named Builtin.option [t]).height = t.height + 1 := by
    simp [Ty.height, Ty.heightList]
  rw [expandedHeight, height, Nat.succ_mul, expandedHeight]
  omega

/-- What an option holds is given its type at most so deep. -/
def insideTo (store : Store) (v : Value) : Nat → Location → Ty → Logged (Option Value)
  | 0 => fun _ _ => pure none
  | depth + 1 => fun place elem => do
    return ((← store.conformTo depth v elem place).toOption).map (·.1)

theorem conformTo_eq (depth : Nat) (v : Value) :
    store.conformTo depth v = store.conformBy (store.insideTo v depth) v := by
  cases depth <;> rfl

theorem insideTo_succ {depth : Nat} {v : Value} {place : Location} {elem : Ty} :
    (store.insideTo v (depth + 1) place elem).value =
      (store.conformTo depth v elem place).value.toOption.map (·.1) := rfl

/-- A type is looked at with its aliases expanded. -/
theorem conformTo_congr {depth : Nat} {v : Value} {t u : Ty} {place : Location}
    (same : store.normalize t = store.normalize u) :
    store.conformTo depth v t place = store.conformTo depth v u place := by
  rw [conformTo_eq]
  unfold conformBy
  rw [same]

theorem convert_mono {inOption inOption' : Ty → Logged (Option Value)} {v : Value} {t : Ty}
    {place : Location} {made : Value × Conversion}
    (more : ∀ elem, (inOption elem).value.isSome = true → (inOption' elem).value.isSome = true)
    (found : (store.convert inOption v t place).value = .ok (some made)) :
    ∃ made', (store.convert inOption' v t place).value = .ok (some made') := by
  have present : (presentIn inOption t).isSome = true → (presentIn inOption' t).isSome = true := by
    unfold presentIn
    split
    · cases t.args.head? with
      | none => exact id
      | some elem => exact more elem
    · exact id
  rw [convert_value] at found ⊢
  cases inside : presentIn inOption' t with
  | some w => exact ⟨_, rfl⟩
  | none =>
    rw [inside] at present
    have outside : presentIn inOption t = none := by
      simpa using present
    rw [outside] at found
    exact ⟨made, found⟩

theorem conformBy_mono {inOption inOption' : Location → Ty → Logged (Option Value)} {v : Value}
    {t : Ty} {place : Location}
    (more : ∀ elem, (inOption place elem).value.isSome = true →
      (inOption' place elem).value.isSome = true)
    (takes : Conformer.Takes (store.conformBy inOption v) t place) :
    Conformer.Takes (store.conformBy inOption' v) t place := by
  obtain ⟨made, found⟩ := takes
  unfold Conformer.Takes
  unfold conformBy at found ⊢
  simp only [Logged.value_bind] at found ⊢
  cases accepted : (store.accept v (store.normalize t)).value with
  | some w => exact ⟨_, rfl⟩
  | none =>
    simp only [accepted, Logged.value_bind] at found ⊢
    split at found
    · cases found
    · cases found
    · rename_i w via converted
      obtain ⟨made', again⟩ := convert_mono more converted
      rw [again]
      exact ⟨_, rfl⟩

/-- What is given a type is given it with more depth for options. -/
theorem conformTo_mono {depth depth' : Nat} (le : depth ≤ depth') {v : Value} {t : Ty}
    {place : Location} (takes : Conformer.Takes (store.conformTo depth v) t place) :
    Conformer.Takes (store.conformTo depth' v) t place := by
  induction depth generalizing depth' t with
  | zero =>
    rw [conformTo_eq] at takes ⊢
    refine conformBy_mono (fun elem inside => ?_) takes
    cases inside
  | succ depth ih =>
    obtain ⟨more, rfl⟩ := Nat.exists_eq_add_of_lt (Nat.lt_of_succ_le le)
    rw [conformTo_eq] at takes ⊢
    refine conformBy_mono (fun elem inside => ?_) takes
    rw [insideTo_succ, Option.isSome_map] at inside ⊢
    cases result : (store.conformTo depth v elem place).value with
    | error faults => simp [result, Except.toOption] at inside
    | ok made =>
      obtain ⟨made', again⟩ := ih (Nat.le_add_right depth more) ⟨made, result⟩
      simp [again, Except.toOption]

/-! ### Options -/

theorem normalize_option (plain : store.synonym? Builtin.option = none) (t : Ty) :
    store.normalize (.named Builtin.option [t]) = .named Builtin.option [store.normalize t] :=
  normalizeTo_named plain [t]

theorem conformBy_option {inOption : Location → Ty → Logged (Option Value)} {v inner : Value}
    {t : Ty} {place : Location} (plain : store.synonym? Builtin.option = none)
    (inside : (inOption place (store.normalize t)).value = some inner) :
    (∃ w, (store.conformBy inOption v (.named Builtin.option [t]) place).value = .ok (w, none)) ∨
      (store.conformBy inOption v (.named Builtin.option [t]) place).value =
        .ok (.some inner, some .present) := by
  unfold conformBy
  rw [normalize_option plain]
  simp only [Logged.value_bind]
  cases (store.accept v (.named Builtin.option [store.normalize t])).value with
  | some w => exact Or.inl ⟨w, rfl⟩
  | none =>
    have present : presentIn (inOption place) (.named Builtin.option [store.normalize t]) =
        some inner := by
      simp [presentIn, Ty.path?, Ty.args, inside]
    simp only [Logged.value_bind, convert_value, present]
    exact Or.inr rfl

theorem recordOf_no_struct {given : List (String × Conformer)} {t : Ty} {place : Location}
    (none : store.structOf? t = none) :
    (store.recordOf given t place).value = .error [mismatch place t "record"] := by
  unfold recordOf
  simp only [none]
  rfl

/-- A value with a type that is given a type is given an option of it, as the option that it is or
put into one. A record without a type is not, whatever its fields. -/
theorem conform_option (ds : List Document) (maxDepth : Nat) (s : Store)
    (loaded : (load ds maxDepth).value = .ok s) (v : Value) (t : Ty) (place : Location) :
    (v.isUntyped = false → s.normalize (s.normalize t) = s.normalize t →
      (∃ made, (s.conform v t place).value = .ok made) →
      (∃ w, (s.conform v (.named Builtin.option [t]) place).value = .ok (w, none)) ∨
        ∃ w, (s.conform v (.named Builtin.option [t]) place).value =
          .ok (.some w, some .present)) ∧
    ∀ fields, (s.conform (.record .infer fields) (.named Builtin.option [t]) place).value =
      .error [mismatch place (.named Builtin.option [s.normalize t]) "record"] := by
  have listed : ("Option", Prelude.nativeType ["T"]) ∈ Prelude.types := by decide
  have plain : s.synonym? Builtin.option = none := (prelude_plain loaded listed).1
  have noStruct : ∀ args, s.structOf? (.named Builtin.option args) = none :=
    (prelude_plain loaded listed).2
  refine ⟨fun typed stable takes => ?_, fun fields => ?_⟩
  · rw [conform_of_typed typed] at takes ⊢
    obtain ⟨depth, enough, le⟩ := s.expandedHeight_option t
    -- Inside the option the type is expanded already, and there is depth enough left for it.
    have deeper : Conformer.Takes (s.conformTo depth v) (s.normalize t) place := by
      unfold Conformer.Takes
      rw [conformTo_congr stable]
      exact conformTo_mono le takes
    obtain ⟨⟨w, via⟩, made⟩ := deeper
    have inside : (s.insideTo v (depth + 1) place (s.normalize t)).value = some w := by
      rw [insideTo_succ, made]
      rfl
    rw [conformPlain, enough, conformTo_eq]
    rcases conformBy_option (v := v) plain inside with accepted | present
    · exact Or.inl accepted
    · exact Or.inr ⟨w, present⟩
  · rw [conform]
    simp only [Logged.value_bind, Logged.value_pure, normalize_option plain,
      recordOf_no_struct (noStruct _)]
    rfl

/-- A document with a struct, a wrapper and a chain of aliases. -/
def figures : Document where
  module := "figures"
  origin := "figures"
  version := supportedVersion
  kind := .struct
  types := [("Point", ⟨[], [("x", .short "i64"), ("y", .short "i64")], [], none, none, none⟩),
    ("Label", ⟨[], [], [], some "String", none, none⟩),
    ("Length", ⟨[], [], [], none, some "Extent", none⟩),
    ("Extent", ⟨[], [], [], none, some "Size", none⟩),
    ("Size", ⟨[], [], [], none, some "u32", none⟩)]

/-- Conforming comes to a value. -/
private theorem takes_iff {s : Store} {v : Value} {t : Ty} :
    (∃ made, (s.conform v t ⟨"main", []⟩).value = .ok made) ↔
      (s.conform v t ⟨"main", []⟩).value.toOption.isSome = true := by
  cases (s.conform v t ⟨"main", []⟩).value <;> simp [Except.toOption]

private theorem figures_load : ∃ s, (load [figures] 4).value = .ok s ∧
    s.normalize (s.normalize (.named "figures::Label" [])) =
      s.normalize (.named "figures::Label" []) ∧
    (∃ made, (s.conform (.str "north") (.named "figures::Label" []) ⟨"main", []⟩).value =
      .ok made) ∧
    (∃ made, (s.conform (.record .infer [("x", .int 1), ("y", .int 2)])
      (.named "figures::Point" []) ⟨"main", []⟩).value = .ok made) ∧
    ¬ ∃ made, (s.conform (.record .infer [("x", .int 1), ("y", .int 2)])
      (.named Builtin.option [.named "figures::Point" []]) ⟨"main", []⟩).value = .ok made := by
  simp only [takes_iff]
  decide +kernel

/-- A text that is wrapped into a label is put into an option of one after that. -/
theorem conform_option_label :
    ∃ s, (load [figures] 4).value = .ok s ∧ (Value.str "north").isUntyped = false ∧
      s.normalize (s.normalize (.named "figures::Label" [])) =
        s.normalize (.named "figures::Label" []) ∧
      (∃ made, (s.conform (.str "north") (.named "figures::Label" []) ⟨"main", []⟩).value =
        .ok made) ∧
      ((∃ w, (s.conform (.str "north") (.named Builtin.option [.named "figures::Label" []])
          ⟨"main", []⟩).value = .ok (w, none)) ∨
        ∃ w, (s.conform (.str "north") (.named Builtin.option [.named "figures::Label" []])
          ⟨"main", []⟩).value = .ok (.some w, some .present)) := by
  obtain ⟨s, loaded, stable, takes, -⟩ := figures_load
  exact ⟨s, loaded, rfl, stable, takes,
    (conform_option _ 4 s loaded (.str "north") _ ⟨"main", []⟩).1 rfl stable takes⟩

/-- A record without a type is made a point, and is not made an option of one. Neither is a
reference to a length whose alias is expanded once more inside the option. -/
theorem option_refused :
    (∃ s, (load [figures] 4).value = .ok s ∧
      (∃ made, (s.conform (.record .infer [("x", .int 1), ("y", .int 2)])
        (.named "figures::Point" []) ⟨"main", []⟩).value = .ok made) ∧
      ¬ ∃ made, (s.conform (.record .infer [("x", .int 1), ("y", .int 2)])
        (.named Builtin.option [.named "figures::Point" []]) ⟨"main", []⟩).value = .ok made) ∧
    ∃ s, (load [figures] 0).value = .ok s ∧
      (∃ made, (s.conform (.ref "b" (.named "figures::Size" []))
        (.named "figures::Length" []) ⟨"main", []⟩).value = .ok made) ∧
      ¬ ∃ made, (s.conform (.ref "b" (.named "figures::Size" []))
        (.named Builtin.option [.named "figures::Length" []]) ⟨"main", []⟩).value = .ok made := by
  constructor
  · obtain ⟨s, loaded, -, -, point, refused⟩ := figures_load
    exact ⟨s, loaded, point, refused⟩
  · simp only [takes_iff]
    decide +kernel

end Store
end Pipeline
