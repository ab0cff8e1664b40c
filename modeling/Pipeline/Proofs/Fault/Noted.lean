import Mathlib.Data.List.Forall2
import Pipeline.Fault.Noted

/-!
# Values of computations that may fail

What a computation yields is told by its steps. A computation that notes faults and has no value
has told at least one fault, so that one without faults has a value.
-/

set_option autoImplicit false
set_option relaxedAutoImplicit false

namespace Pipeline

variable {α β : Type}

/-- Two steps come to a value where the first one does, and the second one after it. -/
theorem except_bind_eq_ok {ε : Type} {x : Except ε α} {f : α → Except ε β} {b : β} :
    x >>= f = .ok b ↔ ∃ a, x = .ok a ∧ f a = .ok b := by
  cases x with
  | error e => simp [bind, Except.bind]
  | ok a => simp [bind, Except.bind]

theorem ok_of_toOption {ε : Type} {x : Except ε α} {a : α} (found : x.toOption = some a) :
    x = .ok a := by
  cases x with
  | error e => cases found
  | ok b =>
    cases found
    rfl

instance decidableExistsOk {ε : Type} (x : Except ε α) (P : α → Prop) [DecidablePred P] :
    Decidable (∃ a, x = .ok a ∧ P a) :=
  match x with
  | .ok a => decidable_of_iff (P a) (by simp)
  | .error _ => .isFalse (by simp)

instance decidableExistsError {ε : Type} (x : Except ε α) (P : ε → Prop) [DecidablePred P] :
    Decidable (∃ e, x = .error e ∧ P e) :=
  match x with
  | .ok _ => .isFalse (by simp)
  | .error e => decidable_of_iff (P e) (by simp)

/-- Each member of a list that is in relation to another one is so to a member of that. -/
theorem exists_of_forall₂ {R : α → β → Prop} {xs : List α} {ys : List β} {y : β}
    (each : List.Forall₂ R xs ys) (member : y ∈ ys) : ∃ x ∈ xs, R x y := by
  induction each with
  | nil => cases member
  | cons here _ ih =>
    rcases List.mem_cons.mp member with rfl | inside
    · exact ⟨_, List.mem_cons_self, here⟩
    · obtain ⟨x, among, same⟩ := ih inside
      exact ⟨x, List.mem_cons_of_mem _ among, same⟩

/-- At each position of two lists in relation stand two members in relation. -/
theorem getElem?_of_forall₂ {R : α → β → Prop} {xs : List α} {ys : List β}
    (each : List.Forall₂ R xs ys) {i : Nat} {x : α} (found : xs[i]? = some x) :
    ∃ y, ys[i]? = some y ∧ R x y := by
  induction each generalizing i with
  | nil => cases found
  | cons here _ ih =>
    cases i with
    | zero =>
      cases found
      exact ⟨_, rfl, here⟩
    | succ i => exact ih found

theorem map_eq_of_forall₂ {γ : Type} {R : α → β → Prop} {g : α → γ} {h : β → γ} {xs : List α}
    {ys : List β} (all : List.Forall₂ R xs ys) (each : ∀ x y, R x y → h y = g x) :
    ys.map h = xs.map g := by
  induction all with
  | nil => rfl
  | cons here _ ih => rw [List.map_cons, List.map_cons, ih, each _ _ here]

/-- Where something comes of each member of a list, nothing is left out. -/
theorem forall₂_filterMap {f : α → Option β} {xs : List α}
    (each : ∀ x ∈ xs, (f x).isSome = true) :
    List.Forall₂ (fun x y => f x = some y) xs (xs.filterMap f) := by
  induction xs with
  | nil => exact .nil
  | cons x rest ih =>
    obtain ⟨y, found⟩ := Option.isSome_iff_exists.mp (each x List.mem_cons_self)
    rw [List.filterMap_cons_some found]
    exact .cons found (ih fun x member => each x (List.mem_cons_of_mem _ member))

namespace Noted

/-- Steps may be grouped in any way. -/
instance : LawfulMonad Noted := LawfulMonad.mk' Noted
  (fun x => by
    obtain ⟨value, faults⟩ := x
    cases value <;> simp [Functor.map])
  (fun a f => by simp [Bind.bind, Pure.pure])
  (fun x f g => by
    obtain ⟨value, faults⟩ := x
    cases value with
    | none => rfl
    | some a =>
      simp only [Bind.bind]
      cases (f a).value <;> simp)

/-! ### Values -/

theorem value_bind_eq_some {x : Noted α} {f : α → Noted β} {b : β} :
    (x >>= f).value = some b ↔ ∃ a, x.value = some a ∧ (f a).value = some b := by
  cases x with
  | mk value faults =>
    cases value <;> simp [Bind.bind]

@[simp] theorem value_pure (a : α) : (pure a : Noted α).value = some a := rfl

theorem value_map_eq_some {x : Noted α} {f : α → β} {b : β} :
    (f <$> x).value = some b ↔ ∃ a, x.value = some a ∧ f a = b := by
  rw [map_eq_pure_bind, value_bind_eq_some]
  simp only [value_pure, Option.some.injEq]

theorem value_ofExcept_eq_some {ε : Type} {place : Location} {kind : ε → ErrorKind}
    {r : Except ε α} {a : α} : (ofExcept place kind r).value = some a ↔ r = .ok a := by
  cases r <;> simp [ofExcept, fail]

theorem value_mapM_eq_some {f : α → Noted β} {xs : List α} {ys : List β} :
    (xs.mapM f).value = some ys ↔ List.Forall₂ (fun x y => (f x).value = some y) xs ys := by
  induction xs generalizing ys with
  | nil => simp [eq_comm]
  | cons x rest ih =>
    rw [List.mapM_cons, List.forall₂_cons_left_iff]
    simp only [value_bind_eq_some, value_pure, Option.some.injEq, ih]
    constructor
    · rintro ⟨y, here, ys, there, rfl⟩
      exact ⟨y, ys, here, there, rfl⟩
    · rintro ⟨y, ys, here, there, rfl⟩
      exact ⟨y, here, ys, there, rfl⟩

/-- Each value of a list was read from a member of the list. -/
theorem exists_of_mem_mapM {f : α → Noted β} {xs : List α} {ys : List β} {y : β}
    (read : (xs.mapM f).value = some ys) (member : y ∈ ys) : ∃ x ∈ xs, (f x).value = some y :=
  exists_of_forall₂ (R := fun x y => (f x).value = some y) (value_mapM_eq_some.mp read) member

/-- What is known of each value by the member of the list that it was read from. -/
theorem map_eq_of_mapM {γ : Type} {f : α → Noted β} {g : α → γ} {h : β → γ} {xs : List α}
    {ys : List β} (read : (xs.mapM f).value = some ys)
    (each : ∀ x y, (f x).value = some y → h y = g x) : ys.map h = xs.map g :=
  map_eq_of_forall₂ (value_mapM_eq_some.mp read) each

/-! ### Faults -/

/-- A computation without a value tells a fault. -/
def Tells (x : Noted α) : Prop := x.faults = [] → x.value.isSome = true

theorem Tells.pure (a : α) : Tells (pure a) := fun _ => rfl

theorem Tells.fail (place : Location) (kind : ErrorKind) : Tells (fail place kind : Noted α) :=
  nofun

theorem Tells.note (faults : List Diagnostic) : Tells (note faults) := fun _ => rfl

theorem Tells.attempt (x : Noted α) : Tells (attempt x) := fun _ => rfl

theorem Tells.collect (f : α → Noted β) (xs : List α) : Tells (collect f xs) := fun _ => rfl

theorem Tells.ofExcept {ε : Type} (place : Location) (kind : ε → ErrorKind) (r : Except ε α) :
    Tells (ofExcept place kind r) := by
  cases r with
  | ok a => exact Tells.pure a
  | error e => exact Tells.fail place (kind e)

theorem Tells.bind {x : Noted α} {f : α → Noted β} (first : Tells x) (second : ∀ a, Tells (f a)) :
    Tells (x >>= f) := by
  intro clean
  cases read : x.value with
  | none =>
    simp only [Bind.bind, read] at clean
    have known := first clean
    rw [read] at known
    cases known
  | some a =>
    simp only [Bind.bind, read, List.append_eq_nil_iff] at clean ⊢
    exact second a clean.2

theorem Tells.map {x : Noted α} (f : α → β) (tells : Tells x) : Tells (f <$> x) :=
  tells.bind fun a => Tells.pure (f a)

theorem Tells.mapM {f : α → Noted β} (each : ∀ a, Tells (f a)) (xs : List α) :
    Tells (xs.mapM f) := by
  induction xs with
  | nil => exact Tells.pure []
  | cons x rest ih =>
    rw [List.mapM_cons]
    exact (each x).bind fun y => ih.bind fun ys => Tells.pure (y :: ys)

theorem Tells.value {x : Noted α} (tells : Tells x) (clean : x.faults = []) :
    ∃ a, x.value = some a := Option.isSome_iff_exists.mp (tells clean)

/-! ### Computations without faults -/

theorem eq_pure {x : Noted α} {a : α} (read : x.value = some a) (clean : x.faults = []) :
    x = pure a := by
  cases x
  cases read
  cases clean
  rfl

theorem Tells.eq_pure {x : Noted α} (tells : Tells x) (clean : x.faults = []) :
    ∃ a, x = Pure.pure a := by
  obtain ⟨a, read⟩ := tells.value clean
  exact ⟨a, Noted.eq_pure read clean⟩

theorem bind_eq_pure {x : Noted α} {f : α → Noted β} {b : β} :
    x >>= f = pure b ↔ ∃ a, x = pure a ∧ f a = pure b := by
  constructor
  · intro same
    have clean := congrArg Noted.faults same
    obtain ⟨a, read, rest⟩ := value_bind_eq_some.mp (congrArg Noted.value same)
    simp only [Bind.bind, read] at clean
    obtain ⟨before, behind⟩ := List.append_eq_nil_iff.mp clean
    exact ⟨a, eq_pure read before, eq_pure rest behind⟩
  · rintro ⟨a, rfl, rest⟩
    rw [pure_bind, rest]

theorem mapM_eq_pure {f : α → Noted β} {xs : List α} {ys : List β} :
    xs.mapM f = pure ys ↔ List.Forall₂ (fun x y => f x = pure y) xs ys := by
  induction xs generalizing ys with
  | nil =>
    rw [List.mapM_nil, List.forall₂_nil_left_iff]
    exact ⟨fun same => by cases same; rfl, fun same => by rw [same]⟩
  | cons x rest ih =>
    rw [List.mapM_cons, List.forall₂_cons_left_iff]
    simp only [bind_eq_pure, ih]
    constructor
    · rintro ⟨y, here, ys, there, same⟩
      cases same
      exact ⟨y, ys, here, there, rfl⟩
    · rintro ⟨y, ys, here, there, rfl⟩
      exact ⟨y, here, ys, there, rfl⟩

theorem note_eq_pure {faults : List Diagnostic} : note faults = pure () ↔ faults = [] := by
  constructor
  · intro same
    exact congrArg Noted.faults same
  · rintro rfl
    rfl

end Noted
end Pipeline
