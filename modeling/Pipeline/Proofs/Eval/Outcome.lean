import Pipeline.Eval.Evaluate
import Pipeline.Proofs.Fault.Noted

/-!
# Outcomes of evaluations

An evaluation comes to a value or to a fault. What it reports on the way decides nothing, so that
statements about evaluations are statements about their outcomes.
-/

set_option autoImplicit false
set_option relaxedAutoImplicit false

namespace Pipeline.Eval

variable {α β : Type}

/-- What an evaluation comes to. -/
def outcome (x : Eval α) : Except EvalError α := x.run.value

@[simp] theorem outcome_pure (a : α) : outcome (pure a) = .ok a := rfl

@[simp] theorem outcome_throw (e : EvalError) : outcome (throw e : Eval α) = .error e := rfl

@[simp] theorem outcome_bind (x : Eval α) (f : α → Eval β) :
    outcome (x >>= f) = outcome x >>= fun a => outcome (f a) := by
  change (ExceptT.bindCont f x.run.value).value = _
  unfold outcome
  cases x.run.value <;> rfl

@[simp] theorem outcome_map (f : α → β) (x : Eval α) : outcome (f <$> x) = f <$> outcome x := by
  rcases x with ⟨value, events⟩
  cases value <;> rfl

/-- A computation that has a value or a fault at hand. -/
@[simp] theorem outcome_liftExcept (r : Except EvalError α) : outcome (liftM r : Eval α) = r := rfl

/-- A computation that cannot fail. -/
@[simp] theorem outcome_liftLogged (x : Logged α) : outcome (liftM x : Eval α) = .ok x.value := rfl

@[simp] theorem outcome_orElse (x : Option α) (e : EvalError) :
    outcome (orElse x e) = match x with
      | some a => .ok a
      | none => .error e := by
  cases x <;> rfl

@[simp] theorem outcome_typeFault (fault : TypeFault) :
    outcome (typeFault fault : Eval α) = .error (.type fault) := rfl

/-! ### What holds of a value, and of the values of two evaluations -/

/-- Whatever value there is satisfies a condition. -/
def Yields (P : α → Prop) (r : Except EvalError α) : Prop := ∀ a, r = .ok a → P a

/-- Where the first outcome is a value, the second one is a fault or a value in relation to it. -/
def Follows (R : α → β → Prop) (r : Except EvalError α) (q : Except EvalError β) : Prop :=
  ∀ a, r = .ok a → (∃ b, q = .ok b ∧ R a b) ∨ ∃ e, q = .error e

theorem Yields.ok {P : α → Prop} {a : α} (h : P a) : Yields P (.ok a : Except EvalError α) := by
  intro b same
  cases same
  exact h

theorem Yields.error {P : α → Prop} {e : EvalError} : Yields P (.error e) := nofun

theorem Yields.trivial {r : Except EvalError α} : Yields (fun _ => True) r :=
  fun _ _ => True.intro

theorem Yields.mono {P Q : α → Prop} {r : Except EvalError α} (h : Yields P r)
    (le : ∀ a, P a → Q a) : Yields Q r :=
  fun a found => le a (h a found)

theorem Yields.bind {P : α → Prop} {Q : β → Prop} {r : Except EvalError α}
    {f : α → Except EvalError β} (first : Yields P r) (next : ∀ a, P a → Yields Q (f a)) :
    Yields Q (r >>= f) := by
  intro b found
  obtain ⟨a, here, there⟩ := except_bind_eq_ok.mp found
  exact next a (first a here) b there

theorem Yields.map {P : α → Prop} {Q : β → Prop} {r : Except EvalError α} {f : α → β}
    (first : Yields P r) (next : ∀ a, P a → Q (f a)) : Yields Q (f <$> r) := by
  intro b found
  cases r with
  | error e => cases found
  | ok a =>
    cases found
    exact next a (first a rfl)

theorem Follows.ok {R : α → β → Prop} {a : α} {b : β} (h : R a b) :
    Follows R (.ok a) (.ok b) := by
  intro a' same
  cases same
  exact Or.inl ⟨b, rfl, h⟩

theorem Follows.error {R : α → β → Prop} {e : EvalError} {q : Except EvalError β} :
    Follows R (.error e) q := nofun

theorem Follows.fault {R : α → β → Prop} {e : EvalError} {r : Except EvalError α} :
    Follows R r (.error e) := fun _ _ => Or.inr ⟨e, rfl⟩

theorem Follows.refl {R : α → α → Prop} (each : ∀ a, R a a) (r : Except EvalError α) :
    Follows R r r := by
  intro a found
  exact Or.inl ⟨a, found, each a⟩

/-- A value that everything is in relation to is followed by everything. -/
theorem Follows.of_yields {P : α → Prop} {R : α → β → Prop} {r : Except EvalError α}
    (h : Yields P r) (any : ∀ a b, P a → R a b) (q : Except EvalError β) : Follows R r q := by
  intro a found
  cases q with
  | ok b => exact Or.inl ⟨b, rfl, any a b (h a found)⟩
  | error e => exact Or.inr ⟨e, rfl⟩

theorem Follows.bind {γ δ : Type} {R : α → β → Prop} {S : γ → δ → Prop} {r : Except EvalError α}
    {q : Except EvalError β} {f : α → Except EvalError γ} {g : β → Except EvalError δ}
    (first : Follows R r q) (next : ∀ a b, R a b → Follows S (f a) (g b)) :
    Follows S (r >>= f) (q >>= g) := by
  intro c found
  obtain ⟨a, here, there⟩ := except_bind_eq_ok.mp found
  rcases first a here with ⟨b, rfl, related⟩ | ⟨e, rfl⟩
  · exact next a b related c there
  · exact Or.inr ⟨e, rfl⟩

theorem Follows.map {γ δ : Type} {R : α → β → Prop} {S : γ → δ → Prop} {r : Except EvalError α}
    {q : Except EvalError β} {f : α → γ} {g : β → δ} (first : Follows R r q)
    (next : ∀ a b, R a b → S (f a) (g b)) : Follows S (f <$> r) (g <$> q) := by
  intro c found
  cases r with
  | error e => cases found
  | ok a =>
    cases found
    rcases first a rfl with ⟨b, rfl, related⟩ | ⟨e, rfl⟩
    · exact Or.inl ⟨g b, rfl, next a b related⟩
    · exact Or.inr ⟨e, rfl⟩

end Pipeline.Eval
