import Pipeline.Proofs.Eval.Kinds

/-!
# Calculations with integers

Integer literals, signs and the operators that calculate have an exact value in the integers without
a bound. An expression of these comes to its exact value if each of its sub-expressions has one of
64 bits; otherwise the first sub-expression that has none, in the order of evaluation, decides on
the fault.
-/

set_option autoImplicit false
set_option relaxedAutoImplicit false

namespace Pipeline

open Eval (outcome)

/-- The exact result of an operator that calculates. Division truncates toward zero, and the
remainder has the sign of the dividend. -/
def BinaryOp.onIntegers? : BinaryOp → Int → Int → Option Int
  | add, a, b => some (a + b)
  | sub, a, b => some (a - b)
  | mul, a, b => some (a * b)
  | div, a, b => if b = 0 then none else some (a.tdiv b)
  | rem, a, b => if b = 0 then none else some (a.tmod b)
  | _, _, _ => none

/-- True for an integer that is there and has 64 bits with a sign. -/
def isWord (x : Option Int) : Bool :=
  x.any fun n => -9223372036854775808 ≤ n && n < 9223372036854775808

namespace Expr

/-- Expressions of integer literals of 64 bits, signs and the operators that calculate. -/
inductive Integral : Expr → Prop
  | lit {n : Int} : isWord (some n) = true → Integral (.lit (.int n))
  | neg {e : Expr} : Integral e → Integral (.unary .neg e)
  | binary {op : BinaryOp} {l r : Expr} : op.calculates = true → Integral l → Integral r →
      Integral (.binary op l r)

/-- The exact value of an expression of integers; there is none if it divides by zero. -/
def integer? : Expr → Option Int
  | lit (.int n) => some n
  | unary .neg operand => operand.integer?.map fun n => -n
  | binary op left right => do
    let a ← left.integer?
    let b ← right.integer?
    op.onIntegers? a b
  | _ => none

/-- The sub-expressions in the order of evaluation: from left to right, and operands before what is
made of them. -/
def steps : Expr → List Expr
  | unary op operand => operand.steps ++ [unary op operand]
  | binary op left right => left.steps ++ right.steps ++ [binary op left right]
  | e => [e]

/-- True when the exact value of an expression has 64 bits; for a remainder, also the quotient. -/
def isExact : Expr → Bool
  | binary .rem left right =>
    isWord (binary .rem left right).integer? && isWord (binary .div left right).integer?
  | e => isWord e.integer?

/-- True for a division, or a remainder, by zero. -/
def dividesByZero : Expr → Bool
  | binary .div _ right | binary .rem _ right => right.integer? == some 0
  | _ => false

/-- The fault of an expression without an exact value of 64 bits. -/
def integerFault (e : Expr) : EvalError := if e.dividesByZero then .divisionByZero else .overflow

/-- The first sub-expression, in the order of evaluation, without an exact value of 64 bits. -/
def firstRefused? (e : Expr) : Option Expr := e.steps.find? fun sub => !sub.isExact

theorem firstRefused?_eq_none {e : Expr} :
    e.firstRefused? = none ↔ ∀ sub ∈ e.steps, sub.isExact = true := by
  simp [firstRefused?]

end Expr

/-! ### Single operators -/

namespace Value

variable {op : BinaryOp} {left right operand : Expr} {a b n : Int}

theorem fitsInt_eq (n : Int) : fitsInt n = isWord (Option.some n) := rfl

theorem ofInt_eq (n : Int) :
    ofInt n = if isWord (Option.some n) then .ok (int n) else .error .overflow := rfl

/-- The sign of an integer is turned, or there is the fault of the expression that turns it. -/
theorem unary_neg_eq (here : operand.integer? = Option.some n) :
    unary .neg (int n) = if (Expr.unary .neg operand).isExact then .ok (int (-n))
      else .error (Expr.unary .neg operand).integerFault := by
  simp [unary, ofInt_eq, Expr.isExact, Expr.integer?, here, Expr.integerFault, Expr.dividesByZero]

theorem calculateInt_of_isExact (calculates : op.calculates = true)
    (here : left.integer? = Option.some a) (there : right.integer? = Option.some b)
    (exact : (Expr.binary op left right).isExact = true) :
    ∃ n, (Expr.binary op left right).integer? = Option.some n ∧
      calculateInt op a b = .ok (int n) := by
  cases op with
  | add | sub | mul =>
    simp_all [calculateInt, ofInt_eq, Expr.isExact, Expr.integer?, BinaryOp.onIntegers?]
  | div | rem =>
    by_cases zero : b = 0
    · simp_all [Expr.isExact, Expr.integer?, BinaryOp.onIntegers?, isWord]
    · simp_all [calculateInt, ofInt_eq, fitsInt_eq, Expr.isExact, Expr.integer?,
        BinaryOp.onIntegers?]
  | _ => cases calculates

theorem calculateInt_of_not_isExact (calculates : op.calculates = true)
    (here : left.integer? = Option.some a) (there : right.integer? = Option.some b)
    (inexact : (Expr.binary op left right).isExact = false) :
    calculateInt op a b = .error (Expr.binary op left right).integerFault := by
  cases op with
  | add | sub | mul =>
    simp_all [calculateInt, ofInt_eq, Expr.isExact, Expr.integer?, BinaryOp.onIntegers?,
      Expr.integerFault, Expr.dividesByZero]
  | div =>
    by_cases zero : b = 0
    · simp_all [calculateInt, Expr.integerFault, Expr.dividesByZero]
    · simp_all [calculateInt, ofInt_eq, Expr.isExact, Expr.integer?, BinaryOp.onIntegers?,
        Expr.integerFault, Expr.dividesByZero]
  | rem =>
    by_cases zero : b = 0
    · simp_all [calculateInt, Expr.integerFault, Expr.dividesByZero]
    · cases quotient : isWord (Option.some (a.tdiv b)) <;>
        simp_all [calculateInt, ofInt_eq, fitsInt_eq, Expr.isExact, Expr.integer?,
          BinaryOp.onIntegers?, Expr.integerFault, Expr.dividesByZero]
  | _ => cases calculates

theorem calculate_integers (op : BinaryOp) (a b : Int) :
    calculate op (int a) (int b) = calculateInt op a b := by
  cases op <;> rfl

end Value

/-! ### Expressions -/

namespace Store

variable {store : Store} {runner : Runner} {env : Env} {e : Expr}

/-- An outcome is the exact value of an expression, or the fault of its first sub-expression without
an exact value of 64 bits. -/
structure Calculates (e : Expr) (r : Except EvalError Value) : Prop where
  exact : e.firstRefused? = none → ∃ n, e.integer? = some n ∧ r = .ok (.int n)
  fault : ∀ sub, e.firstRefused? = some sub → r = .error sub.integerFault

namespace Calculates

variable {before after : List Expr} {r r' : Except EvalError Value}

/-- The fault of an operand is that of the whole expression. -/
theorem of_operand {sub : Expr} (steps : e.steps = before ++ after)
    (first : before.find? (fun sub => !sub.isExact) = some sub) :
    Calculates e (.error sub.integerFault) := by
  have decides : e.firstRefused? = some sub := by
    rw [Expr.firstRefused?, steps, List.find?_append, first, Option.some_or]
  refine ⟨fun none => ?_, fun sub' first' => ?_⟩
  · cases decides.symm.trans none
  · cases decides.symm.trans first'
    rfl

/-- Where all operands have exact values, the expression itself decides. -/
theorem of_operator (steps : e.steps = before ++ [e])
    (none : before.find? (fun sub => !sub.isExact) = none)
    (exact : e.isExact = true → ∃ n, e.integer? = some n ∧ r = .ok (.int n))
    (fault : e.isExact = false → r = .error e.integerFault) : Calculates e r := by
  have last : e.firstRefused? = [e].find? fun sub => !sub.isExact := by
    rw [Expr.firstRefused?, steps, List.find?_append, none, Option.none_or]
  cases decides : e.isExact with
  | true => exact ⟨fun _ => exact decides, fun sub first => by simp [last, decides] at first⟩
  | false =>
    refine ⟨fun first => by simp [last, decides] at first, fun sub first => ?_⟩
    obtain rfl : e = sub := by simpa [last, decides] using first
    exact fault decides

theorem lit {n : Int} (fits : isWord (some n) = true) :
    Calculates (.lit (.int n)) (.ok (.int n)) := by
  have alone : (Expr.lit (.int n)).steps = [] ++ [.lit (.int n)] := rfl
  refine of_operator alone rfl (fun _ => ⟨n, rfl, rfl⟩) fun inexact => ?_
  cases fits.symm.trans inexact

theorem neg (operand : Calculates e r) :
    Calculates (.unary .neg e) (r >>= Value.unary .neg) := by
  cases first : e.firstRefused? with
  | some sub =>
    obtain rfl := operand.fault sub first
    exact of_operand rfl first
  | none =>
    obtain ⟨n, value, rfl⟩ := operand.exact first
    change Calculates _ (Value.unary .neg (.int n))
    rw [Value.unary_neg_eq value]
    refine of_operator rfl first (fun exact => ⟨-n, ?_, ?_⟩) fun inexact => ?_
    · simp [Expr.integer?, value]
    · rw [if_pos exact]
    · rw [inexact]
      rfl

theorem binary {op : BinaryOp} {left right : Expr} (calculates : op.calculates = true)
    (first : Calculates left r) (second : Calculates right r') :
    Calculates (.binary op left right) (r >>= fun a => r' >>= fun b => Value.calculate op a b) := by
  cases here : left.firstRefused? with
  | some sub =>
    obtain rfl := first.fault sub here
    exact of_operand (List.append_assoc ..) here
  | none =>
    obtain ⟨a, left_eq, rfl⟩ := first.exact here
    have steps (sub : Option Expr) (there : right.firstRefused? = sub) :
        (left.steps ++ right.steps).find? (fun sub => !sub.isExact) = sub := by
      have none : left.steps.find? (fun sub => !sub.isExact) = none := here
      rw [List.find?_append, none, Option.none_or, ← there]
      rfl
    cases there : right.firstRefused? with
    | some sub =>
      obtain rfl := second.fault sub there
      exact of_operand rfl (steps _ there)
    | none =>
      obtain ⟨b, right_eq, rfl⟩ := second.exact there
      change Calculates _ (Value.calculate op (.int a) (.int b))
      rw [Value.calculate_integers]
      exact of_operator rfl (steps _ there)
        (Value.calculateInt_of_isExact calculates left_eq right_eq)
        (Value.calculateInt_of_not_isExact calculates left_eq right_eq)

end Calculates

theorem evalWith_calculates (integral : e.Integral) :
    Calculates e (outcome (store.evalWith runner env e)) := by
  induction integral with
  | lit fits => exact .lit fits
  | neg _ ih =>
    simp only [evalWith, Eval.outcome_bind, Eval.outcome_liftExcept]
    exact ih.neg
  | @binary op l r calculates _ _ ihl ihr =>
    have operators : outcome (store.evalWith runner env (.binary op l r)) =
        (outcome (store.evalWith runner env l) >>= fun a =>
          outcome (store.evalWith runner env r) >>= fun b => Value.calculate op a b) := by
      cases op with
      | add | sub | mul | div | rem =>
        simp only [evalWith, Eval.outcome_bind, Eval.outcome_liftExcept]
      | _ => cases calculates
    rw [operators]
    exact ihl.binary calculates ihr

/-- **Integers are exact.** An expression of integers comes to an integer if and only if each of its
sub-expressions has an exact value of 64 bits, and each remainder also a quotient of 64 bits; it is
the exact value then. It comes to a fault if and only if this is the fault of the first
sub-expression for which it does not hold: a division by zero or an overflow. -/
theorem eval_integral (store : Store) (env : Env) {e : Expr} (integral : e.Integral) :
    (∀ n, outcome (store.eval env e) = .ok (.int n) ↔
      (∀ sub ∈ e.steps, sub.isExact = true) ∧ e.integer? = some n) ∧
    ∀ fault, outcome (store.eval env e) = .error fault ↔
      ∃ sub, e.firstRefused? = some sub ∧ fault = sub.integerFault := by
  have calculates : Calculates e (outcome (store.eval env e)) := by
    rw [eval, evalTo_eq]
    exact evalWith_calculates integral
  simp only [← Expr.firstRefused?_eq_none]
  cases first : e.firstRefused? with
  | none =>
    obtain ⟨n, value, result⟩ := calculates.exact first
    simp [result, value]
  | some sub =>
    simp [calculates.fault sub first, eq_comm]

/-- The least integer of 64 bits, divided by minus one with a remainder. -/
def leastRemainder : Expr :=
  .binary .rem
    (.binary .sub (.unary .neg (.lit (.int 9223372036854775807))) (.lit (.int 1)))
    (.unary .neg (.lit (.int 1)))

/-- The remainder is zero, but the quotient has no 64 bits. -/
theorem leastRemainder_overflow : leastRemainder.Integral ∧
    leastRemainder.integer? = some 0 ∧
    outcome ((default : Store).eval { module := "shop" } leastRemainder) = .error .overflow := by
  have integral : leastRemainder.Integral :=
    .binary rfl (.binary rfl (.neg (.lit (by decide))) (.lit (by decide))) (.neg (.lit (by decide)))
  refine ⟨integral, by decide, ?_⟩
  exact ((eval_integral default { module := "shop" } integral).2 .overflow).mpr
    ⟨leastRemainder, rfl, rfl⟩

end Store
end Pipeline
