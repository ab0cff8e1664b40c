import Pipeline.Fault.Evaluation
import Pipeline.Store.Basic
import Pipeline.Text.Decimal
import Pipeline.Value.Equal

/-!
# Operators and built-in methods on values

Integers have 64 bits with a sign; a result that does not fit is an overflow. The remainder of floats
is that of a division whose quotient is truncated to an integer; it is computed on exact integers and
is always a double itself. An operation on what is not known yet is put off, and keeps its text.
-/

set_option autoImplicit false
set_option relaxedAutoImplicit false

namespace Pipeline

open Text.Decimal

/-- The remainder of two magnitudes with the smaller one of their exponents; the divisor is not
zero. -/
def remainderOf (a b : Binary) : Nat × Int :=
  let e := min a.exponent b.exponent
  let m := a.mantissa * Text.twoTo (a.exponent - e).toNat
  let n := b.mantissa * Text.twoTo (b.exponent - e).toNat
  (m % n, e)

/-- The remainder of `a` by `b`, with the sign of `a`. An infinite dividend has none; an infinite
divisor leaves the dividend as it is. -/
def floatRemainder (a b : Float) : Float :=
  match classify a, classify b with
  | .finite negative x, .finite _ y =>
    let (m, e) := remainderOf x y
    let r := (Float.ofNat m).scaleB e
    if negative then -r else r
  | .finite _ _, .infinite _ => a
  | _, _ => 0.0 / 0.0

end Pipeline

namespace Pipeline.Value

/-- A condition that is put off until run time. -/
def deferredBool (call : String) : Value := deferred Builtin.boolTy call

/-- A type fault. -/
def typeFault {α : Type} (fault : TypeFault) : Except EvalError α := .error (.type fault)

/-- True for an integer of 64 bits. -/
def fitsInt (n : Int) : Bool := -(Text.twoTo 63 : Int) ≤ n && n < Text.twoTo 63

/-- An integer, unless it does not fit. -/
def ofInt (n : Int) : Except EvalError Value :=
  if fitsInt n then .ok (int n) else .error .overflow

/-- A float, unless it is not finite. -/
def ofFloat (x : Float) : Except EvalError Value :=
  if x.isFinite then .ok (float x) else .error .overflow

/-- Applies an operator before its operand. -/
def unary (op : UnaryOp) (v : Value) : Except EvalError Value :=
  match op, v with
  | .not, bool b => .ok (bool !b)
  | .neg, int n => ofInt (-n)
  | .neg, float x => .ok (float (-x))
  | op, v =>
    if !v.isKnown then .ok (deferred v.ty (op.symbol ++ v.text))
    else match op with
      | .not => typeFault (.needsBool v.ty)
      | .neg => typeFault (.needsNumber v.ty)

/-- The text of an operation that is put off. -/
def operationText (op : BinaryOp) (l r : Value) : String :=
  l.text ++ " " ++ op.symbol ++ " " ++ r.text

/-- The order of two values of one kind; nothing for a float that is no number. -/
def order (l r : Value) : Except EvalError (Option Ordering) :=
  match l, r with
  | int a, int b => .ok (Option.some (compare a b))
  | str a, str b => .ok (Option.some (compare a b))
  | l, r =>
    match l.number?, r.number? with
    | Option.some a, Option.some b =>
      .ok (if a < b then Option.some .lt else if b < a then Option.some .gt
        else if a == b then Option.some .eq else Option.none)
    | _, _ => typeFault (.incomparable l.ty r.ty)

/-- True when an order satisfies a comparison. -/
def holds (op : BinaryOp) (o : Ordering) : Bool :=
  match op with
  | .lt => o == .lt
  | .le => o != .gt
  | .gt => o == .gt
  | _ => o != .lt

/-- Compares two values. -/
def compareBy (op : BinaryOp) (l r : Value) : Except EvalError Value := do
  if !l.isKnown || !r.isKnown then return deferredBool (operationText op l r)
  else
    match ← order l r with
    | Option.some o => return bool (holds op o)
    | Option.none => return bool false

/-- Calculates with integers. Division truncates toward zero and the remainder has the sign of the
dividend; a remainder whose quotient does not fit is an overflow, too. -/
def calculateInt (op : BinaryOp) (a b : Int) : Except EvalError Value :=
  match op with
  | .add => ofInt (a + b)
  | .sub => ofInt (a - b)
  | .mul => ofInt (a * b)
  | .div => if b = 0 then .error .divisionByZero else ofInt (a.tdiv b)
  | _ =>
    if b = 0 then .error .divisionByZero
    else if fitsInt (a.tdiv b) then ofInt (a.tmod b)
    else .error .overflow

/-- Calculates with floats. -/
def calculateFloat (op : BinaryOp) (a b : Float) : Except EvalError Value :=
  match op with
  | .add => ofFloat (a + b)
  | .sub => ofFloat (a - b)
  | .mul => ofFloat (a * b)
  | .div => if b == 0.0 then .error .divisionByZero else ofFloat (a / b)
  | _ => if b == 0.0 then .error .divisionByZero else ofFloat (floatRemainder a b)

/-- Calculates with two values: integers, texts that are joined, or numbers of which one at least
is a float. -/
def calculate (op : BinaryOp) (l r : Value) : Except EvalError Value :=
  if !l.isKnown || !r.isKnown then
    .ok (deferred (if l.isKnown then r.ty else l.ty) (operationText op l r))
  else
    match op, l, r with
    | op, int a, int b => calculateInt op a b
    | .add, str a, str b => .ok (str (a ++ b))
    | op, l, r =>
      match l.number?, r.number? with
      | Option.some a, Option.some b => calculateFloat op a b
      | _, _ => typeFault (.undefinedOperator op l.ty r.ty)

/-- The truth value of an operand of a logical operator, if it is known. -/
def truth (op : BinaryOp) (v : Value) : Except EvalError (Option Bool) :=
  match v with
  | bool b => .ok (Option.some b)
  | v =>
    if !v.isKnown && v.ty == Builtin.boolTy then .ok Option.none
    else typeFault (.needsBools op v.ty)

/-- Joins two operands of a logical operator of which the first one does not decide; `short` is
the truth value that decides. -/
def join (op : BinaryOp) (short : Bool) (l r : Value) (lTruth rTruth : Option Bool) : Value :=
  match lTruth, rTruth with
  | Option.some _, Option.some b => bool b
  | Option.none, Option.some b =>
    if b = short then bool short else deferredBool (operationText op l r)
  | _, Option.none => deferredBool (operationText op l r)

/-- A value inside an option, one that is an option already as it is. -/
def intoOption : Value → Value
  | none => none
  | some v => some v
  | v => some v

/-- The type of an optional result; an option is not put into another one. -/
def optionOf (t : Ty) : Ty := if t.path? = Option.some Builtin.option then t else
  .named Builtin.option [t]

/-- The number of a text's characters or of a list's items. -/
def size? : Value → Option Nat
  | str s => Option.some s.length
  | list items => Option.some items.length
  | _ => Option.none

/-- What an option holds, if the value is one. -/
def option? : Value → Option (Option Value)
  | none => Option.some Option.none
  | some v => Option.some (Option.some v)
  | _ => Option.none

/-- The bodies of methods of the prelude; nothing where they do not apply. -/
def builtin (name : String) (receiver : Value) (args : List Value) :
    Option (Except EvalError Value) :=
  match name, args with
  | "eq", [other] => Option.some (.ok (bool (receiver.equal other)))
  | "ne", [other] => Option.some (.ok (bool !receiver.equal other))
  | "len", [] => receiver.size?.map fun n => .ok (int n)
  | "is_empty", [] => receiver.size?.map fun n => .ok (bool (n == 0))
  | "contains", [arg] =>
    match receiver, arg with
    | str s, str p => Option.some (.ok (bool (Text.contains p s)))
    | list items, item => Option.some (.ok (bool (items.any (·.equal item))))
    | _, _ => Option.none
  | "starts_with", [str p] =>
    match receiver with
    | str s => Option.some (.ok (bool (Text.startsWith p s)))
    | _ => Option.none
  | "ends_with", [str p] =>
    match receiver with
    | str s => Option.some (.ok (bool (Text.endsWith p s)))
    | _ => Option.none
  | "is_some", [] => receiver.option?.map fun v => .ok (bool v.isSome)
  | "is_none", [] => receiver.option?.map fun v => .ok (bool v.isNone)
  | "unwrap", [] => receiver.option?.map fun
    | Option.some v => .ok v
    | Option.none => .error (.aborted "called 'unwrap' on a 'None' value")
  | "unwrap_or", [default] => receiver.option?.map fun v => .ok (v.getD default)
  | _, _ => Option.none

end Pipeline.Value
