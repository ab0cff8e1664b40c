import Pipeline.Expr.Basic
import Pipeline.Token.Basic
import Pipeline.Ty.Basic

/-!
# Faults of evaluation
-/

set_option autoImplicit false
set_option relaxedAutoImplicit false

namespace Pipeline

/-- A value of the wrong kind, or a field or argument list that does not fit its declaration. -/
inductive TypeFault where
  | privateField (field path : String)
  | noField (ty : Ty) (field : String)
  | notAStruct (path : String)
  | fieldTwice (field : String)
  | missingField (field path : String)
  | argumentCount (method : String) (expected given : Nat)
  | needsOption (found : Ty)
  | needsBools (op : BinaryOp) (found : Ty)
  | needsBool (found : Ty)
  | needsNumber (found : Ty)
  | incomparable (left right : Ty)
  | undefinedOperator (op : BinaryOp) (left right : Ty)
deriving DecidableEq, Repr

namespace TypeFault

/-- The fault in words. -/
def text : TypeFault → String
  | privateField field path => "field '" ++ field ++ "' of '" ++ path ++ "' is private"
  | noField ty field => "no field '" ++ field ++ "' on '" ++ ty.text ++ "'"
  | notAStruct path => "'" ++ path ++ "' is not a struct"
  | fieldTwice field => "field '" ++ field ++ "' given twice"
  | missingField field path => "missing field '" ++ field ++ "' in '" ++ path ++ "'"
  | argumentCount method expected given =>
    "'" ++ method ++ "' takes " ++ Text.natText expected ++ " argument(s), " ++
      Text.natText given ++ " given"
  | needsOption found => "'?.' needs an Option, found '" ++ found.text ++ "'"
  | needsBools op found => "'" ++ op.symbol ++ "' needs bool operands, found '" ++ found.text ++ "'"
  | needsBool found => "'!' needs a bool, found '" ++ found.text ++ "'"
  | needsNumber found => "'-' needs a number, found '" ++ found.text ++ "'"
  | incomparable left right => "cannot compare '" ++ left.text ++ "' with '" ++ right.text ++ "'"
  | undefinedOperator op left right =>
    "'" ++ op.symbol ++ "' is not defined for '" ++ left.text ++ "' and '" ++ right.text ++ "'"

end TypeFault

/-- Why an expression has no value. -/
inductive EvalError where
  | unknownName (name : String)
  | noMethod (ty method : String)
  | ambiguousCall (ty method : String) (candidates : List String)
  | type (fault : TypeFault)
  | overflow
  | divisionByZero
  | depthExceeded (limit : Nat)
  /-- Raised by declared code itself, and never recovered. -/
  | aborted (reason : String)
  | parse (error : ParseError)
deriving Repr

namespace EvalError

/-- The fault in words. -/
def message : EvalError → String
  | unknownName name => "unknown name '" ++ name ++ "'"
  | noMethod ty method => "no method '" ++ method ++ "' on '" ++ ty ++ "'"
  | ambiguousCall ty method candidates =>
    "ambiguous call to '" ++ method ++ "' on '" ++ ty ++ "', qualify with one of: " ++
      Text.join ", " candidates
  | type fault => fault.text
  | overflow => "arithmetic overflow"
  | divisionByZero => "division by zero"
  | depthExceeded limit => "evaluation exceeded depth " ++ Text.natText limit
  | aborted reason => reason
  | parse error => error.message

end EvalError

end Pipeline
