import Pipeline.Expr.Basic
import Pipeline.Token.Cursor

/-!
# Reading expressions

Operators between operands bind by their strength, equal ones to the left; an operator before its
operand binds tighter than all of them. A closure extends as far to the right as it can and keeps
its text. The fuel of the readers bounds the nesting of their calls; the text's number of tokens
fixes it, and no reading uses it up.
-/

set_option autoImplicit false
set_option relaxedAutoImplicit false

namespace Pipeline

namespace BinaryOp

/-- How tightly an operator binds. -/
def strength : BinaryOp → Nat
  | or => 10
  | and => 20
  | eq => 30
  | ne => 30
  | lt => 30
  | le => 30
  | gt => 30
  | ge => 30
  | add => 40
  | sub => 40
  | mul => 50
  | div => 50
  | rem => 50

/-- The operator a token stands for between two operands. -/
def ofToken? : Token → Option BinaryOp
  | .punct .orOr => some or
  | .punct .andAnd => some and
  | .punct .eqEq => some eq
  | .punct .bangEq => some ne
  | .punct .lt => some lt
  | .punct .ltEq => some le
  | .punct .gt => some gt
  | .punct .gtEq => some ge
  | .punct .plus => some add
  | .punct .minus => some sub
  | .punct .star => some mul
  | .punct .slash => some div
  | .punct .percent => some rem
  | _ => none

end BinaryOp

/-- How tightly an operator before its operand binds. -/
def UnaryOp.strength : Nat := 60

namespace Expr

open Reader

/-- Reads the parameters of a closure up to the closing bar. -/
def closureParams : Nat → Reader (List String)
  | 0 => return []
  | fuel + 1 => do
    if ← eat .bar then return []
    let name ← expectIdent
    if ← eat .comma then
      return name :: (← closureParams fuel)
    else
      expect .bar
      return [name]

/-- Reads the parameters of a closure between their bars. -/
def closureHead : Reader (List String) := do
  if ← eat .orOr then return []
  expect .bar
  closureParams ((← remaining) + 1)

mutual

/-- Reads an expression whose operators bind at least as tightly as `least`. -/
def operators (source : List Char) : Nat → Nat → Reader Expr
  | 0, _ => unexpected .expression
  | fuel + 1, least => do
    let left ← operand source fuel
    moreOperators source fuel least left

/-- Goes on behind the operand `left`. -/
def moreOperators (source : List Char) : Nat → Nat → Expr → Reader Expr
  | 0, _, left => return left
  | fuel + 1, least, left => do
    match (← peek?).bind BinaryOp.ofToken? with
    | none => return left
    | some op =>
      if op.strength < least then return left
      else
        let _ ← advance?
        let right ← operators source fuel (op.strength + 1)
        moreOperators source fuel least (.binary op left right)

/-- Reads an operand: a signed one, a closure, or an atom with its fields and calls. -/
def operand (source : List Char) : Nat → Reader Expr
  | 0 => unexpected .expression
  | fuel + 1 => do
    match ← peek? with
    | some (.punct .bang) =>
      let _ ← advance?
      return .unary .not (← operators source fuel UnaryOp.strength)
    | some (.punct .minus) =>
      let _ ← advance?
      return .unary .neg (← operators source fuel UnaryOp.strength)
    | some (.punct .bar) => closureOf source fuel
    | some (.punct .orOr) => closureOf source fuel
    | _ =>
      let atom ← atom source fuel
      moreFields source fuel atom

/-- Reads a closure and cuts its text out of the source. -/
def closureOf (source : List Char) : Nat → Reader Expr
  | 0 => unexpected .expression
  | fuel + 1 => do
    let start ← offset
    let params ← closureHead
    let body ← operators source fuel 0
    let stop ← lastStop
    return .closure params body (String.ofList (Text.slice source start stop))

/-- Goes on with fields and method calls behind `base`. -/
def moreFields (source : List Char) : Nat → Expr → Reader Expr
  | 0, base => return base
  | fuel + 1, base => do
    let optional ← match ← peek? with
      | some (.punct .dot) => pure (some false)
      | some (.punct .optDot) => pure (some true)
      | _ => pure none
    match optional with
    | none => return base
    | some optional =>
      let _ ← advance?
      let name ← expectIdent
      if ← eat .lparen then
        let args ← items source fuel .rparen
        moreFields source fuel (.method base name args optional)
      else moreFields source fuel (.field base name optional)

/-- Reads expressions with commas between them up to a closing mark; a last comma may stand before
it. -/
def items (source : List Char) : Nat → Punct → Reader (List Expr)
  | 0, _ => unexpected .expression
  | fuel + 1, close => do
    if ← eat close then return []
    let e ← operators source fuel 0
    if ← eat .comma then
      return e :: (← items source fuel close)
    else
      expect close
      return [e]

/-- Reads an atom. -/
def atom (source : List Char) : Nat → Reader Expr
  | 0 => unexpected .expression
  | fuel + 1 => do
    match ← peek? with
    | some (.int n) =>
      let _ ← advance?
      return .lit (.int n)
    | some (.float x) =>
      let _ ← advance?
      return .lit (.float x)
    | some (.str s) =>
      let _ ← advance?
      return .lit (.str s)
    | some (.punct .lparen) =>
      let _ ← advance?
      let inner ← operators source fuel 0
      expect .rparen
      return inner
    | some (.punct .lbracket) =>
      let _ ← advance?
      return .list (← items source fuel .rbracket)
    | some (.ident word) =>
      let _ ← advance?
      named source fuel word
    | _ => unexpected .expression

/-- Reads what an identifier begins: a keyword, a path, a call or a record. -/
def named (source : List Char) : Nat → String → Reader Expr
  | 0, _ => unexpected .expression
  | fuel + 1, word => do
    if word = "true" then return .lit (.bool true)
    else if word = "false" then return .lit (.bool false)
    else if word = "None" then return .lit .none
    else if word = "self" then return .self
    else
      let more ← moreSegments (← remaining)
      if ← eat .lparen then
        return .call (word :: more) (← items source fuel .rparen)
      else if ← eat .lbrace then
        return .record (word :: more) (← fields source fuel)
      else if more.isEmpty then return .ident word
      else return .path (word :: more)

/-- Reads the fields of a record up to the closing brace; a name alone is its own value. -/
def fields (source : List Char) : Nat → Reader (List (String × Expr))
  | 0 => unexpected .expression
  | fuel + 1 => do
    if ← eat .rbrace then return []
    let name ← expectIdent
    let value ← if ← eat .colon then operators source fuel 0 else pure (.ident name)
    if ← eat .comma then
      return (name, value) :: (← fields source fuel)
    else
      expect .rbrace
      return [(name, value)]

end

/-- Reads a whole expression. -/
def whole (source : List Char) : Reader Expr := do
  let count ← remaining
  if count = 0 then
    fun _ => .error ⟨0, .emptyExpression⟩
  else operators source (8 * count + 8) 0

/-- Reads a text that is one expression. -/
def parse (source : String) : Except ParseError Expr :=
  (whole source.toList).runOn source

end Expr

/-- Reads an expression and keeps its text without the blanks around it. -/
def Snippet.parse (source : String) : Except ParseError Snippet :=
  match Expr.parse source with
  | .error e => .error e
  | .ok e => .ok ⟨Text.trim source, e⟩

end Pipeline
