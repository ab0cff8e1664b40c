import Pipeline.Data.NameMap

/-!
# Expressions

The small language of defaults, checks, field values and method bodies. A closure is never called
here: it keeps its text, and its body only tells which names it reads.
-/

set_option autoImplicit false
set_option relaxedAutoImplicit false

namespace Pipeline

/-- A literal. -/
inductive Literal where
  | bool (b : Bool)
  | int (n : Int)
  | float (x : Float)
  | str (s : String)
  | none
deriving Repr, Inhabited

/-- An operator before its operand. -/
inductive UnaryOp where
  | not
  | neg
deriving DecidableEq, Repr

/-- An operator between its operands. -/
inductive BinaryOp where
  | or | and | eq | ne | lt | le | gt | ge | add | sub | mul | div | rem
deriving DecidableEq, Repr

/-- How an operator is written. -/
def UnaryOp.symbol : UnaryOp → String
  | not => "!"
  | neg => "-"

/-- How an operator is written. -/
def BinaryOp.symbol : BinaryOp → String
  | or => "||"
  | and => "&&"
  | eq => "=="
  | ne => "!="
  | lt => "<"
  | le => "<="
  | gt => ">"
  | ge => ">="
  | add => "+"
  | sub => "-"
  | mul => "*"
  | div => "/"
  | rem => "%"

/-- An expression. -/
inductive Expr where
  | lit (value : Literal)
  | ident (name : String)
  | self
  /-- Two or more segments, such as a variant of an enum. -/
  | path (segments : List String)
  /-- A field; an optional one yields nothing on an absent base. -/
  | field (base : Expr) (name : String) (optional : Bool)
  | method (receiver : Expr) (name : String) (args : List Expr) (optional : Bool)
  /-- A call through a path, such as a constructor or a qualified method. -/
  | call (callee : List String) (args : List Expr)
  | unary (op : UnaryOp) (operand : Expr)
  | binary (op : BinaryOp) (left right : Expr)
  | list (items : List Expr)
  | record (path : List String) (fields : List (String × Expr))
  | closure (params : List String) (body : Expr) (source : String)
deriving Repr, Inhabited

namespace Expr

mutual

/-- The identifiers read by an expression and not bound inside it, with repetitions. -/
def reads : Expr → List String
  | ident name => [name]
  | field base _ _ => reads base
  | method receiver _ args _ => reads receiver ++ readsList args
  | call _ args => readsList args
  | unary _ operand => reads operand
  | binary _ left right => reads left ++ reads right
  | list items => readsList items
  | record _ fields => readsFields fields
  | closure params body _ => (reads body).filter fun name => !params.contains name
  | lit _ => []
  | self => []
  | path _ => []

/-- The identifiers read by a list of expressions. -/
def readsList : List Expr → List String
  | [] => []
  | e :: es => reads e ++ readsList es

/-- The identifiers read by the values of fields. -/
def readsFields : List (String × Expr) → List String
  | [] => []
  | (_, e) :: rest => reads e ++ readsFields rest

end

/-- The identifiers read by an expression and not bound inside it. -/
def free (e : Expr) : NameSet := NameSet.ofList e.reads

mutual

/-- True when all leaves are literals and nothing but signs and lists stands above them. -/
def isLiteral : Expr → Bool
  | lit _ => true
  | unary _ operand => isLiteral operand
  | list items => areLiteral items
  | _ => false

/-- True when all expressions of a list are literal. -/
def areLiteral : List Expr → Bool
  | [] => true
  | e :: es => isLiteral e && areLiteral es

end

end Expr

/-- An expression together with its text. -/
structure Snippet where
  source : String
  expr : Expr
deriving Repr, Inhabited

end Pipeline
