import Pipeline.Text.Decimal
import Pipeline.Text.Quoted

/-!
# Tokens

Expressions, types and signatures are written in one stock of tokens. Keywords are identifiers;
the readers of the three grammars recognise them. A fault of reading names the byte offset at
which it was found and what was found there.
-/

set_option autoImplicit false
set_option relaxedAutoImplicit false

namespace Pipeline

/-- The punctuation marks. -/
inductive Punct where
  | pathSep | optDot | dot | comma | colon | arrow
  | lparen | rparen | lbracket | rbracket | lbrace | rbrace
  | lt | ltEq | gt | gtEq | eqEq | bangEq | eq
  | andAnd | orOr | bar | bang
  | plus | minus | star | slash | percent | tilde
deriving DecidableEq, Repr, Inhabited

namespace Punct

/-- How a punctuation mark is written. -/
def text : Punct → String
  | pathSep => "::"
  | optDot => "?."
  | dot => "."
  | comma => ","
  | colon => ":"
  | arrow => "->"
  | lparen => "("
  | rparen => ")"
  | lbracket => "["
  | rbracket => "]"
  | lbrace => "\x7b"
  | rbrace => "\x7d"
  | lt => "<"
  | ltEq => "<="
  | gt => ">"
  | gtEq => ">="
  | eqEq => "=="
  | bangEq => "!="
  | eq => "="
  | andAnd => "&&"
  | orOr => "||"
  | bar => "|"
  | bang => "!"
  | plus => "+"
  | minus => "-"
  | star => "*"
  | slash => "/"
  | percent => "%"
  | tilde => "~"

end Punct

/-- A token. -/
inductive Token where
  | int (value : Int)
  | float (value : Float)
  | str (value : String)
  | ident (name : String)
  | punct (mark : Punct)
deriving Repr, Inhabited

namespace Token

/-- A token in messages: a string stands between quotes, a float without exponent. -/
def text : Token → String
  | int n => Text.intText n
  | float x => Text.Decimal.plain x
  | str s => Text.Quoted.quote s
  | ident name => name
  | punct p => p.text

/-- True for one given punctuation mark. -/
def isPunct (p : Punct) : Token → Bool
  | punct q => p = q
  | _ => false

/-- True for one given word. -/
def isWord (word : String) : Token → Bool
  | ident name => name = word
  | _ => false

end Token

/-- What a reader needed at the place where it stopped. -/
inductive Expected where
  | mark (p : Punct)
  | identifier
  | expression
  | type
  | typeArgument
  | assocBinding
  | constAfterTilde
  | fnWord
  | endOfInput
deriving DecidableEq, Repr

namespace Expected

/-- The need in words. -/
def text : Expected → String
  | mark p => "'" ++ p.text ++ "'"
  | identifier => "an identifier"
  | expression => "an expression"
  | type => "a type"
  | typeArgument => "a type argument"
  | assocBinding => "an associated type binding"
  | constAfterTilde => "'const' after '~'"
  | fnWord => "'fn'"
  | endOfInput => "end of input"

end Expected

/-- Why a text is no sentence of its grammar. -/
inductive ParseFault where
  /-- No token begins with these characters. -/
  | unexpectedInput (text : String)
  | emptyExpression
  /-- Another token, or none, stands where `what` is needed. -/
  | expected (what : Expected) (found : Option Token)
deriving Repr

namespace ParseFault

/-- The fault in words. -/
def text : ParseFault → String
  | unexpectedInput s => "unexpected input '" ++ s ++ "'"
  | emptyExpression => "empty expression"
  | expected what (some t) => "expected " ++ what.text ++ ", found '" ++ t.text ++ "'"
  | expected what none => "expected " ++ what.text ++ ", found end of input"

end ParseFault

/-- A fault with the byte offset at which it was found. -/
structure ParseError where
  offset : Nat
  fault : ParseFault
deriving Repr

namespace ParseError

/-- The message of a fault. -/
def message (e : ParseError) : String :=
  "at offset " ++ Text.natText e.offset ++ ": " ++ e.fault.text

end ParseError

end Pipeline
