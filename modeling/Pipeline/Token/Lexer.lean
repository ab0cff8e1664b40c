import Pipeline.Token.Basic

/-!
# Splitting a text into tokens

The longest token wins at every place. `tokenize` gives the tokens with their byte ranges, or the
first place where no token stands.
-/

set_option autoImplicit false
set_option relaxedAutoImplicit false

namespace Pipeline

/-- A token with its byte range. -/
structure Spanned where
  token : Token
  start : Nat
  stop : Nat
deriving Repr, Inhabited

namespace Lexer

/-- White space between tokens. -/
def isSpace (c : Char) : Bool := c = ' ' || c = '\t' || c = '\r' || c = '\n'

/-- The first character of an identifier. -/
def isIdentStart (c : Char) : Bool :=
  ('a' ≤ c && c ≤ 'z') || ('A' ≤ c && c ≤ 'Z') || c = '_'

/-- A later character of an identifier. -/
def isIdentChar (c : Char) : Bool := isIdentStart c || Text.isDigit c

/-- A later character of a number. -/
def isNumberChar (c : Char) : Bool := Text.isDigit c || c = '_'

/-- The number of characters at the front that satisfy `p`. -/
def countWhile (p : Char → Bool) : List Char → Nat
  | [] => 0
  | c :: cs => if p c then countWhile p cs + 1 else 0

/-- A token at the front of a text: how many characters it takes after the first one, and the
token, or nothing if these characters are a fault. -/
structure Lexeme where
  width : Nat
  token : Option Token

/-- The greatest integer a literal can denote. -/
def maxInt : Nat := Text.twoTo 63 - 1

/-- An integer literal; one that is too large is a fault over the whole literal. -/
def intToken? (digits : List Char) : Option Token :=
  let n := Text.digitsValue digits
  if n ≤ maxInt then some (.int n) else none

/-- A number that begins with the digit `c`. -/
def number (c : Char) (cs : List Char) : Lexeme :=
  let width := countWhile isNumberChar cs
  let whole := (c :: cs.take width).filter Text.isDigit
  match cs.drop width with
  | '.' :: d :: rest =>
    if Text.isDigit d then
      let more := countWhile isNumberChar rest
      let fraction := (d :: rest.take more).filter Text.isDigit
      let x := Text.Decimal.nearest (Text.digitsValue (whole ++ fraction)) (-fraction.length)
      ⟨width + 2 + more, some (.float x)⟩
    else ⟨width, intToken? whole⟩
  | _ => ⟨width, intToken? whole⟩

/-- The character a backslash and `c` stand for. -/
def unescape? (c : Char) : Option Char :=
  if c = 'n' then some '\n'
  else if c = 'r' then some '\r'
  else if c = 't' then some '\t'
  else if c = '\\' then some '\\'
  else if c = '"' then some '"'
  else if c = '\'' then some '\''
  else none

/-- A string behind its opening quote. `read` holds the characters so far, last first, or nothing
once an unknown escape was met; such a string is a fault as a whole, and an unfinished one is a
fault up to its last complete character or escape. -/
def string (width : Nat) (read : Option (List Char)) : List Char → Lexeme
  | [] => ⟨width, none⟩
  | ['\\'] => ⟨width, none⟩
  | '\\' :: e :: rest =>
    if e = '\n' then ⟨width, none⟩
    else string (width + 2) (read.bind fun cs => (unescape? e).map (· :: cs)) rest
  | '"' :: _ => ⟨width + 1, read.map fun cs => .str (String.ofList cs.reverse)⟩
  | c :: rest => string (width + 1) (read.map (c :: ·)) rest

/-- A punctuation mark that begins with `c`. -/
def mark (c : Char) (cs : List Char) : Lexeme :=
  let one (p : Punct) : Lexeme := ⟨0, some (.punct p)⟩
  let two (p : Punct) : Lexeme := ⟨1, some (.punct p)⟩
  match c, cs with
  | ':', ':' :: _ => two .pathSep
  | ':', _ => one .colon
  | '?', '.' :: _ => two .optDot
  | '.', _ => one .dot
  | ',', _ => one .comma
  | '-', '>' :: _ => two .arrow
  | '-', _ => one .minus
  | '(', _ => one .lparen
  | ')', _ => one .rparen
  | '[', _ => one .lbracket
  | ']', _ => one .rbracket
  | '{', _ => one .lbrace
  | '}', _ => one .rbrace
  | '<', '=' :: _ => two .ltEq
  | '<', _ => one .lt
  | '>', '=' :: _ => two .gtEq
  | '>', _ => one .gt
  | '=', '=' :: _ => two .eqEq
  | '=', _ => one .eq
  | '!', '=' :: _ => two .bangEq
  | '!', _ => one .bang
  | '&', '&' :: _ => two .andAnd
  | '|', '|' :: _ => two .orOr
  | '|', _ => one .bar
  | '+', _ => one .plus
  | '*', _ => one .star
  | '/', _ => one .slash
  | '%', _ => one .percent
  | '~', _ => one .tilde
  | _, _ => ⟨0, none⟩

/-- The token at the front of the text `c :: cs`. -/
def lexeme (c : Char) (cs : List Char) : Lexeme :=
  if Text.isDigit c then number c cs
  else if isIdentStart c then
    let width := countWhile isIdentChar cs
    ⟨width, some (.ident (String.ofList (c :: cs.take width)))⟩
  else if c = '"' then string 0 (some []) cs
  else mark c cs

/-- The tokens of a text that begins at byte `offset`; `skip` characters still belong to the token
before it. -/
def tokensFrom (offset skip : Nat) : List Char → Except ParseError (List Spanned)
  | [] => .ok []
  | c :: cs =>
    match skip with
    | k + 1 => tokensFrom (offset + c.utf8Size) k cs
    | 0 =>
      if isSpace c then tokensFrom (offset + 1) 0 cs
      else
        let found := lexeme c cs
        let written := c :: cs.take found.width
        match found.token with
        | none => .error ⟨offset, .unexpectedInput (String.ofList written)⟩
        | some t =>
          match tokensFrom (offset + c.utf8Size) found.width cs with
          | .error e => .error e
          | .ok rest => .ok (⟨t, offset, offset + Text.byteLength written⟩ :: rest)

end Lexer

/-- The tokens of a text. -/
def tokenize (source : String) : Except ParseError (List Spanned) :=
  Lexer.tokensFrom 0 0 source.toList

end Pipeline
