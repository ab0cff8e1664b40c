import Pipeline.Text.Basic

/-!
# Quoted texts of TOML

The readers take the characters behind the opening quotes and return the text together with the
characters behind the closing ones.
-/

set_option autoImplicit false
set_option relaxedAutoImplicit false

namespace Pipeline.Toml

/-- True for the characters that may stand in a text or a comment: no control characters but the
tab. -/
def isPlain (c : Char) : Bool := c = '\t' || (0x20 ≤ c.toNat && c.toNat ≠ 0x7F)

/-- A text read, and the rest. -/
abbrev Piece := List Char × List Char

/-- Puts a character before a text read. -/
def consTo (c : Char) (piece : Option Piece) : Option Piece :=
  piece.map fun p => (c :: p.1, p.2)

/-- The character of hexadecimal digits. -/
def ofHex? (ds : List Char) : Option Char := do
  let n ← ds.foldlM (fun n c => (Text.hexValue? c).map (16 * n + ·)) 0
  if h : n.isValidChar then return Char.ofNatAux n h else none

/-- The character that a letter behind a backslash stands for. -/
def ofEscape? : Char → Option Char
  | 'b' => some (Char.ofNat 8)
  | 't' => some '\t'
  | 'n' => some '\n'
  | 'f' => some (Char.ofNat 12)
  | 'r' => some '\r'
  | '"' => some '"'
  | '\\' => some '\\'
  | _ => none

/-- The character that stands behind a backslash, and the rest. -/
def escaped? : List Char → Option (Char × List Char)
  | 'u' :: a :: b :: c :: d :: rest => (ofHex? [a, b, c, d]).map (·, rest)
  | 'U' :: a :: b :: c :: d :: e :: f :: g :: h :: rest =>
    (ofHex? [a, b, c, d, e, f, g, h]).map (·, rest)
  | c :: rest => (ofEscape? c).map (·, rest)
  | [] => none

/-- A text on one line, up to its quote; no more characters than the bound are read. -/
def basic : Nat → List Char → Option Piece
  | 0, _ => none
  | _, [] => none
  | bound + 1, c :: rest =>
    if c = '"' then some ([], rest)
    else if c = '\\' then do
      let (d, rest) ← escaped? rest
      consTo d (basic bound rest)
    else if isPlain c then consTo c (basic bound rest)
    else none

/-- A text without escapes on one line, up to its quote. -/
def literal : List Char → Option Piece
  | [] => none
  | '\'' :: rest => some ([], rest)
  | c :: rest => if isPlain c then consTo c (literal rest) else none

/-- What stands behind the line break that a text begins with. -/
def afterBreak? : List Char → Option (List Char)
  | '\n' :: rest => some rest
  | '\r' :: '\n' :: rest => some rest
  | _ => none

/-- True for a space and a tab. -/
def isSpace (c : Char) : Bool := c = ' ' || c = '\t'

/-- The text without the spaces and line breaks at its beginning. -/
def dropSpace : List Char → List Char
  | ' ' :: rest => dropSpace rest
  | '\t' :: rest => dropSpace rest
  | '\n' :: rest => dropSpace rest
  | '\r' :: '\n' :: rest => dropSpace rest
  | cs => cs

/-- What stands behind a backslash at the end of a line and the space after it. -/
def afterFold? (cs : List Char) : Option (List Char) :=
  (afterBreak? (cs.dropWhile isSpace)).map dropSpace

/-- The quotes that a text ends with and the rest, at three quotes or up to two more. -/
def closing? (quote : Char) : List Char → Option Piece
  | a :: b :: c :: rest =>
    if a = quote && b = quote && c = quote then
      match rest with
      | d :: e :: more =>
        if d = quote && e = quote then some ([d, e], more)
        else if d = quote then some ([d], e :: more)
        else some ([], rest)
      | [d] => if d = quote then some ([d], []) else some ([], [d])
      | [] => some ([], [])
    else none
  | _ => none

/-- A text over several lines, up to its quotes. -/
def basicLines : Nat → List Char → Option Piece
  | 0, _ => none
  | _, [] => none
  | bound + 1, c :: rest =>
    match closing? '"' (c :: rest), afterBreak? (c :: rest) with
    | some piece, _ => some piece
    | none, some rest => consTo '\n' (basicLines bound rest)
    | none, none =>
      if c = '\\' then
        match afterFold? rest with
        | some rest => basicLines bound rest
        | none => do
          let (d, rest) ← escaped? rest
          consTo d (basicLines bound rest)
      else if isPlain c then consTo c (basicLines bound rest)
      else none

/-- A text without escapes over several lines, up to its quotes. -/
def literalLines : Nat → List Char → Option Piece
  | 0, _ => none
  | _, [] => none
  | bound + 1, c :: rest =>
    match closing? '\'' (c :: rest), afterBreak? (c :: rest) with
    | some piece, _ => some piece
    | none, some rest => consTo '\n' (literalLines bound rest)
    | none, none => if isPlain c then consTo c (literalLines bound rest) else none

/-- The text without the line break that it may begin with. -/
def dropBreak (cs : List Char) : List Char := (afterBreak? cs).getD cs

/-- The text that quotes begin. -/
def quoted? : List Char → Option Piece
  | '"' :: '"' :: '"' :: rest => basicLines (rest.length + 1) (dropBreak rest)
  | '\'' :: '\'' :: '\'' :: rest => literalLines (rest.length + 1) (dropBreak rest)
  | '"' :: rest => basic (rest.length + 1) rest
  | '\'' :: rest => literal rest
  | _ => none

end Pipeline.Toml
