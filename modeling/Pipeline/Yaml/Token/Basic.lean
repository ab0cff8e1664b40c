import Pipeline.Text.Basic

/-!
# Tokens of a YAML text

A text is taken as a list of cells, characters with their places. Every line break but the two
Unicode separators is read as a line feed, and the list ends with a cell of its own that stands
for the end of the text.
-/

set_option autoImplicit false
set_option relaxedAutoImplicit false

namespace Pipeline.Yaml

/-- How a scalar is written. -/
inductive Style where
  | plain
  | single
  | double
  | literal
  | folded
deriving DecidableEq, Repr

/-- A token. -/
inductive Token where
  | streamEnd
  | versionDirective (major minor : Nat)
  | tagDirective (handle expansion : String)
  | documentStart
  | documentEnd
  | blockSequenceStart
  | blockMappingStart
  | blockEnd
  | flowSequenceStart
  | flowSequenceEnd
  | flowMappingStart
  | flowMappingEnd
  | blockEntry
  | flowEntry
  | key
  | value
  | aliasOf (name : String)
  | anchor (name : String)
  | tag (handle suffix : String)
  | scalar (text : String) (style : Style)
deriving DecidableEq, Repr

/-- A character at its place: the offset counts bytes, line and column count from zero. -/
structure Cell where
  char : Char
  line : Nat
  col : Nat
  offset : Nat
deriving DecidableEq, Repr, Inhabited

/-- The character of the last cell; no text holds it. -/
def endChar : Char := Char.ofNat 0

/-- True for a character that a text may hold. -/
def isAllowed (c : Char) : Bool :=
  let n := c.toNat
  n = 9 || n = 10 || n = 13 || (0x20 ≤ n && n ≤ 0x7E) || n = 0x85 || (0xA0 ≤ n && n ≤ 0xD7FF) ||
    (0xE000 ≤ n && n ≤ 0xFFFD && n ≠ 0xFEFF) || 0x10000 ≤ n

/-- True for a line break. -/
def isBreak (c : Char) : Bool := c = '\n' || c.toNat = 0x2028 || c.toNat = 0x2029

/-- True for a space or a tab. -/
def isWhite (c : Char) : Bool := c = ' ' || c = '\t'

/-- True for a space, a tab, a line break or the end. -/
def isGap (c : Char) : Bool := isWhite c || isBreak c || c = endChar

/-- Puts a line feed for every other spelling of it. -/
def unifyBreaks : List Char → List Char
  | [] => []
  | '\r' :: '\n' :: cs => '\n' :: unifyBreaks cs
  | c :: cs => (if c = '\r' || c.toNat = 0x85 then '\n' else c) :: unifyBreaks cs

/-- Gives the characters their places. The end stands on a line of its own. -/
def place (line col offset : Nat) : List Char → List Cell
  | [] => [⟨endChar, if col = 0 then line else line + 1, col, offset⟩]
  | c :: cs =>
    ⟨c, line, col, offset⟩ ::
      if isBreak c then place (line + 1) 0 (offset + c.utf8Size) cs
      else place line (col + 1) (offset + c.utf8Size) cs

/-- A text without the mark that may stand before it. -/
def dropMark : List Char → List Char
  | [] => []
  | c :: cs => if c.toNat = 0xFEFF then cs else c :: cs

/-- The cells of a text, unless it holds a character that no text may hold. -/
def cells? (source : String) : Option (List Cell) :=
  let cs := dropMark source.toList
  if cs.all isAllowed then some (place 0 0 0 (unifyBreaks cs)) else none

namespace Cells

/-- The character some cells ahead. -/
def charAt (cells : List Cell) (i : Nat) : Char := ((cells[i]?).map (·.char)).getD endChar

/-- The first character. -/
def front (cells : List Cell) : Char := charAt cells 0

/-- The column of the first cell. -/
def column (cells : List Cell) : Nat := (cells.head?.map (·.col)).getD 0

/-- The line of the first cell. -/
def line (cells : List Cell) : Nat := (cells.head?.map (·.line)).getD 0

/-- The offset of the first cell. -/
def offset (cells : List Cell) : Nat := (cells.head?.map (·.offset)).getD 0

/-- True when three equal marks of a document stand alone at the first column. -/
def isMark (mark : Char) (cells : List Cell) : Bool :=
  column cells = 0 && front cells = mark && charAt cells 1 = mark && charAt cells 2 = mark &&
    isGap (charAt cells 3)

/-- True at the mark of the start or of the end of a document. -/
def isDocumentMark (cells : List Cell) : Bool := isMark '-' cells || isMark '.' cells

/-- The characters at the front that satisfy `p`, and the cells behind them. The last cell stays. -/
def span (p : Char → Bool) : List Cell → List Char × List Cell
  | [] => ([], [])
  | c :: cs =>
    if c.char ≠ endChar && p c.char then
      let (text, rest) := span p cs
      (c.char :: text, rest)
    else ([], c :: cs)

/-- The cells behind the characters at the front that satisfy `p`. -/
def skip (p : Char → Bool) (cells : List Cell) : List Cell := (span p cells).2

/-- The cells behind blanks and a comment. -/
def skipComment (cells : List Cell) : List Cell :=
  let cells := skip isWhite cells
  if front cells = '#' then skip (fun c => !isBreak c) cells else cells

end Cells
end Pipeline.Yaml
