import Pipeline.Yaml.Token.Basic

/-!
# Scalars of a YAML text

Plain, quoted and block scalars. Between two words of a scalar, one line break reads as a space
and more of them as one less; blanks beside a line break are dropped.
-/

set_option autoImplicit false
set_option relaxedAutoImplicit false

namespace Pipeline.Yaml

open Cells

/-- Blanks and line breaks between two words, each list last character first. -/
structure Gap where
  /-- The blanks before the first line break. -/
  white : List Char
  /-- The first line break; nothing if it was escaped. -/
  lead : List Char
  /-- The further line breaks. -/
  trail : List Char
  /-- True once there was a line break. -/
  broken : Bool
deriving DecidableEq, Repr

namespace Gap

/-- No blank at all. -/
def none : Gap := ⟨[], [], [], false⟩

/-- Adds a blank or a line break. -/
def add (g : Gap) (c : Char) : Gap :=
  if isBreak c then
    if g.broken then { g with trail := c :: g.trail } else ⟨[], [c], [], true⟩
  else if g.broken then g
  else { g with white := c :: g.white }

/-- Line breaks as they read inside a text, last character first. -/
def folded (lead trail : List Char) : List Char :=
  if lead = ['\n'] then (if trail.isEmpty then [' '] else trail) else trail ++ lead

/-- What the blanks read as, last character first. -/
def reads (g : Gap) : List Char := if g.broken then folded g.lead g.trail else g.white

end Gap

/-- True where a plain scalar cannot go on; in a flow collection more characters end it. -/
def endsPlain (inFlow : Bool) (c next : Char) : Bool :=
  (c = ':' && isGap next) || (inFlow && [',', '[', ']', '\x7b', '\x7d'].contains c)

/-- True for a colon inside a flow collection that cannot stand there. -/
def isStrayColon (inFlow : Bool) (c next : Char) : Bool :=
  inFlow && c = ':' && [',', '?', '[', ']', '\x7b', '\x7d'].contains next

/-- A scalar that was read: its text, the cells behind it, and whether a line break came last. -/
structure ReadScalar where
  text : String
  rest : List Cell
  broken : Bool

/-- Reads a plain scalar. Its lines after the first are indented by `indent` columns at least,
unless it stands in a flow collection. `out` holds what was read, last character first. -/
def plainScalar (inFlow : Bool) (indent : Int) (gap : Gap) (out : List Char) :
    List Cell → Option ReadScalar
  | [] => some ⟨String.ofList out.reverse, [], gap.broken⟩
  | cell :: cells =>
    let c := cell.char
    let done : ReadScalar := ⟨String.ofList out.reverse, cell :: cells, gap.broken⟩
    if isWhite c || isBreak c then
      if gap.broken && cell.col < indent && c = '\t' then none
      else plainScalar inFlow indent (gap.add c) out cells
    else if c = endChar then some done
    else if gap ≠ Gap.none &&
        ((!inFlow && cell.col < indent) || isDocumentMark (cell :: cells) || c = '#') then some done
    else if isStrayColon inFlow c (front cells) then none
    else if endsPlain inFlow c (front cells) then some done
    else plainScalar inFlow indent Gap.none (c :: (gap.reads ++ out)) cells

/-- Reads a single-quoted scalar behind its first quote; a quote is written twice. -/
def singleScalar (gap : Gap) (out : List Char) : List Cell → Option ReadScalar
  | [] => none
  | [_] => none
  | cell :: next :: cells =>
    let c := cell.char
    if isDocumentMark (cell :: next :: cells) || c = endChar then none
    else if isWhite c || isBreak c then singleScalar (gap.add c) out (next :: cells)
    else if c = '\'' then
      if next.char = '\'' then singleScalar Gap.none ('\'' :: (gap.reads ++ out)) cells
      else some ⟨String.ofList (gap.reads ++ out).reverse, next :: cells, false⟩
    else singleScalar Gap.none (c :: (gap.reads ++ out)) (next :: cells)

/-- The character that a letter behind a backslash stands for. -/
def escaped? : Char → Option Char
  | '0' => some (Char.ofNat 0)
  | 'a' => some (Char.ofNat 7)
  | 'b' => some (Char.ofNat 8)
  | 't' => some '\t'
  | '\t' => some '\t'
  | 'n' => some '\n'
  | 'v' => some (Char.ofNat 11)
  | 'f' => some (Char.ofNat 12)
  | 'r' => some '\r'
  | 'e' => some (Char.ofNat 27)
  | ' ' => some ' '
  | '"' => some '"'
  | '/' => some '/'
  | '\\' => some '\\'
  | 'N' => some (Char.ofNat 0x85)
  | '_' => some (Char.ofNat 0xA0)
  | 'L' => some (Char.ofNat 0x2028)
  | 'P' => some (Char.ofNat 0x2029)
  | _ => none

/-- The number of hexadecimal digits behind a letter behind a backslash. -/
def escapeDigits? : Char → Option Nat
  | 'x' => some 2
  | 'u' => some 4
  | 'U' => some 8
  | _ => none

/-- The character of a number, if it is one. -/
def charOf? (n : Nat) : Option Char := if n.isValidChar then some (Char.ofNat n) else none

/-- What a double-quoted scalar is in the middle of. -/
inductive Escape where
  | none
  /-- Behind a backslash. -/
  | begun
  /-- Inside a number, with the digits to come and the value of those read. -/
  | digits (left value : Nat)
deriving DecidableEq, Repr

/-- Reads a double-quoted scalar behind its first quote. -/
def doubleScalar (gap : Gap) (esc : Escape) (out : List Char) : List Cell → Option ReadScalar
  | [] => none
  | cell :: cells =>
    let c := cell.char
    match esc with
    | .begun =>
      if isBreak c then doubleScalar { gap with broken := true } .none out cells
      else
        match escapeDigits? c, escaped? c with
        | some n, _ => doubleScalar gap (.digits n 0) out cells
        | _, some d => doubleScalar Gap.none .none (d :: out) cells
        | _, _ => none
    | .digits left value =>
      match Text.hexValue? c with
      | none => none
      | some d =>
        let value := 16 * value + d
        if left ≤ 1 then
          match charOf? value with
          | some d => doubleScalar Gap.none .none (d :: out) cells
          | none => none
        else doubleScalar gap (.digits (left - 1) value) out cells
    | .none =>
      if isDocumentMark (cell :: cells) || c = endChar then none
      else if isWhite c || isBreak c then doubleScalar (gap.add c) .none out cells
      else
        let out := gap.reads ++ out
        if c = '"' then some ⟨String.ofList out.reverse, cells, false⟩
        else if c = '\\' then doubleScalar Gap.none .begun out cells
        else doubleScalar Gap.none .none (c :: out) cells

/-- What happens to the line breaks at the end of a block scalar. -/
inductive Chomp where
  | strip
  | clip
  | keep
deriving DecidableEq, Repr

/-- The state of reading a block scalar; texts have their last character first. -/
structure Block where
  /-- The column of the text; zero while it is unknown. -/
  indent : Nat
  /-- The widest indentation met so far. -/
  widest : Nat
  out : List Char
  /-- The break of the line read last. -/
  lead : List Char
  /-- The empty lines since. -/
  trail : List Char
  /-- True when the line read last began with a blank. -/
  leadingWhite : Bool
  /-- True inside a line. -/
  inLine : Bool

namespace Block

/-- Settles the column of the text at the first line that has one. -/
def settle (b : Block) (parent : Int) (column : Nat) : Block :=
  if b.indent = 0 then
    { b with indent := max (max b.widest column) (max (parent + 1).toNat 1) }
  else b

/-- Begins a line with a character of it. -/
def startLine (b : Block) (foldLines : Bool) (c : Char) : Block :=
  let between :=
    if foldLines && b.lead = ['\n'] && !b.leadingWhite && !isWhite c then
      if b.trail.isEmpty then [' '] else b.trail
    else b.trail ++ b.lead
  { b with
    out := c :: (between ++ b.out), lead := [], trail := [], leadingWhite := isWhite c,
    inLine := true }

/-- The text with what is left of the line breaks behind it. -/
def finish (b : Block) : Chomp → String
  | .strip => String.ofList b.out.reverse
  | .clip => String.ofList (b.lead ++ b.out).reverse
  | .keep => String.ofList (b.trail ++ (b.lead ++ b.out)).reverse

end Block

/-- Reads the lines of a block scalar inside a block indented by `parent` columns. -/
def blockLines (foldLines : Bool) (chomp : Chomp) (parent : Int) (b : Block) :
    List Cell → Option ReadScalar
  | [] => some ⟨b.finish chomp, [], false⟩
  | cell :: cells =>
    let c := cell.char
    if b.inLine then
      if c = endChar then some ⟨b.finish chomp, cell :: cells, false⟩
      else if isBreak c then
        blockLines foldLines chomp parent { b with lead := [c], inLine := false } cells
      else blockLines foldLines chomp parent { b with out := c :: b.out } cells
    else
      let inIndent := b.indent = 0 || cell.col < b.indent
      if inIndent && c = ' ' then blockLines foldLines chomp parent b cells
      else if inIndent && c = '\t' then none
      else if isBreak c then
        blockLines foldLines chomp parent
          { b with trail := c :: b.trail, widest := max b.widest cell.col } cells
      else
        let b := b.settle parent cell.col
        if c ≠ endChar && cell.col = b.indent then
          blockLines foldLines chomp parent (b.startLine foldLines c) cells
        else some ⟨b.finish chomp, cell :: cells, false⟩

/-- The number of blanks that a digit in the head of a block scalar stands for. -/
def indentDigit? (c : Char) : Option Nat := if Text.isDigit c then some (c.toNat - 48) else none

/-- What a sign in the head of a block scalar stands for. -/
def chompSign? (c : Char) : Option Chomp :=
  if c = '+' then some .keep else if c = '-' then some .strip else none

/-- Reads the sign and the digit in the head of a block scalar, in either order. -/
def blockHead (cells : List Cell) : Chomp × Option Nat × List Cell :=
  match chompSign? (front cells), indentDigit? (front cells) with
  | some sign, _ =>
    match indentDigit? (charAt cells 1) with
    | some n => (sign, some n, cells.drop 2)
    | none => (sign, none, cells.drop 1)
  | none, some n =>
    match chompSign? (charAt cells 1) with
    | some sign => (sign, some n, cells.drop 2)
    | none => (.clip, some n, cells.drop 1)
  | none, none => (.clip, none, cells)

/-- Reads a block scalar behind its indicator. -/
def blockScalar (foldLines : Bool) (parent : Int) (cells : List Cell) : Option ReadScalar :=
  let (chomp, given, rest) := blockHead cells
  let rest := skipComment rest
  if given = some 0 then none
  else if isBreak (front rest) || front rest = endChar then
    let indent := match given with
      | some n => (max parent 0).toNat + n
      | none => 0
    let rest := if isBreak (front rest) then rest.drop 1 else rest
    blockLines foldLines chomp parent ⟨indent, 0, [], [], [], false, false⟩ rest
  else none

end Pipeline.Yaml
