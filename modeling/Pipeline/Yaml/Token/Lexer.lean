import Pipeline.Yaml.Token.Scalar
import Pipeline.Yaml.Token.Tag

/-!
# The tokens of a YAML text

Indentation opens and closes blocks, and whether a word is a key is known only at the colon behind
it: the place where a key may have begun is remembered, and the tokens for it are put in there
later. A token is handed on only when nothing can be put in before it any more, so that a fault
further on takes away the tokens that are still undecided.
-/

set_option autoImplicit false
set_option relaxedAutoImplicit false

namespace Pipeline.Yaml

open Cells

/-- A place where a key may have begun. -/
structure KeyStart where
  /-- The number of the token that would be the key. -/
  number : Nat
  line : Nat
  col : Nat
  offset : Nat
  /-- True when nothing but a key can stand there. -/
  required : Bool
deriving DecidableEq, Repr

/-- The state of reading tokens. -/
structure Lexer where
  rest : List Cell
  /-- The number of tokens handed on. -/
  given : Nat
  /-- The tokens read and not handed on. -/
  queue : List Token
  /-- The column of the innermost block, -1 outside of all. -/
  indent : Int
  /-- The columns of the blocks around it. -/
  indents : List Int
  /-- The number of flow collections around. -/
  flow : Nat
  /-- True where a key may begin. -/
  keyAllowed : Bool
  /-- The last place for a key outside of flow collections and in each of those around, the
  innermost first. -/
  keys : List (Option KeyStart)

namespace Lexer

/-- Before the first token. -/
def start (cells : List Cell) : Lexer := ⟨cells, 0, [], -1, [], 0, true, [none]⟩

/-- True inside a flow collection. -/
def inFlow (s : Lexer) : Bool := s.flow ≠ 0

/-- Adds a token. -/
def push (s : Lexer) (t : Token) : Lexer := { s with queue := s.queue ++ [t] }

/-- Puts a token in before the one of a number. -/
def insert (s : Lexer) (number : Nat) (t : Token) : Lexer :=
  { s with queue := s.queue.insertIdx (number - s.given) t }

/-- Adds a token of one character. -/
def pushMark (s : Lexer) (t : Token) : Lexer := { s.push t with rest := s.rest.drop 1 }

/-- Passes blanks, comments and line breaks. A tab does not count as a blank where a key may
begin. -/
def skipBlanks : Nat → Lexer → Lexer
  | 0, s => s
  | fuel + 1, s =>
    let tabs := s.inFlow || !s.keyAllowed
    let cells := skip (fun c => c = ' ' || (tabs && c = '\t')) s.rest
    let cells := if front cells = '#' then skip (fun c => !isBreak c) cells else cells
    if isBreak (front cells) then
      skipBlanks fuel { s with rest := cells.drop 1, keyAllowed := s.keyAllowed || !s.inFlow }
    else { s with rest := cells }

/-- Forgets places for keys that were left behind: a key ends on its line and within 1024 bytes.
A place where only a key can stand must not be left behind. -/
def dropStale (s : Lexer) : Option Lexer := do
  let keys ← s.keys.mapM fun
    | none => some none
    | some k =>
      if k.line < line s.rest || k.offset + 1024 < offset s.rest then
        if k.required then none else some none
      else some (some k)
  return { s with keys := keys }

/-- Forgets the innermost place for a key, where something else than a key turned out to stand. -/
def dropKey (s : Lexer) : Option Lexer :=
  match s.keys with
  | some k :: outer => if k.required then none else some { s with keys := none :: outer }
  | _ => some s

/-- Remembers the current place, if a key may begin here. -/
def saveKey (s : Lexer) : Option Lexer :=
  if s.keyAllowed then do
    let s ← s.dropKey
    let here : KeyStart :=
      ⟨s.given + s.queue.length, line s.rest, column s.rest, offset s.rest,
        !s.inFlow && s.indent = column s.rest⟩
    return { s with keys := some here :: s.keys.drop 1 }
  else some s

/-- Opens a block at a column, unless one is open there, with its token before the one of a
number. -/
def openBlock (s : Lexer) (col number : Nat) (t : Token) : Lexer :=
  if !s.inFlow && s.indent < col then
    ({ s with indents := s.indent :: s.indents, indent := col }).insert number t
  else s

/-- Opens a block at the current place. -/
def openHere (s : Lexer) (t : Token) : Lexer :=
  s.openBlock (column s.rest) (s.given + s.queue.length) t

/-- Closes blocks, from the innermost, that stand right of a column. -/
def closeFrom (col : Int) (indent : Int) : List Int → Int × List Int × List Token
  | [] => (indent, [], [])
  | outer :: more =>
    if col < indent then
      let (indent, rest, closed) := closeFrom col outer more
      (indent, rest, .blockEnd :: closed)
    else (indent, outer :: more, [])

/-- Closes the blocks that stand right of a column. -/
def closeBlocks (s : Lexer) (col : Int) : Lexer :=
  if s.inFlow then s
  else
    let (indent, indents, closed) := closeFrom col s.indent s.indents
    { s with indent := indent, indents := indents, queue := s.queue ++ closed }

/-- Adds a token that stands outside of all blocks. -/
def pushOutside (s : Lexer) (t : Token) (rest : List Cell) : Option Lexer := do
  let s ← (s.closeBlocks (-1)).dropKey
  return { s.push t with rest := rest, keyAllowed := false }

/-- Opens a flow collection. -/
def openFlow (s : Lexer) (t : Token) : Option Lexer := do
  let s ← s.saveKey
  return { s.pushMark t with keys := none :: s.keys, flow := s.flow + 1, keyAllowed := true }

/-- Closes a flow collection. -/
def closeFlow (s : Lexer) (t : Token) : Option Lexer := do
  let s ← s.dropKey
  let s := if s.inFlow then { s with keys := s.keys.drop 1, flow := s.flow - 1 } else s
  return { s.pushMark t with keyAllowed := false }

/-- Reads a comma. -/
def flowEntry (s : Lexer) : Option Lexer := do
  return { (← s.dropKey).pushMark .flowEntry with keyAllowed := true }

/-- Reads a hyphen before an item. -/
def blockEntry (s : Lexer) : Option Lexer :=
  if !s.inFlow && !s.keyAllowed then none
  else do
    let s ← (s.openHere .blockSequenceStart).dropKey
    return { s.pushMark .blockEntry with keyAllowed := true }

/-- Reads a question mark before a key. -/
def explicitKey (s : Lexer) : Option Lexer :=
  if !s.inFlow && !s.keyAllowed then none
  else do
    let s ← (s.openHere .blockMappingStart).dropKey
    return { s.pushMark .key with keyAllowed := !s.inFlow }

/-- Reads a colon before a value: what stands at the place remembered was a key. -/
def valueMark (s : Lexer) : Option Lexer :=
  match s.keys with
  | some k :: outer =>
    let s := (s.insert k.number .key).openBlock k.col k.number .blockMappingStart
    some { s.pushMark .value with keys := none :: outer, keyAllowed := false }
  | _ =>
    if !s.inFlow && !s.keyAllowed then none
    else some { (s.openHere .blockMappingStart).pushMark .value with keyAllowed := !s.inFlow }

/-- Adds a token that may begin a key and has been read up to `rest`. -/
def pushNode (s : Lexer) (read : Option (Token × List Cell)) : Option Lexer := do
  let s ← s.saveKey
  let (t, rest) ← read
  return { s.push t with rest := rest, keyAllowed := false }

/-- Adds a quoted scalar. -/
def quoted (s : Lexer) (style : Style) (read : Option ReadScalar) : Option Lexer :=
  s.pushNode (read.map fun r => (.scalar r.text style, r.rest))

/-- Adds a plain scalar. -/
def plain (s : Lexer) : Option Lexer := do
  let s ← s.saveKey
  let r ← plainScalar s.inFlow (s.indent + 1) Gap.none [] s.rest
  return { s.push (.scalar r.text .plain) with rest := r.rest, keyAllowed := r.broken }

/-- Adds a block scalar. -/
def block (s : Lexer) (style : Style) : Option Lexer := do
  let s ← s.dropKey
  let r ← blockScalar (style = .folded) s.indent (s.rest.drop 1)
  return { s.push (.scalar r.text style) with rest := r.rest, keyAllowed := true }

/-- True where a plain scalar may begin. -/
def beginsPlain (s : Lexer) : Bool :=
  let c := front s.rest
  let next := charAt s.rest 1
  !(isGap c || "-?:,[]\x7b\x7d#&*!|>'\"%@\x60".toList.contains c) ||
    (c = '-' && !isWhite next) || (!s.inFlow && (c = '?' || c = ':') && !isGap next)

/-- Reads the next token, with those that indentation puts before it. -/
def fetch (s : Lexer) : Option Lexer := do
  let s ← (skipBlanks s.rest.length s).dropStale
  let s := s.closeBlocks (column s.rest)
  let c := front s.rest
  let next := charAt s.rest 1
  if c = endChar then s.pushOutside .streamEnd s.rest
  else if column s.rest = 0 && c = '%' then
    let (t, rest) ← directive s.rest
    s.pushOutside t rest
  else if isMark '-' s.rest then s.pushOutside .documentStart (s.rest.drop 3)
  else if isMark '.' s.rest then s.pushOutside .documentEnd (s.rest.drop 3)
  else if c = '[' then s.openFlow .flowSequenceStart
  else if c = '\x7b' then s.openFlow .flowMappingStart
  else if c = ']' then s.closeFlow .flowSequenceEnd
  else if c = '\x7d' then s.closeFlow .flowMappingEnd
  else if c = ',' then s.flowEntry
  else if c = '-' && isGap next then s.blockEntry
  else if c = '?' && (s.inFlow || isGap next) then s.explicitKey
  else if c = ':' && (s.inFlow || isGap next) then s.valueMark
  else if c = '*' then
    s.pushNode ((anchorName s.rest).map fun r => (.aliasOf r.1, r.2))
  else if c = '&' then
    s.pushNode ((anchorName s.rest).map fun r => (.anchor r.1, r.2))
  else if c = '!' then s.pushNode (tagToken s.inFlow s.rest)
  else if c = '|' && !s.inFlow then s.block .literal
  else if c = '>' && !s.inFlow then s.block .folded
  else if c = '\'' then s.quoted .single (singleScalar Gap.none [] (s.rest.drop 1))
  else if c = '"' then s.quoted .double (doubleScalar Gap.none .none [] (s.rest.drop 1))
  else if s.beginsPlain then s.plain
  else none

/-- The first token, once it is settled that nothing can be put in before it. -/
def next? : Nat → Lexer → Option (Token × Lexer)
  | 0, _ => none
  | fuel + 1, s =>
    match s.queue with
    | [] => s.fetch.bind (next? fuel)
    | t :: rest => do
      let s ← s.dropStale
      if s.keys.any fun k => k.any (·.number == s.given) then s.fetch.bind (next? fuel)
      else return (t, { s with queue := rest, given := s.given + 1 })

/-- The tokens up to the end of the stream, or up to a fault; `bound` is greater than the number
of characters. -/
def run (bound : Nat) : Nat → Lexer → List Token
  | 0, _ => []
  | fuel + 1, s =>
    match next? bound s with
    | none => []
    | some (.streamEnd, _) => [.streamEnd]
    | some (t, s) => t :: run bound fuel s

end Lexer

/-- The tokens of a text; they end with the end of the stream unless a fault comes before it. -/
def tokens (source : String) : List Token :=
  match cells? source with
  | none => []
  | some cells => (Lexer.start cells).run (cells.length + 2) (6 * cells.length + 6)

end Pipeline.Yaml
