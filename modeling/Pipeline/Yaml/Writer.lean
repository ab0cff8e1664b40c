import Pipeline.Data.Datum
import Pipeline.Yaml.Plain

/-!
# Writing YAML

Lists and records are written in block style, two columns deeper for each level; the items of a
list that belongs to a key stand in the column of the key.
-/

set_option autoImplicit false
set_option relaxedAutoImplicit false

/-! ### How texts are written in YAML

A text is written plainly where this reads back as the same text, between single quotes where it
would read as something else, over several lines where it has several, and with escapes where
nothing else is left.
-/

namespace Pipeline.Yaml

/-- The ways to write a text. -/
inductive Form where
  | plain
  | single
  | double
  | literal
deriving DecidableEq, Repr

namespace Form

/-- True for the characters that end a line. -/
def isLineEnd (c : Char) : Bool :=
  c = '\n' || c = '\r' || c.toNat = 0x85 || c.toNat = 0x2028 || c.toNat = 0x2029

/-- True for the characters that set words apart. -/
def isGap (c : Char) : Bool := c = ' ' || c = '\t' || c.toNat = 0 || isLineEnd c

/-- True for the characters that are written as they are. -/
def isPrintable (c : Char) : Bool :=
  let n := c.toNat
  n = 0x0A || (0x20 ≤ n && n ≤ 0x7E) || (0xA0 ≤ n && n ≤ 0xFFFD && n ≠ 0xFEFF) || 0x10000 ≤ n

/-- True when two neighbours satisfy `p` and `q`. -/
def hasPair (p q : Char → Bool) : List Char → Bool
  | a :: b :: rest => (p a && q b) || hasPair p q (b :: rest)
  | _ => false

/-- True at the end of a text and before a gap. -/
def endsWord : List Char → Bool
  | [] => true
  | c :: _ => isGap c

/-- True when a mark of a comment or of a key stands in a text behind a character. -/
def hasMark : Char → List Char → Bool
  | _, [] => false
  | before, c :: rest =>
    (c = ':' && endsWord rest) || (c = '#' && isGap before) || hasMark c rest

/-- True when a text begins as something other than a text does. -/
def beginsOddly (c : Char) (rest : List Char) : Bool :=
  ['#', ',', '[', ']', '{', '}', '&', '*', '!', '|', '>', '\'', '"', '%', '@', '`'].contains c ||
    ((c = '?' || c = ':' || c = '-') && endsWord rest) ||
    (c :: rest).take 3 = ['-', '-', '-'] || (c :: rest).take 3 = ['.', '.', '.']

/-- True for a space or a line break. -/
def isSpace (c : Char) : Bool := c = ' ' || isLineEnd c

/-- True when no space stands before a line break and all characters are printable. -/
def isClean (cs : List Char) : Bool :=
  cs.all isPrintable && !hasPair (· = ' ') isLineEnd cs

/-- True for texts that may be written plainly. -/
def allowsPlain : List Char → Bool
  | [] => true
  | c :: rest =>
    !(beginsOddly c rest || hasMark c rest || isSpace c || (c :: rest).getLast?.any isSpace ||
        (c :: rest).any isLineEnd) &&
      isClean (c :: rest)

/-- True for texts that may stand between single quotes. -/
def allowsSingle (cs : List Char) : Bool := isClean cs && !hasPair isLineEnd (· = ' ') cs

/-- True for texts that may be written line by line. -/
def allowsLiteral (cs : List Char) : Bool :=
  !cs.isEmpty && isClean cs && !cs.getLast?.any (· = ' ')

/-- Words that some readers take for booleans. -/
def truthWords : List String :=
  ["y", "Y", "yes", "Yes", "YES", "n", "N", "no", "No", "NO", "true", "True", "TRUE", "false",
    "False", "FALSE", "on", "On", "ON", "off", "Off", "OFF"]

/-- True for texts that something may read as no text. -/
def isAmbiguous (s : String) : Bool :=
  truthWords.contains s || Plain.isPadded s.toList ||
    match Plain.ofText s with
    | .str _ => false
    | _ => true

/-- The way to write a text. -/
def ofText (s : String) : Form :=
  let cs := s.toList
  if cs.contains '\n' then if allowsLiteral cs then literal else double
  else if allowsPlain cs && !isAmbiguous s then plain
  else if allowsSingle cs then single
  else double

end Form
end Pipeline.Yaml

namespace Pipeline.Yaml.Writer

open Form (isLineEnd)

/-- So many spaces. -/
def spaces (n : Nat) : List Char := List.replicate n ' '

/-- The text of a line with the break behind it. -/
def endLine (cs : List Char) : List Char :=
  if cs.getLast?.any isLineEnd then cs else cs ++ ['\n']

/-! ### Texts -/

/-- The characters with spaces at the beginning of each line that is not empty. -/
def indented (column : Nat) : Bool → List Char → List Char
  | _, [] => []
  | atStart, c :: rest =>
    if isLineEnd c then c :: indented column true rest
    else (if atStart then spaces column else []) ++ c :: indented column false rest

/-- A text between single quotes. -/
def singleQuoted (column : Nat) (cs : List Char) : List Char :=
  let doubled := cs.flatMap fun c => if c = '\'' then [c, c] else [c]
  let last := if cs.getLast?.any isLineEnd then spaces column else []
  '\'' :: (indented column false doubled ++ last ++ ['\''])

/-- A number in upper-case hexadecimal with so many digits. -/
def hexDigits : Nat → Nat → List Char
  | 0, _ => []
  | width + 1, n => hexDigits width (n / 16) ++ [(Nat.digitChar (n % 16)).toUpper]

/-- The letters of escapes that have some. -/
def escapeLetters : List (Nat × Char) :=
  [(0, '0'), (7, 'a'), (8, 'b'), (9, 't'), (10, 'n'), (11, 'v'), (12, 'f'), (13, 'r'), (27, 'e'),
    (0x22, '"'), (0x5C, '\\'), (0x85, 'N'), (0xA0, '_'), (0x2028, 'L'), (0x2029, 'P')]

/-- How a character is written between double quotes. -/
def escape (c : Char) : List Char :=
  if Form.isPrintable c && !isLineEnd c && c ≠ '"' && c ≠ '\\' then [c]
  else
    let n := c.toNat
    match escapeLetters.lookup n with
    | some letter => ['\\', letter]
    | none =>
      if n ≤ 0xFF then '\\' :: 'x' :: hexDigits 2 n
      else if n ≤ 0xFFFF then '\\' :: 'u' :: hexDigits 4 n
      else '\\' :: 'U' :: hexDigits 8 n

/-- A text between double quotes. -/
def doubleQuoted (cs : List Char) : List Char := '"' :: (cs.flatMap escape ++ ['"'])

/-- What tells how the line breaks at the end of a text are meant. -/
def chomping (cs : List Char) : List Char :=
  match cs.reverse with
  | [] => ['-']
  | last :: before =>
    if !isLineEnd last then ['-']
    else
      match before with
      | [] => ['+']
      | c :: _ => if isLineEnd c then ['+'] else []

/-- A text line by line. -/
def literal (column : Nat) (cs : List Char) : List Char :=
  let depth := if cs.head?.any Form.isSpace then ['2'] else []
  '|' :: (depth ++ chomping cs ++ '\n' :: indented column true cs)

/-- A text, whose further lines begin in a column. -/
def text (column : Nat) (s : String) : List Char :=
  match Form.ofText s with
  | .plain => s.toList
  | .single => singleQuoted column s.toList
  | .double => doubleQuoted s.toList
  | .literal => literal column s.toList

/-- A float. -/
def float (x : Float) : List Char :=
  match Text.Decimal.data? x with
  | some s => s.toList
  | none =>
    if x.isNaN then ['.', 'n', 'a', 'n']
    else if x < 0 then ['-', '.', 'i', 'n', 'f']
    else ['.', 'i', 'n', 'f']

/-- Data that holds no other data. -/
def scalar (column : Nat) : Datum → List Char
  | .bool b => if b then ['t', 'r', 'u', 'e'] else ['f', 'a', 'l', 's', 'e']
  | .int n => (Pipeline.Text.intText n).toList
  | .float x => float x
  | .str s => text column s
  | _ => ['n', 'u', 'l', 'l']

/-! ### Blocks -/

/-- True for data that takes lines of its own. -/
def isBlock : Datum → Bool
  | .list items => !items.isEmpty
  | .record entries => !entries.isEmpty
  | _ => false

/-- True for keys that may stand before their colon without a mark. -/
def isSimpleKey (key : String) : Bool := !key.toList.any isLineEnd && key.utf8ByteSize ≤ 128

/-- A key in a column and what sets its value apart. -/
def keyText (column : Nat) (key : String) : List Char :=
  if isSimpleKey key then text (column + 2) key ++ [':']
  else endLine ('?' :: ' ' :: text (column + 2) key) ++ spaces column ++ [':', ' ']

/-- The beginning of a line in a column. -/
def newLine (column : Nat) : List Char := '\n' :: spaces column

mutual

/-- Data behind the mark of an item in a column, or behind the colon of a key in a column. -/
def node (column : Nat) (isKeyed : Bool) : Datum → List Char
  | .list all =>
    if all.isEmpty then (if isKeyed then [' '] else []) ++ ['[', ']']
    else (if isKeyed then newLine column else []) ++ items column all
  | .record all =>
    if all.isEmpty then (if isKeyed then [' '] else []) ++ ['{', '}']
    else if isKeyed then newLine (column + 2) ++ entries (column + 2) all
    else entries column all
  | .variant name payload =>
    if isKeyed then ' ' :: '!' :: name.toList ++ node column true payload
    else
      '!' :: name.toList ++ (if isBlock payload then newLine column else [' ']) ++
        node column false payload
  | d => if isKeyed then ' ' :: scalar (column + 2) d else scalar column d

/-- The items of a list in a column. -/
def items (column : Nat) : List Datum → List Char
  | [] => []
  | d :: rest =>
    let item := '-' :: ' ' :: node (column + 2) false d
    if rest.isEmpty then item else endLine item ++ spaces column ++ items column rest

/-- The entries of a record in a column. -/
def entries (column : Nat) : List (String × Datum) → List Char
  | [] => []
  | (key, d) :: rest =>
    let isSimple := isSimpleKey key
    let entry := keyText column key ++ node (if isSimple then column else column + 2) isSimple d
    if rest.isEmpty then entry else endLine entry ++ spaces column ++ entries column rest

end

end Writer

/-- The YAML text of data. -/
def write (d : Datum) : String := String.ofList (Writer.endLine (Writer.node 0 false d))

end Pipeline.Yaml
