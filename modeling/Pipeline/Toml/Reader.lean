import Pipeline.Toml.Basic
import Pipeline.Toml.Quoted

/-!
# Reading TOML

A text is a list of lines, each of which gives a key a value or is the header of a table. The lines
are read first; then each of them changes the table they all stand for.
-/

set_option autoImplicit false
set_option relaxedAutoImplicit false

namespace Pipeline.Toml

/-- Something read, and the rest. -/
abbrev Reading (α : Type) := List Char → Option (α × List Char)

/-- The text without the spaces at its beginning. -/
def skip (cs : List Char) : List Char := cs.dropWhile isSpace

/-- The rest behind a character, which must stand there. -/
def expect (c : Char) : List Char → Option (List Char)
  | d :: rest => if c = d then some rest else none
  | [] => none

/-- What stands behind a comment, if one stands there. -/
def afterComment : List Char → List Char
  | '#' :: rest => rest.dropWhile isPlain
  | cs => cs

/-- What stands behind the rest of a line that says nothing more. -/
def afterLine? (cs : List Char) : Option (List Char) :=
  match afterComment (skip cs) with
  | [] => some []
  | cs => afterBreak? cs

/-- The text behind spaces, comments and line breaks. -/
def skipLines : Nat → List Char → List Char
  | 0, cs => cs
  | bound + 1, cs =>
    match afterBreak? (afterComment (skip cs)) with
    | some rest => skipLines bound rest
    | none => afterComment (skip cs)

/-! ### Keys -/

/-- True for the characters of keys without quotes. -/
def isKeyChar (c : Char) : Bool := c.isAlphanum || c = '_' || c = '-'

/-- One part of a key. -/
def keyPart : Reading String := fun cs =>
  match cs with
  | [] => none
  | c :: rest =>
    if c = '"' then (basic (rest.length + 1) rest).map fun p => (String.ofList p.1, p.2)
    else if c = '\'' then (literal rest).map fun p => (String.ofList p.1, p.2)
    else if isKeyChar c then
      some (String.ofList (cs.takeWhile isKeyChar), cs.dropWhile isKeyChar)
    else none

/-- A key: the parts before the last one, and the last one. The spaces behind it are skipped. -/
def key : Nat → Reading (List String × String)
  | 0, _ => none
  | bound + 1, cs => do
    let (part, rest) ← keyPart (skip cs)
    match skip rest with
    | '.' :: rest => do
      let ((path, last), rest) ← key bound rest
      return ((part :: path, last), rest)
    | rest => return (([], part), rest)

/-! ### Values -/

/-- True for the characters of values without quotes. -/
def isBareChar (c : Char) : Bool := isKeyChar c || c = '+' || c = '.' || c = ':'

/-- A value without quotes. A space may stand between a date and a time. -/
def bare : Reading Toml := fun cs =>
  let word := cs.takeWhile isBareChar
  let rest := cs.dropWhile isBareChar
  match rest with
  | ' ' :: more =>
    let time := more.takeWhile isBareChar
    if isDay word && (afterMinutes? time).isSome then
      (bare? (word ++ ' ' :: time)).map (·, more.dropWhile isBareChar)
    else (bare? word).map (·, rest)
  | _ => (bare? word).map (·, rest)

/-- The items of an array up to its bracket; a comma may stand behind the last one. -/
def items (value : Reading Toml) : Nat → Reading (List Toml)
  | 0, _ => none
  | bound + 1, cs =>
    match skipLines cs.length cs with
    | ']' :: rest => some ([], rest)
    | cs => do
      let (v, rest) ← value cs
      match skipLines rest.length rest with
      | ',' :: rest => do
        let (vs, rest) ← items value bound rest
        return (v :: vs, rest)
      | rest => return ([v], ← expect ']' rest)

/-- A key with its value. -/
def pair (value : Reading Toml) : Reading (List String × String × Toml) := fun cs => do
  let ((path, last), rest) ← key cs.length cs
  let (v, rest) ← value (skip (← expect '=' rest))
  return ((path, last, v), rest)

/-- The pairs of a table up to its brace. -/
def pairs (value : Reading Toml) : Nat → Reading (List (List String × String × Toml))
  | 0, _ => none
  | bound + 1, cs => do
    let (p, rest) ← pair value cs
    match skip rest with
    | ',' :: rest => do
      let (ps, rest) ← pairs value bound rest
      return (p :: ps, rest)
    | rest => return ([p], ← expect '}' rest)

/-- Applies a change to a table. -/
def Change.apply (change : Change) : Toml → Option Toml
  | .table origin es => change origin es
  | _ => none

/-- The table of pairs that is written as a value. -/
def ofPairs (ps : List (List String × String × Toml)) : Option Toml :=
  ps.foldlM (fun t p => (assign p.1 p.2.1 p.2.2).apply t) (.table .inline [])

/-- A value that holds values at most so deep. -/
def value : Nat → Reading Toml
  | depth, cs =>
    match cs with
    | [] => none
    | c :: rest =>
      if c = '"' || c = '\'' then (quoted? cs).map fun p => (.str (String.ofList p.1), p.2)
      else if c = '[' then
        match depth with
        | 0 => none
        | depth + 1 => (items (value depth) cs.length rest).map fun p => (.array p.1, p.2)
      else if c = '{' then
        match depth with
        | 0 => none
        | depth + 1 =>
          match skip rest with
          | '}' :: rest => some (.table .inline [], rest)
          | rest => do
            let (ps, rest) ← pairs (value depth) cs.length rest
            return (← ofPairs ps, rest)
      else bare cs

/-- How deep values may hold one another. -/
def maxNesting : Nat := 79

/-! ### Lines -/

/-- What a line says. -/
inductive Line where
  | assign (path : List String) (key : String) (v : Toml)
  | define (path : List String) (key : String)
  | addElement (path : List String) (key : String)
deriving Repr

/-- A line that says something. -/
def line : Reading Line := fun cs =>
  match cs with
  | '[' :: '[' :: rest => do
    let ((path, last), rest) ← key rest.length rest
    return (.addElement path last, ← expect ']' (← expect ']' rest))
  | '[' :: rest => do
    let ((path, last), rest) ← key rest.length rest
    return (.define path last, ← expect ']' rest)
  | _ => do
    let ((path, last, v), rest) ← pair (value maxNesting) cs
    return (.assign path last v, rest)

/-- The lines of a text. -/
def lines : Nat → List Char → Option (List Line)
  | 0, _ => none
  | bound + 1, cs =>
    match skipLines cs.length cs with
    | [] => some []
    | cs => do
      let (l, rest) ← line cs
      return l :: (← lines bound (← afterLine? rest))

/-! ### Tables -/

/-- The path of keys of the table whose lines are being read, and the table of all lines. -/
abbrev Progress := List String × Toml

/-- Applies a line. -/
def step (progress : Progress) : Line → Option Progress
  | .assign path last v => do
    let (here, all) := progress
    return (here, ← (changeAt false (assign path last v) here).apply all)
  | .define path last => do
    return (path ++ [last], ← (define path last).apply progress.2)
  | .addElement path last => do
    return (path ++ [last], ← (addElement path last).apply progress.2)

/-- The text without the mark that may tell its byte order. -/
def dropMark : List Char → List Char
  | c :: rest => if c.toNat = 0xFEFF then rest else c :: rest
  | [] => []

/-- The table that a text stands for. -/
def parse? (text : String) : Option Toml := do
  let cs := dropMark text.toList
  let all ← lines (cs.length + 1) cs
  let (_, t) ← all.foldlM step ([], .table .header [])
  return t

end Pipeline.Toml
