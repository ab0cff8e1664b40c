import Pipeline.Json.Basic

/-!
# Reading JSON texts

Numbers without fraction and exponent are integers of any size, all others floats. The fuel of
the readers is the number of characters left, which every step lowers.
-/

set_option autoImplicit false
set_option relaxedAutoImplicit false

namespace Pipeline.Json

/-- Drops the blanks that may stand between the parts of a value. -/
def skip (cs : List Char) : List Char :=
  cs.dropWhile fun c => c = ' ' || c = '\n' || c = '\r' || c = '\t'

/-- Reads four hexadecimal digits. -/
def hexFour? : List Char → Option (Nat × List Char)
  | a :: b :: c :: d :: rest => do
    let a ← Text.hexValue? a
    let b ← Text.hexValue? b
    let c ← Text.hexValue? c
    let d ← Text.hexValue? d
    some (((a * 16 + b) * 16 + c) * 16 + d, rest)
  | _ => none

/-- Reads the code point behind a `\u`, joining a pair of surrogates. -/
def codePoint? (cs : List Char) : Option (Char × List Char) := do
  let (high, rest) ← hexFour? cs
  if 0xD800 ≤ high && high < 0xDC00 then
    match rest with
    | '\\' :: 'u' :: more =>
      let (low, rest) ← hexFour? more
      if 0xDC00 ≤ low && low < 0xE000 then
        some (Char.ofNat (0x10000 + (high - 0xD800) * 0x400 + (low - 0xDC00)), rest)
      else none
    | _ => none
  else if 0xDC00 ≤ high && high < 0xE000 then none
  else some (Char.ofNat high, rest)

/-- Reads a string up to its closing quote; `read` holds the characters so far, last first. -/
def stringBody? : Nat → List Char → List Char → Option (String × List Char)
  | 0, _, _ => none
  | _ + 1, _, [] => none
  | _ + 1, read, '"' :: rest => some (String.ofList read.reverse, rest)
  | fuel + 1, read, '\\' :: 'u' :: rest =>
    match codePoint? rest with
    | some (c, rest) => stringBody? fuel (c :: read) rest
    | none => none
  | fuel + 1, read, '\\' :: c :: rest =>
    let escaped? : Option Char :=
      if c = '"' || c = '\\' || c = '/' then some c
      else if c = 'b' then some (Char.ofNat 8)
      else if c = 'f' then some (Char.ofNat 12)
      else if c = 'n' then some '\n'
      else if c = 'r' then some '\r'
      else if c = 't' then some '\t'
      else none
    match escaped? with
    | some e => stringBody? fuel (e :: read) rest
    | none => none
  | fuel + 1, read, c :: rest =>
    if c.toNat < 32 then none else stringBody? fuel (c :: read) rest

/-- Reads a number that may begin with a minus sign. -/
def number? (cs : List Char) : Option (Json × List Char) :=
  let (negative, cs) := match cs with
    | '-' :: rest => (true, rest)
    | _ => (false, cs)
  let whole := cs.takeWhile Text.isDigit
  let rest := cs.dropWhile Text.isDigit
  if whole.isEmpty || (whole.length > 1 && whole.head? == some '0') then none
  else
    let (fraction, rest, pointed) := match rest with
      | '.' :: more => (more.takeWhile Text.isDigit, more.dropWhile Text.isDigit, true)
      | _ => ([], rest, false)
    if pointed && fraction.isEmpty then none
    else
      let power? : Option (Option Int × List Char) := match rest with
        | c :: more =>
          if c = 'e' || c = 'E' then
            let (down, more) := match more with
              | '-' :: more => (true, more)
              | '+' :: more => (false, more)
              | _ => (false, more)
            let ds := more.takeWhile Text.isDigit
            if ds.isEmpty then none
            else
              let e : Int := Text.digitsValue ds
              some (some (if down then -e else e), more.dropWhile Text.isDigit)
          else some (none, rest)
        | [] => some (none, rest)
      match power? with
      | none => none
      | some (power, rest) =>
        if !pointed && power.isNone && !(negative && Text.digitsValue whole = 0) then
          let n : Int := Text.digitsValue whole
          some (.int (if negative then -n else n), rest)
        else
          let x := Text.Decimal.nearest (Text.digitsValue (whole ++ fraction))
            (power.getD 0 - fraction.length)
          some (.float (if negative then -x else x), rest)

mutual

/-- Reads one value. -/
def value? : Nat → List Char → Option (Json × List Char)
  | 0, _ => none
  | fuel + 1, cs =>
    match skip cs with
    | '"' :: rest => (stringBody? (rest.length + 1) [] rest).map fun (s, rest) => (.str s, rest)
    | '[' :: rest =>
      match skip rest with
      | ']' :: rest => some (.arr [], rest)
      | rest => (items? fuel rest).map fun (vs, rest) => (.arr vs, rest)
    | '{' :: rest =>
      match skip rest with
      | '}' :: rest => some (.obj [], rest)
      | rest => (entries? fuel rest).map fun (es, rest) => (.obj es, rest)
    | 'n' :: 'u' :: 'l' :: 'l' :: rest => some (.null, rest)
    | 't' :: 'r' :: 'u' :: 'e' :: rest => some (.bool true, rest)
    | 'f' :: 'a' :: 'l' :: 's' :: 'e' :: rest => some (.bool false, rest)
    | rest => number? rest

/-- Reads the items of a list up to its closing bracket. -/
def items? : Nat → List Char → Option (List Json × List Char)
  | 0, _ => none
  | fuel + 1, cs =>
    match value? fuel cs with
    | none => none
    | some (v, rest) =>
      match skip rest with
      | ',' :: rest => (items? fuel rest).map fun (vs, rest) => (v :: vs, rest)
      | ']' :: rest => some ([v], rest)
      | _ => none

/-- Reads the entries of an object up to its closing brace. -/
def entries? : Nat → List Char → Option (List (String × Json) × List Char)
  | 0, _ => none
  | fuel + 1, cs =>
    match skip cs with
    | '"' :: rest =>
      match stringBody? (rest.length + 1) [] rest with
      | none => none
      | some (k, rest) =>
        match skip rest with
        | ':' :: rest =>
          match value? fuel rest with
          | none => none
          | some (v, rest) =>
            match skip rest with
            | ',' :: rest => (entries? fuel rest).map fun (es, rest) => ((k, v) :: es, rest)
            | '}' :: rest => some ([(k, v)], rest)
            | _ => none
        | _ => none
    | _ => none

end

/-- Reads a text that holds one value and nothing else. -/
def parse? (s : String) : Option Json :=
  let cs := s.toList
  match value? (2 * cs.length + 2) cs with
  | some (v, rest) => if (skip rest).isEmpty then some v else none
  | none => none

end Pipeline.Json
