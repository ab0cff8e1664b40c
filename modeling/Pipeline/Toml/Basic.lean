import Pipeline.Text.Basic
import Pipeline.Text.Decimal

/-!
# TOML values

A table remembers how it came about, since this decides what a later line may add to it: a table
that a header defined is complete with the lines below the header, one that only the path of a
deeper header mentions may still be defined, and one that dotted keys built may grow by further
dotted keys.
-/

set_option autoImplicit false
set_option relaxedAutoImplicit false

namespace Pipeline.Toml

/-- How a table came about. -/
inductive TableOrigin where
  | header
  /-- Mentioned by the path of a deeper header. -/
  | mention
  | dotted
  /-- Written as a value. -/
  | inline
deriving DecidableEq, Repr

end Toml

/-- A TOML value. -/
inductive Toml where
  | str (s : String)
  | int (n : Int)
  | float (x : Float)
  | bool (b : Bool)
  /-- A date, a time or both, as written. -/
  | date (written : String)
  | array (items : List Toml)
  /-- The tables of one array that headers built, in order. -/
  | tables (items : List Toml)
  | table (origin : Toml.TableOrigin) (entries : List (String × Toml))
deriving Repr, Inhabited

namespace Toml

/-- The entries of a table in the order of their keys' first appearance. -/
abbrev Entries := List (String × Toml)

namespace Entries

/-- The value of a key. -/
def get? (key : String) (es : Entries) : Option Toml := (es.find? fun e => e.1 = key).map (·.2)

/-- Gives a key a value, in place of the one it may have. -/
def set (key : String) (v : Toml) : Entries → Entries
  | [] => [(key, v)]
  | (k, w) :: rest => if k = key then (key, v) :: rest else (k, w) :: set key v rest

end Entries

/-- What is done to a table. -/
abbrev Change := TableOrigin → Entries → Option Toml

/-- Puts a value in the place of the last item. -/
def setLast (v : Toml) (items : List Toml) : List Toml := items.dropLast ++ [v]

/-- Changes the table that a path of keys leads to; tables that are missing are made. Dotted keys
lead through tables only that no header or value has completed. -/
def changeAt (isDotted : Bool) (change : Change) : List String → Change
  | [], origin, es => change origin es
  | key :: rest, origin, es => do
    match es.get? key with
    | none =>
      let made ← changeAt isDotted change rest (if isDotted then .dotted else .mention) []
      return table origin (es.set key made)
    | some (table inner below) =>
      if inner = .inline then none
      else if isDotted && inner = .header then none
      else
        let changed ← changeAt isDotted change rest inner below
        return table origin (es.set key changed)
    | some (tables items) =>
      match items.getLast? with
      | some (table inner below) =>
        let changed ← changeAt isDotted change rest inner below
        return table origin (es.set key (tables (setLast changed items)))
      | _ => none
    | some _ => none

/-- Adds a value that a key of one part or more was given. -/
def assign (path : List String) (key : String) (v : Toml) : Change :=
  changeAt true
    (fun origin es =>
      -- Dotted keys must end in a table that dotted keys made.
      if (origin == .dotted) == path.isEmpty then none
      else if (es.get? key).isSome then none
      else some (table origin (es.set key v)))
    path

/-- Defines the table of a header. -/
def define (path : List String) (key : String) : Change :=
  changeAt false
    (fun origin es =>
      match es.get? key with
      | none => some (table origin (es.set key (table .header [])))
      | some (table .mention below) => some (table origin (es.set key (table .header below)))
      | some _ => none)
    path

/-- Adds a table to the array of a header. -/
def addElement (path : List String) (key : String) : Change :=
  changeAt false
    (fun origin es =>
      match es.get? key with
      | none => some (table origin (es.set key (tables [table .header []])))
      | some (tables items) =>
        some (table origin (es.set key (tables (items ++ [table .header []]))))
      | some _ => none)
    path

end Toml
end Pipeline

/-! ### Numbers and dates of TOML -/

namespace Pipeline.Toml

/-- The digits of a text in which single underscores may stand between digits. -/
def digits? (isDigit : Char → Bool) : List Char → Option (List Char)
  | [] => none
  | [c] => if isDigit c then some [c] else none
  | c :: '_' :: rest => if isDigit c then (digits? isDigit rest).map (c :: ·) else none
  | c :: rest => if isDigit c then (digits? isDigit rest).map (c :: ·) else none

/-- The decimal digits of a number, which begins with a zero only if it is zero. -/
def unpadded? (cs : List Char) : Option (List Char) := do
  let ds ← digits? Text.isDigit cs
  match ds with
  | '0' :: _ :: _ => none
  | _ => some ds

/-- A sign and what it stands before. -/
def splitSign : List Char → Bool × List Char
  | '+' :: rest => (false, rest)
  | '-' :: rest => (true, rest)
  | cs => (false, cs)

/-- The number of digits of a base. -/
def ofBase? (base : Nat) (cs : List Char) : Option Int := do
  let ds ← digits? (fun c => ((Text.hexValue? c).map fun d => decide (d < base)).getD false) cs
  return (ds.foldl (fun n c => base * n + (Text.hexValue? c).getD 0) 0 : Nat)

/-- An integer of any size. -/
def anyInt? : List Char → Option Int
  | '0' :: 'x' :: rest => ofBase? 16 rest
  | '0' :: 'o' :: rest => ofBase? 8 rest
  | '0' :: 'b' :: rest => ofBase? 2 rest
  | cs => do
    let (negative, rest) := splitSign cs
    let n := Text.digitsValue (← unpadded? rest)
    return if negative then -(n : Int) else n

/-- An integer of 64 bits. -/
def int? (cs : List Char) : Option Int :=
  (anyInt? cs).filter fun n => -(Text.twoTo 63 : Int) ≤ n && n < Text.twoTo 63

/-- Splits a list at the first character that satisfies `p`; without one there is no rest. -/
def splitAt? (p : Char → Bool) (cs : List Char) : List Char × Option (List Char) :=
  match cs.dropWhile fun c => !p c with
  | [] => (cs, none)
  | _ :: rest => (cs.takeWhile fun c => !p c, some rest)

/-- The exponent behind the mark of it; nothing stands for zero. -/
def exponent? : Option (List Char) → Option Int
  | none => some 0
  | some es => do
    let (negative, es) := splitSign es
    let n := Text.digitsValue (← digits? Text.isDigit es)
    return if negative then -(n : Int) else n

/-- The digits behind the point; nothing stands for none. -/
def fraction? : Option (List Char) → Option (List Char)
  | none => some []
  | some fs => digits? Text.isDigit fs

/-- A number with a fraction or an exponent. -/
def decimal? (cs : List Char) : Option Float := do
  let (mantissa, exponent) := splitAt? (fun c => c = 'e' || c = 'E') cs
  let (whole, fraction) := splitAt? (· = '.') mantissa
  if exponent.isNone && fraction.isNone then none
  else
    let ws ← unpadded? whole
    let fs ← fraction? fraction
    let e ← exponent? exponent
    return Text.Decimal.nearest (Text.digitsValue (ws ++ fs)) (e - fs.length)

/-- A float; one that is too large is none, unless it is negative. -/
def float? (cs : List Char) : Option Float :=
  let (negative, rest) := splitSign cs
  if rest = ['i', 'n', 'f'] then some (if negative then -(1.0 / 0.0) else 1.0 / 0.0)
  else if rest = ['n', 'a', 'n'] then some (0.0 / 0.0)
  else do
    let x ← decimal? rest
    if negative then return -x
    else if x.isFinite then return x
    else none

/-! ### Dates and times -/

/-- The number that exactly so many digits are, between two bounds. -/
def field? (least greatest : Nat) (cs : List Char) : Option Nat :=
  let n := Text.digitsValue cs
  if cs.all Text.isDigit && decide (least ≤ n) && decide (n ≤ greatest) then some n else none

/-- The number of days of a month. -/
def daysOf (year month : Nat) : Nat :=
  if month = 2 then
    if year % 4 = 0 && (year % 100 ≠ 0 || year % 400 = 0) then 29 else 28
  else if [4, 6, 9, 11].contains month then 30
  else 31

/-- True for a year, a month and a day. -/
def isDay : List Char → Bool
  | [a, b, c, d, '-', e, f, '-', g, h] =>
    (do
      let year ← field? 0 9999 [a, b, c, d]
      let month ← field? 1 12 [e, f]
      field? 1 (daysOf year month) [g, h]).isSome
  | _ => false

/-- What stands behind the hours and minutes of a text. -/
def afterMinutes? : List Char → Option (List Char)
  | a :: b :: ':' :: c :: d :: rest =>
    if (field? 0 23 [a, b]).isSome && (field? 0 59 [c, d]).isSome then some rest else none
  | _ => none

/-- What stands behind the time of day that a text begins with. -/
def afterTime? (cs : List Char) : Option (List Char) := do
  match ← afterMinutes? cs with
  | ':' :: a :: b :: rest =>
    if (field? 0 60 [a, b]).isNone then none
    else
      match rest with
      | '.' :: fraction =>
        match fraction.dropWhile Text.isDigit with
        | after => if fraction.head?.any Text.isDigit then some after else none
      | _ => some rest
  | _ => none

/-- True for the distance of a place from universal time. -/
def isOffset : List Char → Bool
  | ['Z'] => true
  | ['z'] => true
  | '+' :: rest => afterMinutes? rest = some []
  | '-' :: rest => afterMinutes? rest = some []
  | _ => false

/-- True for a date, a time, or a date with a time. -/
def isDate (cs : List Char) : Bool :=
  if isDay (cs.take 10) then
    match cs.drop 10 with
    | [] => true
    | c :: time =>
      (c = 'T' || c = 't' || c = ' ') &&
        match afterTime? time with
        | none => false
        | some offset => offset.isEmpty || isOffset offset
  else afterTime? cs = some []

/-- A value that is written without quotes or brackets. -/
def bare? (cs : List Char) : Option Toml :=
  if cs = ['t', 'r', 'u', 'e'] then some (.bool true)
  else if cs = ['f', 'a', 'l', 's', 'e'] then some (.bool false)
  else if isDate cs then some (.date (String.ofList cs))
  else
    match int? cs with
    | some n => some (.int n)
    | none => (float? cs).map .float

end Pipeline.Toml
