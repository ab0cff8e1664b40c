import Pipeline.Text.Decimal
import Pipeline.Text.Basic

/-!
# What plain scalars stand for

Null, booleans and numbers have fixed spellings; every other plain scalar is a text. A number with
a zero before its digits is a text.
-/

set_option autoImplicit false
set_option relaxedAutoImplicit false

namespace Pipeline.Yaml

/-- What a scalar stands for. -/
inductive Plain where
  | null
  | bool (b : Bool)
  /-- An integer of 64 bits, signed or unsigned. -/
  | int (n : Int)
  /-- An integer of more than 64 bits and not more than 128. -/
  | wide (n : Int)
  | float (x : Float)
  | str (s : String)
deriving Repr

namespace Plain

/-- True for the spellings of null; the empty text is not one of them. -/
def isNull (s : String) : Bool := ["null", "Null", "NULL", "~"].contains s

/-- The boolean of a spelling. -/
def bool? (s : String) : Option Bool :=
  if ["true", "True", "TRUE"].contains s then some true
  else if ["false", "False", "FALSE"].contains s then some false
  else none

/-- The number that digits of a base stand for; at least one is needed. -/
def digits? (base : Nat) (cs : List Char) : Option Nat :=
  if cs.isEmpty then none
  else cs.foldlM (fun n c => do
    let d ← Text.hexValue? c
    if d < base then return base * n + d else none) 0

/-- True for several decimal digits that begin with a zero, with a sign or without. -/
def isPadded (cs : List Char) : Bool :=
  let digits := match cs with
    | '-' :: rest => rest
    | '+' :: rest => rest
    | _ => cs
  1 < digits.length && digits.head? = some '0' && digits.all Text.isDigit

/-- The number that a text without a sign stands for. -/
def unsigned? : List Char → Option Nat
  | '0' :: 'x' :: rest => digits? 16 rest
  | '0' :: 'o' :: rest => digits? 8 rest
  | '0' :: 'b' :: rest => digits? 2 rest
  | cs => if isPadded cs then none else digits? 10 cs

/-- The integer that a text stands for, of any size. -/
def int? : List Char → Option Int
  | '+' :: rest => (unsigned? rest).map Int.ofNat
  | '-' :: rest => (unsigned? rest).map fun n => -(n : Int)
  | cs => (unsigned? cs).map Int.ofNat

/-- Splits a list before the first character that satisfies `p`. -/
def breakAt (p : Char → Bool) (cs : List Char) : List Char × List Char :=
  (cs.takeWhile fun c => !p c, cs.dropWhile fun c => !p c)

/-- The exponent behind the mark of it; nothing stands for zero. -/
def exponent? : List Char → Option Int
  | [] => some 0
  | _ :: '+' :: digits => (digits? 10 digits).map Int.ofNat
  | _ :: '-' :: digits => (digits? 10 digits).map fun n => -(n : Int)
  | _ :: digits => (digits? 10 digits).map Int.ofNat

/-- The float of decimal digits around a point, with an exponent or without. -/
def decimal? (cs : List Char) : Option Float :=
  let (mantissa, exponent) := breakAt (fun c => c = 'e' || c = 'E') cs
  let (whole, fraction) := breakAt (· = '.') mantissa
  let fraction := fraction.drop 1
  if (whole ++ fraction).isEmpty || !(whole ++ fraction).all Text.isDigit then none
  else do
    let e ← exponent? exponent
    let x := Text.Decimal.nearest (Text.digitsValue (whole ++ fraction)) (e - fraction.length)
    if x.isFinite then return x else none

/-- The infinity that is not negative. -/
def infinity : Float := 1.0 / 0.0

/-- The positive quiet float that is no number. -/
def notANumber : Float := Float.ofBits 0x7FF8000000000000

/-- The float of a text without a sign. -/
def unsignedFloat? (cs : List Char) : Option Float :=
  if [".inf", ".Inf", ".INF"].contains (String.ofList cs) then some infinity else decimal? cs

/-- The float that a text stands for. -/
def float? (cs : List Char) : Option Float :=
  if [".nan", ".NaN", ".NAN"].contains (String.ofList cs) then some notANumber
  else
    match cs with
    | '+' :: rest => unsignedFloat? rest
    | '-' :: rest => (unsignedFloat? rest).map fun x => -x
    | _ => unsignedFloat? cs

/-- Tells the sizes of integers apart; one of more than 128 bits is none. -/
def ofInt? (n : Int) : Option Plain :=
  if -(Text.twoTo 63 : Int) ≤ n && n < Text.twoTo 64 then some (.int n)
  else if -(Text.twoTo 127 : Int) ≤ n && n < Text.twoTo 128 then some (.wide n)
  else none

/-- What a plain scalar stands for. -/
def ofText (s : String) : Plain :=
  let cs := s.toList
  if s = "" || isNull s then .null
  else
    match bool? s, (int? cs).bind ofInt? with
    | some b, _ => .bool b
    | none, some n => n
    | none, none =>
      if isPadded cs then .str s
      else
        match float? cs with
        | some x => .float x
        | none => .str s

end Plain
end Pipeline.Yaml
