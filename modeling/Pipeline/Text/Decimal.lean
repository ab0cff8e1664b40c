import Pipeline.Text.Basic

/-!
# Shortest decimals of binary floating point numbers

A finite double is an integer times a power of two, and the reals that round to it form an
interval. Its shortest decimal is the point of the coarsest decimal grid that lies in this
interval; of two such points the one nearer to the double is taken. How an exact tie goes and how
the digits are laid out belongs to the format that writes them.
-/

set_option autoImplicit false
set_option relaxedAutoImplicit false

namespace Pipeline.Text.Decimal

/-- A finite magnitude `mantissa * 2 ^ exponent`. -/
structure Binary where
  mantissa : Nat
  exponent : Int
  /-- The gap to the next smaller double is half the gap to the next larger one. -/
  narrowBelow : Bool
deriving DecidableEq, Repr

/-- What the bits of a double stand for. -/
inductive Class where
  | nan
  | infinite (negative : Bool)
  | finite (negative : Bool) (magnitude : Binary)
deriving DecidableEq, Repr

/-- Reads the sign, exponent and fraction fields of a double. -/
def classify (x : Float) : Class :=
  let bits := x.toBits.toNat
  let negative : Bool := twoTo 63 ≤ bits
  let field : Nat := bits / twoTo 52 % twoTo 11
  let fraction : Nat := bits % twoTo 52
  if field = 2047 then
    if fraction = 0 then .infinite negative else .nan
  else if field = 0 then .finite negative ⟨fraction, -1074, false⟩
  else .finite negative ⟨twoTo 52 + fraction, (field : Int) - 1075, fraction = 0 && field > 1⟩

/-- Which neighbour is taken when both are equally near. -/
inductive Tie where
  | up
  | even
deriving DecidableEq, Repr

/-- The decimal `digits * 10 ^ exponent`. -/
structure Digits where
  digits : Nat
  exponent : Int
deriving DecidableEq, Repr

/-- The greatest `e` with `10 ^ e ≤ num / den`, searched downward from `top`. -/
def leadingExponent (num den : Nat) : Nat → Int → Int
  | 0, top => top
  | fuel + 1, top =>
    let fits := if 0 ≤ top then den * tenTo top.toNat ≤ num else den ≤ num * tenTo (-top).toNat
    if fits then top else leadingExponent num den fuel (top - 1)

/-- The points `below` and `below + 1` of the grid of step `10 ^ e` that lie in the interval
around `num / den`, which reaches `gapBelow / den` down and `gapAbove / den` up. -/
def pointOnGrid? (num den gapBelow gapAbove : Nat) (closed : Bool) (tie : Tie) (e : Int) :
    Option Nat :=
  let n := if e < 0 then num * tenTo (-e).toNat else num
  let lo := if e < 0 then gapBelow * tenTo (-e).toNat else gapBelow
  let hi := if e < 0 then gapAbove * tenTo (-e).toNat else gapAbove
  let step := if e < 0 then den else den * tenTo e.toNat
  let below := n / step
  let under := n - below * step
  let excess := (below + 1) * step - n
  let lowHit := if closed then under ≤ lo else under < lo
  let highHit := if closed then excess ≤ hi else excess < hi
  if lowHit && highHit then
    if under < excess then some below
    else if excess < under then some (below + 1)
    else match tie with
      | .up => some (below + 1)
      | .even => some (if below % 2 = 0 then below else below + 1)
  else if lowHit then some below
  else if highHit then some (below + 1)
  else none

/-- Tries ever finer grids, from step `10 ^ e` down. -/
def searchGrids (num den gapBelow gapAbove : Nat) (closed : Bool) (tie : Tie) :
    Nat → Int → Digits
  | 0, e => ⟨if e < 0 then num * tenTo (-e).toNat / den else num / (den * tenTo e.toNat), e⟩
  | fuel + 1, e =>
    match pointOnGrid? num den gapBelow gapAbove closed tie e with
    | some d => ⟨d, e⟩
    | none => searchGrids num den gapBelow gapAbove closed tie fuel (e - 1)

/-- Moves the trailing zeros of the digits into the exponent. -/
def dropZeros : Nat → Digits → Digits
  | 0, d => d
  | fuel + 1, d =>
    if d.digits ≠ 0 ∧ d.digits % 10 = 0 then dropZeros fuel ⟨d.digits / 10, d.exponent + 1⟩ else d

/-- The shortest decimal that reads back as the magnitude. Seventeen digits always suffice. -/
def shortest (b : Binary) (tie : Tie) : Digits :=
  if b.mantissa = 0 then ⟨0, 0⟩ else
  -- Numerators are in quarters of a unit in the last place, so that both gaps are integers.
  let scale := if 0 ≤ b.exponent then twoTo b.exponent.toNat else 1
  let den := 4 * (if 0 ≤ b.exponent then 1 else twoTo (-b.exponent).toNat)
  let num := 4 * b.mantissa * scale
  let gapAbove := 2 * scale
  let gapBelow := if b.narrowBelow then scale else 2 * scale
  let lead := leadingExponent num den 800 310
  dropZeros 20 (searchGrids num den gapBelow gapAbove (b.mantissa % 2 = 0) tie 17 lead)

/-- The digits of a decimal without leading or trailing zeros. -/
def Digits.chars (d : Digits) : List Char := natChars d.digits

/-- Positional notation with no more zeros than needed; no point behind a whole number. -/
def Digits.positional (d : Digits) : List Char :=
  let cs := d.chars
  if 0 ≤ d.exponent then
    if d.digits = 0 then ['0'] else cs ++ List.replicate d.exponent.toNat '0'
  else
    let places := (-d.exponent).toNat
    if cs.length ≤ places then '0' :: '.' :: (List.replicate (places - cs.length) '0' ++ cs)
    else cs.take (cs.length - places) ++ '.' :: cs.drop (cs.length - places)

/-- Scientific notation: one digit before the point, none behind it if there is no more. -/
def Digits.scientific (d : Digits) : List Char :=
  match d.chars with
  | [] => []
  | c :: rest =>
    let e := d.exponent + rest.length
    (if rest.isEmpty then [c] else c :: '.' :: rest) ++ 'e' :: (intText e).toList

/-- The power of ten of the first digit. -/
def Digits.magnitude (d : Digits) : Int := d.exponent + (d.chars.length - 1 : Nat)

private def signed (negative : Bool) (cs : List Char) : String :=
  String.ofList (if negative then '-' :: cs else cs)

/-- Plain text of a float: positional at every size, a tie goes up, whole numbers have no
point. -/
def plain (x : Float) : String :=
  match classify x with
  | .nan => "NaN"
  | .infinite negative => if negative then "-inf" else "inf"
  | .finite negative b => signed negative (shortest b .up).positional

/-- Marks a whole positional text as a float. -/
private def withPoint (cs : List Char) : List Char :=
  if cs.contains '.' then cs else cs ++ ['.', '0']

/-- Positional from `10 ^ least` up to below 1e16, scientific outside; a whole number keeps a
zero behind its point. -/
private def layout (least : Int) (d : Digits) : List Char :=
  if d.digits = 0 ∨ (least ≤ d.magnitude ∧ d.magnitude < 16) then withPoint d.positional
  else d.scientific

/-- Text of a float as a literal: positional from 1e-4 on, a tie goes up. -/
def literal (x : Float) : String :=
  match classify x with
  | .nan => "NaN"
  | .infinite negative => if negative then "-inf" else "inf"
  | .finite negative b => signed negative (layout (-4) (shortest b .up))

/-- Text of a finite float in data formats: positional from 1e-5 on, a tie goes to the even
digit. -/
def data? (x : Float) : Option String :=
  match classify x with
  | .finite negative b => some (signed negative (layout (-5) (shortest b .even)))
  | _ => none

/-- The double nearest to `digits * 10 ^ exponent`. -/
def nearest (digits : Nat) (exponent : Int) : Float :=
  if digits = 0 then 0.0
  else
    let size := (natChars digits).length
    if exponent + size < -400 then 0.0
    else if 400 < exponent + size then 1.0 / 0.0
    else Float.ofScientific digits (exponent < 0) exponent.natAbs

end Pipeline.Text.Decimal
