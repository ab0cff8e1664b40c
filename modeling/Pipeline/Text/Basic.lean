/-!
# Texts as lists of characters

Blanks, byte offsets and separators, the vocabulary that the readers of this library share.
Offsets count the bytes of the UTF-8 form of a text.
-/

set_option autoImplicit false
set_option relaxedAutoImplicit false

namespace Pipeline.Text

/-- The characters with the Unicode property White_Space. -/
def isBlank (c : Char) : Bool :=
  let n := c.toNat
  (9 ≤ n && n ≤ 13) || n = 0x20 || n = 0x85 || n = 0xA0 || n = 0x1680 ||
    (0x2000 ≤ n && n ≤ 0x200A) || n = 0x2028 || n = 0x2029 || n = 0x202F || n = 0x205F ||
    n = 0x3000

/-- The text without the blanks at both ends. -/
def trimChars (cs : List Char) : List Char :=
  ((cs.dropWhile isBlank).reverse.dropWhile isBlank).reverse

/-- The text without the blanks at both ends. -/
def trim (s : String) : String :=
  String.ofList (trimChars s.toList)

/-- The number of bytes of a list of characters. -/
def byteLength : List Char → Nat
  | [] => 0
  | c :: cs => c.utf8Size + byteLength cs

/-- Drops characters until `n` bytes are gone. -/
def dropBytes : Nat → List Char → List Char
  | _, [] => []
  | n, c :: cs => if n = 0 then c :: cs else dropBytes (n - c.utf8Size) cs

/-- Keeps characters until `n` bytes are taken. -/
def takeBytes : Nat → List Char → List Char
  | _, [] => []
  | n, c :: cs => if n = 0 then [] else c :: takeBytes (n - c.utf8Size) cs

/-- The characters between two byte offsets. -/
def slice (cs : List Char) (start stop : Nat) : List Char :=
  takeBytes (stop - start) (dropBytes start cs)

/-- The rest of a list after a given beginning, if it begins so. -/
def dropStart? {α : Type} [BEq α] : List α → List α → Option (List α)
  | [], xs => some xs
  | _ :: _, [] => none
  | p :: ps, x :: xs => if p == x then dropStart? ps xs else none

/-- The rest of a text after a given beginning, if it begins so. -/
def stripStart? (start s : String) : Option String :=
  (dropStart? start.toList s.toList).map String.ofList

/-- The text before a given ending, if it ends so. -/
def stripEnd? (ending s : String) : Option String :=
  (dropStart? ending.toList.reverse s.toList.reverse).map fun cs => String.ofList cs.reverse

/-- True when the text begins with `start`. -/
def startsWith (start s : String) : Bool :=
  (dropStart? start.toList s.toList).isSome

/-- True when the text ends with `ending`. -/
def endsWith (ending s : String) : Bool :=
  (dropStart? ending.toList.reverse s.toList.reverse).isSome

/-- True when `part` stands somewhere in the list. -/
def occurs (part : List Char) : List Char → Bool
  | [] => part.isEmpty
  | c :: cs => (dropStart? part (c :: cs)).isSome || occurs part cs

/-- True when `part` stands somewhere in the text. -/
def contains (part s : String) : Bool :=
  occurs part.toList s.toList

/-- Splits at a nonempty separator, scanning from the left; `skip` characters of a separator just
met are passed over and `piece` holds the current piece, last character first. -/
def splitFrom (sep : List Char) (skip : Nat) (piece : List Char) : List Char → List (List Char)
  | [] => [piece.reverse]
  | c :: cs =>
    match skip with
    | k + 1 => splitFrom sep k piece cs
    | 0 =>
      if (dropStart? sep (c :: cs)).isSome then
        piece.reverse :: splitFrom sep (sep.length - 1) [] cs
      else splitFrom sep 0 (c :: piece) cs

/-- The pieces of a text between the occurrences of a nonempty separator. -/
def split (sep s : String) : List String :=
  (splitFrom sep.toList 0 [] s.toList).map String.ofList

/-- The texts with a separator between neighbours. -/
def join (sep : String) : List String → String
  | [] => ""
  | [s] => s
  | s :: t :: rest => s ++ sep ++ join sep (t :: rest)

/-- The decimal digit a value below ten is written as. -/
def digitChar (n : Nat) : Char := Char.ofNat (48 + n % 10)

/-- The decimal digits of a number, most significant first. -/
def natChars (n : Nat) : List Char := Nat.toDigits 10 n

/-- A number in decimal. -/
def natText (n : Nat) : String := String.ofList (natChars n)

/-- An integer in decimal, with a minus sign when it is negative. -/
def intText (n : Int) : String :=
  if n < 0 then "-" ++ natText n.natAbs else natText n.natAbs

/-- The value of a list of decimal digits. -/
def digitsValue (cs : List Char) : Nat :=
  cs.foldl (fun n c => 10 * n + (c.toNat - 48)) 0

/-- A power of two. -/
def twoTo (n : Nat) : Nat := Nat.pow 2 n

/-- A power of ten. -/
def tenTo (n : Nat) : Nat := Nat.pow 10 n

/-- True for the ten ASCII digits. -/
def isDigit (c : Char) : Bool := '0' ≤ c && c ≤ '9'

/-- The value of a hexadecimal digit. -/
def hexValue? (c : Char) : Option Nat :=
  if '0' ≤ c && c ≤ '9' then some (c.toNat - 48)
  else if 'a' ≤ c && c ≤ 'f' then some (c.toNat - 87)
  else if 'A' ≤ c && c ≤ 'F' then some (c.toNat - 55)
  else none

end Pipeline.Text
