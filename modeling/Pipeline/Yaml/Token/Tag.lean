import Pipeline.Yaml.Token.Basic

/-!
# Tags, anchors and directives of a YAML text
-/

set_option autoImplicit false
set_option relaxedAutoImplicit false

namespace Pipeline.Yaml

open Cells

/-- True for a letter, a digit, an underscore or a hyphen. -/
def isWordChar (c : Char) : Bool :=
  ('0' ≤ c && c ≤ '9') || ('A' ≤ c && c ≤ 'Z') || ('a' ≤ c && c ≤ 'z') || c = '_' || c = '-'

/-- True for a character of a tag; a tag between angle brackets may hold a few more. -/
def isTagChar (verbatim : Bool) (c : Char) : Bool :=
  isWordChar c || ";/?:@&=+$.!~*'()".toList.contains c || (verbatim && [',', '[', ']'].contains c)

/-- The byte written as a percent sign and two hexadecimal digits at the front. -/
def escapedByte? (cells : List Cell) : Option UInt8 :=
  if front cells = '%' then do
    let high ← Text.hexValue? (charAt cells 1)
    let low ← Text.hexValue? (charAt cells 2)
    return UInt8.ofNat (16 * high + low)
  else none

/-- Reads escaped bytes. -/
def escapedBytes : Nat → List Cell → List UInt8 × List Cell
  | 0, cells => ([], cells)
  | fuel + 1, cells =>
    match escapedByte? cells with
    | none => ([], cells)
    | some b =>
      let (bytes, rest) := escapedBytes fuel (cells.drop 3)
      (b :: bytes, rest)

/-- Reads the characters of a tag, escaped ones included. -/
def tagChars (verbatim : Bool) : Nat → List Cell → Option (List Char × List Cell)
  | 0, cells => some ([], cells)
  | fuel + 1, cells => do
    let c := front cells
    if c = '%' then
      let (bytes, rest) := escapedBytes cells.length cells
      let text ← String.fromUTF8? ⟨bytes.toArray⟩
      if bytes.isEmpty then none
      else
        let (more, rest) ← tagChars verbatim fuel rest
        return (text.toList ++ more, rest)
    else if isTagChar verbatim c then
      let (more, rest) ← tagChars verbatim fuel (cells.drop 1)
      return (c :: more, rest)
    else return ([], cells)

/-- Reads a tag without its handle; empty ones are refused. -/
def tagSuffix (verbatim : Bool) (cells : List Cell) : Option (String × List Cell) := do
  let (text, rest) ← tagChars verbatim cells.length cells
  if text.isEmpty then none else return (String.ofList text, rest)

/-- Reads an exclamation mark, a word and perhaps a second exclamation mark. -/
def tagHandle (cells : List Cell) : Option (List Char × List Cell) :=
  if front cells = '!' then
    let (word, rest) := span isWordChar (cells.drop 1)
    if front rest = '!' then some ('!' :: word ++ ['!'], rest.drop 1)
    else some ('!' :: word, rest)
  else none

/-- Reads a tag that does not stand between angle brackets. -/
def shorthandTag (cells : List Cell) : Option (Token × List Cell) := do
  let (handle, rest) ← tagHandle cells
  if 2 ≤ handle.length && handle.getLast? = some '!' then
    let (suffix, rest) ← tagSuffix false rest
    return (.tag (String.ofList handle) suffix, rest)
  else
    let (more, rest) ← tagChars false rest.length rest
    let suffix := handle.drop 1 ++ more
    if suffix.isEmpty then return (.tag "" "!", rest)
    else return (.tag "!" (String.ofList suffix), rest)

/-- Reads a tag between angle brackets. -/
def verbatimTag (cells : List Cell) : Option (Token × List Cell) := do
  let (suffix, rest) ← tagSuffix true (cells.drop 2)
  if front rest = '>' then return (.tag "" suffix, rest.drop 1) else none

/-- Reads a tag. -/
def tagToken (inFlow : Bool) (cells : List Cell) : Option (Token × List Cell) := do
  let (token, rest) ← if charAt cells 1 = '<' then verbatimTag cells else shorthandTag cells
  if isGap (front rest) || (inFlow && front rest = ',') then return (token, rest) else none

/-- Reads the name of an anchor or of an alias behind its mark. -/
def anchorName (cells : List Cell) : Option (String × List Cell) :=
  let (name, rest) := span isWordChar (cells.drop 1)
  let next := front rest
  if !name.isEmpty && (isGap next || ['?', ':', ',', ']', '\x7d', '%', '@', '\x60'].contains next) then
    some (String.ofList name, rest)
  else none

/-- Reads a part of a version number. -/
def versionNumber (cells : List Cell) : Option (Nat × List Cell) :=
  let (digits, rest) := span Text.isDigit cells
  if digits.isEmpty || 9 < digits.length then none else some (Text.digitsValue digits, rest)

/-- Reads the version behind the name of its directive. -/
def versionDirective (cells : List Cell) : Option (Token × List Cell) := do
  let (major, rest) ← versionNumber (skip isWhite cells)
  if front rest = '.' then
    let (minor, rest) ← versionNumber (rest.drop 1)
    return (.versionDirective major minor, rest)
  else none

/-- Reads the handle and the expansion behind the name of their directive. -/
def tagDirective (cells : List Cell) : Option (Token × List Cell) := do
  let (handle, rest) ← tagHandle (skip isWhite cells)
  if (handle.getLast? = some '!') && isWhite (front rest) then
    let (expansion, rest) ← tagSuffix true (skip isWhite rest)
    if isGap (front rest) then return (.tagDirective (String.ofList handle) expansion, rest)
    else none
  else none

/-- Reads a directive with the rest of its line. -/
def directive (cells : List Cell) : Option (Token × List Cell) := do
  let (name, rest) := span isWordChar (cells.drop 1)
  if !isGap (front rest) then none
  else
    let (token, rest) ←
      if name = "YAML".toList then versionDirective rest
      else if name = "TAG".toList then tagDirective rest
      else none
    let rest := skipComment rest
    if isBreak (front rest) then return (token, rest.drop 1)
    else if front rest = endChar then return (token, rest)
    else none

end Pipeline.Yaml
