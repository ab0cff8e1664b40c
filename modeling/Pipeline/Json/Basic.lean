import Pipeline.Text.Decimal

/-!
# JSON values and their texts

Objects keep the order of their entries. A float that is not finite is written as null.
-/

set_option autoImplicit false
set_option relaxedAutoImplicit false

namespace Pipeline

/-- A JSON value. -/
inductive Json where
  | null
  | bool (b : Bool)
  | int (n : Int)
  | float (x : Float)
  | str (s : String)
  | arr (items : List Json)
  | obj (entries : List (String × Json))
deriving Repr, Inhabited

namespace Json

/-- How one character is written inside a string. -/
def escape (c : Char) : List Char :=
  if c = '"' then ['\\', '"']
  else if c = '\\' then ['\\', '\\']
  else if c = '\n' then ['\\', 'n']
  else if c = '\r' then ['\\', 'r']
  else if c = '\t' then ['\\', 't']
  else if c.toNat = 8 then ['\\', 'b']
  else if c.toNat = 12 then ['\\', 'f']
  else if c.toNat < 32 then
    ['\\', 'u', '0', '0', Nat.digitChar (c.toNat / 16), Nat.digitChar (c.toNat % 16)]
  else [c]

/-- A string between quotes. -/
def quote (s : String) : String :=
  String.ofList ('"' :: (s.toList.flatMap escape ++ ['"']))

/-- The text of a value that holds no other value. -/
def scalarText : Json → String
  | .null => "null"
  | .bool b => if b then "true" else "false"
  | .int n => Text.intText n
  | .float x => (Text.Decimal.data? x).getD "null"
  | .str s => quote s
  | .arr _ => "[]"
  | .obj _ => "\x7b\x7d"

mutual

/-- The text of a value without any blank. -/
def compact : Json → String
  | .arr items => "[" ++ compactItems items ++ "]"
  | .obj entries => "\x7b" ++ compactEntries entries ++ "\x7d"
  | v => scalarText v

/-- The items with commas between them. -/
def compactItems : List Json → String
  | [] => ""
  | [v] => compact v
  | v :: w :: rest => compact v ++ "," ++ compactItems (w :: rest)

/-- The entries with commas between them. -/
def compactEntries : List (String × Json) → String
  | [] => ""
  | [(k, v)] => quote k ++ ":" ++ compact v
  | (k, v) :: e :: rest => quote k ++ ":" ++ compact v ++ "," ++ compactEntries (e :: rest)

end

/-- Two blanks for each level. -/
def indent (level : Nat) : String := String.ofList (List.replicate (2 * level) ' ')

mutual

/-- The text of a value with one item or entry on a line. -/
def pretty (level : Nat) : Json → String
  | .arr (v :: rest) => "[\n" ++ prettyItems (level + 1) (v :: rest) ++ "\n" ++ indent level ++ "]"
  | .obj (e :: rest) =>
    "\x7b\n" ++ prettyEntries (level + 1) (e :: rest) ++ "\n" ++ indent level ++ "\x7d"
  | v => scalarText v

/-- The items, each on a line of its own. -/
def prettyItems (level : Nat) : List Json → String
  | [] => ""
  | [v] => indent level ++ pretty level v
  | v :: w :: rest => indent level ++ pretty level v ++ ",\n" ++ prettyItems level (w :: rest)

/-- The entries, each on a line of its own. -/
def prettyEntries (level : Nat) : List (String × Json) → String
  | [] => ""
  | [(k, v)] => indent level ++ quote k ++ ": " ++ pretty level v
  | (k, v) :: e :: rest =>
    indent level ++ quote k ++ ": " ++ pretty level v ++ ",\n" ++ prettyEntries level (e :: rest)

end

/-- The first entry of an object under a key. -/
def get? (key : String) : Json → Option Json
  | .obj entries => (entries.find? fun e => e.1 == key).map (·.2)
  | _ => none

end Json
end Pipeline
