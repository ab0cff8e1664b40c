import Pipeline.Fault.Reading
import Pipeline.Yaml.Node.OfTokens
import Pipeline.Yaml.Plain

/-!
# Reading values from the tree of a YAML text

Readers go through the tree from the top, so that the first fault they meet is the one reported.
A section of named fields refuses unknown and repeated names; a section with a free choice of names
refuses repeated ones.
-/

set_option autoImplicit false
set_option relaxedAutoImplicit false

namespace Pipeline.Yaml

/-- The outcome of reading. -/
abbrev Read (α : Type) := Except ReadFault α

/-- The tag of a standard sort of scalars. -/
def coreTag (name : String) : String := "tag:yaml.org,2002:" ++ name

/-- True for a tag of the text's own making. -/
def isLocal : Option String → Bool
  | some tag => Text.startsWith "!" tag
  | none => false

/-- The name of a local tag, without its mark. -/
def localName? (tag : Option String) : Option String := tag.bind (Text.stripStart? "!")

/-- What a scalar without a tag stands for. -/
def untaggedScalar (style : Style) (text : String) : Plain :=
  if style = .plain then Plain.ofText text else .str text

/-- What a scalar stands for, if its tag is not a local one. -/
def scalarValue (tag : Option String) (style : Style) (text : String) : Read Plain :=
  let orInvalid (read : Option Plain) : Read Plain :=
    match read with
    | some p => .ok p
    | none => .error .invalidValue
  match tag with
  | none => .ok (untaggedScalar style text)
  | some t =>
    if t = coreTag "bool" then orInvalid ((Plain.bool? text).map .bool)
    else if t = coreTag "int" then orInvalid ((Plain.int? text.toList).bind Plain.ofInt?)
    else if t = coreTag "float" then orInvalid ((Plain.float? text.toList).map .float)
    else if t = coreTag "null" then orInvalid (if Plain.isNull text then some .null else none)
    else .ok (.str text)

namespace Node

/-- Reads a text: a scalar of any sort is taken as it is written. -/
def asText : Node → Read String
  | scalar _ _ text => .ok text
  | broken => .error .syntactic
  | _ => .error .invalidType

/-- True for a scalar that is taken by its spelling. -/
def isSpelled (tag : Option String) (style : Style) (sort : String) : Bool :=
  style = .plain || (style = .literal && tag = some (coreTag sort))

/-- Reads a boolean. -/
def asBool : Node → Read Bool
  | scalar tag style text =>
    match if isSpelled tag style "bool" then Plain.bool? text else none with
    | some b => .ok b
    | none => .error .invalidType
  | broken => .error .syntactic
  | _ => .error .invalidType

/-- True for a plain scalar without any character, which reads as an empty collection. -/
def isVoid : Node → Bool
  | scalar _ style text => style = .plain && text = ""
  | _ => false

/-- Reads a list. -/
def asList {α : Type} (read : Node → Read α) : Node → Read (List α)
  | sequence _ items => items.mapM read
  | broken => .error .syntactic
  | node => if node.isVoid then .ok [] else .error .invalidType

/-- True for a scalar that stands for an absent value. -/
def isAbsent (tag : Option String) (style : Style) (text : String) : Read Bool :=
  if style ≠ .plain then .ok false
  else
    match tag with
    | none => .ok (text = "" || Plain.isNull text)
    | some t =>
      if t ≠ coreTag "null" then .ok false
      else if Plain.isNull text then .ok true
      else .error .invalidValue

/-- Reads a value that may be absent. -/
def asOption {α : Type} (read : Node → Read α) : Node → Read (Option α)
  | scalar tag style text => do
    if ← isAbsent tag style text then return none
    return some (← read (scalar tag style text))
  | node => some <$> read node

/-- Reads named values from the top; `seen` are the names read before. -/
def namedValues {α : Type} (read : Node → Read α) :
    List String → List (Node × Node) → Read (List (String × α))
  | _, [] => .ok []
  | seen, (key, value) :: rest => do
    let name ← key.asText
    let a ← read value
    if seen.contains name then .error (.duplicateEntry name)
    else return (name, a) :: (← namedValues read (name :: seen) rest)

/-- Reads a section with a free choice of names; null is an empty one. -/
def asNamed {α : Type} (read : Node → Read α) : Node → Read (List (String × α))
  | mapping tag entries => if isLocal tag then .error .invalidType else namedValues read [] entries
  | scalar tag style text =>
    if isLocal tag then .error .invalidType
    else do
      match ← scalarValue tag style text with
      | .null => return []
      | _ => .error .invalidType
  | sequence _ _ => .error .invalidType
  | broken => .error .syntactic

/-- Reads fields into a record from the top. `canonical?` knows every spelling of the name of a
field; `seen` are the names of the fields read before. -/
def fieldValues {σ : Type} (canonical? : String → Option String)
    (read : String → Node → σ → Read σ) :
    List String → List (Node × Node) → σ → Read (List String × σ)
  | seen, [], record => .ok (seen, record)
  | seen, (key, value) :: rest, record => do
    let written ← key.asText
    match canonical? written with
    | none => .error (.unknownField written)
    | some name =>
      if seen.contains name then .error (.duplicateField name)
      else fieldValues canonical? read (name :: seen) rest (← read name value record)

/-- Reads a section of named fields; those of `required` must be there. -/
def asRecord {σ : Type} (required : List String) (canonical? : String → Option String)
    (read : String → Node → σ → Read σ) (start : σ) (node : Node) : Read σ := do
  let (seen, record) ← match node with
    | mapping _ entries => fieldValues canonical? read [] entries start
    | broken => .error .syntactic
    | node => if node.isVoid then .ok ([], start) else .error .invalidType
  match required.find? fun name => !seen.contains name with
  | some name => .error (.missingField name)
  | none => return record

/-- Knows the names of a list, and no other spelling of them. -/
def oneOf (names : List String) (written : String) : Option String :=
  if names.contains written then some written else none

/-- Reads one of several words; a tag may stand for the word if nothing else is there. -/
def asChoice {α : Type} (choose? : String → Option α) (node : Node) : Read α :=
  let choose (word : String) : Read α :=
    match choose? word with
    | some a => .ok a
    | none => .error (.unknownVariant word)
  let tagged (tag : Option String) (isBare : Bool) : Read α :=
    match localName? tag with
    | none => .error .invalidType
    | some word => do
      let a ← choose word
      if isBare then return a else .error .invalidType
  match node with
  | scalar tag style text =>
    if isLocal tag then tagged tag (style = .plain && (text = "" || Plain.isNull text))
    else choose text
  | sequence tag _ => tagged tag false
  | mapping tag _ => tagged tag false
  | broken => .error .syntactic

end Node

/-- A value taken as it stands, before it is known what is wanted. -/
inductive Content where
  | null
  | bool (b : Bool)
  | int (n : Int)
  | float (x : Float)
  | str (s : String)
  | seq (items : List Content)
  | map (entries : List (Content × Content))
deriving Repr, Inhabited

namespace Content

/-- Takes a scalar as it stands; there is no room for integers of more than 64 bits. -/
def ofScalar (tag : Option String) (style : Style) (text : String) : Read Content :=
  if isLocal tag then .error .syntactic
  else do
    match ← scalarValue tag style text with
    | .null => return null
    | .bool b => return bool b
    | .int n => return int n
    | .wide _ => .error .invalidType
    | .float x => return float x
    | .str s => return str s

mutual

/-- Takes a node as it stands; there is no room for local tags. -/
def ofNode : Node → Read Content
  | .scalar tag style text => ofScalar tag style text
  | .sequence tag items =>
    if isLocal tag then .error .syntactic else do return seq (← ofItems items)
  | .mapping tag entries =>
    if isLocal tag then .error .syntactic else do return map (← ofEntries entries)
  | .broken => .error .syntactic

/-- Takes items as they stand. -/
def ofItems : List Node → Read (List Content)
  | [] => .ok []
  | item :: rest => do
    let c ← ofNode item
    return c :: (← ofItems rest)

/-- Takes entries as they stand. -/
def ofEntries : List (Node × Node) → Read (List (Content × Content))
  | [] => .ok []
  | (key, value) :: rest => do
    let k ← ofNode key
    let v ← ofNode value
    return (k, v) :: (← ofEntries rest)

end

/-- A text. -/
def text? : Content → Option String
  | str s => some s
  | _ => none

/-- A text that may be absent. -/
def optional? {α : Type} (read : Content → Option α) : Content → Option (Option α)
  | null => some none
  | c => (read c).map some

/-- The name of a field, which may be given by its position among `names`; an unknown name is
empty. -/
def fieldName? (names : List String) : Content → Option String
  | str s => some (if names.contains s then s else "")
  | int n => if n < 0 then none else some ((names[n.toNat]?).getD "")
  | _ => none

/-- The values of the fields of a record. Unknown names are passed over and repeated ones
refused. -/
def fields? (names : List String) : List (Content × Content) → Option (List (String × Content))
  | [] => some []
  | (key, value) :: rest => do
    let name ← fieldName? names key
    let more ← fields? names rest
    if name = "" then return more
    else if more.any (·.1 == name) then none
    else return (name, value) :: more

/-- The value of a field. -/
def field? (name : String) (fields : List (String × Content)) : Option Content :=
  (fields.find? (·.1 == name)).map (·.2)

/-- The value of a field that may be left out. -/
def fieldOr {α : Type} (other : α) (read : Content → Option α) (name : String)
    (fields : List (String × Content)) : Option α :=
  match field? name fields with
  | some c => read c
  | none => some other

end Content
end Pipeline.Yaml
