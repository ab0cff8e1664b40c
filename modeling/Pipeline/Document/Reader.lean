import Pipeline.Document.Basic
import Pipeline.Fault.Diagnostic
import Pipeline.Yaml.Read

/-!
# Reading documents

The sections of a document and what may stand in them. Several sections have more than one name.
-/

set_option autoImplicit false
set_option relaxedAutoImplicit false

namespace Pipeline

open Yaml

namespace Yaml.Content

/-- The text of an expression: a number or a boolean is written as a literal. An integer above the
greatest one of 64 bits with a sign is written as a float. -/
def expression? : Content → Option String
  | str s => some s
  | int n => some (if n < Text.twoTo 63 then Text.intText n
      else Text.Decimal.literal (Text.Decimal.nearest n.toNat 0))
  | float x => some (Text.Decimal.literal x)
  | bool b => some (if b then "true" else "false")
  | _ => none

/-- A boolean. -/
def bool? : Content → Option Bool
  | bool b => some b
  | _ => none

/-- A check with an explanation. -/
def explainedCheck? : Content → Option CheckEntry
  | map entries => do
    let fields ← fields? ["explain", "define"] entries
    let explain ← (← field? "explain" fields).text?
    let source ← (← field? "define" fields).expression?
    return ⟨source, some explain⟩
  | _ => none

/-- A check. -/
def check? (c : Content) : Option CheckEntry :=
  match c.explainedCheck? with
  | some check => some check
  | none => c.expression?.map fun source => ⟨source, none⟩

/-- One check or a list of them. -/
def checks? : Content → Option (List CheckEntry)
  | seq items => items.mapM check?
  | c => c.check?.map fun check => [check]

/-- A field of a struct. -/
def structField? : Content → Option FieldEntry
  | str ty => some (.short ty)
  | map entries => do
    let fields ← fields? ["type", "private", "explain"] entries
    let ty ← (← field? "type" fields).text?
    let isPrivate ← fieldOr false bool? "private" fields
    let explain ← fieldOr none (optional? text?) "explain" fields
    return .full ty isPrivate explain
  | _ => none

/-- A method of a trait. -/
def traitMethod? : Content → Option MethodEntry
  | str sig => some ⟨sig, none⟩
  | map entries => do
    let fields ← fields? ["sig", "default", "explain"] entries
    let sig ← (← field? "sig" fields).text?
    let default ← fieldOr none (optional? expression?) "default" fields
    let _ ← fieldOr none (optional? text?) "explain" fields
    return ⟨sig, default⟩
  | _ => none

/-- Reads a node in the first of several ways that fits. -/
def read {α : Type} (ways : Content → Option α) (node : Node) : Read α := do
  match ways (← ofNode node) with
  | some a => return a
  | none => .error .noVariant

end Yaml.Content

namespace RawValue

mutual

/-- True for equal keys of a mapping; a number is equal to itself even if it is none. -/
def same : RawValue → RawValue → Bool
  | null, null => true
  | bool a, bool b => a == b
  | int a, int b => a == b
  | float a, float b => a == b || (a.isNaN && b.isNaN)
  | str a, str b => a == b
  | seq as, seq bs => sameItems as bs
  | map as, map bs => as.length == bs.length && sameEntries as bs
  | tagged s a, tagged t b => s == t && same a b
  | _, _ => false
termination_by structural a => a

/-- True for lists that are equal item by item. -/
def sameItems : List RawValue → List RawValue → Bool
  | [], [] => true
  | a :: as, b :: bs => same a b && sameItems as bs
  | _, _ => false

/-- True when each entry of one mapping is an entry of the other. -/
def sameEntries : List (RawValue × RawValue) → List (RawValue × RawValue) → Bool
  | [], _ => true
  | (k, v) :: rest, other =>
    (other.any fun e => same k e.1 && same v e.2) && sameEntries rest other

end

/-- A scalar, once its tag was seen to. -/
def ofPlain : Plain → Read RawValue
  | .null => .ok null
  | .bool b => .ok (bool b)
  | .int n => .ok (int n)
  | .wide _ => .error .invalidType
  | .float x => .ok (float x)
  | .str s => .ok (str s)

/-- Puts a local tag around a value, which is read after it. A local tag needs a name. -/
def withTag (tag : Option String) (value : Read RawValue) : Read RawValue :=
  match localName? tag with
  | some name => if name.isEmpty then .error .syntactic else tagged ("!" ++ name) <$> value
  | none => value

mutual

/-- Reads a value as it is written. -/
def ofNode : Node → Read RawValue
  | .scalar tag style text =>
    withTag tag do
      ofPlain (← if isLocal tag then pure (untaggedScalar style text)
        else scalarValue tag style text)
  | .sequence tag items => withTag tag (seq <$> ofItems items)
  | .mapping tag entries => withTag tag (map <$> ofEntries [] entries)
  | .broken => .error .syntactic

/-- Reads items. -/
def ofItems : List Node → Read (List RawValue)
  | [] => .ok []
  | item :: rest => do
    let v ← ofNode item
    return v :: (← ofItems rest)

/-- Reads entries; `seen` are the keys read before. -/
def ofEntries (seen : List RawValue) : List (Node × Node) → Read (List (RawValue × RawValue))
  | [] => .ok []
  | (key, value) :: rest => do
    let k ← ofNode key
    if seen.any (same k) then .error .repeatedKey
    else
      let v ← ofNode value
      return (k, v) :: (← ofEntries (k :: seen) rest)

end

end RawValue

namespace BindingEntry

/-- The field values of a mapping. -/
def fieldsOf : List (RawValue × RawValue) → Read (List (String × RawValue))
  | [] => .ok []
  | (key, value) :: rest =>
    match key.keyText? with
    | some name => do return (name, value) :: (← fieldsOf rest)
    | none => .error .bindingNames

/-- Reads what a binding is made of. -/
def bodyOf : RawValue → Read BindingBody
  | .str code => .ok (.host code)
  | .null => .ok (.fields [])
  | .map entries => .fields <$> fieldsOf entries
  | _ => .error .bindingValue

/-- Reads a binding: one type with what it is made of. -/
def read (node : Node) : Read BindingEntry := do
  match ← node.asNamed RawValue.ofNode with
  | [(ty, value)] => return ⟨ty, ← bodyOf value⟩
  | entries => .error (.bindingEntries entries.length)

end BindingEntry

namespace Document

/-- Reads a list of texts. -/
def texts (node : Node) : Read (List String) := node.asList Node.asText

/-- Reads a text that may be absent. -/
def optText (node : Node) : Read (Option String) := node.asOption Node.asText

/-- Reads expressions by their names. -/
def bodies (node : Node) : Read (List (String × String)) :=
  node.asNamed (Content.read Content.expression?)

/-- Reads one check, a list of them, or none. -/
def checkList (node : Node) : Read (List CheckEntry) := do
  return (← node.asOption (Content.read Content.checks?)).getD []

/-- Knows two names for a list of checks. -/
def checkSpelling (names : List String) (written : String) : Option String :=
  if written = "checks" then some "check" else Node.oneOf names written

/-- Reads a parameter. -/
def param (node : Node) : Read ParamEntry :=
  node.asRecord ["type"] (checkSpelling ["type", "default", "check", "explain"])
    (fun name v e => do
      match name with
      | "type" => return { e with ty := ← v.asText }
      | "default" => return { e with default := ← v.asOption (Content.read Content.expression?) }
      | "check" => return { e with checks := ← checkList v }
      | _ => return { e with explain := ← optText v })
    default

/-- Reads a column. -/
def column (node : Node) : Read ColumnEntry :=
  node.asRecord ["type"] (checkSpelling ["type", "check", "explain"])
    (fun name v e => do
      match name with
      | "type" => return { e with ty := ← v.asText }
      | "check" => return { e with checks := ← checkList v }
      | _ => return { e with explain := ← optText v })
    default

/-- Reads a type. -/
def type (node : Node) : Read TypeEntry :=
  node.asRecord [] (Node.oneOf ["generics", "fields", "variants", "inner", "alias", "explain"])
    (fun name v e => do
      match name with
      | "generics" => return { e with generics := ← texts v }
      | "fields" => return { e with fields := ← v.asNamed (Content.read Content.structField?) }
      | "variants" => return { e with variants := ← texts v }
      | "inner" => return { e with inner := ← optText v }
      | "alias" => return { e with synonym := ← optText v }
      | _ => return { e with explain := ← optText v })
    default

/-- Reads a specialization. -/
def specialization (node : Node) : Read SpecializationEntry :=
  node.asRecord ["of"] (Node.oneOf ["of", "defaults"])
    (fun name v e => do
      match name with
      | "of" => return { e with target := ← v.asText }
      | _ => return { e with defaults := ← bodies v })
    default

/-- Reads a trait. -/
def trait (node : Node) : Read TraitEntry :=
  node.asRecord [] (Node.oneOf ["generics", "assoc", "methods", "specialization", "explain"])
    (fun name v e => do
      match name with
      | "generics" => return { e with generics := ← texts v }
      | "assoc" => return { e with assoc := ← v.asNamed optText }
      | "methods" => return { e with methods := ← v.asList (Content.read Content.traitMethod?) }
      | "specialization" => return { e with specialization := ← v.asOption specialization }
      | _ => return { e with explain := ← optText v })
    default

/-- Reads an impl. -/
def impl (node : Node) : Read ImplEntry :=
  node.asRecord ["for"]
    (Node.oneOf ["for", "trait", "generics", "where", "assoc", "methods", "const", "explain"])
    (fun name v e => do
      match name with
      | "for" => return { e with target := ← v.asText }
      | "trait" => return { e with traitRef := ← optText v }
      | "generics" => return { e with generics := ← texts v }
      | "where" => return { e with bounds := ← texts v }
      | "assoc" => return { e with assoc := ← v.asNamed Node.asText }
      | "methods" => return { e with methods := ← bodies v }
      | "const" => return { e with isConst := ← v.asBool }
      | _ => return { e with explain := ← optText v })
    default

/-- Reads an extension. -/
def extension (node : Node) : Read ExtensionEntry :=
  node.asRecord ["for"] (Node.oneOf ["for", "generics", "where", "methods", "explain"])
    (fun name v e => do
      match name with
      | "for" => return { e with target := ← v.asText }
      | "generics" => return { e with generics := ← texts v }
      | "where" => return { e with bounds := ← texts v }
      | "methods" => return { e with methods := ← bodies v }
      | _ => return { e with explain := ← optText v })
    default

/-- Reads the head of a document, which may name another module. -/
def header (node : Node) (d : Document) : Read Document :=
  node.asRecord ["version", "type"] (Node.oneOf ["version", "type", "use", "module"])
    (fun name v d => do
      match name with
      | "version" => return { d with version := ← v.asText }
      | "type" => return { d with kind := ← v.asChoice DocumentKind.ofText? }
      | "use" => return { d with uses := ← texts v }
      | _ => return { d with module := (← optText v).getD d.module })
    d

/-- The sections of a document under each of their names. -/
def sectionName? (written : String) : Option String :=
  if ["param", "filters", "filter"].contains written then some "params"
  else if ["check", "filter_check", "filter_checks"].contains written then some "checks"
  else if written = "column" then some "columns"
  else if written = "column_check" then some "column_checks"
  else if written = "pipes" then some "pipe"
  else
    Node.oneOf ["permute", "name", "explain", "generics", "input", "output", "item", "params",
      "checks", "columns", "column_checks", "types", "traits", "impls", "extensions", "let",
      "pipe"] written

/-- Reads a section into a document. -/
def readSection (name : String) (v : Node) (d : Document) : Read Document := do
  match name with
  | "permute" => header v d
  | "name" => return { d with givenName := ← optText v }
  | "explain" => return { d with explain := ← optText v }
  | "generics" => return { d with generics := ← texts v }
  | "input" => return { d with input := ← optText v }
  | "output" => return { d with output := ← optText v }
  | "item" => return { d with item := ← optText v }
  | "params" => return { d with params := ← v.asNamed param }
  | "checks" => return { d with checks := ← checkList v }
  | "columns" => return { d with columns := ← v.asNamed column }
  | "column_checks" => return { d with columnChecks := ← checkList v }
  | "types" => return { d with types := ← v.asNamed type }
  | "traits" => return { d with traits := ← v.asNamed trait }
  | "impls" => return { d with impls := ← v.asList impl }
  | "extensions" => return { d with extensions := ← v.asNamed extension }
  | "let" => return { d with bindings := ← v.asNamed BindingEntry.read }
  | _ => return { d with pipes := ← texts v }

/-- How deep collections may stand inside one another. -/
def maxNesting : Nat := 128

/-- Reads a text as a document of a module, unless the document names another module itself. -/
def read (module origin text : String) : Read Document := do
  let source := Source.ofText text
  let start : Document := { module := module, origin := origin, version := "", kind := .struct }
  let d ← (source.root.limit maxNesting).asRecord ["permute"] sectionName? readSection start
  if source.closed then return d else .error .syntactic

/-- Reads a text as a document; a fault is reported for the document as a whole. -/
def parse (module origin text : String) : Except Diagnostic Document :=
  match read module origin text with
  | .ok d => .ok d
  | .error fault => .error ⟨Location.ofDocument origin, .parse fault⟩

end Document
end Pipeline
