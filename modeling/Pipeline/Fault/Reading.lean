import Pipeline.Text.Basic

/-!
# Faults of reading a document
-/

set_option autoImplicit false
set_option relaxedAutoImplicit false

namespace Pipeline

/-- Why a text is not a document. -/
inductive ReadFault where
  /-- A binding with more or less than one type. -/
  | bindingEntries (found : Nat)
  | bindingNames
  | bindingValue
  /-- A name declared twice in one section. -/
  | duplicateEntry (name : String)
  /-- A key twice in a mapping of field values. -/
  | repeatedKey
  | missingField (name : String)
  | unknownField (name : String)
  | duplicateField (name : String)
  | unknownVariant (name : String)
  | noVariant
  | invalidType
  | invalidValue
  /-- A fault of the text itself, before it means anything. -/
  | syntactic
deriving DecidableEq, Repr

/-- The fault in words. -/
def ReadFault.text : ReadFault → String
  | bindingEntries found =>
    "a binding needs exactly one `Type: value` entry, found " ++ Text.natText found
  | bindingNames => "binding field names must be strings"
  | bindingValue => "a binding value must be a field mapping or host code"
  | duplicateEntry name => "duplicate entry `" ++ name ++ "`"
  | repeatedKey => "duplicate entry"
  | missingField name => "missing field `" ++ name ++ "`"
  | unknownField name => "unknown field `" ++ name ++ "`"
  | duplicateField name => "duplicate field `" ++ name ++ "`"
  | unknownVariant name => "unknown variant `" ++ name ++ "`"
  | noVariant => "data did not match any variant"
  | invalidType => "invalid type"
  | invalidValue => "invalid value"
  | syntactic => "syntax"

end Pipeline
