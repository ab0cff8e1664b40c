import Pipeline.Text.Path

/-!
# Documents

A document declares types, traits, impls and extensions, or a component, or a pipeline of named
bindings. Types, signatures and expressions are texts here; a store reads them.
-/

set_option autoImplicit false
set_option relaxedAutoImplicit false

namespace Pipeline

/-- What a document is about. -/
inductive DocumentKind where
  /-- A pipeline. -/
  | main
  | source
  | sink
  | transform
  | feeder
  /-- Declarations only. -/
  | struct
deriving DecidableEq, Repr, Inhabited

namespace DocumentKind

/-- The word for a kind. -/
def text : DocumentKind → String
  | main => "main"
  | source => "source"
  | sink => "sink"
  | transform => "transform"
  | feeder => "feeder"
  | struct => "struct"

/-- The kind of a word. -/
def ofText? (word : String) : Option DocumentKind :=
  [main, source, sink, transform, feeder, struct].find? fun k => k.text == word

end DocumentKind

/-- The version of documents that can be loaded. -/
def supportedVersion : String := "0.1"

/-- A written check. -/
structure CheckEntry where
  source : String
  explain : Option String
deriving DecidableEq, Repr, Inhabited

/-- A written parameter of a component. -/
structure ParamEntry where
  ty : String
  default : Option String
  checks : List CheckEntry
  explain : Option String
deriving DecidableEq, Repr, Inhabited

/-- A written column of the items of a source. -/
structure ColumnEntry where
  ty : String
  checks : List CheckEntry
  explain : Option String
deriving DecidableEq, Repr, Inhabited

/-- A written field of a struct. -/
inductive FieldEntry where
  /-- Only the type. -/
  | short (ty : String)
  | full (ty : String) (isPrivate : Bool) (explain : Option String)
deriving DecidableEq, Repr, Inhabited

namespace FieldEntry

/-- The type of a field. -/
def ty : FieldEntry → String
  | short ty => ty
  | full ty _ _ => ty

/-- True for a private field. -/
def isPrivate : FieldEntry → Bool
  | short _ => false
  | full _ isPrivate _ => isPrivate

/-- The explanation of a field. -/
def explain : FieldEntry → Option String
  | short _ => none
  | full _ _ explain => explain

end FieldEntry

/-- A written type. -/
structure TypeEntry where
  generics : List String
  fields : List (String × FieldEntry)
  variants : List String
  inner : Option String
  synonym : Option String
  explain : Option String
deriving DecidableEq, Repr, Inhabited

/-- A written method of a trait. -/
structure MethodEntry where
  sig : String
  default : Option String
deriving DecidableEq, Repr, Inhabited

/-- A written specialization. -/
structure SpecializationEntry where
  target : String
  defaults : List (String × String)
deriving DecidableEq, Repr, Inhabited

/-- A written trait. -/
structure TraitEntry where
  generics : List String
  assoc : List (String × Option String)
  methods : List MethodEntry
  specialization : Option SpecializationEntry
  explain : Option String
deriving DecidableEq, Repr, Inhabited

/-- A written impl. A method is keyed by its name or by its whole signature. -/
structure ImplEntry where
  target : String
  traitRef : Option String
  generics : List String
  bounds : List String
  assoc : List (String × String)
  methods : List (String × String)
  isConst : Bool
  explain : Option String
deriving DecidableEq, Repr, Inhabited

/-- A written extension. -/
structure ExtensionEntry where
  target : String
  generics : List String
  bounds : List String
  methods : List (String × String)
  explain : Option String
deriving DecidableEq, Repr, Inhabited

/-- A written value of a field of a binding. -/
inductive RawValue where
  | null
  | bool (b : Bool)
  | int (n : Int)
  | float (x : Float)
  | str (s : String)
  | seq (items : List RawValue)
  | map (entries : List (RawValue × RawValue))
  | tagged (tag : String) (value : RawValue)
deriving Repr, Inhabited

/-- The text of a key of a mapping, whatever its tags. -/
def RawValue.keyText? : RawValue → Option String
  | str s => some s
  | tagged _ v => v.keyText?
  | _ => none

/-- What a binding is made of. -/
inductive BindingBody where
  | fields (values : List (String × RawValue))
  /-- Code of the host. -/
  | host (code : String)
deriving Repr, Inhabited

/-- A written binding. -/
structure BindingEntry where
  ty : String
  body : BindingBody
deriving Repr, Inhabited

/-- A document. -/
structure Document where
  module : String
  /-- Where the document comes from. -/
  origin : String
  version : String
  kind : DocumentKind
  uses : List String := []
  /-- The name given to the document, if any. -/
  givenName : Option String := none
  explain : Option String := none
  generics : List String := []
  input : Option String := none
  output : Option String := none
  item : Option String := none
  params : List (String × ParamEntry) := []
  checks : List CheckEntry := []
  columns : List (String × ColumnEntry) := []
  columnChecks : List CheckEntry := []
  types : List (String × TypeEntry) := []
  traits : List (String × TraitEntry) := []
  impls : List ImplEntry := []
  extensions : List (String × ExtensionEntry) := []
  bindings : List (String × BindingEntry) := []
  pipes : List String := []
deriving Repr, Inhabited

namespace Document

/-- The name of a document: the one given to it, or the last segment of its module. -/
def name (d : Document) : String := d.givenName.getD (Path.last d.module)

end Document
end Pipeline
