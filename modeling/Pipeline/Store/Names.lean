import Pipeline.Decl.Basic
import Pipeline.Document.Basic
import Pipeline.Fault.Diagnostic
import Pipeline.Scope.Basic

/-!
# Declared names

Every document declares its module and the names of its types, traits and extensions; a document
of a component also declares the component under the path of the module. No path is declared
twice.
-/

set_option autoImplicit false
set_option relaxedAutoImplicit false

namespace Pipeline

namespace Document

/-- The place of a whole document. -/
def location (d : Document) : Location := Location.ofDocument d.origin

/-- The role of the component that a document declares. -/
def componentKind? (d : Document) : Option ComponentKind :=
  match d.kind with
  | .source => some .source
  | .sink => some .sink
  | .transform => some .transform
  | .feeder => some .feeder
  | .main => none
  | .struct => none

/-- True for a document that declares no component. -/
def isPlain (d : Document) : Bool := d.componentKind?.isNone

/-- The sections of a document that have no meaning in documents of its kind. -/
def misplacedSections (d : Document) : List String :=
  let present (sections : List (String × Bool)) : List String :=
    (sections.filter (·.2)).map (·.1)
  let isSource := d.kind = .source
  present [
    ("generics", d.isPlain && !d.generics.isEmpty),
    ("params", d.isPlain && !d.params.isEmpty),
    ("checks", d.isPlain && !d.checks.isEmpty),
    ("let", d.kind ≠ .main && !d.bindings.isEmpty),
    ("pipe", d.kind ≠ .main && !d.pipes.isEmpty),
    ("item", !isSource && d.item.isSome),
    ("columns", !isSource && !d.columns.isEmpty),
    ("column_checks", !isSource && !d.columnChecks.isEmpty),
    ("input", isSource && d.input.isSome),
    ("output", d.kind ≠ .transform && d.output.isSome),
    ("input", d.isPlain && d.input.isSome)]

end Document

/-- The names declared so far. -/
structure Names where
  index : SymbolIndex
  /-- The origin of the document of each module. -/
  origins : NameMap String
  /-- The faults found, in order. -/
  faults : List Diagnostic
deriving Repr

/-- The fault of a name declared twice. -/
def duplicate (name : String) (ns : Namespace) : ErrorKind := .duplicateDeclaration name ns

namespace SymbolIndex

/-- Adds a module, and its name to the module around it, and so on outwards. -/
def addModule (index : SymbolIndex) (module : String) : SymbolIndex :=
  let parts := Path.segments module
  let index := { index with modules := index.modules.insert module (index.members module) }
  (List.range (parts.length - 1)).foldl
    (fun index i =>
      index.addMember (Path.ofSegments (parts.take (i + 1))) (parts.getD (i + 1) ""))
    index

end SymbolIndex

namespace Names

/-- No name. -/
def empty : Names := ⟨⟨[], [], []⟩, [], []⟩

/-- Notes a fault. -/
def fail (n : Names) (place : Location) (kind : ErrorKind) : Names :=
  { n with faults := n.faults ++ [⟨place, kind⟩] }

/-- Notes a fault of a declaration. -/
def invalid (n : Names) (place : Location) (fault : DeclFault) : Names :=
  n.fail place (.invalidDeclaration fault)

/-- Declares a path. -/
def declarePath (n : Names) (path : String) (kind : SymbolKind) (place : Location) : Names :=
  if n.index.symbols.contains path then n.fail place (duplicate path .type)
  else { n with index := { n.index with symbols := n.index.symbols.insert path kind } }

/-- Declares a name in a module. -/
def declare (kind : SymbolKind) (module : String) (around : Location) (n : Names)
    (name : String) : Names :=
  let path := Path.child module name
  let declared := n.declarePath path kind (around.child name)
  if n.index.symbols.contains path then declared
  else { declared with index := declared.index.addMember module name }

/-- Declares an extension in a module. -/
def declareExtension (module : String) (around : Location) (n : Names) (name : String) : Names :=
  let path := Path.child module name
  if n.index.extensions.contains path then
    n.fail (around.child name) (duplicate path .extension)
  else
    let index := { n.index with extensions := NameSet.insert path n.index.extensions }
    { n with index := index.addMember module name }

/-- Declares the component of a document, which bears the name of its module. -/
def declareComponent (n : Names) (d : Document) : Names :=
  if d.isPlain then n
  else
    let place := d.location.child "name"
    let n := if d.name = Path.last d.module then n
      else n.invalid place (.misnamedComponent d.name d.module)
    n.declarePath d.module .type place

/-- Declares a document and all its names, or refuses the document as a whole. -/
def addDocument (n : Names) (d : Document) : Names × Bool :=
  let place := d.location
  if d.version ≠ supportedVersion then
    (n.invalid ((place.child "permute").child "version")
      (.unsupportedVersion d.version supportedVersion), false)
  else if n.origins.contains d.module then
    (n.fail place (duplicate d.module .module), false)
  else
    let n := d.misplacedSections.foldl
      (fun n section_ => n.invalid place (.misplacedSection section_ d.kind.text)) n
    let n := { n with
      origins := n.origins.insert d.module d.origin, index := n.index.addModule d.module }
    let n := n.declareComponent d
    let n := (d.types.map (·.1)).foldl (declare .type d.module (place.child "types")) n
    let n := (d.traits.map (·.1)).foldl (declare .trait d.module (place.child "traits")) n
    let n := (d.extensions.map (·.1)).foldl
      (declareExtension d.module (place.child "extensions")) n
    (n, true)

/-- Declares documents from first to last and keeps those that are not refused. -/
def addDocuments (n : Names) : List Document → Names × List Document
  | [] => (n, [])
  | d :: rest =>
    let (n, kept) := n.addDocument d
    let (n, others) := n.addDocuments rest
    (n, if kept then d :: others else others)

end Names
end Pipeline
