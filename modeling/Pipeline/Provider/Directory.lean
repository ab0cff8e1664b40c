import Pipeline.Provider.Basic
import Pipeline.Text.Path

/-!
# Documents in a directory

The path of a module is the path of its file below the directory, without the ending of the file.
Hidden files are not listed; a file that a link leads to outside the directory is listed and
refused.
-/

set_option autoImplicit false
set_option relaxedAutoImplicit false

namespace Pipeline.Directory

/-- The endings of documents; the first one goes before the second one. -/
def extensions : List String := ["yaml", "yml"]

/-- The module of the file at a path. -/
def moduleOfPath (root path : String) : Except ProviderFault String :=
  let names := do
    let below ← Text.dropStart? (FilePath.parts root) (FilePath.parts path)
    let names ← FilePath.names? below
    let names ← FilePath.names? (FilePath.parts (FilePath.withExtension (FilePath.ofPieces names) ""))
    if names.isEmpty then none else some names
  match names with
  | some names => .ok (Path.ofSegments names)
  | none => .error (.outsideRoot path)

/-- True for a segment that cannot be the name of a file. -/
def isUnsafe (segment : String) : Bool :=
  segment = "" || segment = "." || segment = ".." ||
    Text.contains "/" segment || Text.contains "\\" segment

/-- The paths at which the document of a module may stand. -/
def candidates (root module : String) : List String :=
  let segments := Path.segments module
  if segments.any isUnsafe then []
  else
    extensions.map (FilePath.withExtension (FilePath.join root (FilePath.ofPieces segments)))

/-- The path at which the document of a module stands. -/
def pathOfModule? (files : Files) (root module : String) : Option String :=
  (candidates root module).find? files.isFile

/-- True for the names that are passed over. -/
def isHidden (name : String) : Bool := Text.startsWith "." name

/-- True for a path with the ending of a document. -/
def isDocument (path : String) : Bool :=
  match FilePath.extension? path with
  | some extension => extensions.contains extension
  | none => false

/-- The modules of the documents in a directory and below, to some depth. -/
def walk (files : Files) (root : String) : Nat → String → Except ProviderFault (List String)
  | 0, _ => .ok []
  | depth + 1, directory =>
    match files.names directory with
    | .error fault => .error (.unreadable directory fault)
    | .ok names => do
      let below ← (names.filter fun name => !isHidden name).mapM fun name => do
        let path := FilePath.join directory name
        if files.isDirectory path then walk files root depth path
        else if isDocument path then return [← moduleOfPath root path]
        else return []
      return below.flatten

/-- Leaves one of equal neighbours. -/
def dropRepeats : List String → List String
  | a :: b :: rest => if a = b then dropRepeats (b :: rest) else a :: dropRepeats (b :: rest)
  | short => short

/-- Directories cannot stand deeper, since each takes two bytes of a path at least. -/
def maxDepth : Nat := Files.maxPathLength / 2 + 1

/-- The modules in a directory. -/
def modules (files : Files) (root : String) : Except ProviderFault (List String) :=
  dropRepeats <$> walk files root maxDepth root

/-- The text of the file at a path, which must not lie outside the directory. -/
def readInside (files : Files) (root path : String) : Except ProviderFault String := do
  let io {α : Type} (x : Except FileFault α) : Except ProviderFault α :=
    x.mapError fun fault => .unreadable path fault
  let top ← io (files.place root)
  let place ← io (files.place path)
  if (Text.dropStart? top place).isSome then io (files.text path)
  else .error (.outsideRoot path)

/-- The path of a file seen from the directory. -/
def originOf (root path : String) : String :=
  match (Text.dropStart? (FilePath.parts root) (FilePath.parts path)).bind FilePath.names? with
  | some names => FilePath.ofPieces names
  | none => path

/-- The document of a module. -/
def fetch (files : Files) (root module : String) : Option (Except ProviderFault Document) :=
  (pathOfModule? files root module).map fun path => do
    Provider.readDocument module (originOf root path) (← readInside files root path)

end Directory

/-- The provider of the documents in a directory. -/
def Provider.ofDirectory (files : Files) (root : String) : Provider where
  name := root
  modules := Directory.modules files root
  fetch := Directory.fetch files root

end Pipeline
