import Pipeline.Data.NameMap
import Pipeline.File.Path

/-!
# File systems

A file system tells what stands at a path. Links are followed, so that only files and directories
are seen; the place of each is the list of names that lead to it without a link.
-/

set_option autoImplicit false
set_option relaxedAutoImplicit false

namespace Pipeline

/-- Why something cannot be read. -/
inductive FileFault where
  | missing
  | notDirectory
  | isDirectory
  | nameTooLong
  | tooManyLinks
  | notText
  /-- A fault that the operating system puts in words. -/
  | other (reason : String)
deriving DecidableEq, Repr

/-- The fault in words. -/
def FileFault.text : FileFault → String
  | missing => "No such file or directory (os error 2)"
  | notDirectory => "Not a directory (os error 20)"
  | isDirectory => "Is a directory (os error 21)"
  | nameTooLong => "File name too long (os error 36)"
  | tooManyLinks => "Too many levels of symbolic links (os error 40)"
  | notText => "stream did not contain valid UTF-8"
  | other reason => reason

/-- A file or a directory. -/
inductive Entry where
  | file (place : List String) (content : Except FileFault String)
  | directory (place : List String) (names : List String)

/-- The names that lead to an entry without a link. -/
def Entry.place : Entry → List String
  | file place _ => place
  | directory place _ => place

/-- What stands at each path. -/
abbrev Files := String → Except FileFault Entry

namespace Files

/-- No path of an operating system has more bytes. -/
def maxPathLength : Nat := 4095

/-- True when something stands at a path. -/
def holds (files : Files) (path : String) : Bool :=
  match files path with
  | .ok _ => true
  | .error _ => false

/-- True when a directory stands at a path. -/
def isDirectory (files : Files) (path : String) : Bool :=
  match files path with
  | .ok (.directory _ _) => true
  | _ => false

/-- True when a file stands at a path. -/
def isFile (files : Files) (path : String) : Bool :=
  match files path with
  | .ok (.file _ _) => true
  | _ => false

/-- The names in a directory, in ascending order. -/
def names (files : Files) (path : String) : Except FileFault (List String) :=
  match files path with
  | .error fault => .error fault
  | .ok (.file _ _) => .error .notDirectory
  | .ok (.directory _ names) => .ok (NameSet.ofList names)

/-- The text of a file. -/
def text (files : Files) (path : String) : Except FileFault String :=
  match files path with
  | .error fault => .error fault
  | .ok (.file _ content) => content
  | .ok (.directory _ _) => .error .isDirectory

/-- The place of what stands at a path. -/
def place (files : Files) (path : String) : Except FileFault (List String) :=
  (files path).map Entry.place

end Files
end Pipeline
