import Pipeline.Text.Basic

/-!
# Paths of files

A path is a text of names with slashes between them. Empty pieces and single dots inside it stand
for nothing, so that different texts may have the same parts; messages show the text as it is.
-/

set_option autoImplicit false
set_option relaxedAutoImplicit false

namespace Pipeline.FilePath

/-- A part of a path. -/
inductive Part where
  /-- The slash that a path begins with. -/
  | root
  /-- The dot that a path begins with. -/
  | here
  | up
  | name (s : String)
deriving DecidableEq, Repr

/-- The pieces of a path between its slashes. -/
def pieces (path : String) : List String := Text.split "/" path

/-- A path from its pieces. -/
def ofPieces (all : List String) : String := Text.join "/" all

/-- True for the pieces that stand for nothing inside a path. -/
def isIdle (piece : String) : Bool := piece = "" || piece = "."

/-- The parts that pieces inside a path stand for. -/
def innerParts (all : List String) : List Part :=
  (all.filter fun piece => !isIdle piece).map fun piece => if piece = ".." then .up else .name piece

/-- The parts of a path. -/
def parts (path : String) : List Part :=
  match pieces path with
  | "" :: next :: rest => .root :: innerParts (next :: rest)
  | "." :: rest => .here :: innerParts rest
  | all => innerParts all

/-- True when the path begins at the root of the file system. -/
def isAbsolute (path : String) : Bool := Text.startsWith "/" path

/-- The path of something seen from a directory. -/
def join (directory path : String) : String :=
  if directory = "" || isAbsolute path then path
  else if Text.endsWith "/" directory then directory ++ path
  else directory ++ "/" ++ path

/-- The pieces without the idle ones at their end. -/
def dropIdle (all : List String) : List String := (all.reverse.dropWhile isIdle).reverse

/-- Splits a path into the text before its last name and this name. -/
def splitLast? (path : String) : Option (String × String) :=
  match (dropIdle (pieces path)).reverse with
  | [] => none
  | last :: before =>
    if last = ".." then none else some (ofPieces (before.reverse ++ [""]), last)

/-- Splits a name at its last dot; a dot that it begins with does not count. -/
def splitName (name : String) : String × Option String :=
  let reversed := name.toList.reverse
  let after := reversed.takeWhile (· ≠ '.')
  match reversed.dropWhile (· ≠ '.') with
  | _ :: c :: before =>
    (String.ofList (c :: before).reverse, some (String.ofList after.reverse))
  | _ => (name, none)

/-- What stands behind the last dot of the last name. -/
def extension? (path : String) : Option String :=
  (splitLast? path).bind fun split => (splitName split.2).2

/-- The path with another ending of its last name; the empty ending has no dot. -/
def withExtension (path extension : String) : String :=
  match splitLast? path with
  | none => path
  | some (before, last) =>
    before ++ (splitName last).1 ++ (if extension = "" then "" else "." ++ extension)

/-- The pieces without the last one and what is idle before it. -/
def dropLastPiece (all : List String) : List String := dropIdle (dropIdle all).dropLast

/-- The directory that a path leads to something in. -/
def parent? (path : String) : Option String :=
  match pieces path with
  | "" :: next :: rest =>
    if (dropIdle (next :: rest)).isEmpty then none
    else some ("/" ++ ofPieces (dropLastPiece (next :: rest)))
  | "." :: rest =>
    if (dropIdle rest).isEmpty then some ""
    else some (ofPieces ("." :: dropLastPiece rest))
  | all => if (dropIdle all).isEmpty then none else some (ofPieces (dropLastPiece all))

/-- The names of parts, if they are nothing but names. -/
def names? : List Part → Option (List String)
  | [] => some []
  | .name s :: rest => (names? rest).map (s :: ·)
  | _ :: _ => none

end Pipeline.FilePath
