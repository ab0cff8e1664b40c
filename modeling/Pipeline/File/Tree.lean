import Pipeline.File.Basic

/-!
# Trees of files

A tree holds texts, directories and links in memory. Its paths start at the top of it, and nothing
outside the tree can be reached.
-/

set_option autoImplicit false
set_option relaxedAutoImplicit false

namespace Pipeline

/-- A tree of files. -/
inductive FileTree where
  | file (text : String)
  | directory (entries : List (String × FileTree))
  | link (target : String)
deriving Repr, Inhabited

namespace FileTree

/-- The entries of a directory; nothing else has any. -/
def entries : FileTree → List (String × FileTree)
  | directory es => es
  | _ => []

/-- Puts something below the top, at a list of names, with the directories on the way. -/
def put (item : FileTree) : List String → FileTree → FileTree
  | [], _ => item
  | name :: rest, tree =>
    let below := (NameMap.get? name tree.entries).getD (directory [])
    directory (NameMap.insert name (put item rest below) tree.entries)

/-- What stands at a list of names, without following a link. -/
def get? : List String → FileTree → Option FileTree
  | [], tree => some tree
  | name :: rest, tree => (NameMap.get? name tree.entries).bind (get? rest)

/-- Follows the pieces of a path from a place. At a link `jump` goes on, with the place of the link
and the pieces to follow from there. -/
def walk (tree : FileTree)
    (jump : List String → List String → Except FileFault (List String)) :
    List String → List String → Except FileFault (List String)
  | place, [] => .ok place
  | place, piece :: rest =>
    match tree.get? place with
    | none => .error .missing
    | some (directory es) =>
      if FilePath.isIdle piece then walk tree jump place rest
      else if piece = ".." then
        if place.isEmpty then .error .missing else walk tree jump place.dropLast rest
      else
        match NameMap.get? piece es with
        | none => .error .missing
        | some (link target) =>
          if FilePath.isAbsolute target then .error .missing
          else jump place (FilePath.pieces target ++ rest)
        | some _ => walk tree jump (place ++ [piece]) rest
    | some _ => .error .notDirectory

/-- The number of links that are followed for one path. -/
def maxLinks : Nat := 40

/-- The place that pieces lead to, over at most so many links. -/
def resolve (tree : FileTree) : Nat → List String → List String → Except FileFault (List String)
  | 0 => walk tree fun _ _ => .error .tooManyLinks
  | links + 1 => walk tree (resolve tree links)

/-- What stands at a path. -/
def files (tree : FileTree) : Files := fun path =>
  if Files.maxPathLength < path.utf8ByteSize then .error .nameTooLong
  else if path = "" || FilePath.isAbsolute path then .error .missing
  else do
    let place ← resolve tree maxLinks [] (FilePath.pieces path)
    match tree.get? place with
    | some (file text) => .ok (.file place (.ok text))
    | some (directory es) => .ok (.directory place (es.map (·.1)))
    | _ => .error .missing

end FileTree
end Pipeline
