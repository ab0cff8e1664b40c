import Pipeline.Text.Basic

/-!
# Paths

Modules and declarations are named by segments joined with a double colon, as in `shop::Money`.
-/

set_option autoImplicit false
set_option relaxedAutoImplicit false

namespace Pipeline.Path

/-- The segments of a path, read from the left. -/
def segments (path : String) : List String := Text.split "::" path

/-- A path from its segments. -/
def ofSegments (parts : List String) : String := Text.join "::" parts

/-- The path one segment deeper. -/
def child (path name : String) : String := path ++ "::" ++ name

/-- The characters behind the last separator of a reversed text. -/
def lastChars : List Char → List Char
  | [] => []
  | ':' :: ':' :: _ => []
  | c :: cs => c :: lastChars cs

/-- The last segment of a path. -/
def last (path : String) : String :=
  String.ofList (lastChars path.toList.reverse).reverse

/-- The characters before the last separator of a reversed text. -/
def initChars? : List Char → Option (List Char)
  | [] => none
  | ':' :: ':' :: cs => some cs
  | _ :: cs => initChars? cs

/-- The path without its last segment, if it has more than one. -/
def parent? (path : String) : Option String :=
  (initChars? path.toList.reverse).map fun cs => String.ofList cs.reverse

end Pipeline.Path
