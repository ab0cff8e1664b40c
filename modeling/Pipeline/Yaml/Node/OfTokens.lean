import Pipeline.Yaml.Token.Basic
import Pipeline.Yaml.Token.Lexer

/-!
# The tree of a YAML text

Aliases are replaced by what they stand for, and tags are written out. Where the text has a fault,
the tree has a broken node: what stands before it can be read all the same. At a token that cannot
stand where it does, and where the tokens end too early, the node at hand is broken and no token is
left, so that everything behind it is broken too.
-/

set_option autoImplicit false
set_option relaxedAutoImplicit false

namespace Pipeline.Yaml

/-- A node of a document. -/
inductive Node where
  | scalar (tag : Option String) (style : Style) (text : String)
  | sequence (tag : Option String) (items : List Node)
  | mapping (tag : Option String) (entries : List (Node × Node))
  /-- A fault of the text. -/
  | broken
deriving Repr, Inhabited

namespace Node

/-- The scalar without any character. -/
def empty : Node := scalar none .plain ""

mutual

/-- The tree with every collection inside more than `depth` others broken. -/
def limit : Nat → Node → Node
  | 0, sequence _ _ => broken
  | 0, mapping _ _ => broken
  | depth + 1, sequence tag items => sequence tag (limitItems depth items)
  | depth + 1, mapping tag entries => mapping tag (limitEntries depth entries)
  | _, node => node

/-- Limits the depth of items. -/
def limitItems (depth : Nat) : List Node → List Node
  | [] => []
  | item :: rest => limit depth item :: limitItems depth rest

/-- Limits the depth of keys and values. -/
def limitEntries (depth : Nat) : List (Node × Node) → List (Node × Node)
  | [] => []
  | (key, value) :: rest => (limit depth key, limit depth value) :: limitEntries depth rest

end

end Node

/-- A document together with what follows it in its text. -/
structure Source where
  root : Node
  /-- True when nothing follows. -/
  closed : Bool
deriving Repr

end Pipeline.Yaml

/-! ### From tokens to the tree -/

namespace Pipeline.Yaml

/-- What is known while the tree is built. -/
structure Builder where
  tokens : List Token
  /-- The nodes that have anchors, those begun last in front. -/
  anchors : List (String × Node)
  /-- The expansions of the tag handles. -/
  handles : List (String × String)

/-- Builds something from the tokens at the front. -/
abbrev Build (α : Type) := StateM Builder α

namespace Build

/-- The token at the front. -/
def peek? : Build (Option Token) := do return (← get).tokens.head?

/-- Passes the token at the front. -/
def pass : Build Unit := modify fun b => { b with tokens := b.tokens.drop 1 }

/-- Passes a token if it stands at the front. -/
def eat (t : Token) : Build Bool := do
  if (← peek?) = some t then
    pass
    return true
  else return false

/-- True when one of some tokens stands at the front. -/
def isAt (ts : List Token) : Build Bool := do
  match ← peek? with
  | some t => return ts.contains t
  | none => return false

/-- Gives up at a fault. -/
def fail : Build Node := do
  modify fun b => { b with tokens := [] }
  return .broken

/-- A node left out; there must be a token behind it. -/
def leftOut (node : Node) : Build Node := do
  if (← get).tokens.isEmpty then fail else return node

/-- Enters the node of an anchor. -/
def define (anchor : Option String) (node : Node) : Build Unit :=
  match anchor with
  | some name => modify fun b => { b with anchors := (name, node) :: b.anchors }
  | none => pure ()

/-- Puts the finished node for the unfinished one that was entered under its anchor. -/
def finish (anchor : Option String) (node : Node) : Build Node := do
  match anchor with
  | some name =>
    modify fun b => { b with anchors := b.anchors.map fun e =>
      match e with
      | (n, .broken) => if n = name then (n, node) else e
      | e => e }
    return node
  | none => return node

/-- The node of an alias. -/
def aliased (name : String) : Build Node := do
  match (← get).anchors.find? (·.1 == name) with
  | some (_, node) =>
    pass
    return node
  | none => fail

/-- Writes out a tag, unless its handle is unknown. -/
def expand? (handles : List (String × String)) : Option (String × String) → Option (Option String)
  | none => some none
  | some ("", suffix) => some (some suffix)
  | some (handle, suffix) =>
    (handles.find? (·.1 == handle)).map fun h => some (h.2 ++ suffix)

/-- Reads an anchor if it stands at the front. -/
def anchor? : Build (Option String) := do
  match ← peek? with
  | some (.anchor name) =>
    pass
    return some name
  | _ => return none

/-- Reads a tag if it stands at the front. -/
def tag? : Build (Option (String × String)) := do
  match ← peek? with
  | some (.tag handle suffix) =>
    pass
    return some (handle, suffix)
  | _ => return none

/-- Reads the anchor and the tag before a node, in either order. -/
def properties : Build (Option String × Option (String × String)) := do
  let anchor ← anchor?
  let tag ← tag?
  let anchor ← if anchor.isNone && tag.isSome then anchor? else pure anchor
  return (anchor, tag)

/-- A scalar; the tag without a name is none. -/
def scalarNode (tag : Option String) (style : Style) (text : String) : Node :=
  .scalar (if tag = some "!" then none else tag) style text

/-- A kind of collection that may begin where a node is wanted. -/
inductive Opening where
  | scalar (text : String) (style : Style)
  | flatSequence
  | blockSequence
  | blockMapping
  | flowSequence
  | flowMapping

/-- What begins at a token; `block` tells that block collections may stand here, `flat` that a
sequence may stand here without an indentation of its own. -/
def opening? (block flat : Bool) : Option Token → Option Opening
  | some (.scalar text style) => some (.scalar text style)
  | some .blockEntry => if flat then some .flatSequence else none
  | some .blockSequenceStart => if block then some .blockSequence else none
  | some .blockMappingStart => if block then some .blockMapping else none
  | some .flowSequenceStart => some .flowSequence
  | some .flowMappingStart => some .flowMapping
  | _ => none

mutual

/-- Builds a node. -/
def node (block flat : Bool) : Nat → Build Node
  | 0 => fail
  | fuel + 1 => do
    match ← peek? with
    | some (.aliasOf name) => aliased name
    | _ =>
      let (anchor, written) ← properties
      match expand? (← get).handles written with
      | none => fail
      | some tag =>
        match opening? block flat (← peek?) with
        | some (.scalar text style) =>
          pass
          define anchor (scalarNode tag style text)
          return scalarNode tag style text
        | some kind =>
          define anchor .broken
          finish anchor (← collection kind tag fuel)
        | none =>
          if anchor.isSome || written.isSome then
            let made ← leftOut (scalarNode tag .plain "")
            define anchor made
            return made
          else fail

/-- Builds a collection. -/
def collection (kind : Opening) (tag : Option String) : Nat → Build Node
  | 0 => fail
  | fuel + 1 => do
    match kind with
    | .scalar text style => return scalarNode tag style text
    | .flatSequence => return .sequence tag (← flatItems fuel)
    | .blockSequence =>
      pass
      return .sequence tag (← blockItems fuel)
    | .blockMapping =>
      pass
      return .mapping tag (← blockEntries fuel)
    | .flowSequence =>
      pass
      return .sequence tag (← flowItems true fuel)
    | .flowMapping =>
      pass
      return .mapping tag (← flowEntries true fuel)

/-- Builds the items of a block sequence. -/
def blockItems : Nat → Build (List Node)
  | 0 => return [← fail]
  | fuel + 1 => do
    if ← eat .blockEntry then
      let item ← if ← isAt [.blockEntry, .blockEnd] then pure Node.empty else node true false fuel
      return item :: (← blockItems fuel)
    if ← eat .blockEnd then return []
    return [← fail]

/-- Builds the items of a sequence without an indentation of its own. -/
def flatItems : Nat → Build (List Node)
  | 0 => return [← fail]
  | fuel + 1 => do
    if ← eat .blockEntry then
      let item ← if ← isAt [.blockEntry, .key, .value, .blockEnd] then pure Node.empty
        else node true false fuel
      return item :: (← flatItems fuel)
    match ← peek? with
    | some _ => return []
    | none => return [← fail]

/-- Builds the entries of a block mapping. -/
def blockEntries : Nat → Build (List (Node × Node))
  | 0 => return [(← fail, .broken)]
  | fuel + 1 => do
    if ← eat .key then
      let key ← if ← isAt [.key, .value, .blockEnd] then pure Node.empty else node true true fuel
      let value ← blockValue fuel
      return (key, value) :: (← blockEntries fuel)
    if ← eat .blockEnd then return []
    return [(← fail, .broken)]

/-- Builds the value of an entry of a block mapping. -/
def blockValue : Nat → Build Node
  | 0 => fail
  | fuel + 1 => do
    if ← eat .value then
      if ← isAt [.key, .value, .blockEnd] then return Node.empty
      node true true fuel
    else leftOut Node.empty

/-- Builds the items of a flow sequence; a key among them begins a mapping of one entry. -/
def flowItems (first : Bool) : Nat → Build (List Node)
  | 0 => return [← fail]
  | fuel + 1 => do
    if ← eat .flowSequenceEnd then return []
    let separated ← if first then pure true else eat .flowEntry
    if !separated then return [← fail]
    if ← eat .key then
      let key ← if ← isAt [.value, .flowEntry, .flowSequenceEnd] then do
          pass
          pure Node.empty
        else node false false fuel
      let value ← flowValue .flowSequenceEnd fuel
      return .mapping none [(key, value)] :: (← flowItems false fuel)
    if ← eat .flowSequenceEnd then return []
    let item ← node false false fuel
    return item :: (← flowItems false fuel)

/-- Builds the entries of a flow mapping; a key may lack its value. -/
def flowEntries (first : Bool) : Nat → Build (List (Node × Node))
  | 0 => return [(← fail, .broken)]
  | fuel + 1 => do
    if ← eat .flowMappingEnd then return []
    let separated ← if first then pure true else eat .flowEntry
    if !separated then return [(← fail, .broken)]
    if ← eat .key then
      let key ← if ← isAt [.value, .flowEntry, .flowMappingEnd] then pure Node.empty
        else node false false fuel
      let value ← flowValue .flowMappingEnd fuel
      return (key, value) :: (← flowEntries false fuel)
    if ← eat .flowMappingEnd then return []
    let key ← node false false fuel
    let value ← leftOut Node.empty
    return (key, value) :: (← flowEntries false fuel)

/-- Builds the value of an entry inside a flow collection that ends with `close`. -/
def flowValue (close : Token) : Nat → Build Node
  | 0 => fail
  | fuel + 1 => do
    if ← eat .value then
      if ← isAt [.flowEntry, close] then return Node.empty
      node false false fuel
    else leftOut Node.empty

end

/-- True for a token that stands outside of all documents. -/
def isOutside : Token → Bool
  | .streamEnd => true
  | .versionDirective _ _ => true
  | .tagDirective _ _ => true
  | .documentStart => true
  | .documentEnd => true
  | _ => false

/-- Reads the directives before a document; true when they can stand. -/
def directives (versioned : Bool) (given : List (String × String)) : Nat → Build Bool
  | 0 => return false
  | fuel + 1 => do
    match ← peek? with
    | some (.versionDirective major minor) =>
      if versioned || major ≠ 1 || (minor ≠ 1 && minor ≠ 2) then return false
      pass
      directives true given fuel
    | some (.tagDirective handle expansion) =>
      if given.any (·.1 == handle) then return false
      pass
      directives versioned ((handle, expansion) :: given) fuel
    | _ =>
      modify fun b => { b with handles := given ++ b.handles }
      return true

/-- Builds the root behind the mark of the start of a document. -/
def markedRoot (fuel : Nat) : Build Node := do
  match ← peek? with
  | some t => if isOutside t then return Node.empty else node true false fuel
  | none => fail

/-- Builds the root of the first document; a text without one has the empty root. -/
def root (fuel : Nat) : Build Node := do
  match ← peek? with
  | none => fail
  | some .streamEnd => return Node.empty
  | some t =>
    if isOutside t then
      let fits ← directives false [] fuel
      if fits && (← eat .documentStart) then markedRoot fuel else fail
    else node true false fuel

/-- Passes the marks of the ends of documents. -/
def passEnds : Nat → Build Unit
  | 0 => pure ()
  | fuel + 1 => do
    if ← eat .documentEnd then passEnds fuel

/-- Builds the first document and tells whether nothing follows it. -/
def source (fuel : Nat) : Build Source := do
  let root ← root fuel
  passEnds fuel
  return ⟨root, ← isAt [.streamEnd]⟩

end Build

/-- The handles that need no directive. -/
def standardHandles : List (String × String) := [("!", "!"), ("!!", "tag:yaml.org,2002:")]

/-- The first document of a text. -/
def Source.ofText (text : String) : Source :=
  let ts := tokens text
  ((Build.source (3 * ts.length + 3)).run ⟨ts, [], standardHandles⟩).1

end Pipeline.Yaml
