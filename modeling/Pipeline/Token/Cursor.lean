import Pipeline.Token.Lexer

/-!
# Reading tokens one after another

A `Reader` consumes tokens from the front of a cursor or stops with a fault at the offset of the
first token left.
-/

set_option autoImplicit false
set_option relaxedAutoImplicit false

namespace Pipeline

/-- The tokens still to be read. -/
structure Cursor where
  rest : List Spanned
  /-- The byte offset just behind the token read last. -/
  lastStop : Nat
  /-- The number of bytes of the whole text. -/
  size : Nat

namespace Cursor

/-- The token at the front. -/
def peek? (c : Cursor) : Option Token := c.rest.head?.map (·.token)

/-- The byte offset of the token at the front, or of the end of the text. -/
def offset (c : Cursor) : Nat :=
  match c.rest with
  | [] => c.size
  | t :: _ => t.start

/-- The fault of needing something else at the front. -/
def unexpected (c : Cursor) (what : Expected) : ParseError :=
  ⟨c.offset, .expected what c.peek?⟩

/-- A cursor before the first token of a text. -/
def ofSource (source : String) : Except ParseError Cursor :=
  match tokenize source with
  | .error e => .error e
  | .ok tokens => .ok ⟨tokens, 0, source.utf8ByteSize⟩

end Cursor

/-- Reads something from the front of a cursor. -/
abbrev Reader (α : Type) := StateT Cursor (Except ParseError) α

namespace Reader

/-- The token at the front. -/
def peek? : Reader (Option Token) := fun c => .ok (c.peek?, c)

/-- The token behind the one at the front. -/
def peekSecond? : Reader (Option Token) :=
  fun c => .ok ((c.rest.drop 1).head?.map (·.token), c)

/-- The byte offset of the front. -/
def offset : Reader Nat := fun c => .ok (c.offset, c)

/-- The byte offset behind the token read last. -/
def lastStop : Reader Nat := fun c => .ok (c.lastStop, c)

/-- Stops because something else is needed at the front. -/
def unexpected {α : Type} (what : Expected) : Reader α := fun c => .error (c.unexpected what)

/-- Takes the token at the front, if there is one. -/
def advance? : Reader (Option Token) := fun c =>
  match c.rest with
  | [] => .ok (none, c)
  | t :: rest => .ok (some t.token, { c with rest := rest, lastStop := t.stop })

/-- Takes the token at the front if it satisfies `p`. -/
def eatIf (p : Token → Bool) : Reader Bool := fun c =>
  match c.rest with
  | [] => .ok (false, c)
  | t :: rest =>
    if p t.token then .ok (true, { c with rest := rest, lastStop := t.stop }) else .ok (false, c)

/-- Takes a given punctuation mark if it stands at the front. -/
def eat (p : Punct) : Reader Bool := eatIf (Token.isPunct p)

/-- Takes a given word if it stands at the front. -/
def eatWord (word : String) : Reader Bool := eatIf (Token.isWord word)

/-- Takes a given punctuation mark. -/
def expect (p : Punct) : Reader Unit := do
  if ← eat p then pure () else unexpected (.mark p)

/-- Takes an identifier. -/
def expectIdent : Reader String := fun c =>
  match c.rest with
  | ⟨.ident name, _, stop⟩ :: rest => .ok (name, { c with rest := rest, lastStop := stop })
  | _ => .error (c.unexpected .identifier)

/-- Stops unless everything was read. -/
def expectEnd : Reader Unit := fun c =>
  if c.rest.isEmpty then .ok ((), c) else .error (c.unexpected .endOfInput)

/-- Reads a whole text. -/
def runOn {α : Type} (r : Reader α) (source : String) : Except ParseError α := do
  let c ← Cursor.ofSource source
  let (a, _) ← (do let a ← r; expectEnd; pure a : Reader α) c
  pure a

/-- Reads the segments behind the first one of a path; the tokens left bound their number. -/
def moreSegments : Nat → Reader (List String)
  | 0 => pure []
  | fuel + 1 => do
    if ← eat .pathSep then
      let name ← expectIdent
      return name :: (← moreSegments fuel)
    else return []

/-- The number of tokens left, which bounds every loop over them. -/
def remaining : Reader Nat := fun c => .ok (c.rest.length, c)

end Reader

end Pipeline
