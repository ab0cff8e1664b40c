import Mathlib.Data.List.Forall2
import Pipeline.Proofs.Data.Path
import Pipeline.Proofs.Token.Lexing
import Pipeline.Proofs.Ty.Fits
import Pipeline.Ty.Basic

/-!
# The tokens of a type

A type that was read from a text has an own sequence of tokens, and its text splits into them
wherever a type can stand. Only the paths of the prelude are an exception, because the text leaves
their first segment out.
-/

set_option autoImplicit false
set_option relaxedAutoImplicit false

namespace Pipeline

namespace Token

/-- Groups of tokens with commas between them. -/
def listed : List (List Token) → List Token
  | [] => []
  | ts :: more => ts ++ more.flatMap fun ts => .punct .comma :: ts

theorem listed_cons (ts us : List Token) (more : List (List Token)) :
    listed (ts :: us :: more) = ts ++ .punct .comma :: listed (us :: more) := by
  simp [listed]

/-- Groups of tokens in angle brackets, which are left out where there is no group. -/
def inBrackets : List (List Token) → List Token
  | [] => []
  | ts :: more => .punct .lt :: listed (ts :: more) ++ [.punct .gt]

/-- The tokens of a path. -/
def ofPath (path : String) : List Token :=
  match Path.segments path with
  | [] => []
  | first :: more => .ident first :: ofSegments more

/-- The tokens of a result type. -/
def ofResult (ret : Ty) (ts : List Token) : List Token :=
  if ret = .unit then [] else .punct .arrow :: ts

end Token

namespace Ty

mutual

/-- The tokens of a type. -/
def tokens : Ty → List Token
  | named path args => Token.ofPath path ++ Token.inBrackets (tokensList args)
  | param name => [.ident name]
  | const value => [.int (Text.digitsValue value.toList)]
  | fn params ret =>
    .ident "fn" :: .punct .lparen :: Token.listed (tokensList params) ++
      .punct .rparen :: Token.ofResult ret (tokens ret)
  | promise path args assoc =>
    .ident "impl" :: Token.ofPath path ++ Token.inBrackets (tokensList args ++ tokensAssoc assoc)
  | projection base name => tokens base ++ .punct .pathSep :: Token.ofPath name
  | selfTy => [.ident "Self"]
  | infer => [.ident "_"]
  | unit => [.punct .lparen, .punct .rparen]

/-- The tokens of each type of a list. -/
def tokensList : List Ty → List (List Token)
  | [] => []
  | t :: rest => tokens t :: tokensList rest

/-- The tokens of each constraint. -/
def tokensAssoc : List (String × Ty) → List (List Token)
  | [] => []
  | (name, t) :: rest => (.ident name :: .punct .eq :: tokens t) :: tokensAssoc rest

end

theorem tokensList_eq_map (ts : List Ty) : tokensList ts = ts.map tokens := by
  induction ts with
  | nil => rfl
  | cons t rest ih => rw [tokensList, ih, List.map_cons]

/-- The tokens of a constraint. -/
def constraintTokens (c : String × Ty) : List Token := .ident c.1 :: .punct .eq :: c.2.tokens

theorem tokensAssoc_eq_map (assoc : List (String × Ty)) :
    tokensAssoc assoc = assoc.map constraintTokens := by
  induction assoc with
  | nil => rfl
  | cons c rest ih => rw [tokensAssoc, ih, List.map_cons, constraintTokens]

/-- The words that do not begin the path of a declared type. -/
def isReserved (word : String) : Bool :=
  word = "_" || word = "impl" || word = "fn" || word = "Self"

/-- The types that can be read. -/
inductive Written : Ty → Prop
  | named {first : String} {more : List String} {args : List Ty}
    (free : isReserved first = false) (idents : ∀ name ∈ first :: more, IsIdent name)
    (each : ∀ t ∈ args, Written t) : Written (named (Path.ofSegments (first :: more)) args)
  | const {n : Nat} (small : n ≤ Lexer.maxInt) : Written (const (Text.intText n))
  | fn {params : List Ty} {ret : Ty} (each : ∀ t ∈ params, Written t) (result : Written ret) :
    Written (fn params ret)
  | promise {first : String} {more : List String} {args : List Ty} {assoc : List (String × Ty)}
    (idents : ∀ name ∈ first :: more, IsIdent name) (each : ∀ t ∈ args, Written t)
    (names : ∀ c ∈ assoc, IsIdent c.1) (types : ∀ c ∈ assoc, Written c.2) :
    Written (promise (Path.ofSegments (first :: more)) args assoc)
  | projection {first : String} {more : List String}
    (idents : ∀ name ∈ first :: more, IsIdent name) :
    Written (projection selfTy (Path.ofSegments (first :: more)))
  | selfTy : Written selfTy
  | infer : Written infer
  | unit : Written unit

/-- True for a type with a path that begins with the segment of the prelude. -/
def startsInPrelude : Ty → Bool
  | named path _ => (Path.segments path).head? = some preludeModule
  | promise path _ _ => (Path.segments path).head? = some preludeModule
  | _ => false

/-- True when some path in a type begins with the segment of the prelude. -/
def mentionsPrelude (t : Ty) : Bool := t.anyPart startsInPrelude

/-- Arguments and constraints that can be read. -/
structure AreWritten (args : List Ty) (assoc : List (String × Ty)) : Prop where
  args : ∀ t ∈ args, t.Written
  names : ∀ c ∈ assoc, IsIdent c.1
  types : ∀ c ∈ assoc, c.2.Written

end Ty

namespace TraitRef

/-- The tokens of a trait reference. -/
def tokens (t : TraitRef) : List Token :=
  Token.ofPath t.path ++ Token.inBrackets (Ty.tokensList t.args ++ Ty.tokensAssoc t.assoc)

/-- The trait references that can be read. -/
inductive Written : TraitRef → Prop
  | intro {first : String} {more : List String} {args : List Ty} {assoc : List (String × Ty)}
    (idents : ∀ name ∈ first :: more, IsIdent name) (items : Ty.AreWritten args assoc) :
    Written ⟨Path.ofSegments (first :: more), args, assoc⟩

/-- True when some path in a trait reference begins with the segment of the prelude. -/
def mentionsPrelude (t : TraitRef) : Bool := (Ty.promise t.path t.args t.assoc).mentionsPrelude

end TraitRef

theorem Ty.tokens_const (n : Nat) : (const (Text.intText n)).tokens = [.int n] := by
  rw [tokens, Text.toList_intText, Text.digitsValue_natChars]

/-! ### Paths and their segments -/

private theorem IsIdent.plain {name : String} (ident : IsIdent name) : Path.Plain name := by
  obtain ⟨c, cs, spelled, start, more⟩ := ident
  rw [Path.Plain, spelled]
  intro member
  rcases List.mem_cons.mp member with rfl | later
  · exact absurd start (by decide)
  · exact absurd (more ':' later) (by decide)

theorem Token.ofPath_ofSegments {first : String} {more : List String}
    (idents : ∀ name ∈ first :: more, IsIdent name) :
    Token.ofPath (Path.ofSegments (first :: more)) = .ident first :: Token.ofSegments more := by
  rw [Token.ofPath, Path.segments_of_plain fun name member => (idents name member).plain]

/-- A path that does not begin with the segment of the prelude is written as it is. -/
theorem shortPath_of_head {path : String}
    (outside : (Path.segments path).head? ≠ some preludeModule) : shortPath path = path := by
  unfold shortPath Text.stripStart?
  cases dropped : Text.dropStart? (Path.child preludeModule "").toList path.toList with
  | none => rfl
  | some rest =>
    have spelled : path.toList = ['s', 't', 'd', ':', ':'] ++ rest :=
      Text.dropStart?_eq_some.mp dropped
    refine absurd ?_ outside
    simp [Path.segments, Text.split, spelled, Text.splitFrom, Text.dropStart?, preludeModule]

end Pipeline
