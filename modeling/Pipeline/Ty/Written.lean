import Pipeline.Token.Cursor
import Pipeline.Ty.Basic

/-!
# Reading types, bounds and generic parameters

A written type has its names as the author wrote them; a scope turns them into paths and
parameters later. The fuel of the readers is the number of tokens left, which every recursive
call finds lowered.
-/

set_option autoImplicit false
set_option relaxedAutoImplicit false

namespace Pipeline

/-- One trait of a bound as written, with its mark for declaration time. -/
structure WrittenBound where
  traitRef : TraitRef
  constRequired : Bool
deriving DecidableEq, Repr

/-- A generic parameter as written. -/
structure WrittenGeneric where
  name : String
  /-- The type of a constant parameter. -/
  constTy : Option Ty
  bounds : List WrittenBound
  default : Option Ty
deriving DecidableEq, Repr

namespace Written

open Reader

/-- Reads a path of one or more segments. -/
def path : Reader (List String) := do
  let first ← expectIdent
  return first :: (← moreSegments (← remaining))

/-- The type a path stands for when no arguments follow it, if it begins with `Self`. -/
def selfPath? : List String → Option Ty
  | ["Self"] => some .selfTy
  | "Self" :: rest => some (.projection .selfTy (Path.ofSegments rest))
  | _ => none

mutual

/-- Reads a type. -/
def ty : Nat → Reader Ty
  | 0 => unexpected .type
  | fuel + 1 => do
    match ← peek? with
    | some (.punct .lparen) =>
      let _ ← advance?
      expect .rparen
      return .unit
    | some (.int n) =>
      let _ ← advance?
      return .const (Text.intText n)
    | some (.ident "_") =>
      let _ ← advance?
      return .infer
    | some (.ident "impl") =>
      let _ ← advance?
      let written ← path
      let (args, assoc) ← angled fuel true
      return .promise (Path.ofSegments written) args assoc
    | some (.ident "fn") =>
      let _ ← advance?
      expect .lparen
      let params ← tyParams fuel
      if ← eat .arrow then
        return .fn params (← ty fuel)
      else return .fn params .unit
    | some (.ident _) =>
      let written ← path
      match selfPath? written with
      | some t => return t
      | none =>
        let (args, _) ← angled fuel false
        return .named (Path.ofSegments written) args
    | _ => unexpected .type

/-- Reads the parameter types of a function type up to the closing parenthesis. -/
def tyParams : Nat → Reader (List Ty)
  | 0 => unexpected .type
  | fuel + 1 => do
    if ← eat .rparen then return []
    let t ← ty fuel
    if ← eat .comma then
      return t :: (← tyParams fuel)
    else
      expect .rparen
      return [t]

/-- Reads the arguments in angle brackets, if there are any; constraints only where `named`. -/
def angled : Nat → Bool → Reader (List Ty × List (String × Ty))
  | 0, _ => unexpected .typeArgument
  | fuel + 1, named => do
    if ← eat .lt then angledItems fuel named false else return ([], [])

/-- Reads arguments and constraints up to the closing bracket; `constrained` tells that a
constraint came before. -/
def angledItems : Nat → Bool → Bool → Reader (List Ty × List (String × Ty))
  | 0, _, _ => unexpected .typeArgument
  | fuel + 1, named, constrained => do
    let isAssoc := match ← peek?, ← peekSecond? with
      | some (.ident _), some (.punct .eq) => true
      | _, _ => false
    if isAssoc then
      if !named then unexpected .typeArgument
      else
        let name ← expectIdent
        expect .eq
        let t ← ty fuel
        if ← eat .gt then return ([], [(name, t)])
        expect .comma
        let (args, assoc) ← angledItems fuel named true
        return (args, (name, t) :: assoc)
    else if constrained then unexpected .assocBinding
    else
      let t ← ty fuel
      if ← eat .gt then return ([t], [])
      expect .comma
      let (args, assoc) ← angledItems fuel named false
      return (t :: args, assoc)

end

/-- Fuel for reading a type: three calls at most for each token left. -/
def fuel : Reader Nat := do return 3 * (← remaining) + 3

/-- Reads a type. -/
def anyTy : Reader Ty := do ty (← fuel)

/-- Reads a trait reference. -/
def traitRef : Reader TraitRef := do
  let written ← path
  let (args, assoc) ← angled (← fuel) true
  return ⟨Path.ofSegments written, args, assoc⟩

/-- Reads traits joined by plus signs, each with an optional mark for declaration time. -/
def bounds : Nat → Reader (List WrittenBound)
  | 0 => return []
  | fuel + 1 => do
    let marked ← eat .tilde
    if marked then
      if !(← eatWord "const") then unexpected .constAfterTilde
    let t ← traitRef
    if ← eat .plus then
      return ⟨t, marked⟩ :: (← bounds fuel)
    else return [⟨t, marked⟩]

/-- Reads all traits of a bound. -/
def allBounds : Reader (List WrittenBound) := do bounds ((← remaining) + 1)

/-- Reads a generic parameter. -/
def generic : Reader WrittenGeneric := do
  if ← eatWord "const" then
    let name ← expectIdent
    expect .colon
    return ⟨name, some (← anyTy), [], none⟩
  else
    let name ← expectIdent
    let bounds ← if ← eat .colon then allBounds else pure []
    let default ← if ← eat .eq then some <$> anyTy else pure none
    return ⟨name, none, bounds, default⟩

/-- Reads a bounded type. -/
def whereClause : Reader (Ty × List WrittenBound) := do
  let t ← anyTy
  expect .colon
  return (t, ← allBounds)

end Written

/-- Reads a text that is one type. -/
def Ty.parse (source : String) : Except ParseError Ty := Written.anyTy.runOn source

/-- Reads a text that is one trait reference. -/
def TraitRef.parse (source : String) : Except ParseError TraitRef := Written.traitRef.runOn source

/-- Reads a text that is one generic parameter. -/
def WrittenGeneric.parse (source : String) : Except ParseError WrittenGeneric :=
  Written.generic.runOn source

/-- Reads a text that is one bounded type. -/
def WrittenBound.parseClause (source : String) : Except ParseError (Ty × List WrittenBound) :=
  Written.whereClause.runOn source

end Pipeline
