import Pipeline.Ty.Basic
import Pipeline.Ty.Written

/-!
# Method signatures

A signature names a method, tells how it may be evaluated, whether it takes a receiver, and the
types of its parameters and of its result.
-/

set_option autoImplicit false
set_option relaxedAutoImplicit false

namespace Pipeline

/-- How a method may be evaluated. -/
inductive MethodTag where
  | regular
  /-- At declaration time, once its arguments are known. -/
  | const
  /-- Always outside the declarations. -/
  | external
deriving DecidableEq, Repr

/-- The word before a signature. -/
def MethodTag.marker : MethodTag → String
  | regular => ""
  | const => "const "
  | external => "extern "

/-- A signature. -/
structure MethodSig where
  name : String
  tag : MethodTag
  /-- True when the method takes `self`. -/
  receiver : Bool
  params : List (String × Ty)
  ret : Ty
deriving DecidableEq, Repr

namespace MethodSig

/-- Replaces in the types of the parameters and of the result. -/
def replace (f : Ty → Option Ty) (s : MethodSig) : MethodSig :=
  { s with params := s.params.map fun p => (p.1, p.2.replace f), ret := s.ret.replace f }

/-- Replaces the parameters that have an entry. -/
def substitute (subst : Subst) (s : MethodSig) : MethodSig :=
  s.replace fun
    | .param name => subst.get? name
    | _ => none

/-- The text of a signature. -/
def text (s : MethodSig) : String :=
  let params := s.params.map fun p => p.1 ++ ": " ++ p.2.text
  let all := if s.receiver then "self" :: params else params
  s.tag.marker ++ "fn " ++ s.name ++ "(" ++ Text.join ", " all ++ ")" ++
    match s.ret with
    | .unit => ""
    | ret => " -> " ++ ret.text

end MethodSig

namespace Written

open Reader

/-- Reads the parameters up to the closing parenthesis; only the first of them may be `self`. -/
def signatureParams : Nat → Bool → Reader (Bool × List (String × Ty))
  | 0, _ => unexpected .identifier
  | fuel + 1, first => do
    if ← eat .rparen then return (false, [])
    let isSelf ← if first then eatWord "self" else pure false
    if isSelf then
      if ← eat .comma then
        return (true, (← signatureParams fuel false).2)
      else
        expect .rparen
        return (true, [])
    else
      let name ← expectIdent
      expect .colon
      let t ← anyTy
      if ← eat .comma then
        return (false, (name, t) :: (← signatureParams fuel false).2)
      else
        expect .rparen
        return (false, [(name, t)])

/-- Reads the word before a signature. -/
def methodTag : Reader MethodTag := do
  if ← eatWord "const" then return .const
  if ← eatWord "extern" then return .external
  return .regular

/-- Reads the type of a result; without an arrow it is the unit type. -/
def resultTy : Reader Ty := do
  if ← eat .arrow then anyTy else return .unit

/-- Reads a signature. -/
def signature : Reader MethodSig := do
  let tag ← methodTag
  if !(← eatWord "fn") then unexpected .fnWord
  let name ← expectIdent
  expect .lparen
  let (receiver, params) ← signatureParams ((← remaining) + 1) true
  let ret ← resultTy
  return ⟨name, tag, receiver, params, ret⟩

end Written

/-- Reads a text that is one signature; its types are left as written. -/
def MethodSig.parse (source : String) : Except ParseError MethodSig :=
  Written.signature.runOn source

end Pipeline
