import Pipeline.Store.Basic
import Pipeline.Ty.Unify

/-!
# Obligations

An obligation asks that a type implements a trait. It is met by a candidate: an impl with types
for its parameters, or the promise of an opaque type.
-/

set_option autoImplicit false
set_option relaxedAutoImplicit false

namespace Pipeline

/-- A type that has to implement a trait. -/
structure Obligation where
  ty : Ty
  traitRef : TraitRef
deriving DecidableEq, Repr

/-- How a candidate meets an obligation. -/
inductive CandidateOrigin where
  | direct
  | blanket
  /-- By an impl of a trait that specializes the one asked for. -/
  | specialization (via : String)
  /-- By the promise of an opaque type. -/
  | promised
deriving DecidableEq, Repr

/-- The words for an origin. -/
def CandidateOrigin.text : CandidateOrigin → String
  | direct => "direct"
  | blanket => "blanket"
  | specialization via => "specialized via " ++ via
  | promised => "opaque"

/-- What meets an obligation. -/
structure Candidate where
  /-- Nothing for an opaque type. -/
  implId : Option Nat
  /-- The trait that was asked for. -/
  traitPath : String
  origin : CandidateOrigin
  /-- Types for the parameters of the impl. -/
  subst : Subst
  /-- True when it holds at declaration time. -/
  isConst : Bool
  assoc : List (String × Ty)
deriving DecidableEq, Repr

namespace Candidate

/-- The associated type of a name. -/
def assoc? (c : Candidate) (name : String) : Option Ty :=
  (c.assoc.find? (·.1 == name)).map (·.2)

/-- A candidate in words. -/
def describe (c : Candidate) (store : Store) : String :=
  match c.origin, c.implId.bind store.impl? with
  | .promised, _ => "opaque " ++ Path.last c.traitPath
  | _, none => "opaque " ++ Path.last c.traitPath
  | .specialization _, some d => d.text ++ " (specialized) in " ++ d.document
  | _, some d => d.text ++ " in " ++ d.document

end Candidate

/-- What became of an obligation. -/
inductive Resolution where
  | met (candidate : Candidate)
  | ambiguous (candidates : List Candidate)
  | notImplemented
deriving DecidableEq, Repr

namespace Resolution

/-- The only candidate. -/
def candidate? : Resolution → Option Candidate
  | met c => some c
  | _ => none

/-- The resolution by equally good candidates, if there are any. -/
def ofTier : List Candidate → Option Resolution
  | [] => none
  | [c] => some (met c)
  | cs => some (ambiguous cs)

/-- A resolution in words. -/
def describe (store : Store) : Resolution → String
  | met c => c.describe store
  | ambiguous cs => "ambiguous between " ++ Text.natText cs.length ++ " candidates"
  | notImplemented => "not implemented"

/-- True when a bound holds by this resolution of its obligation. -/
def satisfies (constRequired : Bool) : Resolution → Bool
  | met c => !constRequired || c.isConst
  | ambiguous cs => !constRequired || cs.all (·.isConst)
  | notImplemented => false

end Resolution

end Pipeline
