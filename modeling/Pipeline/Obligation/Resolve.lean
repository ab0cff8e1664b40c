import Pipeline.Log.Event
import Pipeline.Obligation.Basic

/-!
# Resolving obligations

Candidates come in tiers: the promise of an opaque type, impls of traits that specialize the one
asked for, impls for the type, and impls for all types. The first tier that has a candidate
decides. The bounds of an impl are obligations themselves; one that comes up inside itself, or is
nested too deeply, counts as not met.
-/

set_option autoImplicit false
set_option relaxedAutoImplicit false

namespace Pipeline

namespace Candidate

/-- True when every associated type asked for is there and fits. -/
def assocFits (provided wanted : List (String × Ty)) : Bool :=
  wanted.all fun w =>
    match provided.find? (·.1 == w.1) with
    | some found => found.2.fits w.2
    | none => false

end Candidate

namespace Store

/-- Resolves an obligation that a bound gives rise to. -/
abbrev Resolver := Ty → TraitRef → Logged Resolution

/-- The arguments that an impl of a specializing trait gives to the trait it specializes. -/
def impliedArgs (trait : TraitDecl) (target : TraitRef) (args : List Ty) : List Ty :=
  (target.substitute (trait.substFor args)).args

/-- The candidate that an opaque type promises: its own trait, or what this one specializes.
Arguments which the promise leaves out ask for nothing. -/
def promised? (store : Store) (promise query : TraitRef) : Option Candidate := do
  let (args, isConst) ←
    if promise.path = query.path then some (promise.args, false)
    else do
      let trait ← store.trait? promise.path
      let spec ← trait.specialization
      if spec.target.path = query.path then
        some (impliedArgs trait spec.target promise.args, true)
      else none
  if (args.zip query.args).all (fun a => a.1.fits a.2) &&
      Candidate.assocFits promise.assoc query.assoc then
    some ⟨none, query.path, .promised, [], isConst, promise.assoc⟩
  else none

/-- True when all bounds hold with types given for parameters; the first that does not ends the
search. -/
def boundsHold (holds : Resolver) (subst : Subst) : List Bound → Logged Bool
  | [] => pure true
  | b :: rest => do
    let r ← holds (b.ty.substitute subst) (b.traitRef.substitute subst)
    if r.satisfies b.constRequired then boundsHold holds subst rest else pure false

/-- Types for the parameters of an impl that present `args` as arguments of the trait and make it
apply to a type, as far as its form goes. -/
def alignImpl? (store : Store) (decl : ImplDecl) (args : List Ty) (ty : Ty) (query : TraitRef) :
    Option Subst :=
  let vars := Generic.names decl.generics
  match Ty.unify vars (store.normalize decl.target) ty [] with
  | (false, _) => none
  | (true, s) =>
    if args.length ≠ query.args.length then none
    else
      match Ty.unifyAll vars (args.map store.normalize) query.args s with
      | (true, s) => some s
      | (false, _) => none

/-- Matches an impl that presents `args` as arguments of the trait. -/
def matchImpl (store : Store) (holds : Resolver) (decl : ImplDecl) (args : List Ty) (ty : Ty)
    (query : TraitRef) : Logged (Option (Subst × List (String × Ty))) :=
  match store.alignImpl? decl args ty query with
  | none => pure none
  | some subst =>
    let assoc := decl.assoc.map fun a => (a.1, store.normalize (a.2.substitute subst))
    if !Candidate.assocFits assoc query.assoc then pure none
    else do
      if ← boundsHold holds subst decl.bounds then return some (subst, assoc) else return none

/-- The candidates among impls that present certain arguments of the trait. -/
def candidates (store : Store) (holds : Resolver) (ty : Ty) (query : TraitRef)
    (origin : CandidateOrigin) (isConst : ImplDecl → Bool) :
    List (ImplDecl × List Ty) → Logged (List Candidate)
  | [] => pure []
  | (decl, args) :: rest => do
    let found ← store.matchImpl holds decl args ty query
    let more ← candidates store holds ty query origin isConst rest
    match found with
    | some (subst, assoc) =>
      return ⟨some decl.id, query.path, origin, subst, isConst decl, assoc⟩ :: more
    | none => return more

/-- The candidates that traits specializing the one asked for provide. -/
def specialized (store : Store) (holds : Resolver) (ty : Ty) (query : TraitRef) :
    List TraitDecl → Logged (List Candidate)
  | [] => pure []
  | trait :: rest => do
    let found ←
      match trait.specialization with
      | none => pure []
      | some spec =>
        store.candidates holds ty query (.specialization trait.path) (fun _ => true)
          ((store.implsOf trait.path).map fun d => (d, impliedArgs trait spec.target d.traitArgs))
    return found ++ (← specialized store holds ty query rest)

/-- The best candidates for a trait that a normal type is asked to implement. -/
def select (store : Store) (holds : Resolver) (trait : TraitDecl) (ty : Ty) (query : TraitRef) :
    Logged Resolution := do
  let promised := match ty with
    | .promise path args assoc => store.promised? ⟨path, args, assoc⟩ query
    | _ => none
  match promised with
  | some c => return .met c
  | none =>
    let derived ← store.specialized holds ty query (store.specializationsOf query.path)
    match Resolution.ofTier derived with
    | some r => return r
    | none =>
      let isConst (d : ImplDecl) : Bool := d.isConst || trait.specialization.isSome
      let (blanket, direct) := (store.implsOf query.path).partition (·.isBlanket)
      let withArgs := fun d : ImplDecl => (d, d.traitArgs)
      let found ← store.candidates holds ty query .direct isConst (direct.map withArgs)
      match Resolution.ofTier found with
      | some r => return r
      | none =>
        let found ← store.candidates holds ty query .blanket isConst (blanket.map withArgs)
        return (Resolution.ofTier found).getD .notImplemented

/-- An obligation without aliases, the arguments of its trait complete. -/
def obligation (store : Store) (trait : TraitDecl) (ty : Ty) (t : TraitRef) : Obligation :=
  let ty := store.normalize ty
  ⟨ty, {
    path := t.path
    args := (trait.completeArgs ty t.args).map store.normalize
    assoc := t.assoc.map fun a => (a.1, store.normalize a.2) }⟩

/-- Resolves an obligation inside others, down to a depth. -/
def resolveInside (store : Store) : Nat → List Obligation → Resolver
  | depth, stack, ty, t =>
    match store.trait? t.path with
    | none => pure .notImplemented
    | some trait =>
      let o := store.obligation trait ty t
      let cyclic := stack.contains o
      let abandon : Logged Resolution := do
        Logged.report (.obligationAbandoned o.ty o.traitRef stack.length cyclic)
        return .notImplemented
      match depth with
      | 0 => abandon
      | depth + 1 =>
        if cyclic then abandon
        else store.select (resolveInside store depth (o :: stack)) trait o.ty o.traitRef

/-- Resolves an obligation, those that it gives rise to included down to a depth. -/
def resolveTo (store : Store) (depth : Nat) : Resolver := fun ty t => do
  let r ← store.resolveInside depth [] ty t
  Logged.report (.obligationResolved ty t (r.describe store))
  return r

/-- Resolves an obligation. -/
def resolve (store : Store) : Resolver := store.resolveTo store.maxDepth

/-- True when a type implements a trait in one way. -/
def implements (store : Store) (ty : Ty) (t : TraitRef) : Logged Bool :=
  (fun r => r.candidate?.isSome) <$> store.resolve ty t

/-- An associated type of a type that implements a trait. -/
def project (store : Store) (ty : Ty) (trait name : String) : Logged (Option Ty) :=
  (fun r => r.candidate?.bind (·.assoc? name)) <$> store.resolve ty (.plain trait [])

end Store
end Pipeline
