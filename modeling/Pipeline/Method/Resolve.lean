import Pipeline.Obligation.Basic
import Pipeline.Obligation.Resolve

/-!
# Methods and calls

A method of the type itself or of a visible extension comes first, then the methods of the traits
that the type implements; a trait hides the one that it specializes. Several methods of the same
rank need a qualifier.
-/

set_option autoImplicit false
set_option relaxedAutoImplicit false

namespace Pipeline

/-- What provides a method. -/
inductive MethodProvider where
  /-- An impl of the type itself. -/
  | inherent (implId : Nat)
  | extension (path : String)
  | trait (path : String) (candidate : Candidate)
deriving DecidableEq, Repr

/-- A provider in words. -/
def MethodProvider.text : MethodProvider → String
  | inherent implId => "inherent impl #" ++ Text.natText implId
  | extension path => "extension " ++ path
  | trait path _ => "trait " ++ path

/-- A method for a receiver. -/
structure Method where
  name : String
  provider : MethodProvider
  sig : MethodSig
  /-- Nothing for a method that nobody gives a body. -/
  body : Option MethodBody
  /-- The module whose names the body sees. -/
  module : String
  /-- True when the method may be evaluated at declaration time. -/
  constCapable : Bool
deriving Repr

namespace Method

/-- True when a call can be evaluated at declaration time. -/
def isConstEvaluable (m : Method) (known : Bool) : Bool := m.constCapable && known

/-- A method in words. -/
def describe (m : Method) (store : Store) : String :=
  match m.provider with
  | .inherent implId =>
    match store.impl? implId with
    | some d => "inherent " ++ Path.child d.target.text m.name
    | none => "inherent " ++ m.name
  | .extension path => Path.child path m.name
  | .trait path _ => Path.child path m.name

end Method

/-- What became of a call. -/
inductive MethodResolution where
  | found (method : Method)
  /-- Several methods, told apart by a qualifier if `requiresQualification` holds. -/
  | ambiguous (candidates : List String) (requiresQualification : Bool)
  | notFound
deriving Repr

namespace MethodResolution

/-- The resolution by equally good methods, if there are any. -/
def ofTier (store : Store) : List Method → Option MethodResolution
  | [] => none
  | [m] => some (found m)
  | ms => some (ambiguous (ms.map (·.describe store)) true)

end MethodResolution
end Pipeline

/-! ### Methods of impls, extensions and traits -/

namespace Pipeline.Store

/-- True when all bounds hold with types given for parameters. A bound on a type that is not known
completely is taken to hold; a bound that holds in several ways is not. -/
def boundsAllow (store : Store) (subst : Subst) : List Bound → Logged Bool
  | [] => pure true
  | b :: rest => do
    let ty := b.ty.substitute subst
    if !ty.isConcrete then boundsAllow store subst rest
    else
      match ← store.resolve ty (b.traitRef.substitute subst) with
      | .met c =>
        if !b.constRequired || c.isConst then boundsAllow store subst rest else return false
      | _ => return false

/-- Types for parameters that make a target fit a receiver. -/
def instantiate (store : Store) (generics : List Generic) (target : Ty) (bounds : List Bound)
    (receiver : Ty) : Logged (Option Subst) :=
  match Ty.unify (Generic.names generics) (store.normalize target) receiver [] with
  | (false, _) => pure none
  | (true, subst) => do
    if ← store.boundsAllow subst bounds then return some subst else return none

/-- The methods of a name that impls give to the type of a receiver itself. -/
def inherentMethods (store : Store) (receiver : Ty) (name : String) :
    List ImplDecl → Logged (List Method)
  | [] => pure []
  | d :: rest => do
    let found ←
      match d.method? name with
      | none => pure []
      | some m =>
        match ← store.instantiate d.generics d.target d.bounds receiver with
        | none => pure []
        | some subst => pure [{
            name := name
            provider := .inherent d.id
            sig := m.sig.substitute subst
            body := some m.body
            module := d.module
            constCapable := m.sig.tag == .const || d.isConst : Method }]
    return found ++ (← inherentMethods store receiver name rest)

/-- The method of a name that an extension gives to a receiver. -/
def extensionMethod? (store : Store) (receiver : Ty) (path name : String) :
    Logged (Option Method) :=
  match store.extension? path with
  | none => pure none
  | some d =>
    match d.method? name with
    | none => pure none
    | some m => do
      match ← store.instantiate d.generics d.target d.bounds receiver with
      | none => return none
      | some subst => return some {
          name := name
          provider := .extension path
          sig := m.sig.substitute subst
          body := some m.body
          module := d.module
          constCapable := m.sig.tag == .const }

/-- The methods of a name that extensions give to a receiver. -/
def extensionMethods (store : Store) (receiver : Ty) (name : String) :
    List String → Logged (List Method)
  | [] => pure []
  | path :: rest => do
    let found ← store.extensionMethod? receiver path name
    return found.toList ++ (← extensionMethods store receiver name rest)

/-- A signature of a trait for a receiver that a candidate makes implement it. -/
def sigFor (sig : MethodSig) (receiver : Ty) (subst : Subst) (c : Candidate) : MethodSig :=
  sig.replace fun
    | .projection .selfTy name => c.assoc? name
    | .selfTy => some receiver
    | .param name => subst.get? name
    | _ => none

/-- The body that the specializing trait of a candidate gives to a method, and its module. -/
def specializedBody? (store : Store) (c : Candidate) (name : String) :
    Option (Snippet × String) :=
  match c.origin with
  | .specialization via => do
    let trait ← store.trait? via
    return (← trait.specializedDefault? name, trait.module)
  | _ => none

/-- A method of a trait as a candidate provides it: the body of its impl, else the one of the
specializing trait, else the one of the trait itself. -/
def methodOf (store : Store) (receiver : Ty) (trait : TraitDecl) (declared : TraitMethod)
    (args : List Ty) (c : Candidate) : Method :=
  let name := declared.sig.name
  let own : Option (ImplDecl × ImplMethod) := do
    let d ← c.implId.bind store.impl?
    return (d, ← d.method? name)
  let sig := sigFor declared.sig receiver (trait.substFor args) c
  let (sig, body, module) : MethodSig × Option MethodBody × String :=
    match own, store.specializedBody? c name with
    | some (d, m), _ => (m.sig.substitute c.subst, some m.body, d.module)
    | none, some (body, module) => (sig, some (.expr body), module)
    | none, none => (sig, declared.default.map .expr, trait.module)
  { name := name
    provider := .trait trait.path c
    sig := sig
    body := body
    module := module
    constCapable := sig.tag == .const || c.isConst }

/-- What a trait has to offer for a call. -/
inductive Offer where
  | method (method : Method)
  /-- Impls between which nothing decides. -/
  | tied (impls : List String)
  | nothing

/-- What a trait offers to a receiver under a name. -/
def offer (store : Store) (receiver : Ty) (trait : TraitDecl) (name : String) : Logged Offer :=
  match trait.method? name with
  | none => pure .nothing
  | some declared => do
    let args := trait.completeArgs receiver []
    match ← store.resolve receiver (.plain trait.path args) with
    | .met c => return .method (store.methodOf receiver trait declared args c)
    | .ambiguous cs => return .tied (cs.map (·.describe store))
    | .notImplemented => return .nothing

/-- What each of the traits offers. -/
def offers (store : Store) (receiver : Ty) (name : String) :
    List TraitDecl → Logged (List (TraitDecl × Offer))
  | [] => pure []
  | trait :: rest => do
    let offered ← store.offer receiver trait name
    return (trait, offered) :: (← offers store receiver name rest)

/-- The method of a name among those of traits. -/
def traitTier (store : Store) (receiver : Ty) (name : String) : Logged MethodResolution := do
  let all ← store.offers receiver name store.traits.values
  let tied := all.flatMap fun o =>
    match o.2 with
    | .tied impls => impls
    | _ => []
  if !tied.isEmpty then return .ambiguous tied false
  else
    let found := all.filterMap fun o =>
      match o.2 with
      | .method m => some (o.1, m)
      | _ => none
    let hidden := found.filterMap fun f => f.1.specialization.map (·.target.path)
    let visible := found.filter fun f => !hidden.contains f.1.path
    return (MethodResolution.ofTier store (visible.map (·.2))).getD .notFound

/-- The method that a call on a normal type means. -/
def callTarget (store : Store) (receiver : Ty) (name : String) (visible : List String) :
    Logged MethodResolution := do
  let inherent ← store.inherentMethods receiver name store.inherentImpls
  let extensions ← store.extensionMethods receiver name visible
  match MethodResolution.ofTier store (inherent ++ extensions) with
  | some r => return r
  | none => store.traitTier receiver name

/-- The method that a call on a receiver means where the extensions `visible` are in scope. -/
def resolveCall (store : Store) (receiver : Ty) (name : String) (visible : List String) :
    Logged MethodResolution := do
  let receiver := store.normalize receiver
  let r ← store.callTarget receiver name visible
  match r with
  | .found m =>
    Logged.report (.methodResolved receiver name m.provider.text m.constCapable)
    return r
  | _ => return r

/-- The method that a call qualified by the path of an extension, a trait or a type means. The
receiver is the type of the first argument, if there is one. -/
def resolveQualified (store : Store) (receiver : Option Ty) (qualifier name : String) :
    Logged MethodResolution := do
  let receiver := receiver.map store.normalize
  if (store.extension? qualifier).isSome then
    match receiver with
    | none => return .notFound
    | some t =>
      match ← store.extensionMethod? t qualifier name with
      | some m => return .found m
      | none => return .notFound
  else
    match store.index.symbol? qualifier with
    | some ⟨.trait, _⟩ =>
      match receiver, store.trait? qualifier with
      | some t, some trait =>
        match ← store.offer t trait name with
        | .method m => return .found m
        | .tied impls => return .ambiguous impls false
        | .nothing => return .notFound
      | _, _ => return .notFound
    | some ⟨.type, _⟩ =>
      match store.type? qualifier with
      | none => return .notFound
      | some d =>
        let self := d.openTy
        let found ← store.inherentMethods self name store.inherentImpls
        match MethodResolution.ofTier store found with
        | some r => return r
        | none => store.traitTier self name
    | _ => return .notFound

end Pipeline.Store
