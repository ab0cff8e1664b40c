import Pipeline.Decl.Signature
import Pipeline.Expr.Parser

/-!
# Declarations

Types, traits, impls and extensions as a store holds them: every name in their types is the path
of a declaration, and generic parameters are parameters.
-/

set_option autoImplicit false
set_option relaxedAutoImplicit false

namespace Pipeline

/-- What a generic parameter ranges over. -/
inductive GenericKind where
  | type
  | const (ty : Ty)
deriving DecidableEq, Repr

/-- A generic parameter. -/
structure Generic where
  name : String
  kind : GenericKind
  default : Option Ty
deriving DecidableEq, Repr

namespace Generic

/-- The names of generic parameters. -/
def names (generics : List Generic) : List String := generics.map (·.name)

/-- Gives arguments to parameters, pairwise from the left. -/
def assign (generics : List Generic) (args : List Ty) : Subst :=
  NameMap.ofList ((names generics).zip args)

end Generic

/-- A field of a struct. -/
structure FieldDecl where
  name : String
  ty : Ty
  isPublic : Bool
  explain : Option String
deriving DecidableEq, Repr

/-- The shape of a declared type. -/
inductive TypeKind where
  /-- Implemented outside the declarations. -/
  | native
  | struct (fields : List FieldDecl)
  | enum (variants : List String)
  /-- A wrapper around one inner type. -/
  | transparent (inner : Ty)
  | synonym (target : Ty)
deriving DecidableEq, Repr

/-- The role of a component in a pipeline. -/
inductive ComponentKind where
  | source
  | sink
  | transform
  | feeder
deriving DecidableEq, Repr

/-- The word for a role. -/
def ComponentKind.text : ComponentKind → String
  | source => "source"
  | sink => "sink"
  | transform => "transform"
  | feeder => "feeder"

/-- A declared type. -/
structure TypeDecl where
  path : String
  name : String
  module : String
  generics : List Generic
  kind : TypeKind
  component : Option ComponentKind
  explain : Option String
deriving DecidableEq, Repr

namespace TypeDecl

/-- The type applied to its own parameters. -/
def asTy (d : TypeDecl) : Ty := .named d.path (d.generics.map fun g => .param g.name)

/-- The type with nothing known about its arguments. -/
def openTy (d : TypeDecl) : Ty := .named d.path (d.generics.map fun _ => .infer)

/-- The fields of a struct. -/
def fields (d : TypeDecl) : List FieldDecl :=
  match d.kind with
  | .struct fields => fields
  | _ => []

/-- The field of a name. -/
def field? (d : TypeDecl) (name : String) : Option FieldDecl :=
  d.fields.find? (·.name == name)

/-- True for a struct. -/
def isStruct (d : TypeDecl) : Bool :=
  match d.kind with
  | .struct _ => true
  | _ => false

/-- Gives the arguments of a type to the parameters of its declaration. -/
def substFor (d : TypeDecl) (t : Ty) : Subst := Generic.assign d.generics t.args

end TypeDecl

/-- A method of a trait, with the body it has unless an impl gives another. -/
structure TraitMethod where
  sig : MethodSig
  default : Option Snippet
deriving Repr

/-- An associated type of a trait. -/
structure AssocDecl where
  name : String
  bound : Option TraitRef
deriving DecidableEq, Repr

/-- Makes every impl of a trait an impl of another one that holds at declaration time. -/
structure Specialization where
  /-- The trait implied, in terms of the parameters of the implying one. -/
  target : TraitRef
  /-- Bodies for the methods of the trait implied. -/
  defaults : List (String × Snippet)
deriving Repr

/-- A declared trait. -/
structure TraitDecl where
  path : String
  name : String
  module : String
  generics : List Generic
  assoc : List AssocDecl
  methods : List TraitMethod
  specialization : Option Specialization
  explain : Option String
deriving Repr

namespace TraitDecl

/-- The method of a name. -/
def method? (d : TraitDecl) (name : String) : Option TraitMethod :=
  d.methods.find? (·.sig.name == name)

/-- The body the specialization gives to a method of the trait implied. -/
def specializedDefault? (d : TraitDecl) (name : String) : Option Snippet :=
  d.specialization.bind fun s => (s.defaults.find? (·.1 == name)).map (·.2)

/-- Appends the arguments left out, for the parameters `rest`, to the arguments `given`: the
declared default, or the wildcard. -/
def appendDefaults (d : TraitDecl) (self : Ty) : List Generic → List Ty → List Ty
  | [], given => given
  | g :: rest, given =>
    let arg := match g.default with
      | some t => (t.withSelf self).substitute (Generic.assign d.generics given)
      | none => .infer
    appendDefaults d self rest (given ++ [arg])

/-- The arguments of the trait for an implementing type, those left out included. -/
def completeArgs (d : TraitDecl) (self : Ty) (args : List Ty) : List Ty :=
  d.appendDefaults self (d.generics.drop args.length) args

/-- Gives arguments to the parameters of the trait. -/
def substFor (d : TraitDecl) (args : List Ty) : Subst := Generic.assign d.generics args

end TraitDecl

/-- A type that has to implement a trait. -/
structure Bound where
  ty : Ty
  traitRef : TraitRef
  /-- Only an implementation that holds at declaration time will do. -/
  constRequired : Bool
deriving DecidableEq, Repr

/-- The text of a bound. -/
def Bound.text (b : Bound) : String :=
  b.ty.text ++ ": " ++ (if b.constRequired then "~const " else "") ++ b.traitRef.text

/-- The body of a method. -/
inductive MethodBody where
  | expr (body : Snippet)
  /-- Implemented outside the declarations. -/
  | external
deriving Repr

/-- A method with its body. -/
structure ImplMethod where
  sig : MethodSig
  body : MethodBody
deriving Repr

/-- Who wrote an impl. -/
inductive ImplOrigin where
  | declared
  /-- Made by the store for wrappers and components. -/
  | synthesized
deriving DecidableEq, Repr

/-- The word for the origin of an impl. -/
def ImplOrigin.text : ImplOrigin → String
  | declared => "declared"
  | synthesized => "synthesized"

/-- An impl: methods of a type, or what makes a type implement a trait. -/
structure ImplDecl where
  id : Nat
  module : String
  document : String
  generics : List Generic
  target : Ty
  /-- Nothing for methods of the type itself. -/
  traitRef : Option TraitRef
  bounds : List Bound
  assoc : List (String × Ty)
  methods : List ImplMethod
  isConst : Bool
  origin : ImplOrigin
deriving Repr

namespace ImplDecl

/-- True when the impl is for every type. -/
def isBlanket (d : ImplDecl) : Bool := d.target.isParam

/-- The method of a name. -/
def method? (d : ImplDecl) (name : String) : Option ImplMethod :=
  d.methods.find? (·.sig.name == name)

/-- The associated type of a name. -/
def assoc? (d : ImplDecl) (name : String) : Option Ty :=
  (d.assoc.find? (·.1 == name)).map (·.2)

/-- The arguments given to the trait. -/
def traitArgs (d : ImplDecl) : List Ty :=
  match d.traitRef with
  | some t => t.args
  | none => []

/-- The text of an impl. -/
def text (d : ImplDecl) : String :=
  "impl" ++
    (if d.generics.isEmpty then "" else "<" ++ Text.join ", " (Generic.names d.generics) ++ ">") ++
    (match d.traitRef with
      | some t => " " ++ t.text ++ " for " ++ d.target.text
      | none => " " ++ d.target.text) ++
    (if d.bounds.isEmpty then "" else " where " ++ Text.join ", " (d.bounds.map Bound.text))

end ImplDecl

/-- Methods for a type in a namespace of their own. -/
structure ExtensionDecl where
  path : String
  name : String
  module : String
  generics : List Generic
  target : Ty
  bounds : List Bound
  methods : List ImplMethod
deriving Repr

/-- The method of a name. -/
def ExtensionDecl.method? (d : ExtensionDecl) (name : String) : Option ImplMethod :=
  d.methods.find? (·.sig.name == name)

end Pipeline
