import Pipeline.Decl.Basic

/-!
# Schemas

A schema tells which parameters a component takes, and what must hold of them.
-/

set_option autoImplicit false
set_option relaxedAutoImplicit false

namespace Pipeline

/-- A condition on one parameter or on all of them together. -/
structure Check where
  snippet : Snippet
  /-- The parameter or column that the condition is about. -/
  subject : Option String
  explain : Option String
deriving Repr

/-- The text of a condition. -/
def Check.source (c : Check) : String := c.snippet.source

/-- A parameter. -/
structure Param where
  name : String
  ty : Ty
  default : Option Snippet
  checks : List Check
  explain : Option String
deriving Repr

/-- The parameters of a component or the fields of a record. -/
structure Schema where
  /-- The type that is made of the parameters. -/
  component : String
  /-- Nothing for a record. -/
  kind : Option ComponentKind
  /-- The module whose names defaults and checks see. -/
  module : String
  document : String
  generics : List Generic
  params : List Param
  /-- Conditions on all parameters together. -/
  checks : List Check
  /-- Conditions on the items produced. -/
  runtimeChecks : List Check
deriving Repr

namespace Schema

/-- The parameter of a name. -/
def param? (s : Schema) (name : String) : Option Param := s.params.find? (·.name == name)

/-- The schema of a struct: its public fields, all of them required. -/
def ofStruct (d : TypeDecl) : Schema where
  component := d.path
  kind := none
  module := d.module
  document := d.module
  generics := d.generics
  params := (d.fields.filter (·.isPublic)).map fun f => ⟨f.name, f.ty, none, [], f.explain⟩
  checks := []
  runtimeChecks := []

/-- The schema with types given for the parameters of its component. -/
def instantiate (s : Schema) (args : List Ty) : Schema :=
  let subst := Generic.assign s.generics args
  { s with params := s.params.map fun p => { p with ty := p.ty.substitute subst } }

end Schema
end Pipeline
