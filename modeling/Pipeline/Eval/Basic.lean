import Pipeline.Method.Resolve
import Pipeline.Scope.Resolve
import Pipeline.Value.Operation

/-!
# The surroundings of an expression

An expression is evaluated in the scope of the module it was written in, with values for its
names. Paths in it stand for types, for variants of enums, and for qualifiers of calls.
-/

set_option autoImplicit false
set_option relaxedAutoImplicit false

namespace Pipeline

/-- What an expression sees. -/
structure Env where
  /-- The module whose scope gives meaning to paths. -/
  module : String
  self : Option Value := none
  /-- The type that `Self` stands for. -/
  selfTy : Option Ty := none
  vars : NameMap Value := []
deriving Repr, Inhabited

namespace Env

/-- The surroundings with a value for `self`. -/
def withSelf (env : Env) (v : Value) : Env := { env with self := some v, selfTy := some v.ty }

/-- The surroundings with a value for a name. -/
def withVar (env : Env) (name : String) (v : Value) : Env :=
  { env with vars := env.vars.insert name v }

end Env

/-- An evaluation: a value or a fault, and what is reported on the way. -/
abbrev Eval := ExceptT EvalError Logged

namespace Eval

variable {α : Type}

/-- Stops with a type fault. -/
def typeFault (fault : TypeFault) : Eval α := throw (.type fault)

/-- The value, or a fault where there is none. -/
def orElse (x : Option α) (e : EvalError) : Eval α :=
  match x with
  | some a => pure a
  | none => throw e

end Eval

namespace Store

/-- The names that an expression sees; those of the prelude where a module is not loaded. -/
def scopeOf (store : Store) (env : Env) : Option ModuleScope :=
  match store.scope? env.module with
  | some scope => some scope
  | none => store.scope? preludeModule

/-- The extensions that an expression sees. -/
def visibleFrom (store : Store) (env : Env) : List String :=
  match store.scopeOf env with
  | some scope => scope.visibleExtensions
  | none => []

/-- What a path in an expression stands for. -/
def symbolIn? (store : Store) (env : Env) (segments : List String) : Option Symbol :=
  if segments = ["Self"] then
    (env.selfTy.bind (·.path?)).map fun path => ⟨.type, path⟩
  else
    let written := Path.ofSegments segments
    match store.scopeOf env with
    | some scope => (scope.resolvePath written store.index).toOption
    | none => store.index.symbol? written

/-- The type that a path in an expression stands for. -/
def typeIn? (store : Store) (env : Env) (segments : List String) : Option TypeDecl :=
  match store.symbolIn? env segments with
  | some ⟨.type, path⟩ => store.type? path
  | _ => none

/-- The variant of an enum that a path in an expression stands for. -/
def variantIn? (store : Store) (env : Env) (segments : List String) : Option Value := do
  let name ← segments.getLast?
  let decl ← store.typeIn? env segments.dropLast
  match decl.kind with
  | .enum variants => if variants.contains name then some (.variant decl.asTy name) else none
  | _ => none

/-- True for a field that a module may not use. -/
def isHidden (decl : TypeDecl) (field : FieldDecl) (module : String) : Bool :=
  !field.isPublic && decl.module != module

/-- A field of a value. -/
def fieldOf (store : Store) (env : Env) (base : Value) (name : String) :
    Except EvalError Value := do
  let t := store.normalize base.ty
  let decl? := t.path?.bind store.type?
  let declared : Option (TypeDecl × FieldDecl) := do
    let decl ← decl?
    return (decl, ← decl.field? name)
  match declared with
  | some (decl, field) =>
    if isHidden decl field env.module then throw (.type (.privateField name decl.path))
  | none => pure ()
  let missing : Except EvalError Value := .error (.type (.noField t name))
  match base with
  | .record _ fields =>
    match fields.find? (·.1 == name) with
    | some (_, v) => return v
    | none => missing
  | .ref _ _ | .deferred _ _ =>
    match declared with
    | some (decl, field) =>
      return .deferred (field.ty.substitute (decl.substFor t)) (base.text ++ "." ++ name)
    | none => missing
  | _ => missing

/-- The arguments of a struct that the types of its fields' values amount to. -/
def structArgs (decl : TypeDecl) (fields : List (String × Value)) : List Ty :=
  let vars := Generic.names decl.generics
  let subst := decl.fields.foldl
    (fun (s : Subst) f =>
      match fields.find? (·.1 == f.name) with
      | some (_, v) => (Ty.unify vars f.ty v.ty s).2
      | none => s)
    []
  decl.generics.map fun g => (subst.get? g.name).getD .infer

/-- Makes a struct of the values given for its fields. -/
def structOf (decl : TypeDecl) (given : NameMap Value) : Except EvalError Value := do
  let fields ← decl.fields.mapM fun f =>
    match given.get? f.name with
    | some v => .ok (f.name, v)
    | none => .error (.type (.missingField f.name decl.path))
  return .record (.named decl.path (structArgs decl fields)) fields

/-- The declaration of a field that an expression may give a value to, once. -/
def checkField (decl : TypeDecl) (env : Env) (given : NameMap Value) (name : String) :
    Except EvalError Unit :=
  match decl.field? name with
  | none => .error (.type (.noField decl.asTy name))
  | some field =>
    if isHidden decl field env.module then .error (.type (.privateField name decl.path))
    else if given.contains name then .error (.type (.fieldTwice name))
    else .ok ()

end Store
end Pipeline
