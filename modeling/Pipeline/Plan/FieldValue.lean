import Pipeline.Document.Basic
import Pipeline.Schema.Validate

/-!
# Values of fields

A text in a field is an expression, a mapping is a record whose type is still open, and everything
else stands for itself. The names that the expressions read are collected on the way, also where a
fault ends it.
-/

set_option autoImplicit false
set_option relaxedAutoImplicit false

namespace Pipeline

/-- The value of a field or the fault in it, and the names that its expressions read, with
repetitions. -/
structure FieldValue (α : Type) where
  value : Except Diagnostic α
  names : List String

namespace FieldValue

variable {α β : Type}

/-- A value that reads no name. -/
def ofValue (a : α) : FieldValue α := ⟨.ok a, []⟩

/-- A fault of an expression or of what stands in its place. -/
def fault (place : Location) (source : String) (reason : ExprFault) : FieldValue α :=
  ⟨.error ⟨place, .invalidExpression source reason⟩, []⟩

/-- Goes on with the value, if there is one. -/
def andThen (x : FieldValue α) (f : α → Logged (FieldValue β)) : Logged (FieldValue β) :=
  match x.value with
  | .error d => pure ⟨.error d, x.names⟩
  | .ok a => do
    let y ← f a
    return ⟨y.value, x.names ++ y.names⟩

end FieldValue

namespace Store

/-- The value of an expression in a field. -/
def expressionValue (store : Store) (env : Env) (place : Location) (source : String) :
    Logged (FieldValue Value) :=
  match Snippet.parse source with
  | .error e => pure (.fault place source (.parse e))
  | .ok s => do
    match ← (store.eval env s.expr).run with
    | .ok v => return ⟨.ok v, s.expr.reads⟩
    | .error e => return ⟨.error ⟨place, e.toKind source⟩, s.expr.reads⟩

/-- An integer of 64 bits as it is, a greater one as a float. -/
def rawInt (n : Int) : Value :=
  if Value.fitsInt n then .int n else .float (Text.Decimal.nearest n.toNat 0)

mutual

/-- The value of a field. -/
def fieldValue (store : Store) (env : Env) (place : Location) :
    RawValue → Logged (FieldValue Value)
  | .null => pure (.ofValue .none)
  | .bool b => pure (.ofValue (.bool b))
  | .int n => pure (.ofValue (rawInt n))
  | .float x => pure (.ofValue (.float x))
  | .str source => store.expressionValue env place source
  | .seq items => do
    (← itemValues store env place 0 items).andThen fun vs => pure (.ofValue (.list vs))
  | .map entries => do
    (← entryValues store env place entries).andThen fun fs =>
      pure (.ofValue (.record .infer fs))
  | .tagged tag _ => pure (.fault place tag .tagged)

/-- The values of the items of a list, from the one at a position on. -/
def itemValues (store : Store) (env : Env) (place : Location) :
    Nat → List RawValue → Logged (FieldValue (List Value))
  | _, [] => pure (.ofValue [])
  | i, v :: rest => do
    (← fieldValue store env (place.atIndex i) v).andThen fun v => do
      (← itemValues store env place (i + 1) rest).andThen fun vs => pure (.ofValue (v :: vs))

/-- The values of the entries of a mapping. -/
def entryValues (store : Store) (env : Env) (place : Location) :
    List (RawValue × RawValue) → Logged (FieldValue (List (String × Value)))
  | [] => pure (.ofValue [])
  | (key, v) :: rest =>
    match key.keyText? with
    | some name => do
      (← fieldValue store env (place.child name) v).andThen fun v => do
        (← entryValues store env place rest).andThen fun fs => pure (.ofValue ((name, v) :: fs))
    | none => pure (.fault place "record" .recordKeys)

end

end Store
end Pipeline
