import Pipeline.Obligation.Resolve
import Pipeline.Value.Equal

/-!
# Accepting values

A value is accepted as it is where its type is the one expected. Integers have to lie in the range
of the type, and become floats where a float is expected; lists and options are accepted when what
they hold is.
-/

set_option autoImplicit false
set_option relaxedAutoImplicit false

namespace Pipeline

namespace Builtin

/-- The integers of so many bits without a sign. -/
def unsigned (bits : Nat) : Int × Int := (0, Text.twoTo bits - 1)

/-- The integers of so many bits with a sign. -/
def signed (bits : Nat) : Int × Int := (-Text.twoTo (bits - 1), Text.twoTo (bits - 1) - 1)

/-- The least and the greatest integer of a type; types of 64 bits and more hold all integers, as
far as their sign allows. -/
def intRange (type : String) : Int × Int :=
  let range := [("u8", unsigned 8), ("u16", unsigned 16), ("u32", unsigned 32),
    ("u64", unsigned 64), ("usize", unsigned 64), ("i8", signed 8), ("i16", signed 16),
    ("i32", signed 32)].find? fun r => path r.1 == type
  match range with
  | some r => r.2
  | none => signed 64

/-- True for an integer in the range of a type. -/
def intFits (type : String) (n : Int) : Bool :=
  let (least, greatest) := intRange type
  least ≤ n && n ≤ greatest

end Builtin

namespace Store

/-- The value, if a condition holds. -/
def keepIf (condition : Bool) (v : Value) : Option Value := if condition then some v else none

/-- Accepts a value where anything will do, or where a trait is asked for; `otherwise` decides for
the other types, which are without aliases. -/
def acceptBy (store : Store) (v : Value) (expected : Ty) (otherwise : Ty → Logged (Option Value)) :
    Logged (Option Value) :=
  match store.normalize expected with
  | .infer => pure (some v)
  | .param _ => pure (some v)
  | .promise path args assoc => do
    return keepIf (← store.implements v.ty ⟨path, args, assoc⟩) v
  | t => otherwise t

/-- Accepts a value whose type is all that is known of it. -/
def acceptTyped (store : Store) (v : Value) (expected : Ty) : Logged (Option Value) :=
  store.acceptBy v expected fun t => pure (keepIf (v.ty.fits t) v)

/-- Accepts a value that carries the type it was declared with. -/
def acceptDeclared (store : Store) (v : Value) (expected : Ty) : Logged (Option Value) :=
  store.acceptBy v expected fun t => pure (keepIf (t.path?.isSome && v.ty.fits t) v)

/-- Accepts a value that belongs to certain declared types. -/
def acceptNamed (store : Store) (v : Value) (expected : Ty) (accepted : String → Option Value) :
    Logged (Option Value) :=
  store.acceptBy v expected fun t => pure (t.path?.bind accepted)

/-- Accepts a collection of one declared type; `items` accepts what it holds, given the argument
of the type. -/
def acceptItems (store : Store) (v : Value) (expected : Ty) (collection : String)
    (items : Ty → Logged (Option Value)) : Logged (Option Value) :=
  store.acceptBy v expected fun t =>
    if t.path? = some collection then items (t.args.head?.getD .infer) else pure none

mutual

/-- The value, if it already has the type expected. -/
def accept (store : Store) : Value → Ty → Logged (Option Value)
  | .unit, t => store.acceptBy .unit t fun t => pure (keepIf (t == .unit) .unit)
  | .bool b, t => store.acceptNamed (.bool b) t fun path => keepIf (path == Builtin.bool) (.bool b)
  | .int n, t => store.acceptNamed (.int n) t fun path =>
    if Builtin.integers.contains path then keepIf (Builtin.intFits path n) (.int n)
    else keepIf (Builtin.floats.contains path) (.float (Float.ofInt n))
  | .float x, t =>
    store.acceptNamed (.float x) t fun path => keepIf (Builtin.floats.contains path) (.float x)
  | .str s, t =>
    store.acceptNamed (.str s) t fun path => keepIf (path == Builtin.string) (.str s)
  | .list items, t => store.acceptItems (.list items) t Builtin.vec fun elem => do
    return (← acceptAll store items elem).map .list
  | .none, t => store.acceptItems .none t Builtin.option fun _ => pure (some .none)
  | .some v, t => store.acceptItems (.some v) t Builtin.option fun elem => do
    return (← accept store v elem).map .some
  | .record u fields, t => acceptDeclared store (.record u fields) t
  | .variant u name, t => acceptDeclared store (.variant u name) t
  | .wrapped u v, t => acceptDeclared store (.wrapped u v) t
  | .closure params source, t => store.acceptBy (.closure params source) t fun
    | .fn expected _ =>
      pure (keepIf (expected.length == params.length) (.closure params source))
    | _ => pure none
  | .ref binding u, t => store.acceptTyped (.ref binding u) t
  | .deferred u call, t => store.acceptTyped (.deferred u call) t

/-- The values of a list, if all of them have the type expected; the first that has not ends the
search. -/
def acceptAll (store : Store) : List Value → Ty → Logged (Option (List Value))
  | [], _ => pure (some [])
  | v :: rest, t => do
    match ← accept store v t with
    | none => return none
    | some v => return (← acceptAll store rest t).map (v :: ·)

end

end Store
end Pipeline
