import Pipeline.Fault.Diagnostic
import Pipeline.Schema.Accept

/-!
# Converting values

A value that does not have the type expected is converted where there is one way to do so: it
becomes a present option, a wrapper around itself, or what a conversion trait makes of it.
-/

set_option autoImplicit false
set_option relaxedAutoImplicit false

namespace Pipeline

/-- How a value became one of another type. -/
inductive Conversion where
  /-- It was put into an option. -/
  | present
  /-- It was put into a wrapper. -/
  | transparent
  /-- By the conversion from a type. -/
  | «from» (source : Ty)
deriving DecidableEq, Repr

/-- A conversion in words. -/
def Conversion.text : Conversion → String
  | present => "Some"
  | transparent => "Transparent"
  | «from» source => "From<" ++ source.text ++ ">"

/-- A value of the type expected, with the conversion that led to it. -/
abbrev Conformed := Value × Option Conversion

/-- Gives a value the type expected at a place. -/
abbrev Conformer := Ty → Location → Logged (Except (List Diagnostic) Conformed)

/-- The fault of a value of another type. -/
def mismatch (place : Location) (expected : Ty) (found : String) : Diagnostic :=
  ⟨place, .typeMismatch expected.text found⟩

namespace Ty

mutual

/-- The number of types on the longest way into a type. -/
def height : Ty → Nat
  | named _ args => heightList args + 1
  | fn params ret => max (heightList params) (height ret) + 1
  | promise _ args assoc => max (heightList args) (heightAssoc assoc) + 1
  | projection base _ => height base + 1
  | _ => 1

/-- The greatest height in a list. -/
def heightList : List Ty → Nat
  | [] => 0
  | t :: rest => max (height t) (heightList rest)

/-- The greatest height in a list of constraints. -/
def heightAssoc : List (String × Ty) → Nat
  | [] => 0
  | (_, t) :: rest => max (height t) (heightAssoc rest)

end

end Ty

namespace Store

/-- A height that no type of height one exceeds when its aliases are expanded, however far. -/
def aliasHeight (store : Store) : Nat :=
  store.types.values.foldl
    (fun n d =>
      match d.kind with
      | .synonym target => n * target.height
      | _ => n)
    1

/-- A height that a type does not exceed when its aliases are expanded, however far. -/
def expandedHeight (store : Store) (t : Ty) : Nat := t.height * store.aliasHeight

/-- The types from which a value can be converted into the one expected, with the value as one of
each of them. -/
def conversions (store : Store) (v : Value) (expected : Ty) :
    List ImplDecl → List (Ty × Value) → Logged (List (Ty × Value))
  | [], found => pure found
  | d :: rest, found =>
    match d.traitArgs.head? with
    | none => conversions store v expected rest found
    | some source =>
      match Ty.unify (Generic.names d.generics) d.target expected [] with
      | (false, _) => conversions store v expected rest found
      | (true, subst) => do
        let source := source.substitute subst
        match ← store.accept v source with
        | none => conversions store v expected rest found
        | some inner =>
          let applies ← store.implements expected (.plain Builtin.from_ [source])
          if applies && !found.any (·.1 == source) then
            conversions store v expected rest (found ++ [(source, inner)])
          else conversions store v expected rest found

/-- The fault of a value that can be converted in several ways. -/
def conversionTie (place : Location) (v : Value) (expected : Ty) (sources : List Ty) :
    Diagnostic :=
  ⟨place, .ambiguous ("conversion of '" ++ v.ty.text ++ "' into '" ++ expected.text ++ "'")
    (sources.map fun s => "From<" ++ s.text ++ "> for " ++ expected.text) false⟩

/-- The value inside a wrapper of the type expected, if this is one and accepts it. -/
def wrap (store : Store) (v : Value) (expected : Ty) : Logged (Option Value) := do
  match ← store.project expected Builtin.transparent Builtin.inner with
  | none => return none
  | some inner => return (← store.accept v inner).map (.wrapped expected)

/-- Converts a value into a type without aliases; `inOption` gives it the type that an option
holds. -/
def convert (store : Store) (inOption : Ty → Logged (Option Value)) (v : Value) (expected : Ty)
    (place : Location) : Logged (Except (List Diagnostic) (Option (Value × Conversion))) := do
  let present ←
    if expected.path? = some Builtin.option then
      match expected.args.head? with
      | some elem => inOption elem
      | none => pure none
    else pure none
  match present with
  | some inner => return .ok (some (.some inner, .present))
  | none =>
    match ← store.wrap v expected with
    | some w => return .ok (some (w, .transparent))
    | none =>
      match ← store.conversions v expected (store.implsOf Builtin.from_) [] with
      | [] => return .ok none
      | [(source, inner)] => return .ok (some (.wrapped expected inner, .from source))
      | found => return .error [conversionTie place v expected (found.map (·.1))]

/-- Gives a value the type expected, as it is or by a conversion. -/
def conformBy (store : Store) (inOption : Location → Ty → Logged (Option Value)) (v : Value) :
    Conformer := fun expected place => do
  let expected := store.normalize expected
  match ← store.accept v expected with
  | some v => return .ok (v, none)
  | none =>
    match ← store.convert (inOption place) v expected place with
    | .error faults => return .error faults
    | .ok none => return .error [mismatch place expected v.ty.text]
    | .ok (some (w, via)) =>
      Logged.report (.coercionApplied place v.ty expected via.text)
      return .ok (w, some via)

/-- Gives a value the type expected, options inside options down to a depth. -/
def conformTo (store : Store) : Nat → Value → Conformer
  | 0, v => store.conformBy (fun _ _ => pure none) v
  | depth + 1, v =>
    store.conformBy
      (fun place elem => do
        return ((← conformTo store depth v elem place).toOption).map (·.1))
      v

/-- Gives a value the type expected. Options are never nested more deeply than the type with all
aliases expanded is high. -/
def conformPlain (store : Store) (v : Value) : Conformer := fun expected place =>
  store.conformTo (store.expandedHeight expected) v expected place

end Store
end Pipeline
