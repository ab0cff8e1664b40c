import Pipeline.Fault.Diagnostic

/-!
# Collecting faults

A computation that may find faults: some of them keep it from a value, others are only noted.
-/

set_option autoImplicit false
set_option relaxedAutoImplicit false

namespace Pipeline

/-- A value, unless a fault prevented it, and the faults found, in order. -/
structure Noted (α : Type) where
  value : Option α
  faults : List Diagnostic
deriving Repr

namespace Noted

variable {α β : Type}

instance : Monad Noted where
  pure a := ⟨some a, []⟩
  bind x f :=
    match x.value with
    | none => ⟨none, x.faults⟩
    | some a => ⟨(f a).value, x.faults ++ (f a).faults⟩

/-- Stops with a fault. -/
def fail (place : Location) (kind : ErrorKind) : Noted α := ⟨none, [⟨place, kind⟩]⟩

/-- Stops with a fault of a declaration. -/
def invalid (place : Location) (fault : DeclFault) : Noted α :=
  fail place (.invalidDeclaration fault)

/-- Notes faults and goes on. -/
def note (faults : List Diagnostic) : Noted Unit := ⟨some (), faults⟩

/-- Goes on whether there is a value or not. -/
def attempt (x : Noted α) : Noted (Option α) := ⟨some x.value, x.faults⟩

/-- Stops with a fault if there is none of a value. -/
def ofExcept {ε : Type} (place : Location) (kind : ε → ErrorKind) : Except ε α → Noted α
  | .ok a => pure a
  | .error e => fail place (kind e)

/-- The values of a list, those that a fault prevented left out. -/
def collect (f : α → Noted β) (xs : List α) : Noted (List β) :=
  let results := xs.map f
  ⟨some (results.filterMap (·.value)), results.flatMap (·.faults)⟩

end Noted
end Pipeline
