import Pipeline.Decl.Basic
import Pipeline.Fault.Diagnostic

/-!
# What is reported while documents are processed
-/

set_option autoImplicit false
set_option relaxedAutoImplicit false

namespace Pipeline

/-- How grave an event is. -/
inductive Severity where
  | error
  | warn
  | info
  | debug
  | trace
deriving DecidableEq, Repr

namespace Severity

/-- The order of severities, the gravest first. -/
def rank : Severity → Nat
  | error => 0
  | warn => 1
  | info => 2
  | debug => 3
  | trace => 4

/-- The word for a severity. -/
def text : Severity → String
  | error => "ERROR"
  | warn => "WARN"
  | info => "INFO"
  | debug => "DEBUG"
  | trace => "TRACE"

end Severity

/-- Why the store makes an impl. -/
inductive SynthesisReason where
  | transparentType
  | componentCapability
deriving DecidableEq, Repr

/-- The words for a reason. -/
def SynthesisReason.text : SynthesisReason → String
  | transparentType => "transparent type"
  | componentCapability => "component capability"

/-- Something worth reporting. -/
inductive Event where
  | fetched (module origin provider : String)
  | loadStarted (documents : Nat)
  | loaded (modules types traits impls : Nat)
  | loadFailed (faults : Nat)
  | implSynthesized (decl : ImplDecl) (reason : SynthesisReason)
  | obligationResolved (ty : Ty) (traitRef : TraitRef) (outcome : String)
  | obligationAbandoned (ty : Ty) (traitRef : TraitRef) (depth : Nat) (cyclic : Bool)
  | methodResolved (receiver : Ty) (method provider : String) (constCapable : Bool)
  | validationStarted (component : String) (supplied : Nat)
  | validationFailed (component : String) (faults : Nat)
  | defaultApplied (component field source : String)
  | coercionApplied (location : Location) (source target : Ty) (via : String)
  | checkDeferred (component predicate : String)
  | bindingStarted (document : String) (bindings pipes : Nat)
  | bindingCompleted (document : String) (steps : Nat)
  | bindingFailed (document : String) (faults : Nat)
  | batchStarted (documents : Nat)
deriving Repr

namespace Event

/-- How grave an event is. -/
def severity : Event → Severity
  | fetched _ _ _ => .debug
  | loadStarted _ => .info
  | loaded _ _ _ _ => .info
  | loadFailed _ => .error
  | implSynthesized _ _ => .debug
  | obligationResolved _ _ _ => .trace
  | obligationAbandoned _ _ _ _ => .debug
  | methodResolved _ _ _ _ => .trace
  | validationStarted _ _ => .debug
  | validationFailed _ _ => .debug
  | defaultApplied _ _ _ => .debug
  | coercionApplied _ _ _ _ => .debug
  | checkDeferred _ _ => .warn
  | bindingStarted _ _ _ => .info
  | bindingCompleted _ _ => .info
  | bindingFailed _ _ => .error
  | batchStarted _ => .info

/-- An event in words. -/
def message : Event → String
  | fetched module origin provider =>
    "Fetched module '" ++ module ++ "' from " ++ origin ++ " (" ++ provider ++ ")"
  | loadStarted documents =>
    "Loading declaration store from " ++ Text.natText documents ++ " documents"
  | loaded modules types traits impls =>
    "Declaration store ready: " ++ Text.natText modules ++ " modules, " ++ Text.natText types ++
      " types, " ++ Text.natText traits ++ " traits, " ++ Text.natText impls ++ " impls"
  | loadFailed faults =>
    "Declaration store failed to load with " ++ Text.natText faults ++ " errors"
  | implSynthesized decl reason => "Synthesized `" ++ decl.text ++ "` (" ++ reason.text ++ ")"
  | obligationResolved ty traitRef outcome =>
    ty.text ++ ": " ++ traitRef.text ++ " resolved to " ++ outcome
  | obligationAbandoned ty traitRef depth cyclic =>
    "Obligation `" ++ ty.text ++ ": " ++ traitRef.text ++
      (if cyclic then "` is cyclic" else "` exceeds depth " ++ Text.natText depth) ++
      ", treated as unsatisfied"
  | methodResolved receiver method provider constCapable =>
    receiver.text ++ "." ++ method ++ "() resolved to " ++ provider ++
      (if constCapable then " (const)" else "")
  | validationStarted component supplied =>
    "Validating " ++ Text.natText supplied ++ " supplied parameters against '" ++ component ++ "'"
  | validationFailed component faults =>
    "Parameters of '" ++ component ++ "' failed validation with " ++ Text.natText faults ++
      " errors"
  | defaultApplied component field source =>
    component ++ "." ++ field ++ " defaulted to `" ++ source ++ "`"
  | coercionApplied location source target via =>
    "Parameter '" ++ location.text ++ "' converted from " ++ source.text ++ " to " ++
      target.text ++ " via " ++ via
  | checkDeferred component predicate =>
    "Check `" ++ predicate ++ "` on '" ++ component ++
      "' depends on run-time values and is deferred to execution"
  | bindingStarted document bindings pipes =>
    "Binding '" ++ document ++ "': " ++ Text.natText bindings ++ " bindings, " ++
      Text.natText pipes ++ " pipes"
  | bindingCompleted document steps =>
    "Bound '" ++ document ++ "' into " ++ Text.natText steps ++ " steps"
  | bindingFailed document faults =>
    "Binding '" ++ document ++ "' failed with " ++ Text.natText faults ++ " errors"
  | batchStarted documents => "Binding " ++ Text.natText documents ++ " documents concurrently"

end Event

/-! ### Values with the events on the way to them

Events never decide a value: what a computation yields does not depend on what was reported
before.
-/

/-- A value and the events reported on the way to it, in order. -/
structure Logged (α : Type) where
  value : α
  events : List Event
deriving Repr

namespace Logged

variable {α β : Type}

instance : Monad Logged where
  pure a := ⟨a, []⟩
  bind x f := ⟨(f x.value).value, x.events ++ (f x.value).events⟩

/-- Reports an event. -/
def report (e : Event) : Logged Unit := ⟨(), [e]⟩

/-- Nothing is reported on the way to a value at hand. -/
@[simp] theorem value_pure (a : α) : (pure a : Logged α).value = a := rfl

/-- The value of a computation in two steps. -/
@[simp] theorem value_bind (x : Logged α) (f : α → Logged β) :
    (x >>= f).value = (f x.value).value := rfl

/-- Applying a function changes the value alone. -/
@[simp] theorem value_map (f : α → β) (x : Logged α) : (f <$> x).value = f x.value := rfl

end Logged
end Pipeline
