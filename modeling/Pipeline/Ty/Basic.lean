import Pipeline.Data.NameMap
import Pipeline.Text.Path

/-!
# Types

A type is a declared type with arguments, a parameter, a constant, a function type, an opaque
type known by one trait, an associated type, `Self`, the wildcard or the unit type. Types are
compared by their form alone.
-/

set_option autoImplicit false
set_option relaxedAutoImplicit false

namespace Pipeline

/-- The module whose declarations are visible everywhere. -/
def preludeModule : String := "std"

/-- A type. The trait that a promise is about is spread over the constructor, so that types are the
only recursive sort; see `TraitRef`. -/
inductive Ty where
  /-- A declared type with arguments. -/
  | named (path : String) (args : List Ty)
  /-- A generic parameter of the enclosing declaration. -/
  | param (name : String)
  /-- An argument for a constant parameter. -/
  | const (value : String)
  | fn (params : List Ty) (ret : Ty)
  /-- A type known only by the trait it implements. -/
  | promise (path : String) (args : List Ty) (assoc : List (String × Ty))
  /-- An associated type of a type. -/
  | projection (base : Ty) (name : String)
  /-- The type a trait or an impl is about. -/
  | selfTy
  /-- Matches every type. -/
  | infer
  | unit
deriving Repr, Inhabited

/-- A trait with arguments and constraints on its associated types. -/
structure TraitRef where
  path : String
  args : List Ty
  assoc : List (String × Ty)
deriving Repr, Inhabited

namespace Ty

/-- A declared type of the prelude. -/
def std (name : String) (args : List Ty) : Ty :=
  named (Path.child preludeModule name) args

/-- The path of a declared type. -/
def path? : Ty → Option String
  | named path _ => some path
  | _ => none

/-- The arguments of a declared type. -/
def args : Ty → List Ty
  | named _ args => args
  | _ => []

/-- True for a generic parameter. -/
def isParam : Ty → Bool
  | param _ => true
  | _ => false

mutual

/-- Replaces every part on which `f` is defined, from the outside in; a part that was put in is
left alone. -/
def replace (f : Ty → Option Ty) (t : Ty) : Ty :=
  match f t with
  | some u => u
  | none =>
    match t with
    | named path args => named path (replaceList f args)
    | fn params ret => fn (replaceList f params) (replace f ret)
    | promise path args assoc => promise path (replaceList f args) (replaceAssoc f assoc)
    | projection base name => projection (replace f base) name
    | other => other

/-- Replaces in every type of a list. -/
def replaceList (f : Ty → Option Ty) : List Ty → List Ty
  | [] => []
  | t :: ts => replace f t :: replaceList f ts

/-- Replaces in every type of a list of constraints. -/
def replaceAssoc (f : Ty → Option Ty) : List (String × Ty) → List (String × Ty)
  | [] => []
  | (name, t) :: rest => (name, replace f t) :: replaceAssoc f rest

end

mutual

/-- True when `p` holds of some part of the type. -/
def anyPart (p : Ty → Bool) (t : Ty) : Bool :=
  p t ||
    match t with
    | named _ args => anyPartList p args
    | fn params ret => anyPartList p params || anyPart p ret
    | promise _ args assoc => anyPartList p args || anyPartAssoc p assoc
    | projection base _ => anyPart p base
    | _ => false

/-- True when `p` holds of some part of some type of a list. -/
def anyPartList (p : Ty → Bool) : List Ty → Bool
  | [] => false
  | t :: ts => anyPart p t || anyPartList p ts

/-- True when `p` holds of some part of some constraint. -/
def anyPartAssoc (p : Ty → Bool) : List (String × Ty) → Bool
  | [] => false
  | (_, t) :: rest => anyPart p t || anyPartAssoc p rest

end

mutual

/-- The names of the generic parameters in a type, from left to right, with repetitions. -/
def params : Ty → List String
  | named _ args => paramsList args
  | param name => [name]
  | fn ps ret => paramsList ps ++ params ret
  | promise _ args assoc => paramsList args ++ paramsAssoc assoc
  | projection base _ => params base
  | _ => []

/-- The names of the generic parameters in a list of types. -/
def paramsList : List Ty → List String
  | [] => []
  | t :: ts => params t ++ paramsList ts

/-- The names of the generic parameters in a list of constraints. -/
def paramsAssoc : List (String × Ty) → List String
  | [] => []
  | (_, t) :: rest => params t ++ paramsAssoc rest

end

/-- True for a part that is not a type by itself: a parameter, `Self` or the wildcard. -/
def isOpen : Ty → Bool
  | param _ => true
  | selfTy => true
  | infer => true
  | _ => false

/-- True when no parameter, no `Self` and no wildcard is left. -/
def isConcrete (t : Ty) : Bool := !t.anyPart isOpen

/-- Puts a type in the place of `Self`. -/
def withSelf (t self : Ty) : Ty :=
  t.replace fun
    | selfTy => some self
    | _ => none

mutual

/-- Decides the equality of two types. -/
def decEq : (a b : Ty) → Decidable (a = b)
  | named p as, b =>
    match b with
    | named q bs =>
      match decEqList as bs with
      | isTrue h =>
        if hp : p = q then isTrue (by rw [hp, h]) else isFalse fun e => by cases e; exact hp rfl
      | isFalse h => isFalse fun e => by cases e; exact h rfl
    | param _ | const _ | fn _ _ | promise _ _ _ | projection _ _ | selfTy | infer | unit =>
      isFalse nofun
  | param n, b =>
    match b with
    | param m => if h : n = m then isTrue (by rw [h]) else isFalse fun e => by cases e; exact h rfl
    | named _ _ | const _ | fn _ _ | promise _ _ _ | projection _ _ | selfTy | infer | unit =>
      isFalse nofun
  | const n, b =>
    match b with
    | const m => if h : n = m then isTrue (by rw [h]) else isFalse fun e => by cases e; exact h rfl
    | named _ _ | param _ | fn _ _ | promise _ _ _ | projection _ _ | selfTy | infer | unit =>
      isFalse nofun
  | fn ps r, b =>
    match b with
    | fn qs s =>
      match decEqList ps qs, decEq r s with
      | isTrue h, isTrue h' => isTrue (by rw [h, h'])
      | isFalse h, _ => isFalse fun e => by cases e; exact h rfl
      | _, isFalse h => isFalse fun e => by cases e; exact h rfl
    | named _ _ | param _ | const _ | promise _ _ _ | projection _ _ | selfTy | infer | unit =>
      isFalse nofun
  | promise p as xs, b =>
    match b with
    | promise q bs ys =>
      match decEqList as bs, decEqAssoc xs ys with
      | isTrue h, isTrue h' =>
        if hp : p = q then isTrue (by rw [hp, h, h']) else isFalse fun e => by cases e; exact hp rfl
      | isFalse h, _ => isFalse fun e => by cases e; exact h rfl
      | _, isFalse h => isFalse fun e => by cases e; exact h rfl
    | named _ _ | param _ | const _ | fn _ _ | projection _ _ | selfTy | infer | unit =>
      isFalse nofun
  | projection t n, b =>
    match b with
    | projection u m =>
      match decEq t u with
      | isTrue h =>
        if hn : n = m then isTrue (by rw [hn, h]) else isFalse fun e => by cases e; exact hn rfl
      | isFalse h => isFalse fun e => by cases e; exact h rfl
    | named _ _ | param _ | const _ | fn _ _ | promise _ _ _ | selfTy | infer | unit =>
      isFalse nofun
  | selfTy, b =>
    match b with
    | selfTy => isTrue rfl
    | named _ _ | param _ | const _ | fn _ _ | promise _ _ _ | projection _ _ | infer | unit =>
      isFalse nofun
  | infer, b =>
    match b with
    | infer => isTrue rfl
    | named _ _ | param _ | const _ | fn _ _ | promise _ _ _ | projection _ _ | selfTy | unit =>
      isFalse nofun
  | unit, b =>
    match b with
    | unit => isTrue rfl
    | named _ _ | param _ | const _ | fn _ _ | promise _ _ _ | projection _ _ | selfTy | infer =>
      isFalse nofun

/-- Decides the equality of two lists of types. -/
def decEqList : (as bs : List Ty) → Decidable (as = bs)
  | [], [] => isTrue rfl
  | [], _ :: _ => isFalse nofun
  | _ :: _, [] => isFalse nofun
  | a :: as, b :: bs =>
    match decEq a b, decEqList as bs with
    | isTrue h, isTrue h' => isTrue (by rw [h, h'])
    | isFalse h, _ => isFalse fun e => by cases e; exact h rfl
    | _, isFalse h => isFalse fun e => by cases e; exact h rfl

/-- Decides the equality of two lists of constraints. -/
def decEqAssoc : (as bs : List (String × Ty)) → Decidable (as = bs)
  | [], [] => isTrue rfl
  | [], _ :: _ => isFalse nofun
  | _ :: _, [] => isFalse nofun
  | (n, a) :: as, (m, b) :: bs =>
    match decEq a b, decEqAssoc as bs with
    | isTrue h, isTrue h' =>
      if hn : n = m then isTrue (by rw [hn, h, h']) else isFalse fun e => by cases e; exact hn rfl
    | isFalse h, _ => isFalse fun e => by cases e; exact h rfl
    | _, isFalse h => isFalse fun e => by cases e; exact h rfl

end

instance : DecidableEq Ty := decEq

end Ty

deriving instance DecidableEq for TraitRef

namespace TraitRef

/-- A trait with arguments and no constraints. -/
def plain (path : String) (args : List Ty) : TraitRef := ⟨path, args, []⟩

/-- Replaces in every type of the trait reference. -/
def replace (f : Ty → Option Ty) (t : TraitRef) : TraitRef :=
  ⟨t.path, Ty.replaceList f t.args, Ty.replaceAssoc f t.assoc⟩

/-- Puts a type in the place of `Self`. -/
def withSelf (t : TraitRef) (self : Ty) : TraitRef :=
  t.replace fun
    | .selfTy => some self
    | _ => none

end TraitRef

/-! ### Types as texts

Paths of the prelude are written without its name, and the unit type is left out behind the
parameters of a function type.
-/

/-- A path as it is written: without the name of the prelude. -/
def shortPath (path : String) : String :=
  (Text.stripStart? (Path.child preludeModule "") path).getD path

namespace Ty

mutual

/-- The text of a type. -/
def text : Ty → String
  | named path [] => shortPath path
  | named path (t :: rest) => shortPath path ++ "<" ++ text t ++ moreText rest ++ ">"
  | param name => name
  | const value => value
  | fn [] unit => "fn()"
  | fn (t :: rest) unit => "fn(" ++ text t ++ moreText rest ++ ")"
  | fn [] ret => "fn() -> " ++ text ret
  | fn (t :: rest) ret => "fn(" ++ text t ++ moreText rest ++ ") -> " ++ text ret
  | promise path [] [] => "impl " ++ shortPath path
  | promise path [] ((name, t) :: rest) =>
    "impl " ++ shortPath path ++ "<" ++ name ++ " = " ++ text t ++ assocText rest ++ ">"
  | promise path (t :: rest) assoc =>
    "impl " ++ shortPath path ++ "<" ++ text t ++ moreText rest ++ assocText assoc ++ ">"
  | projection base name => text base ++ "::" ++ name
  | selfTy => "Self"
  | infer => "_"
  | unit => "()"

/-- The texts of types with a comma before each. -/
def moreText : List Ty → String
  | [] => ""
  | t :: rest => ", " ++ text t ++ moreText rest

/-- The texts of constraints with a comma before each. -/
def assocText : List (String × Ty) → String
  | [] => ""
  | (name, t) :: rest => ", " ++ name ++ " = " ++ text t ++ assocText rest

end

end Ty

/-- The text of a trait reference. -/
def TraitRef.text : TraitRef → String
  | ⟨path, [], []⟩ => shortPath path
  | ⟨path, [], (name, t) :: rest⟩ =>
    shortPath path ++ "<" ++ name ++ " = " ++ t.text ++ Ty.assocText rest ++ ">"
  | ⟨path, t :: rest, assoc⟩ =>
    shortPath path ++ "<" ++ t.text ++ Ty.moreText rest ++ Ty.assocText assoc ++ ">"

/-! ### Substitutions

A substitution gives types for generic parameters. It replaces all parameters of a type at once.
-/

/-- Types for generic parameters. -/
abbrev Subst := NameMap Ty

namespace Ty

/-- Replaces the parameters that have an entry. -/
def substitute (s : Subst) (t : Ty) : Ty :=
  t.replace fun
    | param name => s.get? name
    | _ => none

end Ty

namespace TraitRef

/-- Replaces the parameters that have an entry. -/
def substitute (s : Subst) (t : TraitRef) : TraitRef :=
  t.replace fun
    | .param name => s.get? name
    | _ => none

end TraitRef

end Pipeline
