import Pipeline.Schema.Basic
import Pipeline.Scope.Basic

/-!
# The store

All declarations of the documents loaded, with the names that each module sees.
-/

set_option autoImplicit false
set_option relaxedAutoImplicit false

namespace Pipeline

/-! ### Declarations of the prelude with a meaning of their own -/

namespace Builtin

/-- The path of a declaration of the prelude. -/
def path (name : String) : String := Path.child preludeModule name

/-- The conversion trait. -/
def from_ : String := path "From"
/-- The trait of wrappers. -/
def transparent : String := path "Transparent"
/-- The trait of what produces items. -/
def source : String := path "Source"
/-- The trait of what consumes items. -/
def sink : String := path "Sink"
/-- The trait of what turns items into others. -/
def transform : String := path "Transform"
/-- The type of values that may be absent. -/
def option : String := path "Option"
/-- The type of lists. -/
def vec : String := path "Vec"
/-- The type of texts. -/
def string : String := path "String"
/-- The type of booleans. -/
def bool : String := path "bool"
/-- What a wrapper wraps. -/
def inner : String := "Inner"
/-- What a source produces. -/
def item : String := "Item"
/-- What a transform produces. -/
def output : String := "Output"

/-- The types of integers. -/
def integers : List String :=
  ["u8", "u16", "u32", "u64", "usize", "i8", "i16", "i32", "i64", "isize"].map path

/-- The types of floats. -/
def floats : List String := ["f32", "f64"].map path

/-- The type of booleans. -/
def boolTy : Ty := .named bool []

end Builtin

/-- All declarations. -/
structure Store where
  index : SymbolIndex
  /-- The names seen by each module that has a document. -/
  scopes : NameMap ModuleScope
  types : NameMap TypeDecl
  traits : NameMap TraitDecl
  /-- The impls; the number of an impl is its position. -/
  impls : List ImplDecl
  extensions : NameMap ExtensionDecl
  schemas : NameMap Schema
  /-- The limit for nested obligations, calls and aliases. -/
  maxDepth : Nat
deriving Repr, Inhabited

namespace Store

/-- The names that a module sees. -/
def scope? (s : Store) (module : String) : Option ModuleScope := s.scopes.get? module

/-- The type of a path. -/
def type? (s : Store) (path : String) : Option TypeDecl := s.types.get? path

/-- The trait of a path. -/
def trait? (s : Store) (path : String) : Option TraitDecl := s.traits.get? path

/-- The extension of a path. -/
def extension? (s : Store) (path : String) : Option ExtensionDecl := s.extensions.get? path

/-- The schema of a component. -/
def schema? (s : Store) (component : String) : Option Schema := s.schemas.get? component

/-- The impl of a number. -/
def impl? (s : Store) (id : Nat) : Option ImplDecl := s.impls[id]?

/-- The impls of a trait, in the order of their declarations. -/
def implsOf (s : Store) (path : String) : List ImplDecl :=
  s.impls.filter fun d => d.traitRef.any (·.path == path)

/-- The impls that give methods to types themselves. -/
def inherentImpls (s : Store) : List ImplDecl := s.impls.filter (·.traitRef.isNone)

/-- The traits that specialize a trait. -/
def specializationsOf (s : Store) (path : String) : List TraitDecl :=
  s.traits.values.filter fun t => t.specialization.any (·.target.path == path)

/-- The declaration of a synonym with what it stands for. -/
def synonym? (s : Store) (path : String) : Option (TypeDecl × Ty) :=
  (s.type? path).bind fun d =>
    match d.kind with
    | .synonym target => some (d, target)
    | _ => none

/-- Expands the aliases in a type, those in arguments and in expansions down to a depth. -/
def normalizeTo (s : Store) : Nat → Ty → Ty
  | 0, t => t
  | depth + 1, t => t.replace fun
    | .named path args =>
      (s.synonym? path).map fun (d, target) =>
        s.normalizeTo depth
          (target.substitute (Generic.assign d.generics (args.map (s.normalizeTo depth))))
    | _ => none

/-- Expands the aliases in a type. -/
def normalize (s : Store) (t : Ty) : Ty := s.normalizeTo (s.maxDepth + 1) t

end Store
end Pipeline
