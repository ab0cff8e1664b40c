import Pipeline.Document.Basic
import Pipeline.Ty.Basic

/-!
# The prelude

The document that is loaded ahead of all others: scalar types, collections and the core
capabilities, visible in every module.
-/

set_option autoImplicit false
set_option relaxedAutoImplicit false

namespace Pipeline.Prelude

/-- The origin that faults in the prelude would name. -/
def origin : String := "<prelude>"

/-- A type implemented outside the declarations. -/
def nativeType (generics : List String) : TypeEntry := ⟨generics, [], [], none, none, none⟩

/-- The types whose values compare equal when they are the same. -/
def scalars : List String :=
  ["bool", "u8", "u16", "u32", "u64", "usize", "i8", "i16", "i32", "i64", "isize", "f32", "f64",
    "String"]

/-- The types. -/
def types : List (String × TypeEntry) :=
  scalars.map (fun name => (name, nativeType [])) ++
    [("Option", nativeType ["T"]), ("Vec", nativeType ["T"])]

/-- A trait with methods and nothing else. -/
def plainTrait (generics : List String) (methods : List MethodEntry) : TraitEntry :=
  ⟨generics, [], methods, none, none⟩

/-- The traits. -/
def traits : List (String × TraitEntry) := [
  ("PartialEq", plainTrait ["Rhs = Self"] [
    ⟨"fn eq(self, other: Rhs) -> bool", none⟩,
    ⟨"fn ne(self, other: Rhs) -> bool", some "!self.eq(other)"⟩]),
  ("ConstEq", {
    generics := ["Rhs = Self"]
    assoc := []
    methods := [⟨"const fn eq(self, other: Rhs) -> bool", none⟩]
    specialization := some ⟨"PartialEq<Rhs>", [("ne", "!self.eq(other)")]⟩
    explain := some "Equality evaluable while declarations are checked." }),
  ("From", plainTrait ["T"] [⟨"fn from(value: T) -> Self", none⟩]),
  ("Default", plainTrait [] [⟨"fn default() -> Self", none⟩]),
  ("Transparent", {
    generics := []
    assoc := [("Inner", none)]
    methods := []
    specialization := none
    explain := some "A wrapper whose values are written as its single inner value." }),
  ("Source", {
    generics := []
    assoc := [("Item", none)]
    methods := [⟨"extern fn next(self) -> Option<Self::Item>", none⟩]
    specialization := none
    explain := none }),
  ("Sink", plainTrait ["T"] [
    ⟨"extern fn put(self, item: T)", none⟩,
    ⟨"extern fn done(self)", none⟩]),
  ("Transform", {
    generics := ["T"]
    assoc := [("Output", none)]
    methods := [⟨"extern fn apply(self, item: T) -> Self::Output", none⟩]
    specialization := none
    explain := none })]

/-- An impl of equality for a scalar type. -/
def equality (name : String) : ImplEntry where
  target := name
  traitRef := some "ConstEq"
  generics := []
  bounds := []
  assoc := []
  methods := [("eq", "extern")]
  isConst := true
  explain := none

/-- Methods of a type itself, all of them implemented outside the declarations. -/
def methodsOf (target : String) (generics signatures : List String) : ImplEntry where
  target := target
  traitRef := none
  generics := generics
  bounds := []
  assoc := []
  methods := signatures.map fun sig => (sig, "extern")
  isConst := true
  explain := none

/-- The impls. -/
def impls : List ImplEntry :=
  scalars.map equality ++ [
    methodsOf "String" [] [
      "const fn len(self) -> usize",
      "const fn is_empty(self) -> bool",
      "const fn contains(self, pattern: String) -> bool",
      "const fn starts_with(self, prefix: String) -> bool",
      "const fn ends_with(self, suffix: String) -> bool"],
    methodsOf "Vec<T>" ["T"] [
      "const fn len(self) -> usize",
      "const fn is_empty(self) -> bool",
      "const fn contains(self, item: T) -> bool"],
    methodsOf "Option<T>" ["T"] [
      "const fn is_some(self) -> bool",
      "const fn is_none(self) -> bool",
      "const fn unwrap(self) -> T",
      "const fn unwrap_or(self, default: T) -> T"]]

/-- The document. -/
def document : Document where
  module := preludeModule
  origin := origin
  version := supportedVersion
  kind := .struct
  explain := some
    "Scalar types, collections and the core capabilities, visible in every module."
  types := types
  traits := traits
  impls := impls

end Pipeline.Prelude
