import Pipeline.Value.Basic

/-!
# Equality of values

Two values are the same when they are built alike from the same parts. They are equal in
expressions also when one is an integer and the other a float of the same number; only some values
are compared in this way, the others have to be asked through their equality methods.
-/

set_option autoImplicit false
set_option relaxedAutoImplicit false

namespace Pipeline.Value

mutual

/-- True for values built alike from the same parts; floats are compared as numbers. -/
def same : Value → Value → Bool
  | unit, unit => true
  | bool a, bool b => a == b
  | int a, int b => a == b
  | float a, float b => a == b
  | str a, str b => a == b
  | list as, list bs => sameItems as bs
  | none, none => true
  | some a, some b => same a b
  | record t as, record u bs => t == u && sameFields as bs
  | variant t a, variant u b => t == u && a == b
  | wrapped t a, wrapped u b => t == u && same a b
  | closure ps a, closure qs b => ps == qs && a == b
  | ref a t, ref b u => a == b && t == u
  | deferred t a, deferred u b => t == u && a == b
  | _, _ => false

/-- True for lists of the same values. -/
def sameItems : List Value → List Value → Bool
  | [], [] => true
  | a :: as, b :: bs => same a b && sameItems as bs
  | _, _ => false

/-- True for lists of the same fields. -/
def sameFields : List (String × Value) → List (String × Value) → Bool
  | [], [] => true
  | (n, a) :: as, (m, b) :: bs => n == m && same a b && sameFields as bs
  | _, _ => false

end

/-- The number that an integer or a float is. -/
def number? : Value → Option Float
  | int n => Option.some (Float.ofInt n)
  | float x => Option.some x
  | _ => Option.none

mutual

/-- True for equal values; an integer equals a float of the same number. -/
def equal : Value → Value → Bool
  | list as, list bs => equalItems as bs
  | some a, some b => equal a b
  | wrapped t a, wrapped u b => t == u && equal a b
  | record t as, record u bs => t == u && equalFields as bs
  | int a, float b => Float.ofInt a == b
  | float a, int b => a == Float.ofInt b
  | a, b => same a b

/-- True for lists of equal values. -/
def equalItems : List Value → List Value → Bool
  | [], [] => true
  | a :: as, b :: bs => equal a b && equalItems as bs
  | _, _ => false

/-- True for lists of fields with the same names and equal values. -/
def equalFields : List (String × Value) → List (String × Value) → Bool
  | [], [] => true
  | (n, a) :: as, (m, b) :: bs => n == m && equal a b && equalFields as bs
  | _, _ => false

end

mutual

/-- True for values that are compared part by part and not through a method. -/
def isStructural : Value → Bool
  | unit => true
  | bool _ => true
  | int _ => true
  | float _ => true
  | str _ => true
  | variant _ _ => true
  | none => true
  | list items => areStructural items
  | some inner => isStructural inner
  | _ => false

/-- True when all values of a list are compared part by part. -/
def areStructural : List Value → Bool
  | [] => true
  | v :: rest => isStructural v && areStructural rest

end

end Pipeline.Value
