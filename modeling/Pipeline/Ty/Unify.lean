import Pipeline.Ty.Basic

/-!
# Unification

A pattern with variables is laid over a type. The wildcard fits everything on either side and
never becomes the type of a variable. Bindings found before a difference are kept.
-/

set_option autoImplicit false
set_option relaxedAutoImplicit false

namespace Pipeline.Ty

/-- What a variable has to say about the type it is laid over; nothing for a name that is no
variable. -/
abbrev OnParam := String → Ty → Subst → Option (Bool × Subst)

/-- A parameter that is no variable fits itself and the wildcard. -/
def rigid (name : String) : Ty → Bool
  | param other => name == other
  | infer => true
  | _ => false

mutual

/-- Lays a pattern over a type: whether it fits, and the bindings made on the way. -/
def align (onParam : OnParam) : Ty → Ty → Subst → Bool × Subst
  | param name, t, s => (onParam name t s).getD (rigid name t, s)
  | infer, _, s => (true, s)
  | named path args, t, s =>
    match t with
    | infer => (true, s)
    | named path' args' =>
      if path = path' ∧ args.length = args'.length then alignList onParam args args' s
      else (false, s)
    | _ => (false, s)
  | fn params ret, t, s =>
    match t with
    | infer => (true, s)
    | fn params' ret' =>
      if params.length = params'.length then
        match alignList onParam params params' s with
        | (true, s) => align onParam ret ret' s
        | (false, s) => (false, s)
      else (false, s)
    | _ => (false, s)
  | promise path args assoc, t, s =>
    match t with
    | infer => (true, s)
    | promise path' args' assoc' =>
      if path = path' ∧ args.length = args'.length then
        match alignList onParam args args' s with
        | (true, s) => alignAssoc onParam assoc assoc' s
        | (false, s) => (false, s)
      else (false, s)
    | _ => (false, s)
  | projection base name, t, s =>
    match t with
    | infer => (true, s)
    | projection base' name' => if name = name' then align onParam base base' s else (false, s)
    | _ => (false, s)
  | const value, t, s =>
    match t with
    | infer => (true, s)
    | const value' => (value == value', s)
    | _ => (false, s)
  | selfTy, t, s =>
    match t with
    | infer => (true, s)
    | selfTy => (true, s)
    | _ => (false, s)
  | unit, t, s =>
    match t with
    | infer => (true, s)
    | unit => (true, s)
    | _ => (false, s)
termination_by structural p => p

/-- Lays patterns over types, pairwise up to the first that does not fit. -/
def alignList (onParam : OnParam) : List Ty → List Ty → Subst → Bool × Subst
  | [], _, s => (true, s)
  | _ :: _, [], s => (true, s)
  | p :: ps, t :: ts, s =>
    match align onParam p t s with
    | (true, s) => alignList onParam ps ts s
    | (false, s) => (false, s)

/-- Lays constraints over those of the same names; the others ask for nothing. -/
def alignAssoc (onParam : OnParam) : List (String × Ty) → List (String × Ty) → Subst → Bool × Subst
  | [], _, s => (true, s)
  | (name, p) :: ps, ts, s =>
    match ts.find? (·.1 == name) with
    | none => alignAssoc onParam ps ts s
    | some (_, t) =>
      match align onParam p t s with
      | (true, s) => alignAssoc onParam ps ts s
      | (false, s) => (false, s)

end

/-- True when two types are the same up to wildcards. -/
def fits (a b : Ty) : Bool := (align (fun _ _ _ => none) a b []).1

/-- A variable takes the type it is laid over first, and after that only types that fit this
one. -/
def bindVar (vars : List String) : OnParam := fun name t s =>
  if vars.contains name then
    match s.get? name with
    | some bound => some (fits bound t, s)
    | none => some (true, if t = infer then s else s.insert name t)
  else none

/-- Lays a pattern over a type and extends the bindings of its variables. -/
def unify (vars : List String) (pattern target : Ty) (s : Subst) : Bool × Subst :=
  align (bindVar vars) pattern target s

/-- Lays patterns over types, pairwise up to the first that does not fit. -/
def unifyAll (vars : List String) (patterns targets : List Ty) (s : Subst) : Bool × Subst :=
  alignList (bindVar vars) patterns targets s

end Pipeline.Ty
