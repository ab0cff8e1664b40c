import Pipeline.Proofs.Eval.Depth
import Pipeline.Proofs.Method.Tiers
import Pipeline.Proofs.Obligation.Origin
import Pipeline.Proofs.Store.WellFormed

/-!
# Equality and its contrary

Values of declared types are compared by their methods: `==` calls `eq` and `!=` calls `ne`, each of
them found like the method of any other call. The traits of equality say that `ne` negates `eq`,
and their bodies run in the module of the trait, where other extensions are in scope. So the one
operator is the contrary of the other as long as nothing else takes part in one of the calls.
-/

set_option autoImplicit false
set_option relaxedAutoImplicit false

namespace Pipeline

/-- True for `!self.eq(other)`. -/
def Expr.negatesEq : Expr → Bool
  | .unary .not (.method .self "eq" [.ident "other"] false) => true
  | _ => false

theorem Expr.eq_of_negatesEq {e : Expr} (negates : e.negatesEq = true) :
    e = .unary .not (.method .self "eq" [.ident "other"] false) := by
  unfold negatesEq at negates
  split at negates
  · rfl
  · cases negates

theorem Value.eq_of_not {v : Value} {y : Bool} (result : Value.unary .not v = .ok (.bool y)) :
    v = .bool !y := by
  cases v with
  | bool b =>
    cases result
    rw [Bool.not_not]
  | _ =>
    simp only [Value.unary] at result
    split at result <;> cases result

namespace Store

open Eval (outcome Kept)

variable {ds : List Document} {maxDepth : Nat} {s : Store}

/-! ### The trait of equality -/

/-- The path of the trait that makes values equal or not. -/
def equality : String := Path.child preludeModule "PartialEq"

/-- How values of a type are equal. -/
def equalityOf (s : Store) (t : Ty) : Resolution :=
  match s.trait? equality with
  | some trait => (s.resolve t (.plain trait.path (trait.completeArgs t []))).value
  | none => .notImplemented

theorem negatesEq_of_parse {body : Snippet} (parses : Snippet.parse "!self.eq(other)" = .ok body) :
    body.expr.negatesEq = true := by
  have negates : (Snippet.parse "!self.eq(other)").toOption.map (·.expr.negatesEq) = some true := by
    decide +kernel
  rw [parses] at negates
  exact Option.some.inj negates

/-- What the trait says of `ne`. -/
structure DeclaresNe (trait : TraitDecl) (declared : TraitMethod) : Prop where
  path : trait.path = equality
  module : trait.module = preludeModule
  method : trait.method? "ne" = some declared
  params : declared.sig.params.map (·.1) = ["other"]
  default : ∃ body, declared.default = some body ∧ body.expr.negatesEq = true

/-- The trait is the one of the prelude, whatever is loaded. -/
theorem load_declaresNe (loaded : (load ds maxDepth).value = .ok s) :
    ∃ trait declared, s.trait? equality = some trait ∧ DeclaresNe trait declared := by
  obtain ⟨sound, rfl⟩ := sound_of_load loaded
  obtain ⟨trait, found, path, module, reads⟩ :=
    sound.prelude_trait (e := Prelude.traits[0]) (by decide)
  have methods : List.Forall₂ Site.ReadsMethod [_, _] trait.methods := reads.methods
  rw [List.forall₂_cons_left_iff] at methods
  obtain ⟨eq, rest, first, methods, all⟩ := methods
  rw [List.forall₂_cons_left_iff] at methods
  obtain ⟨ne, rest, second, -, rfl⟩ := methods
  have eqNamed := (first.named "eq" ["other"] (by decide +kernel)).1
  obtain ⟨named, params⟩ := second.named "ne" ["other"] (by decide +kernel)
  have method : trait.method? "ne" = some ne := by
    simp [TraitDecl.method?, all, eqNamed, named]
  obtain ⟨body, default, parses⟩ := second.body rfl
  exact ⟨trait, ne, found, path, module, method, params, body, default, negatesEq_of_parse parses⟩

/-- The path of the trait of the prelude that specializes it. -/
def constEquality : String := Path.child preludeModule "ConstEq"

/-- The trait of the prelude that specializes equality has no `ne`, and its default is to negate. -/
theorem load_constEquality (loaded : (load ds maxDepth).value = .ok s) :
    ∃ trait, s.trait? constEquality = some trait ∧ trait.method? "ne" = none ∧
      ∃ body, trait.specializedDefault? "ne" = some body ∧ body.expr.negatesEq = true := by
  obtain ⟨sound, rfl⟩ := sound_of_load loaded
  obtain ⟨trait, found, -, -, reads⟩ :=
    sound.prelude_trait (e := Prelude.traits[1]) (by decide)
  have methods : List.Forall₂ Site.ReadsMethod [_] trait.methods := reads.methods
  rw [List.forall₂_cons_left_iff] at methods
  obtain ⟨eq, rest, first, last, all⟩ := methods
  cases last
  have named := (first.named "eq" ["other"] (by decide +kernel)).1
  have method : trait.method? "ne" = none := by
    simp [TraitDecl.method?, all, named]
  obtain ⟨spec, given, defaults⟩ := reads.specialization _ rfl
  have defaults : List.Forall₂ _ [("ne", "!self.eq(other)")] spec.defaults := defaults
  rw [List.forall₂_cons_left_iff] at defaults
  obtain ⟨⟨name, body⟩, rest, ⟨same, parses⟩, -, whole⟩ := defaults
  cases same
  refine ⟨trait, found, method, body, ?_, negatesEq_of_parse parses⟩
  simp [TraitDecl.specializedDefault?, given, whole]

/-! ### Calls of methods -/

theorem callMethodWith_eq_ok {runner : Runner} {env : Env} {receiver v : Value} {name : String}
    {args : List Value} :
    outcome (s.callMethodWith runner env receiver name args) = .ok v ↔
      ∃ m, (s.resolveCall receiver.ty name (s.visibleFrom env)).value = .found m ∧
        outcome (s.invoke runner m (some receiver.ty) (some receiver) args) = .ok v := by
  unfold callMethodWith
  simp only [Eval.outcome_bind, Eval.outcome_liftLogged]
  cases (s.resolveCall receiver.ty name (s.visibleFrom env)).value with
  | found m =>
    constructor
    · exact fun result => ⟨m, rfl, result⟩
    · rintro ⟨n, ⟨⟩, result⟩
      exact result
  | ambiguous | notFound =>
    constructor
    · nofun
    · rintro ⟨n, ⟨⟩, -⟩

/-- What a call of a method with a body comes to is what the body comes to, if it is a truth
value. -/
theorem bool_of_invoke {runner : Runner} {m : Method} {body : Snippet} {selfTy : Option Ty}
    {receiver : Option Value} {args : List Value} {y : Bool} (expr : m.body = some (.expr body))
    (result : outcome (s.invoke runner m selfTy receiver args) = .ok (.bool y)) :
    ∃ run ∈ runner, outcome (run (bodyEnv m selfTy receiver args) body.expr) = .ok (.bool y) := by
  unfold invoke at result
  cases runner with
  | none => cases result
  | some run =>
    dsimp only at result
    split at result
    · cases result
    · split at result
      · cases result
      · rw [expr] at result
        exact ⟨run, rfl, result⟩

/-- What `!self.eq(other)` comes to is the contrary of the call in it. -/
theorem bool_of_negatesEq {runner : Runner} {env : Env} {e : Expr} {l r : Value} {y : Bool}
    (negates : e.negatesEq = true) (self : env.self = some l)
    (other : env.vars.get? "other" = some r)
    (result : outcome (s.evalWith runner env e) = .ok (.bool y)) :
    outcome (s.callMethodWith runner env l "eq" [r]) = .ok (.bool !y) := by
  rw [Expr.eq_of_negatesEq negates] at result
  simp only [evalWith, evalAll, Eval.outcome_bind, Eval.outcome_orElse, Eval.outcome_pure, self,
    other, Eval.outcome_liftExcept] at result
  obtain ⟨v, call, negated⟩ := except_bind_eq_ok.mp result
  rwa [Value.eq_of_not negated] at call

/-- A call in two modules means one method, if the same extensions give one. -/
theorem found_alike {receiver : Ty} {name : String} {visible visible' : List String} {m m' : Method}
    (alike : ∀ path,
      (s.extensionMethod? (s.normalize receiver) path name).value.isSome = true →
        (path ∈ visible ↔ path ∈ visible'))
    (here : (s.resolveCall receiver name visible).value = .found m)
    (there : (s.resolveCall receiver name visible').value = .found m') : m = m' := by
  have same (n : Method) : n ∈ s.firstRank (s.normalize receiver) name visible ↔
      n ∈ s.firstRank (s.normalize receiver) name visible' := by
    simp only [firstRank, List.mem_append, mem_extensionMethods]
    refine or_congr_right (exists_congr fun path => and_congr_left fun given => alike path ?_)
    rw [given]
    rfl
  rcases resolveCall_found here with only | ⟨none, first⟩ <;>
    rcases resolveCall_found there with only' | ⟨none', second⟩
  · have member := (same m).mp (only ▸ List.mem_singleton_self m)
    exact List.mem_singleton.mp (only' ▸ member)
  · have member := (same m).mp (only ▸ List.mem_singleton_self m)
    exact absurd member (none' ▸ List.not_mem_nil)
  · have member := (same m').mpr (only' ▸ List.mem_singleton_self m')
    exact absurd member (none ▸ List.not_mem_nil)
  · exact MethodResolution.found.inj (first.symm.trans second)

/-! ### What `ne` means -/

/-- The module in which the default of `ne` runs. -/
def neModule (s : Store) (c : Candidate) : String :=
  ((s.specializedBody? c "ne").map (·.2)).getD preludeModule

/-- Where `ne` is left to the default that the traits of equality give it, and `eq` is the same
method in the module of the default. -/
structure Undisturbed (s : Store) (env : Env) (t : Ty) (c : Candidate) : Prop where
  /-- No impl gives the type itself a method `ne`. -/
  inherent : ∀ d ∈ s.inherentImpls, s.inherentMethod? t "ne" d = none
  /-- No extension in scope gives it one. -/
  extension : ∀ path ∈ s.visibleFrom env, (s.extensionMethod? t path "ne").value = none
  /-- No trait that specializes equality gives it one of its own. -/
  trait : ∀ trait ∈ s.specializationsOf equality, ∀ m,
    (s.offer t trait "ne").value ≠ .method m
  /-- The impl by which values are equal does not write one. -/
  impl : ∀ d, c.implId.bind s.impl? = some d → d.method? "ne" = none
  /-- A default of the trait that specializes equality negates `eq`. -/
  default : ∀ body module, s.specializedBody? c "ne" = some (body, module) →
    body.expr.negatesEq = true
  /-- An extension with a method `eq` is in scope in both modules or in neither. -/
  alike : ∀ path, (s.extensionMethod? t path "eq").value.isSome = true →
    (path ∈ s.visibleFrom env ↔ path ∈ s.visibleFrom { module := s.neModule c })

/-- An impl of the specializing trait of the prelude writes no `ne`. -/
theorem impl_without_ne (loaded : (load ds maxDepth).value = .ok s) {t : Ty} {c : Candidate}
    (met : s.equalityOf t = .met c) (special : c.origin = .specialization constEquality)
    {d : ImplDecl} (written : c.implId.bind s.impl? = some d) : d.method? "ne" = none := by
  obtain ⟨trait, found, unnamed, -⟩ := load_constEquality loaded
  obtain ⟨equality, -, declared, -⟩ := load_declaresNe loaded
  simp only [equalityOf, declared] at met
  obtain ⟨via, -, origin, e, own, id⟩ := resolve_specialization met special
  have path : via.path = constEquality :=
    CandidateOrigin.specialization.inj (origin.symm.trans special)
  rw [path] at own
  obtain ⟨sound, rfl⟩ := sound_of_load loaded
  obtain ⟨member, under⟩ := List.mem_filter.mp own
  -- The number of the candidate leads back to the impl that it stands for.
  rw [id, Option.bind_some, impl?] at written
  cases written.symm.trans (sound.impl_id member)
  cases implements : d.traitRef with
  | none => simp [implements] at under
  | some u =>
    have same : u.path = constEquality := by simpa [implements] using under
    refine List.find?_eq_none.mpr fun m inside named => ?_
    have declared := sound.methods_declared member implements (same ▸ found) inside
    rw [eq_of_beq named, unnamed] at declared
    cases declared

/-- Where values are equal by an impl of the specializing trait of the prelude, `ne` is left alone
by declarations without a method of the name, and extensions without a method `eq`. -/
theorem undisturbed_of_constEquality (loaded : (load ds maxDepth).value = .ok s) {env : Env}
    {t : Ty} {c : Candidate} (met : s.equalityOf t = .met c)
    (special : c.origin = .specialization constEquality)
    (inherent : ∀ d ∈ s.inherentImpls, (d.method? "ne").isNone = true)
    (extensions : ∀ d ∈ s.extensions.values,
      (d.method? "ne").isNone = true ∧ (d.method? "eq").isNone = true)
    (traits : ∀ trait ∈ s.specializationsOf equality, (trait.method? "ne").isNone = true) :
    s.Undisturbed env t c := by
  obtain ⟨trait, found, unnamed, negated, default, negates⟩ := load_constEquality loaded
  have nothing {path name : String}
      (unnamed : ∀ d ∈ s.extensions.values, (d.method? name).isNone = true) :
      (s.extensionMethod? t path name).value = none := by
    unfold extensionMethod?
    cases found : s.extension? path with
    | none => rfl
    | some d =>
      have absent := Option.isNone_iff_eq_none.mp (unnamed d (NameMap.mem_values found))
      simp [absent]
  refine ⟨fun d member => ?_, fun path _ => ?_, fun other member m offered => ?_,
    fun d written => ?_, fun body module given => ?_, fun path given => ?_⟩
  · have absent := Option.isNone_iff_eq_none.mp (inherent d member)
    rw [inherentMethod?, absent, Option.bind_none]
  · exact nothing fun d member => (extensions d member).1
  · have absent := Option.isNone_iff_eq_none.mp (traits other member)
    simp [offer, absent] at offered
  · exact impl_without_ne loaded met special written
  · simp only [specializedBody?, special, Option.bind_eq_bind, found, default,
      Option.bind_some, Option.pure_def, Option.some.injEq, Prod.mk.injEq] at given
    rw [← given.1]
    exact negates
  · rw [nothing fun d member => (extensions d member).2] at given
    cases given

/-- A default that negates `eq`, where it sees `self` and `other`. -/
structure NegatesEq (m : Method) (module : String) : Prop where
  body : ∃ body, m.body = some (.expr body) ∧ body.expr.negatesEq = true
  module : m.module = module
  params : m.sig.params.map (·.1) = ["other"]

theorem methodOf_negatesEq {trait : TraitDecl} {declared : TraitMethod} {env : Env} {t : Ty}
    {c : Candidate} (declares : DeclaresNe trait declared) (undisturbed : s.Undisturbed env t c)
    (args : List Ty) : NegatesEq (s.methodOf t trait declared args c) (s.neModule c) := by
  have named : declared.sig.name = "ne" := by
    simpa using List.find?_some (p := fun d : TraitMethod => d.sig.name == "ne") declares.method
  have own : (do
      let d ← c.implId.bind s.impl?
      return (d, ← d.method? declared.sig.name) : Option (ImplDecl × ImplMethod)) = none := by
    cases found : c.implId.bind s.impl? with
    | none => rfl
    | some d => simp [named, undisturbed.impl d found]
  have params : (sigFor declared.sig t (trait.substFor args) c).params.map (·.1) = ["other"] := by
    simpa [sigFor, MethodSig.replace] using declares.params
  unfold methodOf
  dsimp only
  rw [own, named]
  unfold neModule
  cases given : s.specializedBody? c "ne" with
  | none =>
    obtain ⟨body, default, negates⟩ := declares.default
    exact ⟨⟨body, by rw [default]; rfl, negates⟩, declares.module, params⟩
  | some found =>
    obtain ⟨body, module⟩ := found
    exact ⟨⟨body, rfl, undisturbed.default body module given⟩, rfl, params⟩

/-- An undisturbed `ne` is the default. -/
theorem ne_negatesEq (loaded : (load ds maxDepth).value = .ok s) {env : Env} {receiver : Ty}
    {c : Candidate} {m : Method} (met : s.equalityOf (s.normalize receiver) = .met c)
    (undisturbed : s.Undisturbed env (s.normalize receiver) c)
    (found : (s.resolveCall receiver "ne" (s.visibleFrom env)).value = .found m) :
    NegatesEq m (s.neModule c) := by
  obtain ⟨trait, declared, known, declares⟩ := load_declaresNe loaded
  have first : s.firstRank (s.normalize receiver) "ne" (s.visibleFrom env) = [] := by
    refine List.append_eq_nil_iff.mpr ⟨?_, List.eq_nil_iff_forall_not_mem.mpr fun n member => ?_⟩
    · rw [inherentMethods_value]
      exact List.filterMap_eq_nil_iff.mpr undisturbed.inherent
    · obtain ⟨path, visible, given⟩ := mem_extensionMethods.mp member
      cases given.symm.trans (undisturbed.extension path visible)
  have rank : s.traitRank (s.normalize receiver) "ne" = [m] := by
    rcases resolveCall_found found with only | ⟨-, traits⟩
    · cases first.symm.trans only
    · exact traitTier_found traits
  let args := trait.completeArgs (s.normalize receiver) []
  have offered : (s.offer (s.normalize receiver) trait "ne").value =
      .method (s.methodOf (s.normalize receiver) trait declared args c) := by
    simp only [equalityOf, known] at met
    simp only [offer, declares.method, Logged.value_bind, met]
    rfl
  have member : s.methodOf (s.normalize receiver) trait declared args c ∈
      s.traitRank (s.normalize receiver) "ne" := by
    refine mem_traitRank.mpr ⟨trait, NameMap.mem_values known, offered,
      fun other among n there special => ?_⟩
    -- A trait that hides the one of equality would have to give a `ne` of its own.
    refine undisturbed.trait other (List.mem_filter.mpr ⟨among, ?_⟩) n there
    obtain ⟨spec, given, target⟩ := Option.map_eq_some_iff.mp special
    simp [given, target, declares.path]
  rw [rank] at member
  exact List.mem_singleton.mp member ▸ methodOf_negatesEq declares undisturbed _

/-! ### Comparisons -/

/-- Calls of `eq` and of an undisturbed `ne` come to contrary truth values. -/
theorem callMethodWith_ne (loaded : (load ds maxDepth).value = .ok s) {env : Env} {l r : Value}
    {c : Candidate} {depth : Nat} {x y : Bool}
    (met : s.equalityOf (s.normalize l.ty) = .met c)
    (undisturbed : s.Undisturbed env (s.normalize l.ty) c)
    (equal : outcome (s.callMethodWith (s.runnerAt depth) env l "eq" [r]) = .ok (.bool x))
    (unequal : outcome (s.callMethodWith (s.runnerAt depth) env l "ne" [r]) = .ok (.bool y)) :
    y = !x := by
  obtain ⟨ne, foundNe, called⟩ := callMethodWith_eq_ok.mp unequal
  have negates := ne_negatesEq loaded met undisturbed foundNe
  obtain ⟨body, expr, negated⟩ := negates.body
  obtain ⟨run, here, result⟩ := bool_of_invoke expr called
  cases depth with
  | zero => cases here
  | succ depth =>
    cases here
    -- The body calls `eq` one level down, from the module of the default.
    rw [evalTo_eq] at result
    have inner := bool_of_negatesEq (l := l) (r := r) negated rfl
      (by simp only [bodyEnv, negates.params]; rfl) result
    obtain ⟨eq, found, direct⟩ := callMethodWith_eq_ok.mp equal
    obtain ⟨eq', found', nested⟩ := callMethodWith_eq_ok.mp inner
    have visible : s.visibleFrom (bodyEnv ne (some l.ty) (some l) [r]) =
        s.visibleFrom { module := s.neModule c } := by
      rw [← negates.module]
      rfl
    rw [visible] at found'
    cases found_alike undisturbed.alike found found'
    have deeper := invoke_kept (s.runnerAt_succ depth) eq _ _ _ _ nested
    cases direct.symm.trans deeper
    rw [Bool.not_not]

theorem compareEqual_ne (loaded : (load ds maxDepth).value = .ok s) {env : Env} {l r : Value}
    {c : Candidate} {depth : Nat} {x y : Bool}
    (met : s.equalityOf (s.normalize l.ty) = .met c)
    (undisturbed : s.Undisturbed env (s.normalize l.ty) c)
    (equal : outcome (s.compareEqual (s.runnerAt depth) env .eq l r) = .ok (.bool x))
    (unequal : outcome (s.compareEqual (s.runnerAt depth) env .ne l r) = .ok (.bool y)) :
    y = !x := by
  unfold compareEqual at equal unequal
  split at equal
  · cases equal
  · rename_i known
    rw [if_neg known] at unequal
    split at equal
    · rename_i structural
      rw [if_pos structural] at unequal
      cases equal
      cases unequal
      cases l.equal r <;> rfl
    · rename_i structural
      rw [if_neg structural] at unequal
      exact callMethodWith_ne loaded met undisturbed equal unequal

theorem eval_comparison {env : Env} {op : BinaryOp} (compares : op = .eq ∨ op = .ne) {a b : Expr}
    {v : Value} (result : outcome (s.eval env (.binary op a b)) = .ok v) :
    ∃ l r, outcome (s.eval env a) = .ok l ∧ outcome (s.eval env b) = .ok r ∧
      outcome (s.compareEqual (s.runnerAt s.maxDepth) env op l r) = .ok v := by
  simp only [eval, evalTo_eq] at result ⊢
  rcases compares with rfl | rfl
  all_goals
    simp only [evalWith, Eval.outcome_bind, except_bind_eq_ok] at result
    obtain ⟨l, left, r, right, compared⟩ := result
    exact ⟨l, r, left, right, compared⟩

/-- The operators `==` and `!=` come to contrary truth values, if `ne` is left to its default and
`eq` is one method where they stand and where the default does. -/
theorem ne_negates_eq (ds : List Document) (maxDepth : Nat) (s : Store)
    (loaded : (load ds maxDepth).value = .ok s) (env : Env) (a b : Expr) (l : Value)
    (left : outcome (s.eval env a) = .ok l) (c : Candidate)
    (met : s.equalityOf (s.normalize l.ty) = .met c)
    (undisturbed : s.Undisturbed env (s.normalize l.ty) c) (x y : Bool)
    (equal : outcome (s.eval env (.binary .eq a b)) = .ok (.bool x))
    (unequal : outcome (s.eval env (.binary .ne a b)) = .ok (.bool y)) : y = !x := by
  obtain ⟨l₁, r₁, left₁, right₁, equal⟩ := eval_comparison (Or.inl rfl) equal
  obtain ⟨l₂, r₂, left₂, right₂, unequal⟩ := eval_comparison (Or.inr rfl) unequal
  cases left.symm.trans left₁
  cases left.symm.trans left₂
  cases right₁.symm.trans right₂
  exact compareEqual_ne loaded met undisturbed equal unequal

/-- A document with a type, an impl of equality for it, and methods of its own; two names for one
value of the type are compared below. -/
def money (methods : List (String × String)) : Document where
  module := "shop"
  origin := "shop"
  version := supportedVersion
  kind := .struct
  types := [("Money", ⟨[], [("cents", .short "u64")], [], none, none, none⟩)]
  impls := [
    ⟨"Money", some "ConstEq", [], [], [], [("eq", "self.cents == other.cents")], false, none⟩,
    ⟨"Money", none, [], [], [], methods, false, none⟩]

def cent : Value := .record (.named "shop::Money" []) [("cents", .int 1)]

def cents : Env where
  module := "shop"
  vars := [("l", cent), ("r", cent)]

def comparison (op : BinaryOp) : Expr := .binary op (.ident "l") (.ident "r")

/-- The truth value that an evaluation comes to. -/
def truth? : Except EvalError Value → Option Bool
  | .ok (.bool b) => some b
  | _ => none

theorem truth?_eq_some {r : Except EvalError Value} {b : Bool} (same : truth? r = some b) :
    r = .ok (.bool b) := by
  unfold truth? at same
  split at same <;> cases same
  rfl

theorem candidate?_eq_some {r : Resolution} {c : Candidate} (only : r.candidate? = some c) :
    r = .met c := by
  cases r <;> cases only
  rfl

/-- A value is equal to itself and not unequal. -/
theorem ne_negates_eq_money : ∃ s, (load [money []] 4).value = .ok s ∧
    ∃ c, s.equalityOf (s.normalize cent.ty) = .met c ∧
      c.origin = .specialization constEquality ∧
      s.Undisturbed cents (s.normalize cent.ty) c ∧
      outcome (s.eval cents (comparison .eq)) = .ok (.bool true) ∧
      outcome (s.eval cents (comparison .ne)) = .ok (.bool false) := by
  have made : (load [money []] 4).value.toOption.map (fun s =>
      ((s.equalityOf (s.normalize cent.ty)).candidate?.map (·.origin),
        decide ((∀ d ∈ s.inherentImpls, (d.method? "ne").isNone = true) ∧
          (∀ d ∈ s.extensions.values,
            (d.method? "ne").isNone = true ∧ (d.method? "eq").isNone = true) ∧
          ∀ trait ∈ s.specializationsOf equality, (trait.method? "ne").isNone = true),
        truth? (outcome (s.eval cents (comparison .eq))),
        (truth? (outcome (s.eval cents (comparison .ne)))).isSome)) =
      some (some (.specialization constEquality), true, some true, true) := by
    decide +kernel
  obtain ⟨s, loaded, facts⟩ := Option.map_eq_some_iff.mp made
  have loaded := ok_of_toOption loaded
  simp only [Prod.mk.injEq, Option.map_eq_some_iff, decide_eq_true_eq] at facts
  obtain ⟨⟨c, met, special⟩, ⟨inherent, extensions, traits⟩, equal, unequal⟩ := facts
  obtain ⟨y, unequal⟩ := Option.isSome_iff_exists.mp unequal
  have met := candidate?_eq_some met
  have equal := truth?_eq_some equal
  have unequal := truth?_eq_some unequal
  have undisturbed : s.Undisturbed cents (s.normalize cent.ty) c :=
    undisturbed_of_constEquality loaded met special inherent extensions traits
  have left : outcome (s.eval cents (.ident "l")) = .ok cent := by
    simp only [eval, evalTo_eq, evalWith]
    rfl
  have contrary := ne_negates_eq _ 4 s loaded cents (.ident "l") (.ident "r") cent left c met
    undisturbed true y equal unequal
  subst contrary
  exact ⟨s, loaded, c, met, special, undisturbed, equal, unequal⟩

/-- A method of the type itself takes the place of the default. -/
theorem money_equal_and_unequal :
    ∃ s, (load [money [("const fn ne(self, other: Money) -> bool", "true")]] 4).value = .ok s ∧
      (s.equalityOf (s.normalize cent.ty)).candidate?.map (·.origin) =
        some (.specialization constEquality) ∧
      outcome (s.eval cents (comparison .eq)) = .ok (.bool true) ∧
      outcome (s.eval cents (comparison .ne)) = .ok (.bool true) := by
  have made : (load [money [("const fn ne(self, other: Money) -> bool", "true")]]
      4).value.toOption.map (fun s =>
        ((s.equalityOf (s.normalize cent.ty)).candidate?.map (·.origin),
          truth? (outcome (s.eval cents (comparison .eq))),
          truth? (outcome (s.eval cents (comparison .ne))))) =
      some (some (.specialization constEquality), some true, some true) := by
    decide +kernel
  obtain ⟨s, loaded, facts⟩ := Option.map_eq_some_iff.mp made
  simp only [Prod.mk.injEq] at facts
  obtain ⟨origin, equal, unequal⟩ := facts
  exact ⟨s, ok_of_toOption loaded, origin, truth?_eq_some equal, truth?_eq_some unequal⟩

end Store
end Pipeline
