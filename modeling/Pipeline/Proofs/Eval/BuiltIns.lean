import Pipeline.Proofs.Eval.Parameters
import Pipeline.Proofs.Method.Provenance

/-!
# Methods without a body

A method that is implemented outside the declarations runs when one of the built-in methods has its
name and applies to the values at hand; any other call of it is put off. The built-in methods are
those of the prelude, but it is by the name alone that they are found. So no method of another
module is served by one as long as nothing outside the prelude leaves open a method that has the
name of one.
-/

set_option autoImplicit false
set_option relaxedAutoImplicit false

namespace Pipeline

open Eval (outcome)

namespace Value

/-- The names of the built-in methods. -/
def builtInNames : List String :=
  ["eq", "ne", "len", "is_empty", "contains", "starts_with", "ends_with", "is_some", "is_none",
    "unwrap", "unwrap_or"]

theorem builtin_named {name : String} {receiver : Value} {args : List Value}
    {r : Except EvalError Value} (given : builtin name receiver args = Option.some r) :
    name ∈ builtInNames := by
  unfold builtin at given
  split at given
  all_goals first | decide | cases given

end Value

/-- What the built-in method of the name comes to, if the call is not put off. -/
def Invocation.builtIn? (c : Invocation) : Option (Except EvalError Value) :=
  if c.method.isConstEvaluable (c.receiver.all (·.isKnown) && Value.areKnown c.args) then
    c.receiver.bind (Value.builtin c.method.name · c.args)
  else none

theorem Invocation.builtin_of_builtIn? {c : Invocation} {r : Except EvalError Value}
    (given : c.builtIn? = some r) :
    ∃ receiver, c.receiver = some receiver ∧
      Value.builtin c.method.name receiver c.args = some r := by
  unfold builtIn? at given
  split at given
  · exact Option.bind_eq_some_iff.mp given
  · cases given

namespace Store

variable {ds : List Document} {maxDepth : Nat} {s : Store} {depth : Nat} {env : Env} {e : Expr}
  {c : Invocation}

/-- A call of a method without a body is refused, does what the built-in method of its name does, or
is put off. -/
theorem called_of_bodiless (bodiless : c.method.isBodiless = true) :
    s.called depth c =
      if depth = 0 then .error (.depthExceeded s.maxDepth)
      else if c.args.length ≠ c.method.sig.params.length then
        .error (.type (.argumentCount c.method.name c.method.sig.params.length c.args.length))
      else c.builtIn?.getD (.ok c.putOff) := by
  unfold called invoke
  cases depth with
  | zero => rfl
  | succ depth =>
    dsimp only [runnerAt]
    rw [if_neg (Nat.succ_ne_zero depth)]
    split
    · rfl
    · unfold Invocation.builtIn?
      split
      · rename_i unable
        rw [Bool.not_eq_true'] at unable
        rw [if_neg (by simp [unable])]
        rfl
      · rename_i able
        rw [if_pos (by simpa using able)]
        split
        · rename_i body expr
          exact absurd expr (not_expr_of_bodiless bodiless body)
        · split
          · rename_i r given
            rw [given]
            rfl
          · rename_i given
            rw [given]
            rfl

theorem builtIn_of_called {x : Bool} (bodiless : c.method.isBodiless = true)
    (result : s.called depth c = .ok (.bool x)) : c.builtIn? = some (.ok (.bool x)) := by
  rw [called_of_bodiless bodiless] at result
  split at result
  · cases result
  · split at result
    · cases result
    · cases given : c.builtIn? with
      | none =>
        rw [given] at result
        cases result
      | some r =>
        rw [given] at result
        exact congrArg some result

/-! ### The methods that calls mean -/

theorem Invokes.gives (makes : s.Invokes depth env e c) :
    ∃ t name, s.Gives t name c.method := by
  cases makes with
  | method _ _ _ found => exact ⟨_, _, gives_of_resolveCall found⟩
  | equality _ _ _ _ _ _ found => exact ⟨_, _, gives_of_resolveCall found⟩
  | onFirst _ _ _ found _ =>
    obtain ⟨t, gives⟩ := gives_of_resolveQualified found
    exact ⟨t, _, gives⟩
  | onNothing _ _ _ found _ =>
    obtain ⟨t, gives⟩ := gives_of_resolveQualified found
    exact ⟨t, _, gives⟩

/-- Outside the prelude no method that has the name of a built-in one is left without a body. -/
structure KeepsNames (s : Store) : Prop where
  /-- Impls write no such method without a body. -/
  impl : ∀ d ∈ s.impls, d.module ≠ preludeModule → ∀ m ∈ d.methods,
    m.body.isExternal = true → m.sig.name ∉ Value.builtInNames
  /-- Nor do extensions. -/
  extension : ∀ d ∈ s.extensions.values, d.module ≠ preludeModule → ∀ m ∈ d.methods,
    m.body.isExternal = true → m.sig.name ∉ Value.builtInNames
  /-- An impl of a trait writes all such methods that have no default. -/
  own : ∀ trait ∈ s.traits.values, ∀ d ∈ s.implsOf trait.path, d.module ≠ preludeModule →
    ∀ m ∈ trait.methods, m.default.isNone = true → m.sig.name ∈ Value.builtInNames →
      (d.method? m.sig.name).isSome = true
  /-- So does one of a trait that specializes it, unless this trait has a default for it. -/
  special : ∀ trait ∈ s.traits.values, ∀ special ∈ s.specializationsOf trait.path,
    ∀ d ∈ s.implsOf special.path, d.module ≠ preludeModule →
      ∀ m ∈ trait.methods, m.default.isNone = true → m.sig.name ∈ Value.builtInNames →
        (special.specializedDefault? m.sig.name).isSome = true ∨
          (d.method? m.sig.name).isSome = true

instance (s : Store) : Decidable s.KeepsNames :=
  have parts : _ ∧ _ ∧ _ ∧ _ ↔ s.KeepsNames := ⟨fun h => ⟨h.1, h.2.1, h.2.2.1, h.2.2.2⟩,
    fun keeps => ⟨keeps.impl, keeps.extension, keeps.own, keeps.special⟩⟩
  @decidable_of_iff _ _ parts
    (@instDecidableAnd _ _ inferInstance
      (@instDecidableAnd _ _ inferInstance (@instDecidableAnd _ _ inferInstance inferInstance)))

/-- A method that is left open outside the prelude does not have the name of a built-in one. -/
theorem KeepsNames.not_mem (keeps : s.KeepsNames) (indexed : s.Indexed) {m : Method}
    {sig : MethodSig} (leftOpen : s.LeftOpen m sig) {module : String}
    (declared : s.providerModule? m.provider = some module) (outside : module ≠ preludeModule) :
    m.name ∉ Value.builtInNames := by
  cases leftOpen with
  | written own external =>
    rcases provider_written own declared with ⟨d, member, rfl, inside, named⟩ |
      ⟨d, member, rfl, inside, named⟩
    · exact named ▸ keeps.impl d member outside _ inside external
    · exact named ▸ keeps.extension d member outside _ inside external
  | @unwritten trait declares c among found default provider unwritten special implements =>
    intro named
    rw [provider] at unwritten declared
    obtain ⟨d, stands, rfl⟩ := Option.map_eq_some_iff.mp declared
    have missing : d.method? m.name = none := by
      rw [providerMethod?, stands] at unwritten
      exact unwritten
    obtain ⟨inside, same⟩ := named_of_find? found
    have bare : declares.default.isNone = true := by rw [default]; rfl
    rcases implements d stands with own | ⟨other, through, own, origin⟩
    · have some := keeps.own trait among d own outside declares inside bare (same ▸ named)
      rw [same, missing] at some
      cases some
    · have known : s.trait? other.path = some other :=
        (indexed.trait other (List.mem_of_mem_filter through)).1
      rcases keeps.special trait among other through d own outside declares inside bare
        (same ▸ named) with given | some
      · rw [same] at given
        obtain ⟨body, given⟩ := Option.isSome_iff_exists.mp given
        simp [specializedBody?, origin, known, given] at special
      · rw [same, missing] at some
        cases some

/-- A call of a method that is left without a body by what another module than the prelude declares
is refused, put off with the type that is declared, or does what the built-in method of its name
does; the last only if some declaration outside the prelude leaves open a method of such a name. -/
theorem bodiless_put_off (ds : List Document) (maxDepth : Nat) (s : Store)
    (loaded : (load ds maxDepth).value = .ok s) (depth : Nat) (env : Env) (e : Expr)
    (c : Invocation) (makes : s.Invokes depth env e c)
    (bodiless : c.method.isBodiless = true) (module : String)
    (declared : s.providerModule? c.method.provider = some module)
    (outside : module ≠ preludeModule) :
    (∃ sig, s.LeftOpen c.method sig ∧ sig.Becomes c.method.sig) ∧
      (s.called depth c = .error (.depthExceeded s.maxDepth) ∨
        s.called depth c = .error (.type (.argumentCount c.method.name
          c.method.sig.params.length c.args.length)) ∨
        s.called depth c = .ok (.deferred c.method.sig.ret
          (callText c.receiver c.method.name c.args)) ∨
        c.builtIn? = some (s.called depth c)) ∧
      (s.KeepsNames → c.builtIn? = none) := by
  obtain ⟨t, name, gives⟩ := makes.gives
  have indexed := load_indexed loaded
  have numbered : ∀ d ∈ s.impls, s.impl? d.id = some d := by
    obtain ⟨sound, rfl⟩ := sound_of_load loaded
    exact fun d member => sound.impl_id member
  obtain ⟨sig, leftOpen, becomes⟩ := leftOpen_of_gives numbered gives bodiless
  refine ⟨⟨sig, leftOpen, becomes⟩, ?_, fun keeps => ?_⟩
  · rw [called_of_bodiless bodiless]
    split
    · exact Or.inl rfl
    · split
      · exact Or.inr (Or.inl rfl)
      · cases c.builtIn? with
        | none => exact Or.inr (Or.inr (Or.inl rfl))
        | some r => exact Or.inr (Or.inr (Or.inr rfl))
  · have unnamed := keeps.not_mem indexed leftOpen declared outside
    refine Option.eq_none_iff_forall_ne_some.mpr fun r given => unnamed ?_
    obtain ⟨v, -, given⟩ := Invocation.builtin_of_builtIn? given
    exact Value.builtin_named given

/-- A document with an extension of texts. -/
def textExtension (signature : String) : Document where
  module := "shop"
  origin := "shop"
  version := supportedVersion
  kind := .struct
  extensions := [("Text", ⟨"String", [], [], [(signature, "extern")], none⟩)]

/-- The method of a call. -/
def foundMethod? : MethodResolution → Option Method
  | .found m => some m
  | _ => none

theorem foundMethod?_eq_some {r : MethodResolution} {m : Method} (found : foundMethod? r = some m) :
    r = .found m := by
  cases r <;> cases found
  rfl

-- Both documents in one statement, so that the prelude is read once.
theorem textExtension_loads :
    (load [textExtension "const fn shout(self) -> String"] 4).value.toOption.map (fun s =>
      (decide s.KeepsNames, (foundMethod? (s.resolveCall (.std "String" []) "shout"
        (s.visibleFrom { module := "shop" })).value).map fun m =>
          decide (m.constCapable = true ∧ m.isBodiless = true ∧
            s.providerModule? m.provider = some "shop" ∧ m.sig.params = [] ∧
            m.sig.ret = .std "String" [] ∧ m.name = "shout"))) = some (true, some true) ∧
    (load [textExtension "const fn len(self) -> i64"] 4).value.toOption.map (fun s =>
      (decide (s.qualifier? { module := "shop" } ["Text"] = some ("shop::Text", true)),
        (foundMethod? (s.resolveQualified (some (.std "String" [])) "shop::Text" "len").value).map
          fun m => decide (m.constCapable = true ∧ m.isBodiless = true ∧
            s.providerModule? m.provider = some "shop" ∧ m.sig.params = [] ∧
            m.sig.receiver = true ∧ m.name = "len"))) = some (true, some true) := by
  decide +kernel

/-- A method of an extension is put off with its type. -/
theorem bodiless_put_off_shout : ∃ s m,
    (load [textExtension "const fn shout(self) -> String"] 4).value = .ok s ∧
    s.KeepsNames ∧ m.constCapable = true ∧
    s.Invokes 4 { module := "shop" } (.method (.lit (.str "abc")) "shout" [] false)
      ⟨m, some (.std "String" []), some (.str "abc"), []⟩ ∧
    s.called 4 ⟨m, some (.std "String" []), some (.str "abc"), []⟩ =
      .ok (.deferred (.std "String" []) "\"abc\".shout()") := by
  obtain ⟨s, loaded, facts⟩ := Option.map_eq_some_iff.mp textExtension_loads.1
  have loaded := ok_of_toOption loaded
  simp only [Prod.mk.injEq, decide_eq_true_eq, Option.map_eq_some_iff] at facts
  obtain ⟨keeps, m, found, capable, bodiless, declared, params, ret, named⟩ := facts
  have makes : s.Invokes 4 { module := "shop" } (.method (.lit (.str "abc")) "shout" [] false)
      ⟨m, some (.std "String" []), some (.str "abc"), []⟩ := by
    have text : outcome (s.evalTo 4 { module := "shop" } (.lit (.str "abc"))) =
        .ok (.str "abc") := by
      rw [evalTo_eq]
      rfl
    have same : Reaches false (.str "abc") (.str "abc") := rfl
    exact .method text rfl same (foundMethod?_eq_some found)
  obtain ⟨-, -, apart⟩ := bodiless_put_off _ 4 s loaded 4 { module := "shop" } _ _ makes bodiless
    "shop" declared (by decide)
  refine ⟨s, m, loaded, keeps, capable, makes, ?_⟩
  rw [called_of_bodiless bodiless, apart keeps, if_neg (by decide), if_neg (by simp [params])]
  have text : callText (some (.str "abc")) "shout" [] = "\"abc\".shout()" := by decide +kernel
  simp only [Invocation.putOff, ret, named, Option.getD_none, text]

/-- A method of an extension has the name of a built-in one, and is served by it. -/
theorem text_len_computed : ∃ s m,
    (load [textExtension "const fn len(self) -> i64"] 4).value = .ok s ∧
    s.Invokes 4 { module := "shop" } (.call ["Text", "len"] [.lit (.str "abc")])
      ⟨m, some (.std "String" []), some (.str "abc"), []⟩ ∧
    m.isBodiless = true ∧ s.providerModule? m.provider = some "shop" ∧
    s.called 4 ⟨m, some (.std "String" []), some (.str "abc"), []⟩ = .ok (.int 3) := by
  obtain ⟨s, loaded, facts⟩ := Option.map_eq_some_iff.mp textExtension_loads.2
  simp only [Prod.mk.injEq, decide_eq_true_eq, Option.map_eq_some_iff] at facts
  obtain ⟨qualified, m, found, capable, bodiless, declared, params, receiver, named⟩ := facts
  refine ⟨s, m, ok_of_toOption loaded, ?_, bodiless, declared, ?_⟩
  · have text : outcome (s.evalAll (s.runnerAt 4) { module := "shop" } [.lit (.str "abc")]) =
        .ok [.str "abc"] := rfl
    have two : 2 ≤ ["Text", "len"].length := by decide
    have given : (s.resolveQualified (qualifiedTy true [.str "abc"]) "shop::Text"
        (["Text", "len"].getLast?.getD "")).value = .found m := foundMethod?_eq_some found
    exact .onFirst two text qualified given receiver
  · rw [called_of_bodiless bodiless, if_neg (by decide), if_neg (by simp [params])]
    have known : m.isConstEvaluable true = true := by rw [Method.isConstEvaluable, capable]; rfl
    simp only [Invocation.builtIn?, named]
    change Option.getD (if m.isConstEvaluable true = true then _ else _) _ = _
    rw [if_pos known]
    rfl

end Store
end Pipeline
