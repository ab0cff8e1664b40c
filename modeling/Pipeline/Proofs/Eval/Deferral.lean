import Pipeline.Proofs.Eval.Outcome
import Pipeline.Proofs.Eval.SelfType
import Pipeline.Proofs.Value.Approximation
import Pipeline.Schema.Validate

/-!
# Deferral is sound

What is unknown never decides a known result: if an expression has a known value while parts of its
surroundings are unknown, then it has the same value, or a fault, whatever these parts turn out to
be. Evaluation in more precise surroundings follows evaluation in less precise ones step by step,
with values that are approximated by those of the first run.
-/

set_option autoImplicit false
set_option relaxedAutoImplicit false

namespace Pipeline

open Eval (outcome Follows Yields)
open Value (Approx ApproxItems ApproxFields)

namespace Value

/-! ### Operators -/

theorem follows_of_yields_hole {r : Except EvalError Value} (h : Yields (·.isHole = true) r)
    (q : Except EvalError Value) : Follows Approx r q :=
  Follows.of_yields h (fun _ b hole => Approx.of_isHole hole b) q

theorem unary_follows (op : UnaryOp) {v w : Value} (approx : Approx v w) :
    Follows Approx (unary op v) (unary op w) := by
  cases known : v.isKnown with
  | true =>
    rw [approx.eq_of_isKnown known]
    exact Follows.refl Approx.refl _
  | false =>
    have unknown : unary op v = .ok (deferred v.ty (op.symbol ++ v.text)) := by
      cases v <;> cases op <;> simp_all [unary, isKnown]
    rw [unknown]
    exact follows_of_yields_hole (Yields.ok rfl) _

theorem compareBy_follows (op : BinaryOp) {l l' r r' : Value} (left : Approx l l')
    (right : Approx r r') : Follows Approx (compareBy op l r) (compareBy op l' r') := by
  cases known : l.isKnown && r.isKnown with
  | true =>
    rw [Bool.and_eq_true] at known
    rw [left.eq_of_isKnown known.1, right.eq_of_isKnown known.2]
    exact Follows.refl Approx.refl _
  | false =>
    have unknown : compareBy op l r = .ok (deferredBool (operationText op l r)) := by
      rw [Bool.and_eq_false_iff] at known
      rcases known with known | known <;> simp [compareBy, known, pure, Except.pure]
    rw [unknown]
    exact follows_of_yields_hole (Yields.ok rfl) _

theorem calculate_follows (op : BinaryOp) {l l' r r' : Value} (left : Approx l l')
    (right : Approx r r') : Follows Approx (calculate op l r) (calculate op l' r') := by
  cases known : l.isKnown && r.isKnown with
  | true =>
    rw [Bool.and_eq_true] at known
    rw [left.eq_of_isKnown known.1, right.eq_of_isKnown known.2]
    exact Follows.refl Approx.refl _
  | false =>
    rw [Bool.and_eq_false_iff, ← Bool.not_eq_true', ← Bool.not_eq_true', ← Bool.or_eq_true] at known
    unfold calculate
    rw [if_pos known]
    exact follows_of_yields_hole (Yields.ok rfl) _

/-! ### Logical operators

The first operand may be unknown and the second one decide: whatever the first one turns out to be,
it either decides in the same way or leaves the decision to the second. -/

theorem truth_eq_some {op : BinaryOp} {v : Value} {b : Bool}
    (h : truth op v = .ok (Option.some b)) : v = bool b := by
  unfold truth at h
  split at h
  · simpa using h
  · split at h <;> simp_all [typeFault]

theorem truth_follows (op : BinaryOp) {v w : Value} (approx : Approx v w) :
    Follows (fun a b => a = b ∨ a = Option.none) (truth op v) (truth op w) := by
  intro a found
  cases a with
  | none =>
    cases other : truth op w with
    | ok b => exact Or.inl ⟨b, rfl, Or.inr rfl⟩
    | error e => exact Or.inr ⟨e, rfl⟩
  | some b =>
    obtain rfl := truth_eq_some found
    rw [approx.eq_of_isKnown rfl]
    exact Or.inl ⟨_, found, Or.inl rfl⟩

theorem join_follows (op : BinaryOp) (short : Bool) {l l' r r' : Value}
    {lTruth lTruth' rTruth rTruth' : Option Bool} (undecided : lTruth' ≠ Option.some short)
    (left : lTruth = lTruth' ∨ lTruth = Option.none)
    (right : rTruth = rTruth' ∨ rTruth = Option.none) :
    Approx (join op short l r lTruth rTruth) (join op short l' r' lTruth' rTruth') := by
  rcases right with rfl | rfl
  · cases rTruth with
    | none => exact Approx.of_isHole (by cases lTruth <;> rfl) _
    | some b =>
      rcases left with rfl | rfl
      · cases lTruth with
        | some a => exact Approx.refl _
        | none =>
          by_cases decides : b = short
          · simp [join, decides, Approx]
          · exact Approx.of_isHole (by simp [join, decides, deferredBool, isHole]) _
      · by_cases decides : b = short
        · cases lTruth' <;> simp [join, decides, Approx]
        · exact Approx.of_isHole (by simp [join, decides, deferredBool, isHole]) _
  · exact Approx.of_isHole (by cases lTruth <;> rfl) _

/-- Where the first operand is unknown, the result is the deciding one or unknown. -/
theorem join_of_unknown (op : BinaryOp) (short : Bool) (l r : Value) (rTruth : Option Bool) :
    Approx (join op short l r Option.none rTruth) (bool short) := by
  cases rTruth with
  | none => exact Approx.of_isHole rfl _
  | some b =>
    by_cases decides : b = short
    · simp [join, decides, Approx]
    · exact Approx.of_isHole (by simp [join, decides, deferredBool, isHole]) _

/-- A logical operator on a first operand and the outcome of the second one, which is looked at only
where the first one does not decide. -/
def logical (op : BinaryOp) (l : Value) (right : Except EvalError Value) :
    Except EvalError Value := do
  let lTruth ← truth op l
  if lTruth = Option.some (op == .or) then .ok (bool (op == .or))
  else
    let r ← right
    let rTruth ← truth op r
    .ok (join op (op == .or) l r lTruth rTruth)

theorem logical_follows (op : BinaryOp) {l l' : Value} {right right' : Except EvalError Value}
    (left : Approx l l') (next : Follows Approx right right') :
    Follows Approx (logical op l right) (logical op l' right') := by
  refine Follows.bind (truth_follows op left) fun lTruth lTruth' related => ?_
  by_cases decided : lTruth = Option.some (op == .or)
  · rcases related with rfl | rfl
    · rw [if_pos decided, if_pos decided]
      exact Follows.ok (Approx.refl _)
    · cases decided
  · rw [if_neg decided]
    by_cases decided' : lTruth' = Option.some (op == .or)
    · -- The first operand decides in the second run alone, and was unknown in the first one.
      obtain rfl : lTruth = Option.none := related.resolve_left fun same => decided (same ▸ decided')
      rw [if_pos decided']
      intro v found
      obtain ⟨r, -, found⟩ := except_bind_eq_ok.mp found
      obtain ⟨rTruth, -, found⟩ := except_bind_eq_ok.mp found
      cases found
      exact Or.inl ⟨_, rfl, join_of_unknown op _ l r rTruth⟩
    · rw [if_neg decided']
      refine Follows.bind next fun r r' approx => ?_
      refine Follows.bind (truth_follows op approx) fun rTruth rTruth' related' => ?_
      exact Follows.ok (join_follows op _ decided' related related')

/-! ### Options -/

theorem isHole_intoOption {v : Value} (hole : v.isHole = true) :
    (intoOption v).isHole = true := by
  cases v <;> simp_all [intoOption, isHole]

theorem intoOption_approx {v w : Value} (approx : Approx v w) :
    Approx (intoOption v) (intoOption w) := by
  cases hole : v.isHole with
  | true => exact Approx.of_isHole (isHole_intoOption hole) _
  | false =>
    cases v with
    | none =>
      obtain rfl : w = none := approx
      exact Approx.refl _
    | some v =>
      obtain ⟨v', rfl, inside⟩ := approx.some_of_not_isHole hole
      exact Or.inr ⟨v', rfl, inside⟩
    | list items =>
      obtain ⟨items', rfl, inside⟩ := approx
      exact Or.inr ⟨_, rfl, items', rfl, inside⟩
    | record t fields =>
      obtain ⟨t', fields', rfl, inside⟩ := approx
      exact Or.inr ⟨_, rfl, t', fields', rfl, inside⟩
    | wrapped t v =>
      obtain ⟨v', rfl, inside⟩ := approx
      exact Or.inr ⟨_, rfl, v', rfl, inside⟩
    | ref binding t => simp [isHole] at hole
    | deferred t call => simp [isHole] at hole
    | _ =>
      obtain rfl := approx.eq_of_isKnown rfl
      exact Approx.refl _

end Value
namespace Store

variable {store : Store} {runner : Runner}

/-! ### Fields and structs -/

theorem find?_approx {name : String} {fields fields' : List (String × Value)}
    {f : String × Value} (approx : ApproxFields fields fields')
    (found : fields.find? (·.1 == name) = some f) :
    ∃ f', fields'.find? (·.1 == name) = some f' ∧ Approx f.2 f'.2 := by
  induction fields generalizing fields' with
  | nil => simp at found
  | cons g rest ih =>
    cases fields' with
    | nil => simp [ApproxFields] at approx
    | cons g' rest' =>
      obtain ⟨same, here, there⟩ := approx
      by_cases named : g.1 = name
      · obtain rfl : g = f := by simpa [named] using found
        exact ⟨g', by simp [← same, named], here⟩
      · obtain ⟨f', found', related⟩ := ih there (by simpa [named] using found)
        exact ⟨f', by simpa [← same, named] using found', related⟩

theorem get?_approx {name : String} {fields fields' : NameMap Value} {v : Value}
    (approx : ApproxFields fields fields') (found : fields.get? name = some v) :
    ∃ v', fields'.get? name = some v' ∧ Approx v v' := by
  induction fields generalizing fields' with
  | nil => simp [NameMap.get?] at found
  | cons g rest ih =>
    cases fields' with
    | nil => simp [ApproxFields] at approx
    | cons g' rest' =>
      obtain ⟨n, u⟩ := g
      obtain ⟨n', u'⟩ := g'
      obtain ⟨rfl, here, there⟩ := approx
      by_cases named : n = name
      · obtain rfl : u = v := by simpa [NameMap.get?, named] using found
        exact ⟨u', by simp [NameMap.get?, named], here⟩
      · obtain ⟨v', found', related⟩ := ih there (by simpa [NameMap.get?, named] using found)
        exact ⟨v', by simpa [NameMap.get?, named] using found', related⟩

theorem insert_approx {name : String} {fields fields' : NameMap Value} {v w : Value}
    (approx : ApproxFields fields fields') (value : Approx v w) :
    ApproxFields (fields.insert name v) (fields'.insert name w) := by
  induction fields generalizing fields' with
  | nil => cases fields' <;> simp_all [ApproxFields, NameMap.insert]
  | cons g rest ih =>
    cases fields' with
    | nil => simp [ApproxFields] at approx
    | cons g' rest' =>
      obtain ⟨n, u⟩ := g
      obtain ⟨n', u'⟩ := g'
      obtain ⟨rfl, here, there⟩ := approx
      simp only [NameMap.insert]
      split
      · exact ⟨rfl, value, there⟩
      · split
        · exact ⟨rfl, value, rfl, here, there⟩
        · exact ⟨rfl, here, ih there⟩

theorem contains_approx {name : String} {fields fields' : NameMap Value}
    (approx : ApproxFields fields fields') : fields'.contains name = fields.contains name := by
  unfold NameMap.contains
  induction fields generalizing fields' with
  | nil => cases fields' <;> simp_all [ApproxFields]
  | cons g rest ih =>
    cases fields' with
    | nil => simp [ApproxFields] at approx
    | cons g' rest' =>
      obtain ⟨n, u⟩ := g
      obtain ⟨n', u'⟩ := g'
      obtain ⟨rfl, here, there⟩ := approx
      by_cases named : n = name
      · simp [NameMap.get?, named]
      · simpa [NameMap.get?, named] using ih there

/-- Of a struct a field is taken as it is, whatever the type of the struct. -/
private theorem fieldOf_record (store : Store) (env : Env) (t : Ty)
    (fields : List (String × Value)) (name : String) :
    (∃ e, store.fieldOf env (.record t fields) name = .error e) ∨
      ∃ f, fields.find? (·.1 == name) = some f ∧
        store.fieldOf env (.record t fields) name = .ok f.2 := by
  unfold fieldOf
  dsimp only
  split
  · split
    · exact Or.inl ⟨_, rfl⟩
    · cases found : fields.find? (·.1 == name) with
      | none => exact Or.inl ⟨_, rfl⟩
      | some f => exact Or.inr ⟨f, rfl, rfl⟩
  · cases found : fields.find? (·.1 == name) with
    | none => exact Or.inl ⟨_, rfl⟩
    | some f => exact Or.inr ⟨f, rfl, rfl⟩

theorem fieldOf_yields_hole {env : Env} {v : Value} {name : String} (hole : v.isHole = true) :
    Yields (·.isHole = true) (store.fieldOf env v name) := by
  intro a found
  unfold fieldOf at found
  cases v <;> simp only [Value.isHole, Bool.false_eq_true] at hole
  all_goals
    dsimp only at found
    repeat' split at found
    all_goals first | (cases found; rfl) | cases found

theorem fieldOf_follows {env env' : Env} {v w : Value} {name : String} (approx : Approx v w) :
    Follows Approx (store.fieldOf env v name) (store.fieldOf env' w name) := by
  cases hole : v.isHole with
  | true => exact Value.follows_of_yields_hole (fieldOf_yields_hole hole) _
  | false =>
    cases v with
    | record t fields =>
      obtain ⟨t', fields', rfl, inside, _⟩ := approx
      intro a found
      rcases fieldOf_record store env t fields name with ⟨e, failed⟩ | ⟨f, named, taken⟩
      · rw [failed] at found
        cases found
      · obtain rfl : f.2 = a := by simpa [taken] using found
        obtain ⟨f', named', related⟩ := find?_approx inside named
        rcases fieldOf_record store env' t' fields' name with failed | ⟨g, named'', taken'⟩
        · exact Or.inr failed
        · obtain rfl : f' = g := by simpa [named'] using named''
          exact Or.inl ⟨f'.2, taken', related⟩
    | ref binding t => simp [Value.isHole] at hole
    | deferred t call => simp [Value.isHole] at hole
    | _ =>
      -- No other value has fields.
      intro a found
      unfold fieldOf at found
      dsimp only at found
      repeat' split at found
      all_goals cases found

private theorem mapM_fields (decl : TypeDecl) {fields : List FieldDecl}
    {given given' : NameMap Value} (approx : ApproxFields given given') :
    Follows ApproxFields
      (fields.mapM fun f => match given.get? f.name with
        | some v => (.ok (f.name, v) : Except EvalError (String × Value))
        | none => .error (.type (.missingField f.name decl.path)))
      (fields.mapM fun f => match given'.get? f.name with
        | some v => (.ok (f.name, v) : Except EvalError (String × Value))
        | none => .error (.type (.missingField f.name decl.path))) := by
  induction fields with
  | nil => exact Follows.ok (Value.ApproxFields.refl [])
  | cons f rest ih =>
    simp only [List.mapM_cons]
    refine Follows.bind (R := fun p q => p.1 = q.1 ∧ Approx p.2 q.2) ?_ ?_
    · cases named : given.get? f.name with
      | none => exact Follows.error
      | some v =>
        obtain ⟨v', named', here⟩ := get?_approx approx named
        rw [named']
        exact Follows.ok ⟨rfl, here⟩
    · rintro ⟨n, v⟩ ⟨n', v'⟩ ⟨rfl, here⟩
      exact Follows.bind ih fun others others' there => Follows.ok ⟨rfl, here, there⟩

theorem structOf_follows {decl : TypeDecl} {given given' : NameMap Value}
    (approx : ApproxFields given given') :
    Follows Approx (structOf decl given) (structOf decl given') := by
  refine Follows.bind (mapM_fields decl approx) fun fields fields' inside => ?_
  refine Follows.ok ⟨_, fields', rfl, inside, fun known => ?_⟩
  rw [inside.eq_of_fieldsKnown known]

/-! ### Calls

A call with an unknown receiver or argument is put off, and one with known ones is the same call in
both runs. -/

/-- Surroundings with the same module and `Self`, and with values that approximate those of the
other ones. -/
structure EnvApprox (env env' : Env) : Prop where
  module : env'.module = env.module
  selfTy : env'.selfTy = env.selfTy
  self : env.self.Rel Approx env'.self
  vars : ApproxFields env.vars env'.vars

theorem EnvApprox.scopeOf {env env' : Env} (approx : EnvApprox env env') :
    store.scopeOf env' = store.scopeOf env := by
  unfold Store.scopeOf
  rw [approx.module]

theorem EnvApprox.visibleFrom {env env' : Env} (approx : EnvApprox env env') :
    store.visibleFrom env' = store.visibleFrom env := by
  unfold Store.visibleFrom
  rw [approx.scopeOf]

theorem EnvApprox.symbolIn {env env' : Env} (approx : EnvApprox env env')
    (segments : List String) : store.symbolIn? env' segments = store.symbolIn? env segments := by
  unfold symbolIn?
  rw [approx.scopeOf, approx.selfTy]

theorem EnvApprox.typeIn {env env' : Env} (approx : EnvApprox env env') (segments : List String) :
    store.typeIn? env' segments = store.typeIn? env segments := by
  unfold typeIn?
  rw [approx.symbolIn]

theorem EnvApprox.variantIn {env env' : Env} (approx : EnvApprox env env')
    (segments : List String) : store.variantIn? env' segments = store.variantIn? env segments := by
  unfold variantIn?
  rw [approx.typeIn]

theorem EnvApprox.qualifier {env env' : Env} (approx : EnvApprox env env')
    (segments : List String) : store.qualifier? env' segments = store.qualifier? env segments := by
  unfold qualifier?
  rw [approx.scopeOf, approx.symbolIn]

theorem invoke_yields_hole {m : Method} {selfTy : Option Ty} {receiver : Option Value}
    {args : List Value} (unknown : (receiver.all (·.isKnown) && Value.areKnown args) = false) :
    Yields (·.isHole = true) (outcome (store.invoke runner m selfTy receiver args)) := by
  unfold invoke
  cases runner with
  | none => exact Yields.error
  | some run =>
    dsimp only
    split
    · exact Yields.error
    · simp only [unknown, Method.isConstEvaluable, Bool.and_false, Bool.not_false, if_true]
      exact Yields.ok rfl

theorem callMethodWith_yields_hole {env : Env} {receiver : Value} {name : String}
    {args : List Value} (unknown : (receiver.isKnown && Value.areKnown args) = false) :
    Yields (·.isHole = true)
      (outcome (store.callMethodWith runner env receiver name args)) := by
  unfold callMethodWith
  simp only [Eval.outcome_bind]
  refine Yields.bind (P := fun _ => True) (fun _ _ => trivial) fun found _ => ?_
  cases found with
  | found m => exact invoke_yields_hole unknown
  | ambiguous candidates qualified => exact Yields.error
  | notFound => exact Yields.error

theorem callMethodWith_follows {env env' : Env} (surroundings : EnvApprox env env')
    {receiver receiver' : Value} {name : String} {args args' : List Value}
    (approx : Approx receiver receiver') (each : ApproxItems args args') :
    Follows Approx (outcome (store.callMethodWith runner env receiver name args))
      (outcome (store.callMethodWith runner env' receiver' name args')) := by
  cases known : receiver.isKnown && Value.areKnown args with
  | true =>
    rw [Bool.and_eq_true] at known
    have same : store.callMethodWith runner env' receiver' name args' =
        store.callMethodWith runner env receiver name args := by
      unfold callMethodWith
      rw [surroundings.visibleFrom, approx.eq_of_isKnown known.1, each.eq_of_areKnown known.2]
    rw [same]
    exact Follows.refl Approx.refl _
  | false => exact Value.follows_of_yields_hole (callMethodWith_yields_hole known) _

theorem compareEqual_follows {env env' : Env} (surroundings : EnvApprox env env')
    (op : BinaryOp) {l l' r r' : Value} (left : Approx l l') (right : Approx r r') :
    Follows Approx (outcome (store.compareEqual runner env op l r))
      (outcome (store.compareEqual runner env' op l' r')) := by
  cases known : l.isKnown && r.isKnown with
  | true =>
    rw [Bool.and_eq_true] at known
    rw [left.eq_of_isKnown known.1, right.eq_of_isKnown known.2]
    unfold compareEqual
    split
    · exact Follows.refl Approx.refl _
    · split
      · exact Follows.refl Approx.refl _
      · exact callMethodWith_follows surroundings (Approx.refl l) ⟨Approx.refl r, trivial⟩
  | false =>
    have unknown : (!l.isKnown || !r.isKnown) = true := by
      rw [← Bool.not_and, known]
      rfl
    unfold compareEqual
    rw [if_pos unknown]
    exact Value.follows_of_yields_hole (Yields.ok rfl) _

theorem chain_yields_hole {step : Value → Eval Value} {base : Value} (hole : base.isHole = true)
    (unknown : ∀ v, v.isHole = true → Yields (·.isHole = true) (outcome (step v))) :
    Yields (·.isHole = true) (outcome (chain base step)) := by
  cases base with
  | some v =>
    simp only [chain, Eval.outcome_map]
    exact Yields.map (unknown v hole) fun _ => Value.isHole_intoOption
  | ref _ _ | deferred _ _ =>
    unfold chain
    dsimp only
    split
    · simp only [Eval.outcome_bind]
      exact Yields.bind (unknown _ rfl) fun _ _ => Yields.ok rfl
    · exact Yields.error
  | _ => cases hole

/-- Steps that follow each other, and that make unknown values of unknown ones, may be chained. -/
theorem chain_follows {step step' : Value → Eval Value} {base base' : Value}
    (approx : Approx base base')
    (next : ∀ v w, Approx v w → Follows Approx (outcome (step v)) (outcome (step' w)))
    (unknown : ∀ v, v.isHole = true → Yields (·.isHole = true) (outcome (step v))) :
    Follows Approx (outcome (chain base step)) (outcome (chain base' step')) := by
  cases hole : base.isHole with
  | true => exact Value.follows_of_yields_hole (chain_yields_hole hole unknown) _
  | false =>
    cases base with
    | none =>
      obtain rfl : base' = .none := approx
      exact Follows.refl Approx.refl _
    | some v =>
      obtain ⟨v', rfl, inside⟩ := approx.some_of_not_isHole hole
      simp only [chain, Eval.outcome_map]
      exact Follows.map (next v v' inside) fun _ _ => Value.intoOption_approx
    | ref binding t => cases hole
    | deferred t call => cases hole
    | _ => exact Follows.error

theorem chainIf_follows {optional : Bool} {step step' : Value → Eval Value} {base base' : Value}
    (approx : Approx base base')
    (next : ∀ v w, Approx v w → Follows Approx (outcome (step v)) (outcome (step' w)))
    (unknown : ∀ v, v.isHole = true → Yields (·.isHole = true) (outcome (step v))) :
    Follows Approx (outcome (chainIf optional base step)) (outcome (chainIf optional base' step')) := by
  cases optional with
  | true => exact chain_follows approx next unknown
  | false => exact next base base' approx

theorem callQualified_yields_hole {env : Env} {segments : List String} {name : String}
    {args : List Value} (unknown : Value.areKnown args = false) :
    Yields (·.isHole = true) (outcome (store.callQualified runner env segments name args)) := by
  unfold callQualified
  simp only [Eval.outcome_bind]
  refine Yields.bind Yields.trivial fun q _ => ?_
  split
  all_goals
    simp only [Eval.outcome_bind]
    refine Yields.bind Yields.trivial fun receiverTy _ => ?_
    refine Yields.bind Yields.trivial fun found _ => ?_
    cases found with
    | ambiguous candidates qualified => exact Yields.error
    | notFound => exact Yields.error
    | found m =>
      dsimp only
      split
      · cases args with
        | nil => exact Yields.error
        | cons receiver rest => exact invoke_yields_hole unknown
      · exact invoke_yields_hole unknown

theorem call_follows {env env' : Env} (surroundings : EnvApprox env env') {callee : List String}
    {args args' : List Value} (each : ApproxItems args args') :
    Follows Approx (outcome (store.call runner env callee args))
      (outcome (store.call runner env' callee args')) := by
  cases known : Value.areKnown args with
  | true =>
    rw [each.eq_of_areKnown known]
    have same : store.call runner env' callee args = store.call runner env callee args := by
      simp only [call, callQualified, surroundings.qualifier]
    rw [same]
    exact Follows.refl Approx.refl _
  | false =>
    unfold call
    split
    · rename_i v
      cases args' with
      | nil => simp [ApproxItems] at each
      | cons v' rest' =>
        cases rest' with
        | nil => exact Follows.ok (Or.inr ⟨v', rfl, each.1⟩)
        | cons w more => simp [ApproxItems] at each
    · exact Follows.error
    · exact Follows.error
    · exact Value.follows_of_yields_hole (callQualified_yields_hole known) _

/-! ### Evaluation -/

private theorem evalAll_follows {env env' : Env} {es : List Expr}
    (each : ∀ e ∈ es, Follows Approx (outcome (store.evalWith runner env e))
      (outcome (store.evalWith runner env' e))) :
    Follows ApproxItems (outcome (store.evalAll runner env es))
      (outcome (store.evalAll runner env' es)) := by
  induction es with
  | nil => exact Follows.ok trivial
  | cons e rest ih =>
    rw [List.forall_mem_cons] at each
    simp only [evalAll, Eval.outcome_bind]
    refine Follows.bind each.1 fun v w here => ?_
    exact Follows.bind (ih each.2) fun vs ws there => Follows.ok ⟨here, there⟩

private theorem evalFields_follows {env env' : Env} (surroundings : EnvApprox env env')
    {decl : TypeDecl} {fields : List (String × Expr)} {given given' : NameMap Value}
    (approx : ApproxFields given given')
    (each : ∀ f ∈ fields, Follows Approx (outcome (store.evalWith runner env f.2))
      (outcome (store.evalWith runner env' f.2))) :
    Follows ApproxFields (outcome (store.evalFields runner env decl given fields))
      (outcome (store.evalFields runner env' decl given' fields)) := by
  induction fields generalizing given given' with
  | nil => exact Follows.ok approx
  | cons f rest ih =>
    obtain ⟨name, e⟩ := f
    rw [List.forall_mem_cons] at each
    simp only [evalFields, Eval.outcome_bind, Eval.outcome_liftExcept]
    have checked : checkField decl env' given' name = checkField decl env given name := by
      unfold checkField
      rw [surroundings.module, contains_approx approx]
    rw [checked]
    refine Follows.bind (Follows.refl (R := fun _ _ => True) (fun _ => trivial) _) fun _ _ _ => ?_
    refine Follows.bind each.1 fun v w here => ?_
    exact ih (insert_approx approx here) each.2

theorem outcome_logical (op : BinaryOp) (l : Value) (right : Eval Value) :
    outcome (do
      let lTruth ← liftM (Value.truth op l)
      if lTruth = some (op == .or) then return .bool (op == .or)
      else
        let r ← right
        let rTruth ← liftM (Value.truth op r)
        return Value.join op (op == .or) l r lTruth rTruth) = Value.logical op l (outcome right) := by
  simp only [Eval.outcome_bind, Eval.outcome_liftExcept, Value.logical]
  refine bind_congr fun lTruth => ?_
  split
  · rfl
  · simp only [Eval.outcome_bind, Eval.outcome_liftExcept, Eval.outcome_pure]

/-- Evaluation in more precise surroundings follows evaluation in less precise ones. -/
theorem evalWith_follows {env env' : Env} (surroundings : EnvApprox env env') (e : Expr) :
    Follows Approx (outcome (store.evalWith runner env e))
      (outcome (store.evalWith runner env' e)) := by
  induction e using Expr.inductionOn with
  | lit l => exact Follows.refl Approx.refl _
  | ident name =>
    simp only [evalWith, Eval.outcome_orElse]
    cases found : env.vars.get? name with
    | none => exact Follows.error
    | some v =>
      obtain ⟨v', found', approx⟩ := get?_approx surroundings.vars found
      rw [found']
      exact Follows.ok approx
  | self =>
    simp only [evalWith, Eval.outcome_orElse]
    have same := surroundings.self
    generalize env.self = self, env'.self = self' at same ⊢
    cases same with
    | none => exact Follows.error
    | some approx => exact Follows.ok approx
  | path segments =>
    simp only [evalWith, surroundings.variantIn]
    exact Follows.refl Approx.refl _
  | field base name optional ih =>
    simp only [evalWith, Eval.outcome_bind]
    refine Follows.bind ih fun v w approx => ?_
    exact chainIf_follows approx (fun _ _ approx => fieldOf_follows approx)
      fun _ => fieldOf_yields_hole
  | method receiver name args optional ih ihs =>
    simp only [evalWith, Eval.outcome_bind]
    refine Follows.bind ih fun v w approx => ?_
    refine Follows.bind (evalAll_follows ihs) fun vs ws each => ?_
    refine chainIf_follows approx (fun _ _ approx => callMethodWith_follows surroundings approx each)
      fun v hole => callMethodWith_yields_hole ?_
    rw [Value.not_isKnown_of_isHole hole, Bool.false_and]
  | call callee args ihs =>
    simp only [evalWith, Eval.outcome_bind]
    exact Follows.bind (evalAll_follows ihs) fun _ _ each => call_follows surroundings each
  | unary op operand ih =>
    simp only [evalWith, Eval.outcome_bind, Eval.outcome_liftExcept]
    exact Follows.bind ih fun _ _ approx => Value.unary_follows op approx
  | binary op left right ihl ihr =>
    simp only [evalWith, Eval.outcome_bind]
    refine Follows.bind ihl fun l l' approx => ?_
    cases op with
    | and | or =>
      dsimp only
      rw [outcome_logical, outcome_logical]
      exact Value.logical_follows _ approx ihr
    | eq | ne =>
      simp only [Eval.outcome_bind]
      exact Follows.bind ihr fun r r' approx' => compareEqual_follows surroundings _ approx approx'
    | lt | le | gt | ge =>
      simp only [Eval.outcome_bind, Eval.outcome_liftExcept]
      exact Follows.bind ihr fun r r' approx' => Value.compareBy_follows _ approx approx'
    | add | sub | mul | div | rem =>
      simp only [Eval.outcome_bind, Eval.outcome_liftExcept]
      exact Follows.bind ihr fun r r' approx' => Value.calculate_follows _ approx approx'
  | list items ihs =>
    simp only [evalWith, Eval.outcome_bind]
    exact Follows.bind (evalAll_follows ihs) fun vs ws each => Follows.ok ⟨ws, rfl, each⟩
  | record path fields ihs =>
    simp only [evalWith, Eval.outcome_bind, surroundings.typeIn]
    refine Follows.bind (Follows.refl (R := Eq) (fun _ => rfl) _) fun decl _ same => ?_
    subst same
    split
    · exact Follows.error
    · simp only [Eval.outcome_bind, Eval.outcome_liftExcept]
      exact Follows.bind (evalFields_follows surroundings trivial ihs)
        fun _ _ approx => structOf_follows approx
  | closure params body source ih => exact Follows.refl Approx.refl _

/-- Bodies of methods are called with known values alone, so that it does not matter what the
runner makes of unknown ones. -/
theorem eval_follows {env env' : Env} (surroundings : EnvApprox env env') (e : Expr) :
    Follows Approx (outcome (store.eval env e)) (outcome (store.eval env' e)) := by
  unfold eval
  cases store.maxDepth with
  | zero => exact evalWith_follows surroundings e
  | succ depth => exact evalWith_follows surroundings e

end Store

/-- The second surroundings are the first ones with any of the references and deferred values in
their values replaced by arbitrary values. -/
structure Env.Fills (env env' : Env) : Prop where
  module : env'.module = env.module
  selfTy : env'.selfTy = env.selfTy
  self : env.self.Rel Value.Fills env'.self
  vars : Value.FillsFields env.vars env'.vars

namespace Store

variable {store : Store}

private theorem rel_approx {v w : Option Value} (filled : v.Rel Value.Fills w) :
    v.Rel Approx w := by
  cases filled with
  | none => exact .none
  | some here => exact .some here.approx

theorem EnvApprox.of_fills {env env' : Env} (filled : env.Fills env') : EnvApprox env env' :=
  ⟨filled.module, filled.selfTy, rel_approx filled.self, filled.vars.approx⟩

theorem eval_of_fills {env env' : Env} (filled : env.Fills env') {e : Expr} {v : Value}
    (known : v.isKnown = true) (found : outcome (store.eval env e) = .ok v) :
    outcome (store.eval env' e) = .ok v ∨ ∃ fault, outcome (store.eval env' e) = .error fault := by
  rcases eval_follows (EnvApprox.of_fills filled) e v found with ⟨w, found', approx⟩ | failed
  · rw [approx.eq_of_isKnown known] at found'
    exact Or.inl found'
  · exact Or.inr failed

/-! ### Checks -/

/-- What the outcome of a check says: its truth value, if it is known. -/
theorem check_value (c : Check) (env : Env) (place : Location) :
    (store.check c env place).value = match outcome (store.eval env c.snippet.expr) with
      | .ok (.bool b) => .ok (if b then .holds else .fails)
      | .ok v =>
        if !v.isKnown && v.ty.path? == some Builtin.bool then .ok .deferred
        else .error (mismatch place Builtin.boolTy v.ty.text)
      | .error e => .error (evalFault place c.snippet e) := by
  unfold check outcome
  rw [Logged.value_bind]
  generalize (store.eval env c.snippet.expr).run.value = r
  cases r with
  | error e => rfl
  | ok v =>
    cases v with
    | bool b => cases b <;> rfl
    | _ =>
      dsimp only
      split <;> rfl

private theorem bool_of_check {c : Check} {env : Env} {place : Location} {verdict : Verdict}
    (decided : verdict ≠ .deferred) (found : (store.check c env place).value = .ok verdict) :
    ∃ b, outcome (store.eval env c.snippet.expr) = .ok (.bool b) ∧
      verdict = if b then .holds else .fails := by
  rw [check_value] at found
  split at found
  · rename_i b here
    cases found
    exact ⟨b, here, rfl⟩
  · split at found <;> cases found
    exact absurd rfl decided
  · cases found

theorem check_of_fills {env env' : Env} (filled : env.Fills env') {c : Check} {place : Location}
    {verdict : Verdict} (decided : verdict ≠ .deferred)
    (found : (store.check c env place).value = .ok verdict) :
    (store.check c env' place).value = .ok verdict ∨
      ∃ fault, (store.check c env' place).value = .error fault := by
  obtain ⟨b, here, rfl⟩ := bool_of_check decided found
  rcases eval_of_fills filled rfl here with there | ⟨e, failed⟩
  · rw [check_value, there]
    exact Or.inl rfl
  · rw [check_value, failed]
    exact Or.inr ⟨_, rfl⟩

/-- What the checks of a parameter see: its value under its name and as `self`. -/
def paramEnv (module name : String) (v : Value) : Env :=
  (Env.withSelf { module := module } v).withVar name v

theorem paramEnv_fills {module name : String} {v v' : Value} (filled : v.Fills v') :
    (paramEnv module name v).Fills ((paramEnv module name v').withSelfTy (some v.ty)) where
  module := rfl
  selfTy := rfl
  self := .some filled
  vars := ⟨rfl, filled, trivial⟩

private theorem check_withSelfTy {c : Check} {env : Env} {place : Location} {t : Option Ty}
    (same : env.selfTy = t ∨ c.snippet.expr.namesSelf = false) :
    store.check c (env.withSelfTy t) place = store.check c env place := by
  rcases same with rfl | other
  · rfl
  · rw [check, eval_withSelfTy other, check]

/-- **Deferral is sound.** A known value stays as it is, or there is a fault, when references and
deferred values in the surroundings are replaced. Hence no check comes to the opposite verdict; that
goes for the check of a parameter as well, where `Self` is the type of the value, as long as this
stays the same or the check does not name it. -/
theorem deferral_sound (store : Store) :
    (∀ (env env' : Env) (e : Expr) (v : Value), env.Fills env' → v.isKnown = true →
      outcome (store.eval env e) = .ok v →
      outcome (store.eval env' e) = .ok v ∨
        ∃ fault, outcome (store.eval env' e) = .error fault) ∧
    (∀ (env env' : Env) (c : Check) (place : Location) (verdict : Verdict), env.Fills env' →
      verdict ≠ .deferred → (store.check c env place).value = .ok verdict →
      (store.check c env' place).value = .ok verdict ∨
        ∃ fault, (store.check c env' place).value = .error fault) ∧
    ∀ (module name : String) (v v' : Value) (c : Check) (place : Location) (verdict : Verdict),
      v.Fills v' → v'.ty = v.ty ∨ c.snippet.expr.namesSelf = false → verdict ≠ .deferred →
      (store.check c (paramEnv module name v) place).value = .ok verdict →
      (store.check c (paramEnv module name v') place).value = .ok verdict ∨
        ∃ fault, (store.check c (paramEnv module name v') place).value = .error fault := by
  refine ⟨?_, ?_, ?_⟩
  · intro env env' e v filled known found
    exact eval_of_fills filled known found
  · intro env env' c place verdict filled decided found
    exact check_of_fills filled decided found
  · intro module name v v' c place verdict filled same decided found
    have settled := check_of_fills (paramEnv_fills filled) decided found
    rwa [check_withSelfTy (same.imp_left (congrArg some))] at settled

/-- What the check of an order sees, with a buyer that may not be known yet. -/
def orderEnv (buyer : Value) : Env :=
  paramEnv "shop" "it" (.record (.named "Order" []) [("buyer", buyer), ("amount", .int 5)])

/-- The condition that an order is from a member or large. -/
def orderCheck : Check where
  snippet := ⟨"self.buyer || self.amount > 3", .binary .or (.field .self "buyer" false)
    (.binary .gt (.field .self "amount" false) (.lit (.int 3)))⟩
  subject := none
  explain := none

/-- A large order satisfies the condition while its buyer is not known, and thus never fails it. -/
theorem orderCheck_holds :
    (outcome (eval default (orderEnv (.bool false)) orderCheck.snippet.expr) = .ok (.bool true) ∨
      ∃ fault,
        outcome (eval default (orderEnv (.bool false)) orderCheck.snippet.expr) = .error fault) ∧
    ((check default orderCheck (orderEnv (.bool false)) (.ofDocument "shop")).value = .ok .holds ∨
      ∃ fault, (check default orderCheck (orderEnv (.bool false)) (.ofDocument "shop")).value =
        .error fault) ∧
    ((check default orderCheck (orderEnv .none) (.ofDocument "shop")).value = .ok .holds ∨
      ∃ fault, (check default orderCheck (orderEnv .none) (.ofDocument "shop")).value =
        .error fault) := by
  have filled : (orderEnv (.ref "someone" Builtin.boolTy)).Fills (orderEnv (.bool false)) :=
    ⟨rfl, rfl, .some ⟨_, rfl, rfl, trivial, rfl, rfl, trivial⟩,
      rfl, ⟨_, rfl, rfl, trivial, rfl, rfl, trivial⟩, trivial⟩
  obtain ⟨values, verdicts, params⟩ := deferral_sound default
  refine ⟨values _ _ _ _ filled rfl rfl, verdicts _ _ _ _ _ filled nofun rfl, ?_⟩
  have absent : (Value.record (.named "Order" []) [("buyer", .ref "someone" Builtin.boolTy),
      ("amount", .int 5)]).Fills (.record (.named "Order" []) [("buyer", .none), ("amount", .int 5)]) :=
    ⟨_, rfl, rfl, trivial, rfl, rfl, trivial⟩
  exact params "shop" "it" _ _ orderCheck _ .holds absent (Or.inl rfl) nofun rfl

end Store
end Pipeline
