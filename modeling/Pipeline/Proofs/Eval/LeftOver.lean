import Pipeline.Proofs.Eval.Deferral
import Pipeline.Proofs.Eval.Depth
import Pipeline.Proofs.Expr.Flat

/-!
# What is left over of an expression

An expression of integers, truth values and operators that reads bindings whose values are not known
yet is computed as far as it can be. The text of the deferred value is that of the rest, written
without parentheses. Where this text is read as the rest, it comes to the value of the expression
once the bindings are known.
-/

set_option autoImplicit false
set_option relaxedAutoImplicit false

namespace Pipeline

open Eval (outcome Kept)

namespace Value

/-- The expression that a known integer or truth value is written as. -/
def written? : Value → Option Expr
  | bool b => Option.some (.lit (.bool b))
  | int n => Option.some (if n < 0 then .unary .neg (.lit (.int (-n))) else .lit (.int n))
  | _ => Option.none

/-- The values that expressions of integers and truth values come to. -/
inductive Simple : Value → Prop
  | bool (b : Bool) : Simple (.bool b)
  | int {n : Int} : 0 ≤ n ∨ fitsInt n = true → Simple (.int n)
  | ref (binding : String) (t : Ty) : Simple (.ref binding t)
  | deferred (t : Ty) (call : String) : Simple (.deferred t call)

/-- What an operator makes of such values: another one, or a deferred value with a given text. -/
inductive Computed (call : String) : Value → Prop
  | bool (b : Bool) : Computed call (.bool b)
  | int {n : Int} : fitsInt n = true → Computed call (.int n)
  | deferred (t : Ty) : Computed call (.deferred t call)

variable {v l r : Value} {e : Expr} {call : String}

theorem Computed.simple (computed : Computed call v) : v.Simple := by
  cases computed with
  | bool b => exact .bool b
  | int fits => exact .int (Or.inr fits)
  | deferred t => exact .deferred t call

theorem isKnown_of_written? (written : v.written? = Option.some e) : v.isKnown = true := by
  cases v <;> first | rfl | cases written

theorem scalar_of_written? (written : v.written? = Option.some e) : e.Scalar := by
  cases v with
  | bool b =>
    cases written
    exact .bool b
  | int n =>
    cases written
    split
    · exact .unary (.int (by omega))
    · exact .int (by omega)
  | _ => cases written

theorem text_of_written? (written : v.written? = Option.some e) : v.text = e.flat := by
  cases v with
  | bool b =>
    cases written
    rfl
  | int n =>
    cases written
    by_cases negative : n < 0
    · have positive : ¬ -n < 0 := by omega
      rw [if_pos negative, text, Expr.flat, Expr.flat, Text.intText, if_pos negative, Text.intText,
        if_neg positive, Int.natAbs_neg]
      rfl
    · rw [if_neg negative]
      rfl
  | _ => cases written

/-- What is computed has the text of the expression it is written as, or of the given one. -/
theorem Computed.text_eq (computed : Computed e.flat v) : v.text = (v.written?.getD e).flat := by
  cases written : v.written? with
  | some k => exact text_of_written? written
  | none =>
    cases computed with
    | bool b => cases written
    | int fits => cases written
    | deferred t => rfl

/-! ### Operators -/

private theorem computed_ofInt {n : Int} (found : ofInt n = .ok v) : Computed call v := by
  unfold ofInt at found
  split at found
  · rename_i fits
    cases found
    exact .int fits
  · cases found

theorem Simple.unary (simple : v.Simple) {op : UnaryOp} {w : Value} (found : unary op v = .ok w) :
    Computed (op.symbol ++ v.text) w := by
  cases simple with
  | bool b =>
    cases op with
    | not =>
      cases found
      exact .bool _
    | neg => cases found
  | int _ =>
    cases op with
    | not => cases found
    | neg => exact computed_ofInt found
  | ref binding t =>
    cases op <;> cases found <;> exact .deferred _
  | deferred t call =>
    cases op <;> cases found <;> exact .deferred _

theorem Simple.structural (simple : v.Simple) (known : v.isKnown = true) :
    v.isStructural = true := by
  cases simple <;> first | rfl | cases known

private theorem computed_compareBy {op : BinaryOp} {w : Value} (found : compareBy op l r = .ok w) :
    Computed (operationText op l r) w := by
  unfold Value.compareBy at found
  split at found
  · cases found
    exact .deferred _
  · obtain ⟨o, -, found⟩ := except_bind_eq_ok.mp found
    cases o <;> cases found <;> exact .bool _

private theorem computed_calculateInt {op : BinaryOp} {a b : Int} {w : Value}
    (found : calculateInt op a b = .ok w) : Computed call w := by
  unfold calculateInt at found
  split at found
  · exact computed_ofInt found
  · exact computed_ofInt found
  · exact computed_ofInt found
  · split at found
    · cases found
    · exact computed_ofInt found
  · split at found
    · cases found
    · split at found
      · exact computed_ofInt found
      · cases found

private theorem computed_calculate (left : l.Simple) (right : r.Simple) {op : BinaryOp} {w : Value}
    (found : calculate op l r = .ok w) : Computed (operationText op l r) w := by
  unfold Value.calculate at found
  split at found
  · cases found
    exact .deferred _
  · rename_i known
    cases left with
    | ref => exact absurd rfl known
    | deferred => exact absurd rfl known
    | bool a => cases right <;> cases op <;> cases found
    | int _ =>
      cases right with
      | ref => exact absurd (Bool.or_true _) known
      | deferred => exact absurd (Bool.or_true _) known
      | bool b => cases op <;> cases found
      | int _ => exact @computed_calculateInt _ op _ _ _ found

/-- A logical operator is decided, or both its operands have been evaluated. -/
private theorem computed_logical {op : BinaryOp} {right : Except EvalError Value} {w : Value}
    (found : logical op l right = .ok w) :
    (∃ b, w = bool b) ∨ ∃ r, right = .ok r ∧ Computed (operationText op l r) w := by
  unfold logical at found
  obtain ⟨lTruth, -, found⟩ := except_bind_eq_ok.mp found
  split at found
  · cases found
    exact Or.inl ⟨_, rfl⟩
  · obtain ⟨r, evaluated, found⟩ := except_bind_eq_ok.mp found
    obtain ⟨rTruth, -, found⟩ := except_bind_eq_ok.mp found
    cases found
    refine Or.inr ⟨r, evaluated, ?_⟩
    unfold join
    split
    · exact .bool _
    · split
      · exact .bool _
      · exact .deferred _
    · exact .deferred _

end Value

namespace Store

variable {store : Store} {env env' : Env} {e : Expr} {v : Value}

/-- An operator between operands, the second of which counts only where the first one does not
decide. -/
def operate (store : Store) (env : Env) (op : BinaryOp) (l : Value)
    (right : Except EvalError Value) : Except EvalError Value :=
  match op with
  | .and | .or => Value.logical op l right
  | .eq | .ne => do
    outcome (store.compareEqual (store.runnerAt store.maxDepth) env op l (← right))
  | .lt | .le | .gt | .ge => do Value.compareBy op l (← right)
  | .add | .sub | .mul | .div | .rem => do Value.calculate op l (← right)

theorem outcome_eval_unary (op : UnaryOp) (e : Expr) :
    outcome (store.eval env (.unary op e)) = outcome (store.eval env e) >>= Value.unary op := by
  simp only [eval, evalTo_eq, evalWith, Eval.outcome_bind, Eval.outcome_liftExcept]

theorem outcome_eval_binary (op : BinaryOp) (l r : Expr) :
    outcome (store.eval env (.binary op l r)) =
      outcome (store.eval env l) >>= fun v => store.operate env op v (outcome (store.eval env r)) := by
  simp only [eval, evalTo_eq, evalWith, Eval.outcome_bind]
  refine bind_congr fun v => ?_
  cases op with
  | and | or => exact outcome_logical _ _ _
  | eq | ne => simp only [operate, Eval.outcome_bind]
  | lt | le | gt | ge => simp only [operate, Eval.outcome_bind, Eval.outcome_liftExcept]
  | add | sub | mul | div | rem => simp only [operate, Eval.outcome_bind, Eval.outcome_liftExcept]

theorem computed_operate {op : BinaryOp} {l w : Value} {right : Except EvalError Value}
    (left : l.Simple) (simple : ∀ r, right = .ok r → r.Simple)
    (found : store.operate env op l right = .ok w) :
    (∃ b, w = .bool b) ∨ ∃ r, right = .ok r ∧ Value.Computed (Value.operationText op l r) w := by
  cases op with
  | and | or => exact Value.computed_logical found
  | eq | ne =>
    obtain ⟨r, evaluated, found⟩ := except_bind_eq_ok.mp found
    refine Or.inr ⟨r, evaluated, ?_⟩
    unfold compareEqual at found
    split at found
    · cases found
      exact .deferred _
    · rename_i known
      simp only [Bool.or_eq_true, Bool.not_eq_true', not_or, Bool.not_eq_false] at known
      rw [left.structural known.1, (simple r evaluated).structural known.2] at found
      cases found
      exact .bool _
  | lt | le | gt | ge =>
    obtain ⟨r, evaluated, found⟩ := except_bind_eq_ok.mp found
    exact Or.inr ⟨r, evaluated, Value.computed_compareBy found⟩
  | add | sub | mul | div | rem =>
    obtain ⟨r, evaluated, found⟩ := except_bind_eq_ok.mp found
    exact Or.inr ⟨r, evaluated, Value.computed_calculate left (simple r evaluated) found⟩

theorem operate_kept (op : BinaryOp) (l : Value) {right right' : Except EvalError Value}
    (kept : Kept right right') : Kept (store.operate env op l right) (store.operate env op l right') := by
  cases op with
  | and | or =>
    refine Kept.carried.bind (Kept.carried.refl _) fun truth => ?_
    split
    · exact Kept.carried.refl _
    · exact Kept.carried.bind kept fun _ => Kept.carried.refl _
  | eq | ne | lt | le | gt | ge | add | sub | mul | div | rem =>
    exact Kept.carried.bind kept fun _ => Kept.carried.refl _

/-! ### The rest of an expression -/

/-- What an expression is known to come to, written out. -/
def settled? (store : Store) (env : Env) (e : Expr) : Option Expr :=
  match outcome (store.eval env e) with
  | .ok v => v.written?
  | .error _ => none

/-- An expression with all of its parts computed that are known. -/
def leftOver (store : Store) (env : Env) : Expr → Expr
  | .unary op e => (store.settled? env (.unary op e)).getD (.unary op (leftOver store env e))
  | .binary op l r => (store.settled? env (.binary op l r)).getD
      (.binary op (leftOver store env l) (leftOver store env r))
  | e => e

/-- The names that an expression reads stand for bindings of these names. -/
def ReadsRefs (env : Env) (e : Expr) : Prop :=
  ∀ name ∈ e.reads, ∃ t, env.vars.get? name = some (.ref name t)

theorem settled?_eq (found : outcome (store.eval env e) = .ok v) :
    store.settled? env e = v.written? := by
  rw [settled?, found]

theorem scalar_leftOver (scalar : e.Scalar) : (store.leftOver env e).Scalar := by
  have settled {e rest : Expr} (scalar : rest.Scalar) :
      ((store.settled? env e).getD rest).Scalar := by
    unfold settled?
    split
    · rename_i v _
      cases written : v.written? with
      | none => exact scalar
      | some k => exact Value.scalar_of_written? written
    · exact scalar
  induction scalar with
  | bool b => exact .bool b
  | int positive => exact .int positive
  | ident own => exact .ident own
  | unary _ ih => exact settled (.unary ih)
  | binary _ _ left right => exact settled (.binary left right)

/-- The text of a value is that of the rest, written without parentheses. -/
theorem text_leftOver (scalar : e.Scalar) (refers : ReadsRefs env e)
    (found : outcome (store.eval env e) = .ok v) :
    v.Simple ∧ v.text = (store.leftOver env e).flat := by
  induction scalar generalizing v with
  | bool b =>
    rw [eval, evalTo_eq] at found
    cases found
    exact ⟨.bool b, rfl⟩
  | int positive =>
    rw [eval, evalTo_eq] at found
    cases found
    exact ⟨.int (Or.inl positive), rfl⟩
  | @ident name own =>
    obtain ⟨t, bound⟩ := refers name List.mem_cons_self
    rw [eval, evalTo_eq, evalWith, Eval.outcome_orElse, bound] at found
    cases found
    exact ⟨.ref name t, rfl⟩
  | unary _ ih =>
    have settled := store.settled?_eq found
    rw [outcome_eval_unary] at found
    obtain ⟨w, operand, found⟩ := except_bind_eq_ok.mp found
    obtain ⟨simple, text⟩ := ih refers operand
    have computed := simple.unary found
    rw [text] at computed
    rw [leftOver, settled]
    exact ⟨computed.simple, Value.Computed.text_eq computed⟩
  | @binary op l r _ _ ihl ihr =>
    have settled := store.settled?_eq found
    rw [outcome_eval_binary] at found
    obtain ⟨w, left, found⟩ := except_bind_eq_ok.mp found
    obtain ⟨simple, text⟩ := ihl (fun name inside => refers name (List.mem_append_left _ inside)) left
    have right (u : Value) := @ihr u fun name inside => refers name (List.mem_append_right _ inside)
    rw [leftOver, settled]
    rcases computed_operate simple (fun u evaluated => (right u evaluated).1) found with
      ⟨b, rfl⟩ | ⟨u, evaluated, computed⟩
    · exact ⟨.bool b, rfl⟩
    · rw [Value.operationText, text, (right u evaluated).2] at computed
      exact ⟨computed.simple, Value.Computed.text_eq computed⟩

/-- A known value is what it is written as comes to. -/
private theorem eval_written (simple : v.Simple) (written : v.written? = some e) :
    outcome (store.eval env e) = .ok v := by
  cases simple with
  | bool b =>
    cases written
    rw [eval, evalTo_eq]
    rfl
  | @int n fits =>
    cases written
    split
    · rename_i negative
      have fits : Value.fitsInt n = true := fits.resolve_left (by omega)
      rw [outcome_eval_unary, eval, evalTo_eq]
      change Value.ofInt (- -n) = _
      rw [Value.ofInt, Int.neg_neg, if_pos fits]
    · rw [eval, evalTo_eq]
      rfl
  | ref => cases written
  | deferred => cases written

/-- What is known already stays what it is, so that it may be written out. -/
private theorem eval_settled {rest : Expr} (filled : env.Fills env')
    (found : outcome (store.eval env e) = .ok v) (simple : v.Simple)
    (kept : v.isKnown = false → Kept (outcome (store.eval env' e)) (outcome (store.eval env' rest))) :
    Kept (outcome (store.eval env' e))
      (outcome (store.eval env' ((store.settled? env e).getD rest))) := by
  rw [settled?_eq found]
  cases written : v.written? with
  | none =>
    refine kept ?_
    cases simple <;> first | rfl | cases written
  | some k =>
    intro w later
    rcases eval_of_fills filled (Value.isKnown_of_written? written) found with same | ⟨fault, failed⟩
    · cases same.symm.trans later
      exact eval_written simple written
    · cases failed.symm.trans later

/-- Once more is known, the rest comes to the values of the expression. -/
theorem eval_leftOver (scalar : e.Scalar) (refers : ReadsRefs env e) (filled : env.Fills env')
    (found : outcome (store.eval env e) = .ok v) :
    Kept (outcome (store.eval env' e)) (outcome (store.eval env' (store.leftOver env e))) := by
  have simple {e : Expr} {v : Value} (scalar : e.Scalar) (refers : ReadsRefs env e)
      (found : outcome (store.eval env e) = .ok v) : v.Simple := (text_leftOver scalar refers found).1
  induction scalar generalizing v with
  | bool b => exact Kept.carried.refl _
  | int positive => exact Kept.carried.refl _
  | ident own => exact Kept.carried.refl _
  | unary scalar ih =>
    refine eval_settled filled found (simple (.unary scalar) refers found) fun _ => ?_
    rw [outcome_eval_unary] at found
    obtain ⟨w, operand, -⟩ := except_bind_eq_ok.mp found
    rw [outcome_eval_unary, outcome_eval_unary]
    exact Kept.carried.bind (ih refers operand) fun _ => Kept.carried.refl _
  | @binary op l r scalarL scalarR ihl ihr =>
    refine eval_settled filled found (simple (.binary scalarL scalarR) refers found) fun unknown => ?_
    have refersL : ReadsRefs env l := fun name inside => refers name (List.mem_append_left _ inside)
    have refersR : ReadsRefs env r := fun name inside => refers name (List.mem_append_right _ inside)
    rw [outcome_eval_binary] at found
    obtain ⟨w, left, found⟩ := except_bind_eq_ok.mp found
    -- A result that is not known comes from both operands, also that of a logical operator.
    rcases computed_operate (simple scalarL refersL left) (fun _ => simple scalarR refersR) found with
      ⟨b, rfl⟩ | ⟨u, right, -⟩
    · cases unknown
    · rw [outcome_eval_binary, outcome_eval_binary]
      exact Kept.carried.bind (ihl refersL left) fun _ => operate_kept op _ (ihr refersR right)

/-- The text of a deferred value says what will be computed: if no operand in the rest of the
expression needs parentheses, the text can be read, and it comes to every value that the expression
comes to once its references are replaced. -/
theorem deferred_text (store : Store) (env : Env) (e : Expr) (scalar : e.Scalar)
    (refers : ReadsRefs env e) (t : Ty) (text : String)
    (deferred : outcome (store.eval env e) = .ok (.deferred t text))
    (flat : (store.leftOver env e).isFlat = true) :
    ∃ rest, Expr.parse text = .ok rest ∧ ∀ env' : Env, env.Fills env' → ∀ v,
      outcome (store.eval env' e) = .ok v → outcome (store.eval env' rest) = .ok v := by
  have spelled : text = (store.leftOver env e).flat := (text_leftOver scalar refers deferred).2
  refine ⟨store.leftOver env e, ?_, fun env' filled v later => ?_⟩
  · rw [spelled]
    exact Expr.parse_flat (scalar_leftOver scalar) flat
  · exact eval_leftOver scalar refers filled deferred v later

/-- The type of integers. -/
def integerTy : Ty := .named (Builtin.path "i64") []

/-- What an expression in two names sees. -/
def pairEnv (a b : Value) : Env := { module := "shop", vars := [("a", a), ("b", b)] }

/-- Surroundings in which both names stand for bindings that are not known. -/
def openPair : Env := pairEnv (.ref "a" integerTy) (.ref "b" integerTy)

/-- The expression `a * (3 - 1) + b`, of which the parentheses are computed. -/
def weighted : Expr :=
  .binary .add (.binary .mul (.ident "a") (.binary .sub (.lit (.int 3)) (.lit (.int 1))))
    (.ident "b")

/-- The expression `(a + b) * 2`, of which the parentheses are left over. -/
def doubled : Expr := .binary .mul (.binary .add (.ident "a") (.ident "b")) (.lit (.int 2))

/-- The expression `a + b * 2`. -/
private def mixed : Expr :=
  .binary .add (.ident "a") (.binary .mul (.ident "b") (.lit (.int 2)))

private theorem isVariable_letter {name : String} (c : Char) (spelled : name.toList = [c])
    (start : Lexer.isIdentStart c = true) (other : name ∉ ["true", "false", "None", "self"]) :
    Expr.IsVariable name := ⟨.of_chars c [] spelled start rfl, other⟩

private theorem isVariable_a : Expr.IsVariable "a" := isVariable_letter 'a' rfl rfl (by decide)

private theorem isVariable_b : Expr.IsVariable "b" := isVariable_letter 'b' rfl rfl (by decide)

/-- The text `a * 2 + b` says what becomes of `a * (3 - 1) + b`. -/
theorem deferred_text_weighted :
    ∃ rest, Expr.parse "a * 2 + b" = .ok rest ∧ ∀ env' : Env, openPair.Fills env' → ∀ v,
      outcome (eval default env' weighted) = .ok v → outcome (eval default env' rest) = .ok v := by
  have scalar : weighted.Scalar :=
    .binary (.binary (.ident isVariable_a) (.binary (.int (by decide)) (.int (by decide))))
      (.ident isVariable_b)
  have refers : ReadsRefs openPair weighted := by
    intro name inside
    have named : name ∈ ["a", "b"] := inside
    simp only [List.mem_cons, List.not_mem_nil, or_false] at named
    rcases named with rfl | rfl <;> exact ⟨integerTy, rfl⟩
  exact deferred_text default openPair weighted scalar refers integerTy "a * 2 + b" rfl rfl

/-- The text of `(a + b) * 2` says something else: it is read as `a + b * 2`. -/
theorem text_of_doubled_differs : ∃ rest,
    outcome (eval default openPair doubled) = .ok (.deferred integerTy "a + b * 2") ∧
      Expr.parse "a + b * 2" = .ok rest ∧ openPair.Fills (pairEnv (.int 1) (.int 2)) ∧
      outcome (eval default (pairEnv (.int 1) (.int 2)) doubled) = .ok (.int 6) ∧
      outcome (eval default (pairEnv (.int 1) (.int 2)) rest) = .ok (.int 5) := by
  have scalar : mixed.Scalar :=
    .binary (.ident isVariable_a) (.binary (.ident isVariable_b) (.int (by decide)))
  have reads : Expr.parse mixed.flat = .ok mixed := Expr.parse_flat scalar rfl
  have text : mixed.flat = "a + b * 2" := rfl
  rw [text] at reads
  refine ⟨mixed, rfl, reads, ?_, rfl, rfl⟩
  exact ⟨rfl, rfl, .none, rfl, trivial, rfl, trivial, trivial⟩

end Store
end Pipeline
