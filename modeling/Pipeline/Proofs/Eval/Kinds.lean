import Pipeline.Proofs.Eval.LeftOver

/-!
# The kinds of deferred values

An operator with an operand that is not known yet records a type for its result. The value that
comes later is of the kind that this type names, unless the type is that of integers and a float
takes part in the calculation: then it is a float.
-/

set_option autoImplicit false
set_option relaxedAutoImplicit false

namespace Pipeline

open Eval (outcome)

/-- The kinds of values that operators make. -/
inductive Kind where
  | integer
  | float
  | bool
  | string
deriving DecidableEq, Repr

namespace Kind

/-- The type that names a kind. -/
def ty : Kind → Ty
  | integer => .std "i64" []
  | float => .std "f64" []
  | bool => Builtin.boolTy
  | string => .std "String" []

/-- What may come where a kind is named: a value of this kind, or a float for an integer. -/
def Admits (named actual : Kind) : Prop := actual = named ∨ named = integer ∧ actual = float

variable {k named actual : Kind}

theorem Admits.refl (k : Kind) : k.Admits k := Or.inl rfl

theorem Admits.trans (first : named.Admits actual) (second : actual.Admits k) : named.Admits k := by
  rcases second with rfl | ⟨rfl, rfl⟩
  · exact first
  · rcases first with rfl | ⟨-, other⟩
    · exact Or.inr ⟨rfl, rfl⟩
    · cases other

end Kind

/-- True for the operators that calculate. -/
def BinaryOp.calculates : BinaryOp → Bool
  | add | sub | mul | div | rem => true
  | _ => false

namespace Expr

/-- Expressions of literals, names and operators. -/
inductive Operates : Expr → Prop
  | lit (l : Literal) : Operates (.lit l)
  | ident (name : String) : Operates (.ident name)
  | unary {op : UnaryOp} {e : Expr} : Operates e → Operates (.unary op e)
  | binary {op : BinaryOp} {l r : Expr} : Operates l → Operates r → Operates (.binary op l r)

/-- True when a float takes part in what an expression calculates. -/
def takesFloat (vars : NameMap Value) : Expr → Bool
  | lit (.float _) => true
  | ident name => (vars.get? name).any (·.ty == Kind.float.ty)
  | unary .neg operand => takesFloat vars operand
  | binary op left right => op.calculates && (takesFloat vars left || takesFloat vars right)
  | _ => false

end Expr

namespace Value

/-- The kind of a known value, if it has one. -/
def kind? : Value → Option Kind
  | int _ => Option.some .integer
  | float _ => Option.some .float
  | bool _ => Option.some .bool
  | str _ => Option.some .string
  | _ => Option.none

/-- What an expression of literals, names and operators comes to once all names are known. -/
inductive IsScalar : Value → Prop
  | absent : IsScalar none
  | kind {v : Value} {k : Kind} : v.kind? = Option.some k → IsScalar v

/-- What is said of a value while it is not known: a known value is the same one, and an unknown one
has a type that names a kind. -/
inductive Predicts : Value → Value → Prop
  | known {v : Value} : v.IsScalar → Predicts v v
  | unknown {w v : Value} {named actual : Kind} : w.isKnown = false → w.ty = named.ty →
      v.kind? = Option.some actual → named.Admits actual → Predicts w v

variable {v w l r l' r' : Value}

theorem IsScalar.isKnown (scalar : v.IsScalar) : v.isKnown = true := by
  cases scalar with
  | absent => rfl
  | kind kinded => cases v <;> first | rfl | cases kinded

theorem IsScalar.isStructural (scalar : v.IsScalar) : v.isStructural = true := by
  cases scalar with
  | absent => rfl
  | kind kinded => cases v <;> first | rfl | cases kinded

theorem Predicts.isScalar (predicts : Predicts w v) : v.IsScalar := by
  cases predicts with
  | known scalar => exact scalar
  | unknown _ _ kinded _ => exact .kind kinded

theorem Predicts.eq_of_isKnown (predicts : Predicts w v) (known : w.isKnown = true) : w = v := by
  cases predicts with
  | known scalar => rfl
  | unknown unknown _ _ _ => rw [known] at unknown; cases unknown

/-- A truth value is predicted by itself and by every deferred one. -/
theorem predicts_deferredBool {call : String} (truth : v.kind? = Option.some .bool) :
    Predicts (deferredBool call) v :=
  .unknown rfl rfl truth (Or.inl rfl)

/-! ### Kinds that operators make of scalars -/

/-- A negation is a truth value, and a sign keeps the kind of a number. -/
theorem kind?_unary {op : UnaryOp} (scalar : v.IsScalar) (found : unary op v = .ok w) :
    (op = .not ∧ v.kind? = Option.some .bool ∧ w.kind? = Option.some .bool) ∨
      (op = .neg ∧ ∃ k, v.kind? = Option.some k ∧ w.kind? = Option.some k) := by
  have known := scalar.isKnown
  unfold unary at found
  split at found
  · cases found
    exact Or.inl ⟨rfl, rfl, rfl⟩
  · unfold ofInt at found
    split at found <;> cases found
    exact Or.inr ⟨rfl, _, rfl, rfl⟩
  · cases found
    exact Or.inr ⟨rfl, _, rfl, rfl⟩
  · rw [known] at found
    simp only [Bool.not_true, Bool.false_eq_true, if_false] at found
    split at found <;> cases found

theorem kind?_compareBy {op : BinaryOp} (left : l.IsScalar) (right : r.IsScalar)
    (found : compareBy op l r = .ok w) : w.kind? = Option.some .bool := by
  unfold compareBy at found
  simp only [left.isKnown, right.isKnown, Bool.not_true, Bool.or_self, Bool.false_eq_true,
    if_false] at found
  obtain ⟨o, -, found⟩ := except_bind_eq_ok.mp found
  cases o <;> cases found <;> rfl

private theorem kind?_ofInt {n : Int} (found : ofInt n = .ok w) :
    w.kind? = Option.some .integer := by
  unfold ofInt at found
  split at found <;> cases found
  rfl

private theorem kind?_ofFloat {x : Float} (found : ofFloat x = .ok w) :
    w.kind? = Option.some .float := by
  unfold ofFloat at found
  split at found <;> cases found
  rfl

private theorem kind?_calculateInt {op : BinaryOp} {a b : Int}
    (found : calculateInt op a b = .ok w) : w.kind? = Option.some .integer := by
  unfold calculateInt at found
  repeat' split at found
  all_goals first | exact kind?_ofInt found | cases found

private theorem kind?_calculateFloat {op : BinaryOp} {a b : Float}
    (found : calculateFloat op a b = .ok w) : w.kind? = Option.some .float := by
  unfold calculateFloat at found
  repeat' split at found
  all_goals first | exact kind?_ofFloat found | cases found

/-- A calculation is one of integers, or one of texts, or one of numbers with a float. -/
theorem kind?_calculate {op : BinaryOp} (left : l.IsScalar) (right : r.IsScalar)
    (found : calculate op l r = .ok w) :
    (∃ k, (k = .integer ∨ k = .string) ∧ l.kind? = Option.some k ∧ r.kind? = Option.some k ∧
      w.kind? = Option.some k) ∨
    (w.kind? = Option.some .float ∧
      (l.kind? = Option.some .integer ∧ r.kind? = Option.some .float ∨
        l.kind? = Option.some .float ∧ r.kind? = Option.some .integer ∨
        l.kind? = Option.some .float ∧ r.kind? = Option.some .float)) := by
  unfold calculate at found
  simp only [left.isKnown, right.isKnown, Bool.not_true, Bool.or_self, Bool.false_eq_true,
    if_false] at found
  split at found
  · exact Or.inl ⟨.integer, Or.inl rfl, rfl, rfl, kind?_calculateInt found⟩
  · cases found
    exact Or.inl ⟨.string, Or.inr rfl, rfl, rfl, rfl⟩
  · rename_i noIntegers _
    split at found
    · rename_i a b here there
      refine Or.inr ⟨kind?_calculateFloat found, ?_⟩
      cases l <;> cases here <;> cases r <;> cases there
      · exact absurd rfl (noIntegers _ _ rfl)
      · exact Or.inl ⟨rfl, rfl⟩
      · exact Or.inr (Or.inl ⟨rfl, rfl⟩)
      · exact Or.inr (Or.inr ⟨rfl, rfl⟩)
    · cases found

/-- A number is a float if and only if a float has taken part in it. -/
def FloatsAre (float : Bool) (v : Value) : Prop :=
  (v.kind? = Option.some .integer → float = false) ∧ (v.kind? = Option.some .float → float = true)

theorem floatsAre_bool {float : Bool} (truth : v.kind? = Option.some .bool) : FloatsAre float v := by
  simp [FloatsAre, truth]

theorem FloatsAre.calculate {op : BinaryOp} {f g : Bool} (first : FloatsAre f l)
    (second : FloatsAre g r) (left : l.IsScalar) (right : r.IsScalar)
    (found : calculate op l r = .ok w) : FloatsAre (f || g) w := by
  rcases kind?_calculate left right found with ⟨k, -, hl, hr, hw⟩ | ⟨hw, mixed⟩
  · rw [FloatsAre, hl] at first
    rw [FloatsAre, hr] at second
    rw [FloatsAre, hw]
    refine ⟨fun integer => ?_, fun float => ?_⟩
    · rw [first.1 integer, second.1 integer]
      rfl
    · rw [first.2 float]
      rfl
  · rw [FloatsAre, hw]
    refine ⟨nofun, fun _ => ?_⟩
    rcases mixed with ⟨-, hr⟩ | ⟨hl, -⟩ | ⟨hl, -⟩
    · rw [second.2 hr, Bool.or_true]
    · rw [first.2 hl, Bool.true_or]
    · rw [first.2 hl, Bool.true_or]

/-! ### Operators on what is said and on what comes -/

theorem Predicts.of_isKnown (left : Predicts l l') (right : Predicts r r')
    (known : (!l.isKnown || !r.isKnown) = false) : l = l' ∧ r = r' := by
  simp only [Bool.or_eq_false_iff, Bool.not_eq_false'] at known
  exact ⟨left.eq_of_isKnown known.1, right.eq_of_isKnown known.2⟩

/-- What is put off with the type of an operand is of a kind that this operand admits. -/
theorem Predicts.put_off {call : String} {x : Value} {before after : Kind} (predicts : Predicts w v)
    (unknown : w.isKnown = false) (operand : v.kind? = Option.some before)
    (result : x.kind? = Option.some after) (admits : before.Admits after) :
    Predicts (deferred w.ty call) x := by
  cases predicts with
  | known scalar => cases unknown.symm.trans scalar.isKnown
  | unknown _ typed kinded named =>
    cases operand.symm.trans kinded
    exact .unknown rfl typed result (named.trans admits)

theorem Predicts.unary {op : UnaryOp} {w' v' : Value} (predicts : Predicts w v)
    (found : unary op w = .ok w') (found' : unary op v = .ok v') : Predicts w' v' := by
  obtain ⟨k, operand, result⟩ : ∃ k, v.kind? = Option.some k ∧ v'.kind? = Option.some k := by
    rcases kind?_unary predicts.isScalar found' with ⟨-, operand, result⟩ | ⟨-, both⟩
    · exact ⟨_, operand, result⟩
    · exact both
  cases known : w.isKnown with
  | true =>
    obtain rfl := predicts.eq_of_isKnown known
    cases found.symm.trans found'
    exact .known (.kind result)
  | false =>
    have unknown : Value.unary op w = .ok (deferred w.ty (op.symbol ++ w.text)) := by
      cases w <;> cases op <;> simp_all [Value.unary, isKnown]
    cases found.symm.trans unknown
    exact predicts.put_off known operand result (.refl k)

theorem Predicts.compareBy {op : BinaryOp} (left : Predicts l l') (right : Predicts r r')
    (found : compareBy op l r = .ok w) (found' : compareBy op l' r' = .ok v) : Predicts w v := by
  have truth := kind?_compareBy left.isScalar right.isScalar found'
  cases known : !l.isKnown || !r.isKnown with
  | true =>
    rw [Value.compareBy, if_pos known] at found
    cases found
    exact predicts_deferredBool truth
  | false =>
    obtain ⟨rfl, rfl⟩ := left.of_isKnown right known
    cases found.symm.trans found'
    exact .known (.kind truth)

/-- Either operand of a calculation admits the kind of what comes of it. -/
theorem admits_calculate {op : BinaryOp} (left : l.IsScalar) (right : r.IsScalar)
    (found : calculate op l r = .ok w) : ∃ k, w.kind? = Option.some k ∧
      (∃ a, l.kind? = Option.some a ∧ a.Admits k) ∧ ∃ b, r.kind? = Option.some b ∧ b.Admits k := by
  rcases kind?_calculate left right found with ⟨k, -, hl, hr, hw⟩ | ⟨hw, mixed⟩
  · exact ⟨k, hw, ⟨k, hl, .refl k⟩, k, hr, .refl k⟩
  · refine ⟨.float, hw, ?_⟩
    rcases mixed with ⟨hl, hr⟩ | ⟨hl, hr⟩ | ⟨hl, hr⟩
    · exact ⟨⟨_, hl, Or.inr ⟨rfl, rfl⟩⟩, _, hr, .refl _⟩
    · exact ⟨⟨_, hl, .refl _⟩, _, hr, Or.inr ⟨rfl, rfl⟩⟩
    · exact ⟨⟨_, hl, .refl _⟩, _, hr, .refl _⟩

/-- The type of what is put off is that of the first operand that is not known. The other operand
makes a float of it where it names the integers. -/
theorem Predicts.calculate {op : BinaryOp} (left : Predicts l l') (right : Predicts r r')
    (found : calculate op l r = .ok w) (found' : calculate op l' r' = .ok v) : Predicts w v := by
  obtain ⟨k, result, ⟨a, operand, admits⟩, b, operand', admits'⟩ :=
    admits_calculate left.isScalar right.isScalar found'
  cases known : !l.isKnown || !r.isKnown with
  | true =>
    unfold Value.calculate at found
    rw [if_pos known] at found
    cases found
    cases first : l.isKnown with
    | true =>
      rw [first] at known
      exact right.put_off (by simpa using known) operand' result admits'
    | false => exact left.put_off first operand result admits
  | false =>
    obtain ⟨rfl, rfl⟩ := left.of_isKnown right known
    cases found.symm.trans found'
    exact .known (.kind result)

/-- The truth value of a scalar is known, if it has one. -/
theorem IsScalar.eq_bool {op : BinaryOp} {truth : Option Bool} (scalar : v.IsScalar)
    (found : Value.truth op v = .ok truth) : ∃ b, v = bool b ∧ truth = Option.some b := by
  cases truth with
  | some b => exact ⟨b, truth_eq_some found, rfl⟩
  | none =>
    unfold Value.truth at found
    split at found
    · cases found
    · simp only [scalar.isKnown, Bool.not_true, Bool.false_and, Bool.false_eq_true, if_false] at found
      cases found

theorem kind?_logical {op : BinaryOp} {right : Except EvalError Value} (left : l.IsScalar)
    (next : ∀ r, right = .ok r → r.IsScalar) (found : logical op l right = .ok w) :
    w.kind? = Option.some .bool := by
  obtain ⟨lTruth, here, found⟩ := except_bind_eq_ok.mp found
  split at found
  · cases found
    rfl
  · obtain ⟨r, evaluated, found⟩ := except_bind_eq_ok.mp found
    obtain ⟨rTruth, there, found⟩ := except_bind_eq_ok.mp found
    obtain ⟨a, rfl, rfl⟩ := left.eq_bool here
    obtain ⟨b, rfl, rfl⟩ := (next r evaluated).eq_bool there
    cases found
    rfl

/-- An operand whose truth value is known is the one that comes. -/
theorem Predicts.truth {op : BinaryOp} {truth truth' : Option Bool} (predicts : Predicts w v)
    (found : Value.truth op w = .ok truth) (found' : Value.truth op v = .ok truth') :
    truth = Option.none ∨ truth = truth' := by
  cases truth with
  | none => exact Or.inl rfl
  | some b =>
    obtain rfl := truth_eq_some found
    cases predicts.eq_of_isKnown rfl
    exact Or.inr (Except.ok.inj (found.symm.trans found'))

/-- Joined operands are known where the second one is and settles the matter. -/
theorem predicts_join {op : BinaryOp} {short : Bool} {lTruth rTruth : Option Bool} {b : Bool}
    (settled : ∀ c, rTruth = Option.some c → lTruth.isSome = true ∨ c = short → c = b) :
    Predicts (join op short l r lTruth rTruth) (bool b) := by
  cases rTruth with
  | none => cases lTruth <;> exact predicts_deferredBool rfl
  | some c =>
    cases lTruth with
    | some a =>
      obtain rfl := settled c rfl (Or.inl rfl)
      exact .known (.kind rfl)
    | none =>
      by_cases decides : c = short
      · obtain rfl := settled c rfl (Or.inr decides)
        simp only [join, ← decides]
        exact .known (.kind rfl)
      · simp only [join, if_neg decides]
        exact predicts_deferredBool rfl

theorem Predicts.logical {op : BinaryOp} {right right' : Except EvalError Value}
    (left : Predicts l l') (next : ∀ r r', right = .ok r → right' = .ok r' → Predicts r r')
    (found : logical op l right = .ok w) (found' : logical op l' right' = .ok v) : Predicts w v := by
  obtain ⟨lTruth, here, found⟩ := except_bind_eq_ok.mp found
  obtain ⟨lTruth', here', found'⟩ := except_bind_eq_ok.mp found'
  obtain ⟨a, rfl, rfl⟩ := left.isScalar.eq_bool here'
  have first := left.truth here here'
  by_cases decided' : Option.some a = Option.some (op == .or)
  · rw [if_pos decided'] at found'
    cases found'
    split at found
    · cases found
      exact .known (.kind rfl)
    · rename_i undecided
      -- The first operand decides once it is known, and the second one has been looked at before.
      obtain rfl := first.resolve_right fun same => undecided (same.trans decided')
      obtain ⟨r, -, found⟩ := except_bind_eq_ok.mp found
      obtain ⟨rTruth, -, found⟩ := except_bind_eq_ok.mp found
      cases found
      exact predicts_join fun c _ settles => settles.resolve_left nofun
  · rw [if_neg decided'] at found'
    have undecided : lTruth ≠ Option.some (op == .or) := by
      rintro rfl
      exact decided' (first.resolve_left nofun).symm
    rw [if_neg undecided] at found
    obtain ⟨r, evaluated, found⟩ := except_bind_eq_ok.mp found
    obtain ⟨r', evaluated', found'⟩ := except_bind_eq_ok.mp found'
    obtain ⟨rTruth, there, found⟩ := except_bind_eq_ok.mp found
    obtain ⟨rTruth', there', found'⟩ := except_bind_eq_ok.mp found'
    have second := next r r' evaluated evaluated'
    obtain ⟨b, rfl, rfl⟩ := second.isScalar.eq_bool there'
    cases found
    cases found'
    refine predicts_join fun c known _ => ?_
    have same := (second.truth there there').resolve_left (by simp [known])
    exact Option.some.inj (known.symm.trans same)

end Value

namespace Store

variable {store : Store} {env env' : Env} {e : Expr} {l l' r r' v w : Value}
  {right right' : Except EvalError Value}

theorem compareEqual_scalars {runner : Runner} {op : BinaryOp} (left : l.IsScalar)
    (right : r.IsScalar) :
    outcome (store.compareEqual runner env op l r) = .ok (.bool (l.equal r == (op == .eq))) := by
  simp only [compareEqual, left.isKnown, right.isKnown, left.isStructural, right.isStructural,
    Bool.not_true, Bool.or_self, Bool.false_eq_true, Bool.and_self, if_false, if_true,
    Eval.outcome_pure]

/-- An operator makes a scalar of scalars, and a float of those with a float if it calculates. -/
theorem operate_scalars {op : BinaryOp} {f g : Bool} (left : l.IsScalar)
    (first : l.FloatsAre f) (next : ∀ r, right = .ok r → r.IsScalar ∧ r.FloatsAre g)
    (found : store.operate env op l right = .ok w) :
    w.IsScalar ∧ w.FloatsAre (op.calculates && (f || g)) := by
  cases op with
  | and | or =>
    have truth := Value.kind?_logical left (fun r evaluated => (next r evaluated).1) found
    exact ⟨.kind truth, Value.floatsAre_bool truth⟩
  | eq | ne =>
    obtain ⟨r, evaluated, found⟩ := except_bind_eq_ok.mp found
    rw [compareEqual_scalars left (next r evaluated).1] at found
    cases found
    exact ⟨.kind rfl, Value.floatsAre_bool rfl⟩
  | lt | le | gt | ge =>
    obtain ⟨r, evaluated, found⟩ := except_bind_eq_ok.mp found
    have truth := Value.kind?_compareBy left (next r evaluated).1 found
    exact ⟨.kind truth, Value.floatsAre_bool truth⟩
  | add | sub | mul | div | rem =>
    obtain ⟨r, evaluated, found⟩ := except_bind_eq_ok.mp found
    obtain ⟨right, second⟩ := next r evaluated
    obtain ⟨k, kinded, -⟩ := Value.admits_calculate left right found
    exact ⟨.kind kinded, first.calculate second left right found⟩

theorem compareEqual_predicts {runner : Runner} {op : BinaryOp} (left : l.Predicts l')
    (right : r.Predicts r') (found : outcome (store.compareEqual runner env op l r) = .ok w)
    (found' : outcome (store.compareEqual runner env' op l' r') = .ok v) : w.Predicts v := by
  rw [compareEqual_scalars left.isScalar right.isScalar] at found'
  cases found'
  cases known : !l.isKnown || !r.isKnown with
  | true =>
    rw [compareEqual, if_pos known] at found
    cases found
    exact Value.predicts_deferredBool rfl
  | false =>
    obtain ⟨rfl, rfl⟩ := left.of_isKnown right known
    rw [compareEqual_scalars left.isScalar right.isScalar] at found
    cases found
    exact .known (.kind rfl)

/-- What an operator makes of operands that are not known yet says what it makes of them later. -/
theorem operate_predicts {op : BinaryOp} (left : l.Predicts l')
    (next : ∀ r r', right = .ok r → right' = .ok r' → r.Predicts r')
    (found : store.operate env op l right = .ok w)
    (found' : store.operate env' op l' right' = .ok v) : w.Predicts v := by
  cases op with
  | and | or => exact left.logical next found found'
  | eq | ne =>
    obtain ⟨r, evaluated, found⟩ := except_bind_eq_ok.mp found
    obtain ⟨r', evaluated', found'⟩ := except_bind_eq_ok.mp found'
    exact compareEqual_predicts left (next r r' evaluated evaluated') found found'
  | lt | le | gt | ge =>
    obtain ⟨r, evaluated, found⟩ := except_bind_eq_ok.mp found
    obtain ⟨r', evaluated', found'⟩ := except_bind_eq_ok.mp found'
    exact left.compareBy (next r r' evaluated evaluated') found found'
  | add | sub | mul | div | rem =>
    obtain ⟨r, evaluated, found⟩ := except_bind_eq_ok.mp found
    obtain ⟨r', evaluated', found'⟩ := except_bind_eq_ok.mp found'
    exact left.calculate (next r r' evaluated evaluated') found found'

/-! ### Expressions -/

private theorem literal_isScalar (l : Literal) : (literal l).IsScalar := by
  cases l with
  | none => exact .absent
  | bool | int | float | str => exact .kind rfl

/-- Names stand for bindings of types that name kinds, and then for values of these kinds. -/
def Settles (env env' : Env) (names : List String) : Prop :=
  ∀ name ∈ names, ∃ binding k v, env.vars.get? name = some (.ref binding (Kind.ty k)) ∧
    env'.vars.get? name = some v ∧ v.kind? = some k

/-- Once all names are known, an expression comes to a scalar, and to a float if a float takes
part. -/
theorem eval_scalars (operates : e.Operates) (settles : Settles env env' e.reads)
    (found : outcome (store.eval env' e) = .ok v) :
    v.IsScalar ∧ v.FloatsAre (e.takesFloat env.vars) := by
  induction operates generalizing v with
  | lit l =>
    rw [eval, evalTo_eq] at found
    cases found
    refine ⟨literal_isScalar l, ?_⟩
    cases l <;> simp [Value.FloatsAre, literal, Value.kind?, Expr.takesFloat]
  | ident name =>
    obtain ⟨binding, k, u, bound, bound', kinded⟩ := settles name List.mem_cons_self
    rw [eval, evalTo_eq, evalWith, Eval.outcome_orElse, bound'] at found
    cases found
    refine ⟨.kind kinded, ?_⟩
    simp only [Value.FloatsAre, Expr.takesFloat, bound, kinded, Option.any_some, Option.some.injEq]
    exact ⟨fun integer => by subst integer; rfl, fun float => by subst float; rfl⟩
  | @unary op e _ ih =>
    rw [outcome_eval_unary] at found
    obtain ⟨w, operand, found⟩ := except_bind_eq_ok.mp found
    obtain ⟨scalar, floats⟩ := ih settles operand
    rcases Value.kind?_unary scalar found with ⟨rfl, -, truth⟩ | ⟨rfl, k, before, after⟩
    · exact ⟨.kind truth, Value.floatsAre_bool truth⟩
    · refine ⟨.kind after, ?_⟩
      rw [Value.FloatsAre, after, ← before]
      exact floats
  | @binary op l r _ _ ihl ihr =>
    rw [outcome_eval_binary] at found
    obtain ⟨w, left, found⟩ := except_bind_eq_ok.mp found
    obtain ⟨scalar, floats⟩ :=
      ihl (fun name inside => settles name (List.mem_append_left _ inside)) left
    exact operate_scalars scalar floats (fun r evaluated =>
      ihr (fun name inside => settles name (List.mem_append_right _ inside)) evaluated) found

theorem eval_predicts (operates : e.Operates) (settles : Settles env env' e.reads)
    (found : outcome (store.eval env e) = .ok w) (found' : outcome (store.eval env' e) = .ok v) :
    w.Predicts v := by
  induction operates generalizing w v with
  | lit l =>
    rw [eval, evalTo_eq] at found found'
    cases found
    cases found'
    exact .known (literal_isScalar l)
  | ident name =>
    obtain ⟨binding, k, u, bound, bound', kinded⟩ := settles name List.mem_cons_self
    rw [eval, evalTo_eq, evalWith, Eval.outcome_orElse] at found found'
    rw [bound] at found
    rw [bound'] at found'
    cases found
    cases found'
    exact .unknown rfl rfl kinded (.refl k)
  | unary _ ih =>
    rw [outcome_eval_unary] at found found'
    obtain ⟨w', operand, found⟩ := except_bind_eq_ok.mp found
    obtain ⟨v', operand', found'⟩ := except_bind_eq_ok.mp found'
    exact (ih settles operand operand').unary found found'
  | binary _ _ ihl ihr =>
    rw [outcome_eval_binary] at found found'
    obtain ⟨w', left, found⟩ := except_bind_eq_ok.mp found
    obtain ⟨v', left', found'⟩ := except_bind_eq_ok.mp found'
    refine operate_predicts
      (ihl (fun name inside => settles name (List.mem_append_left _ inside)) left left')
      (fun r r' evaluated evaluated' => ?_) found found'
    exact ihr (fun name inside => settles name (List.mem_append_right _ inside)) evaluated evaluated'

/-- **Deferred values and their kinds.** What an expression of literals, names and operators comes
to once its names are known is of the kind that the type of its deferred value names, unless this is
the type of integers and a float takes part in the calculation: then it is a float. -/
theorem deferred_kind (store : Store) {env env' : Env} {e : Expr} {t : Ty} {call : String}
    {v : Value} (operates : e.Operates) (settles : Settles env env' e.reads)
    (found : outcome (store.eval env e) = .ok (.deferred t call))
    (found' : outcome (store.eval env' e) = .ok v) :
    ∃ k, t = Kind.ty k ∧
      v.kind? = some (if k = .integer ∧ e.takesFloat env.vars = true then .float else k) := by
  have floats := (eval_scalars operates settles found').2
  cases eval_predicts operates settles found found' with
  | known scalar => cases scalar.isKnown
  | @unknown _ named actual _ typed kinded admits =>
    rw [Value.FloatsAre, kinded] at floats
    refine ⟨named, typed, kinded.trans (congrArg some ?_)⟩
    rcases admits with rfl | ⟨rfl, rfl⟩
    · by_cases integer : actual = .integer
      · rw [floats.1 (congrArg some integer)]
        simp
      · rw [if_neg fun both => integer both.1]
    · rw [if_pos ⟨rfl, floats.2 rfl⟩]

/-- Surroundings with a number of pieces and a rate. -/
def piecesEnv (pieces rate : Value) : Env where
  module := "shop"
  vars := [("pieces", pieces), ("rate", rate)]

/-- The surroundings where neither is known. -/
def piecesUnknown : Env :=
  piecesEnv (.ref "pieces" Kind.integer.ty) (.ref "rate" Kind.float.ty)

/-- A rate of pieces is a float, as the type of the product says that begins with the rate. -/
theorem deferred_kind_pieces :
    ∃ k, Kind.float.ty = Kind.ty k ∧ (Value.float 3.0).kind? = some (if k = .integer ∧
      (Expr.binary .mul (.ident "rate") (.ident "pieces")).takesFloat piecesUnknown.vars = true
        then .float else k) := by
  have settles : Settles piecesUnknown (piecesEnv (.int 2) (.float 1.5))
      (Expr.binary .mul (.ident "rate") (.ident "pieces")).reads := by
    intro name inside
    obtain rfl | rfl : name = "rate" ∨ name = "pieces" := by simpa [Expr.reads] using inside
    · exact ⟨_, .float, _, rfl, rfl, rfl⟩
    · exact ⟨_, .integer, _, rfl, rfl, rfl⟩
  exact deferred_kind default (.binary (.ident "rate") (.ident "pieces")) settles rfl rfl

/-- The product that begins with the pieces is a float as well, but its type is that of integers. -/
theorem deferred_integer_float :
    outcome (eval default piecesUnknown (.binary .mul (.ident "pieces") (.ident "rate"))) =
      .ok (.deferred Kind.integer.ty "pieces * rate") ∧
    outcome (eval default (piecesEnv (.int 2) (.float 1.5))
      (.binary .mul (.ident "pieces") (.ident "rate"))) = .ok (.float 3.0) ∧
    (Value.float 3.0).kind? ≠ some Kind.integer :=
  ⟨rfl, rfl, nofun⟩

end Store
end Pipeline
