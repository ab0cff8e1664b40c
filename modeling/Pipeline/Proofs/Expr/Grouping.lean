import Pipeline.Proofs.Expr.Flat
import Pipeline.Proofs.Expr.Relocation

/-!
# How operators group

Operands with operators between them are read as a tree over the operands. Of all the trees that are
the chain when they are read from left to right it is the only one in which an operator binds no more
tightly than the operator to its left below it, and less tightly than the one to its right.
-/

set_option autoImplicit false
set_option relaxedAutoImplicit false

namespace Pipeline

namespace Expr

/-! ### Trees over operands -/

/-- Operands with operators above them. -/
inductive Grouping where
  | leaf (operand : Expr)
  | node (op : BinaryOp) (left right : Grouping)

namespace Grouping

/-- The first operand, and each later one behind its operator. -/
def inOrder : Grouping → Expr × List (BinaryOp × Expr)
  | leaf e => (e, [])
  | node op l r => (l.inOrder.1, l.inOrder.2 ++ (op, r.inOrder.1) :: r.inOrder.2)

/-- The operator above all others. -/
def root? : Grouping → Option BinaryOp
  | leaf _ => none
  | node op _ _ => some op

/-- An operator binds no more tightly than one to its left below it, and less tightly than one to
its right. -/
def Grouped : Grouping → Prop
  | leaf _ => True
  | node op l r => (∀ lower ∈ l.root?, op.strength ≤ lower.strength) ∧
      (∀ lower ∈ r.root?, op.strength < lower.strength) ∧ l.Grouped ∧ r.Grouped

/-- The expression that a tree stands for. -/
def expr : Grouping → Expr
  | leaf e => e
  | node op l r => .binary op l.expr r.expr

variable {l r t t' : Grouping} {op : BinaryOp} {limit : Nat}

/-- No operator of a grouped tree binds less tightly than the one above all others. -/
theorem Grouped.le_strength (grouped : t.Grouped) (root : ∀ op ∈ t.root?, limit ≤ op.strength) :
    ∀ step ∈ t.inOrder.2, limit ≤ step.1.strength := by
  induction t with
  | leaf e => nofun
  | node op l r left right =>
    obtain ⟨below, above, grouped, grouped'⟩ := grouped
    have low : limit ≤ op.strength := root op rfl
    intro step member
    rcases List.mem_append.mp member with inside | inside
    · exact left grouped (fun lower here => Nat.le_trans low (below lower here)) step inside
    · rcases List.mem_cons.mp inside with rfl | inside
      · exact low
      · exact right grouped' (fun lower here =>
          Nat.le_trans low (Nat.le_of_lt (above lower here))) step inside

/-- Of two operators in a chain only one can stand above the rest. -/
private theorem root_unique {l' r' : Grouping} {op' : BinaryOp}
    (grouped : (node op l r).Grouped) (grouped' : (node op' l' r').Grouped)
    {between : List (BinaryOp × Expr)}
    (left : l'.inOrder.2 = l.inOrder.2 ++ (op, r.inOrder.1) :: between)
    (right : r.inOrder.2 = between ++ (op', r'.inOrder.1) :: r'.inOrder.2) : False := by
  have le : op'.strength ≤ op.strength :=
    grouped'.2.2.1.le_strength grouped'.1 (op, r.inOrder.1) (by simp [left])
  have lt : op.strength < op'.strength :=
    @Grouped.le_strength _ (op.strength + 1) grouped.2.2.2 grouped.2.1 (op', r'.inOrder.1)
      (by simp [right])
  exact absurd le (Nat.not_le.mpr lt)

/-- A chain has one grouping. -/
theorem Grouped.unique (grouped : t.Grouped) (grouped' : t'.Grouped)
    (same : t.inOrder = t'.inOrder) : t = t' := by
  induction t generalizing t' with
  | leaf e =>
    cases t' with
    | leaf e' => exact congrArg leaf (Prod.mk.inj same).1
    | node op' l' r' => simp [inOrder] at same
  | node op l r left right =>
    cases t' with
    | leaf e' => simp [inOrder] at same
    | node op' l' r' =>
      obtain ⟨first, rest⟩ := Prod.mk.inj same
      have parts (before : l.inOrder.2 = l'.inOrder.2)
          (behind : (op, r.inOrder.1) :: r.inOrder.2 = (op', r'.inOrder.1) :: r'.inOrder.2) :
          node op l r = node op' l' r' := by
        obtain ⟨step, later⟩ := List.cons.inj behind
        obtain ⟨rfl, operand⟩ := Prod.mk.inj step
        rw [left grouped.2.2.1 grouped'.2.2.1 (Prod.ext first before),
          right grouped.2.2.2 grouped'.2.2.2 (Prod.ext operand later)]
      rcases List.append_eq_append_iff.mp rest with ⟨between, before, behind⟩ | ⟨between, before, behind⟩
      · cases between with
        | nil => exact parts (by rw [before, List.append_nil]) behind
        | cons step between =>
          obtain ⟨rfl, later⟩ := List.cons.inj behind
          exact (root_unique grouped grouped' before later).elim
      · cases between with
        | nil => exact parts (by rw [before, List.append_nil]) behind.symm
        | cons step between =>
          obtain ⟨rfl, later⟩ := List.cons.inj behind
          exact (root_unique grouped' grouped before later).elim

end Grouping

/-! ### Operands -/

open Reader

variable {source : List Char} {fuel n : Nat} {c d : Cursor} {u : List Spanned} {e : Expr}

/-- A reader takes all of these tokens where there are no others. -/
def TakesAll (r : Nat → Reader Expr) (u : List Spanned) (e : Expr) : Prop :=
  ∃ c', r (8 * u.length + 8) ⟨u, 0, 0⟩ = .ok (e, c') ∧ c'.rest = []

/-- Signs in front of an atom with its fields and calls, or in front of a closure. -/
inductive Signed (source : List Char) : List Spanned → Expr → Prop
  | primary {u : List Spanned} {e : Expr} : TakesAll (primary source) u e → Signed source u e
  | closure {u : List Spanned} {e : Expr} : TakesAll (closureOf source) u e → Signed source u e
  | sign {s : Spanned} {u : List Spanned} {e : Expr} (op : UnaryOp) :
      s.token = .punct op.mark → Signed source u e → Signed source (s :: u) (.unary op e)

/-- Neither in front nor behind signs there is a closure. -/
def NoClosure : List Spanned → Prop
  | [] => True
  | s :: u => isBar s.token = false ∧ ((sign? s.token).isSome = true → NoClosure u)

theorem agree_self (source : List Char) (same : c.rest.take n = d.rest.take n)
    (below : n ≤ c.rest.length) : Cursor.Agree source source n c d := by
  have found {i : Nat} (inside : i < n) : c.rest[i]? = d.rest[i]? := by
    rw [← List.getElem?_take_of_lt inside, same, List.getElem?_take_of_lt inside]
  constructor
  · intro i inside
    obtain ⟨t, here⟩ : ∃ t, c.rest[i]? = some t :=
      ⟨_, List.getElem?_eq_getElem (Nat.lt_of_lt_of_le inside below)⟩
    exact ⟨t, t, here, found inside ▸ here, rfl⟩
  · intro i j order inside s here t there s' here' t' there'
    rw [found (Nat.lt_of_le_of_lt order inside), Option.mem_def.mp there] at here
    rw [found inside, Option.mem_def.mp there'] at here'
    cases here
    cases here'
    rfl

theorem silent_none : Silent none := ⟨by simp [Quiet], rfl⟩

/-- At the end of the tokens a reader that takes them all takes them all alone. -/
theorem TakesAll.of_run {r : Nat → Reader Expr} {c' : Cursor} (moves : Moves 1 (r fuel))
    (echoes : ∀ {d fuel'}, Fuelled 1 fuel' d → Echoes source source Silent c d (r fuel) (r fuel'))
    (ran : r fuel c = .ok (e, c')) (all : c'.rest = []) : TakesAll r c.rest e := by
  obtain ⟨n, -, below, rfl⟩ := moves c e c' ran
  rw [Cursor.rest_skip, List.drop_eq_nil_iff] at all
  obtain rfl := Nat.le_antisymm below all
  have fuelled : Fuelled 1 (8 * c.rest.length + 8) ⟨c.rest, 0, 0⟩ :=
    Nat.add_le_add_left (by decide) _
  have ended : (Cursor.skip c.rest.length ⟨c.rest, 0, 0⟩).peek? = none := by
    rw [Cursor.peek?_skip, List.getElem?_eq_none (Nat.le_refl _), Option.map_none]
  refine ⟨_, echoes fuelled _ e below ran (agree_self source rfl below) (.inr ?_), ?_⟩
  · rw [ended]
    exact silent_none
  · rw [Cursor.rest_skip, List.drop_length]

theorem moreOperators_of_le {least : Nat} (le : UnaryOp.strength ≤ least) :
    moreOperators source fuel least e c = .ok (e, c) := by
  cases fuel with
  | zero => rfl
  | succ fuel =>
    refine bind_eq_ok.mpr ⟨c.peek?, c, rfl, ?_⟩
    cases c.peek?.bind BinaryOp.ofToken? with
    | none => rfl
    | some op => exact congrFun (if_pos (Nat.lt_of_lt_of_le op.strength_lt le)) c

theorem moves_primary (source : List Char) (fuel : Nat) : Moves 1 (primary source fuel) :=
  (movesWith source fuel).atom.last fun e => (movesWith source fuel).moreFields e

theorem echoes_primary {fuel' : Nat} (enough : Fuelled 1 fuel c) (enough' : Fuelled 1 fuel' d) :
    Echoes source source Quiet c d (primary source fuel) (primary source fuel') := by
  have moves := movesWith source fuel
  have echoes := echoesWith source source fuel
  exact Echoes.bind (moves.atom c) moves.moreFields (echoes.atom enough enough') (fun _ _ => id)
    fun e n _ _ _ _ => echoes.moreFields (enough.behind (Nat.le_refl 1))
      (enough'.behind (Nat.le_refl 1))

theorem sign?_mark (op : UnaryOp) : sign? (some (.punct op.mark)) = some op := by
  cases op <;> rfl

theorem eq_mark_of_sign? {front : Option Token} {op : UnaryOp} (stands : sign? front = some op) :
    front = some (.punct op.mark) := by
  unfold sign? at stands
  split at stands <;> cases stands <;> rfl

/-- A sign takes the operand behind it, and no operator. -/
theorem operand_of_sign {op : UnaryOp} {c' : Cursor} (front : c.peek? = some (.punct op.mark)) :
    operand source (fuel + 2 + 1) c = .ok (e, c') ↔
      ∃ inner, operand source (fuel + 1) (c.skip 1) = .ok (inner, c') ∧ e = .unary op inner := by
  rw [operand_succ_eq]
  constructor
  · intro ran
    obtain ⟨_, _, ⟨⟩, ran⟩ := bind_eq_ok.mp ran
    rw [front, sign?_mark] at ran
    obtain ⟨_, _, passed, ran⟩ := bind_eq_ok.mp ran
    rw [advance?_eq_ok front] at passed
    cases passed
    obtain ⟨inner, _, ran, ⟨⟩⟩ := bind_eq_ok.mp ran
    obtain ⟨inner', c₁, ran, more⟩ := bind_eq_ok.mp ran
    rw [moreOperators_of_le (Nat.le_refl _)] at more
    cases more
    exact ⟨_, ran, rfl⟩
  · rintro ⟨inner, ran, rfl⟩
    refine bind_eq_ok.mpr ⟨c.peek?, c, rfl, ?_⟩
    rw [front, sign?_mark]
    refine bind_eq_ok.mpr ⟨_, _, advance?_eq_ok front, bind_eq_ok.mpr ⟨inner, c', ?_, rfl⟩⟩
    exact bind_eq_ok.mpr ⟨inner, c', ran, moreOperators_of_le (Nat.le_refl _)⟩

/-- An operand is an atom with its fields and calls, or a closure, behind its signs. -/
theorem signed_of_operand {c' : Cursor} (enough : Fuelled 2 fuel c)
    (ran : operand source fuel c = .ok (e, c')) (all : c'.rest = []) : Signed source c.rest e := by
  induction fuel using Nat.strongRecOn generalizing c e with
  | ind fuel ih =>
    obtain ⟨fuel, rfl⟩ := enough.ne_zero
    have start := ran
    rw [operand_succ_eq] at start
    obtain ⟨_, _, ⟨⟩, start⟩ := bind_eq_ok.mp start
    cases stands : sign? c.peek? with
    | some op =>
      have front := eq_mark_of_sign? stands
      have some_token := Cursor.length_pos front
      obtain ⟨fuel, rfl⟩ : ∃ k, fuel = k + 2 := ⟨fuel - 2, by unfold Fuelled at enough; omega⟩
      obtain ⟨inner, inside, rfl⟩ := (operand_of_sign front).mp ran
      have fuelled : Fuelled 2 (fuel + 1) (c.skip 1) := by
        unfold Fuelled at *
        rw [Cursor.rest_skip, List.length_drop]
        omega
      have signed := ih (fuel + 1) (by omega) fuelled inside
      obtain ⟨rest, lastStop, size⟩ := c
      cases rest with
      | nil => cases front
      | cons s rest => exact .sign op (Option.some.inj front) signed
    | none =>
      rw [stands] at start
      cases bar : isBar c.peek? with
      | true =>
        rw [bar] at start
        exact .closure (TakesAll.of_run ((movesWith source fuel).closureOf)
          (fun enough' => (echoesWith source source fuel).closureOf enough.down enough') start all)
      | false =>
        rw [bar] at start
        exact .primary (TakesAll.of_run (moves_primary source fuel)
          (fun enough' => (echoes_primary enough.down enough').mono fun _ silent => silent.1) start all)

theorem quiet_mark (op : BinaryOp) : Quiet (some (.punct op.mark)) := by
  unfold Quiet
  cases op <;> decide

/-- In front of an operator an operand without closure is read as it is alone. -/
theorem Signed.operand {s : Spanned} {v : List Spanned} {op : BinaryOp} (signed : Signed source u e)
    (noClosure : NoClosure u) (enough : Fuelled 2 fuel c) (tokens : c.rest = u ++ s :: v)
    (mark : s.token = .punct op.mark) : operand source fuel c = .ok (e, c.skip u.length) := by
  induction signed generalizing fuel c with
  | @primary u e takes =>
    obtain ⟨fuel, rfl⟩ := enough.ne_zero
    obtain ⟨c', ran, all⟩ := takes
    obtain ⟨n, -, below, rfl⟩ := moves_primary _ _ _ _ _ ran
    rw [Cursor.rest_skip, List.drop_eq_nil_iff] at all
    obtain rfl : n = u.length := Nat.le_antisymm below all
    have fuelled : Fuelled 1 (8 * u.length + 8) ⟨u, 0, 0⟩ := Nat.add_le_add_left (by decide) _
    have agree : Cursor.Agree source source u.length ⟨u, 0, 0⟩ c :=
      agree_self source (by simp [tokens]) below
    refine operand_of_primary (echoes_primary fuelled enough.down _ e below ran agree (.inr ?_))
    rw [Cursor.peek?_skip, tokens, List.getElem?_append_right (Nat.le_refl _), Nat.sub_self,
      List.getElem?_cons_zero, Option.map_some, mark]
    exact quiet_mark op
  | @closure u e takes =>
    obtain ⟨c', ran, -⟩ := takes
    obtain ⟨-, bar⟩ := isBar_of_closureOf ran
    cases u with
    | nil => cases bar
    | cons s' u => cases bar.symm.trans noClosure.1
  | @sign s' u e op' sign signed ih =>
    have front : c.peek? = some (.punct op'.mark) := by
      rw [Cursor.peek?, tokens, List.cons_append, List.head?_cons, Option.map_some, sign]
    have some_token := Cursor.length_pos front
    obtain ⟨fuel, rfl⟩ : ∃ k, fuel = k + 2 + 1 := ⟨fuel - 3, by unfold Fuelled at enough; omega⟩
    have fuelled : Fuelled 2 (fuel + 1) (c.skip 1) := by
      unfold Fuelled at *
      rw [Cursor.rest_skip, List.length_drop]
      omega
    have noClosure : NoClosure u := noClosure.2 (by rw [sign, sign?_mark]; rfl)
    have inside := ih noClosure fuelled (by rw [Cursor.rest_skip, tokens]; rfl)
    rw [← Cursor.skip_add, Nat.add_comm 1] at inside
    exact (operand_of_sign front).mpr ⟨e, inside, rfl⟩

/-! ### Chains -/

/-- An operand is read from all of these tokens. -/
def Whole (source : List Char) (u : List Spanned) (e : Expr) : Prop := TakesAll (operand source) u e

/-- The tokens of operands with operators between them, the first operand, and the others with the
operators before them. Only the last operand may be a closure. -/
inductive Chain (source : List Char) :
    List Spanned → Expr → List (BinaryOp × Expr) → Prop
  | last {u : List Spanned} {e : Expr} : Whole source u e → Chain source u e []
  | step {u v : List Spanned} {s : Spanned} {op : BinaryOp} {e e' : Expr}
      {rest : List (BinaryOp × Expr)} : Whole source u e → NoClosure u →
        s.token = .punct op.mark → Chain source v e' rest →
          Chain source (u ++ s :: v) e ((op, e') :: rest)

/-- The tokens of operators with operands behind them. -/
inductive Tail (source : List Char) : List Spanned → List (BinaryOp × Expr) → Prop
  | nil : Tail source [] []
  | cons {v : List Spanned} {s : Spanned} {op : BinaryOp} {e : Expr}
      {rest : List (BinaryOp × Expr)} : s.token = .punct op.mark → Chain source v e rest →
        Tail source (s :: v) ((op, e) :: rest)

theorem Whole.run (whole : Whole source u e) : 1 ≤ u.length ∧
    operand source (8 * u.length + 8) ⟨u, 0, 0⟩ = .ok (e, Cursor.skip u.length ⟨u, 0, 0⟩) := by
  obtain ⟨c', ran, all⟩ := whole
  obtain ⟨n, some_token, below, rfl⟩ := (movesWith source _).operand _ _ _ ran
  rw [Cursor.rest_skip, List.drop_eq_nil_iff] at all
  obtain rfl : n = u.length := Nat.le_antisymm below all
  exact ⟨some_token, ran⟩

theorem Whole.signed (whole : Whole source u e) : Signed source u e := by
  have fuelled : Fuelled 2 (8 * u.length + 8) ⟨u, 0, 0⟩ := Nat.add_le_add_left (by decide) _
  exact signed_of_operand fuelled whole.run.2 (by rw [Cursor.rest_skip, List.drop_length])

/-- The first operand of a chain is read, and the operators behind it are left. -/
theorem Chain.operand {rest : List (BinaryOp × Expr)} (chain : Chain source c.rest e rest)
    (enough : Fuelled 2 fuel c) : ∃ n, 1 ≤ n ∧ n ≤ c.rest.length ∧
      Expr.operand source fuel c = .ok (e, c.skip n) ∧ Tail source (c.skip n).rest rest := by
  generalize tokens : c.rest = u at chain
  cases chain with
  | last whole =>
    obtain ⟨some_token, ran⟩ := whole.run
    have fuelled : Fuelled 2 (8 * u.length + 8) ⟨u, 0, 0⟩ := Nat.add_le_add_left (by decide) _
    have agree : Cursor.Agree source source u.length ⟨u, 0, 0⟩ c :=
      agree_self source (by rw [tokens]) (Nat.le_refl _)
    refine ⟨u.length, some_token, Nat.le_refl _, ?_, ?_⟩
    · refine (echoesWith source source _).operand fuelled enough _ e (Nat.le_refl _) ran agree (.inr ?_)
      rw [Cursor.peek?_skip, tokens, List.getElem?_eq_none (Nat.le_refl _)]
      exact silent_none
    · rw [Cursor.rest_skip, tokens, List.drop_length]
      exact .nil
  | @step u v s op e e' rest whole noClosure mark chain =>
    refine ⟨u.length, whole.run.1, ?_, whole.signed.operand noClosure enough tokens mark, ?_⟩
    · rw [List.length_append]
      exact Nat.le_add_right _ _
    · rw [Cursor.rest_skip, tokens, List.drop_left]
      exact .cons mark chain

/-! ### Reading chains -/

/-- A grouped tree has the first operands of a chain, up to an operator that binds less tightly than
asked for. -/
structure Grouping.Covers (t : Grouping) (least : Nat) (first : Expr)
    (rest left : List (BinaryOp × Expr)) : Prop where
  first : t.inOrder.1 = first
  rest : t.inOrder.2 ++ left = rest
  grouped : t.Grouped
  root : ∀ op ∈ t.root?, least ≤ op.strength
  stops : ∀ step ∈ left.head?, step.1.strength < least

/-- With so much fuel chains are read as grouped trees. -/
structure GroupsWith (source : List Char) (fuel : Nat) : Prop where
  operators : ∀ {c : Cursor} {least : Nat} {first : Expr} {rest : List (BinaryOp × Expr)},
    Chain source c.rest first rest → Fuelled 3 fuel c → ∃ t n left,
      operators source fuel least c = .ok (t.expr, c.skip n) ∧
        Tail source (c.skip n).rest left ∧ Grouping.Covers t least first rest left
  moreOperators : ∀ {c : Cursor} {least : Nat} {t : Grouping} {rest : List (BinaryOp × Expr)},
    Tail source c.rest rest → Fuelled 1 fuel c → t.Grouped →
      (∀ op ∈ t.root?, least ≤ op.strength ∧ ∀ step ∈ rest.head?, step.1.strength ≤ op.strength) →
        ∃ t' n left, moreOperators source fuel least t.expr c = .ok (t'.expr, c.skip n) ∧
          Tail source (c.skip n).rest left ∧
            Grouping.Covers t' least t.inOrder.1 (t.inOrder.2 ++ rest) left

namespace GroupsWith

theorem zero : GroupsWith source 0 := by
  have no {more : Nat} {c : Cursor} : ¬ Fuelled (more + 1) 0 c := fun enough =>
    nomatch enough.ne_zero
  constructor <;> exact fun _ enough => absurd enough no

private theorem operators_succ (groups : GroupsWith source fuel) {least : Nat} {first : Expr}
    {rest : List (BinaryOp × Expr)} (chain : Chain source c.rest first rest)
    (enough : Fuelled 3 (fuel + 1) c) : ∃ t n left,
      Expr.operators source (fuel + 1) least c = .ok (t.expr, c.skip n) ∧
        Tail source (c.skip n).rest left ∧ Grouping.Covers t least first rest left := by
  obtain ⟨n, some_token, below, ran, tail⟩ := chain.operand enough.down
  obtain ⟨t, m, left, ran', tail', covers⟩ := @moreOperators _ _ groups _ least (.leaf first) _ tail
    ((enough.skip some_token below).mono (by decide)) trivial nofun
  rw [← Cursor.skip_add] at ran' tail'
  exact ⟨t, n + m, left, bind_eq_ok.mpr ⟨first, _, ran, ran'⟩, tail', covers⟩

private theorem moreOperators_succ (groups : GroupsWith source fuel) {least : Nat} {t : Grouping}
    {rest : List (BinaryOp × Expr)} (tail : Tail source c.rest rest)
    (enough : Fuelled 1 (fuel + 1) c) (grouped : t.Grouped)
    (root : ∀ op ∈ t.root?, least ≤ op.strength ∧
      ∀ step ∈ rest.head?, step.1.strength ≤ op.strength) :
    ∃ t' n left, Expr.moreOperators source (fuel + 1) least t.expr c = .ok (t'.expr, c.skip n) ∧
      Tail source (c.skip n).rest left ∧
        Grouping.Covers t' least t.inOrder.1 (t.inOrder.2 ++ rest) left := by
  generalize tokens : c.rest = u at tail
  cases tail with
  | nil =>
    have front : c.peek? = none := by rw [Cursor.peek?, tokens]; rfl
    refine ⟨t, 0, [], bind_eq_ok.mpr ⟨c.peek?, c, rfl, ?_⟩, by rw [Cursor.rest_skip, tokens]; exact .nil,
      rfl, rfl, grouped, fun op here => (root op here).1, fun _ here => by cases here⟩
    rw [front]
    rfl
  | @cons v s op e rest mark chain =>
    have front : c.peek? = some (.punct op.mark) := by
      rw [Cursor.peek?, tokens, List.head?_cons, Option.map_some, mark]
    have stands : c.peek?.bind BinaryOp.ofToken? = some op := by
      rw [front, Option.bind_some, op.ofToken?_mark]
    by_cases weak : op.strength < least
    · refine ⟨t, 0, (op, e) :: rest, bind_eq_ok.mpr ⟨c.peek?, c, rfl, ?_⟩, ?_, rfl, rfl, grouped,
        fun op here => (root op here).1, ?_⟩
      · rw [stands]
        exact congrFun (if_pos weak) c
      · rw [Cursor.rest_skip, tokens]
        exact .cons mark chain
      · rintro step ⟨⟩
        exact weak
    · have some_token := Cursor.length_pos front
      have later : (c.skip 1).rest = v := by rw [Cursor.rest_skip, tokens]; rfl
      have enough := enough.skip (Nat.le_refl 1) some_token
      -- The operand to the right takes the operators that bind more tightly.
      obtain ⟨right, m, left, ran, tail, covers⟩ :=
        @operators _ _ groups _ (op.strength + 1) _ _ (later ▸ chain) (enough.mono (by decide))
      have grouped' : (Grouping.node op t right).Grouped :=
        ⟨fun lower here => (root lower here).2 (op, e) rfl, covers.root, grouped, covers.grouped⟩
      have root' : ∀ op' ∈ (Grouping.node op t right).root?, least ≤ op'.strength ∧
          ∀ step ∈ left.head?, step.1.strength ≤ op'.strength := by
        rintro op' ⟨⟩
        exact ⟨Nat.not_lt.mp weak, fun step here => Nat.le_of_lt_succ (covers.stops step here)⟩
      obtain ⟨t', k, left', ran', tail', covers'⟩ :=
        groups.moreOperators tail (enough.behind (by decide)) grouped' root'
      have place : ((c.skip 1).skip m).skip k = c.skip (1 + m + k) := by
        rw [Cursor.skip_add, Cursor.skip_add]
      rw [place] at ran' tail'
      refine ⟨t', 1 + m + k, left', bind_eq_ok.mpr ⟨c.peek?, c, rfl, ?_⟩, tail', ?_⟩
      · rw [stands]
        refine (congrFun (if_neg weak) c).trans ?_
        exact bind_eq_ok.mpr ⟨_, _, advance?_eq_ok front, bind_eq_ok.mpr ⟨_, _, ran, ran'⟩⟩
      · have same : (Grouping.node op t right).inOrder.2 ++ left = t.inOrder.2 ++ (op, e) :: rest := by
          simp [Grouping.inOrder, covers.first, covers.rest]
        exact same ▸ covers'

theorem succ (groups : GroupsWith source fuel) : GroupsWith source (fuel + 1) where
  operators := groups.operators_succ
  moreOperators := groups.moreOperators_succ

end GroupsWith

theorem groupsWith (source : List Char) (fuel : Nat) : GroupsWith source fuel := by
  induction fuel with
  | zero => exact .zero
  | succ fuel ih => exact ih.succ

/-- A chain of operands is read as its one grouped tree, and a sign takes no more than the atom behind
it with its fields and calls. -/
theorem parse_chain {source : String} {spans : List Spanned} {first : Expr}
    {rest : List (BinaryOp × Expr)} (split : tokenize source = .ok spans)
    (chain : Chain source.toList spans first rest) :
    (∃ t : Grouping, t.inOrder = (first, rest) ∧ t.Grouped ∧ parse source = .ok t.expr ∧
      ∀ t' : Grouping, t'.inOrder = (first, rest) → t'.Grouped → t' = t) ∧
    ∀ u e, Whole source.toList u e → Signed source.toList u e := by
  refine ⟨?_, fun u e whole => whole.signed⟩
  have enough : Fuelled 3 (8 * spans.length + 8) ⟨spans, 0, source.utf8ByteSize⟩ :=
    Nat.add_le_add_left (by decide) _
  obtain ⟨t, n, left, ran, tail, covers⟩ :=
    @GroupsWith.operators _ _ (groupsWith source.toList _) _ 0 _ _ chain enough
  have none : left = [] := by
    cases left with
    | nil => rfl
    | cons step left => exact absurd (covers.stops step rfl) (Nat.not_lt_zero _)
  subst none
  obtain ⟨m, -, below, place⟩ := (movesWith _ _).operators 0 _ _ _ ran
  have all : (Cursor.skip m ⟨spans, 0, source.utf8ByteSize⟩).rest = [] := by
    rw [← place]
    generalize (Cursor.skip n ⟨spans, 0, source.utf8ByteSize⟩).rest = u at tail
    cases tail
    rfl
  rw [Cursor.rest_skip, List.drop_eq_nil_iff] at all
  obtain rfl := Nat.le_antisymm below all
  have order : t.inOrder = (first, rest) :=
    Prod.ext covers.first (by rw [← covers.rest, List.append_nil])
  exact ⟨t, order, covers.grouped, parse_eq_ok.mpr ⟨spans, split, by rw [ran, place]⟩,
    fun t' order' grouped => grouped.unique covers.grouped (order'.trans order.symm)⟩

/-- `a - b - -c * d == |x| x` is `((a - b) - ((-c) * d)) == (|x| x)`. -/
theorem parse_chain_of_five : parse "a - b - -c * d == |x| x" = .ok (.binary .eq
    (.binary .sub (.binary .sub (.ident "a") (.ident "b"))
      (.binary .mul (.unary .neg (.ident "c")) (.ident "d")))
    (.closure ["x"] (.ident "x") "|x| x")) := by
  let spans : List Spanned := [⟨.ident "a", 0, 1⟩, ⟨.punct .minus, 2, 3⟩, ⟨.ident "b", 4, 5⟩,
    ⟨.punct .minus, 6, 7⟩, ⟨.punct .minus, 8, 9⟩, ⟨.ident "c", 9, 10⟩, ⟨.punct .star, 11, 12⟩,
    ⟨.ident "d", 13, 14⟩, ⟨.punct .eqEq, 15, 17⟩, ⟨.punct .bar, 18, 19⟩, ⟨.ident "x", 19, 20⟩,
    ⟨.punct .bar, 20, 21⟩, ⟨.ident "x", 22, 23⟩]
  let tree : Grouping := .node .eq
    (.node .sub (.node .sub (.leaf (.ident "a")) (.leaf (.ident "b")))
      (.node .mul (.leaf (.unary .neg (.ident "c"))) (.leaf (.ident "d"))))
    (.leaf (.closure ["x"] (.ident "x") "|x| x"))
  have chain : Chain "a - b - -c * d == |x| x".toList spans (.ident "a")
      [(.sub, .ident "b"), (.sub, .unary .neg (.ident "c")), (.mul, .ident "d"),
        (.eq, .closure ["x"] (.ident "x") "|x| x")] := by
    refine @Chain.step _ [_] _ _ _ _ _ _ ⟨_, rfl, rfl⟩ ⟨rfl, nofun⟩ rfl ?_
    refine @Chain.step _ [_] _ _ _ _ _ _ ⟨_, rfl, rfl⟩ ⟨rfl, nofun⟩ rfl ?_
    refine @Chain.step _ [_, _] _ _ _ _ _ _ ⟨_, rfl, rfl⟩ ⟨rfl, fun _ => ⟨rfl, nofun⟩⟩ rfl ?_
    refine @Chain.step _ [_] _ _ _ _ _ _ ⟨_, rfl, rfl⟩ ⟨rfl, nofun⟩ rfl ?_
    exact .last ⟨_, rfl, rfl⟩
  obtain ⟨⟨t, -, -, parsed, unique⟩, -⟩ := @parse_chain _ spans _ _ rfl chain
  have grouped : tree.Grouped := by
    simp [tree, Grouping.Grouped, Grouping.root?, BinaryOp.strength]
  rw [← unique tree rfl grouped] at parsed
  exact parsed

end Expr
end Pipeline
