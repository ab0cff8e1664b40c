import Pipeline.Expr.Parser
import Pipeline.Proofs.Token.Echoes

/-!
# Expressions in other places

The readers of expressions move forward, and what they read they read again wherever the same tokens
stand in front of something that does not go on: at the end of a text, in other parentheses, or in
front of an operator if there is no closure to take it. Fuel in proportion to the tokens left is
enough, and more of it changes nothing.
-/

set_option autoImplicit false
set_option relaxedAutoImplicit false

namespace Pipeline

namespace Expr

open Reader

/-! ### Readers of expressions move forward -/

theorem moves_closureParams (fuel : Nat) : Moves 0 (closureParams fuel) := by
  induction fuel with
  | zero => exact Moves.pure []
  | succ fuel ih =>
    refine (Moves.ifEat (i := 0) (Moves.pure []) ?_).mono (Nat.zero_le 1)
    refine moves_expectIdent.last fun name => (moves_eat .comma).look fun more => ?_
    cases more with
    | true => exact ih.last fun rest => Moves.pure (name :: rest)
    | false => exact ((moves_expect .bar).last fun _ => Moves.pure [name]).mono (Nat.zero_le 1)

theorem moves_closureHead : Moves 1 closureHead := by
  refine Moves.ifEat (i := 0) (Moves.pure []) ?_
  exact (moves_expect .bar).last fun _ => moves_remaining.look fun n => moves_closureParams (n + 1)

/-- Goes on behind the name of a field or a method. -/
def called (source : List Char) (fuel : Nat) (e : Expr) (name : String) (optional : Bool) :
    Reader Expr := do
  if ← eat .lparen then
    let args ← items source fuel .rparen
    moreFields source fuel (.method e name args optional)
  else moreFields source fuel (.field e name optional)

/-- Goes on behind a path with no call of it. -/
def uncalled (source : List Char) (fuel : Nat) (word : String) (more : List String) :
    Reader Expr := do
  if ← eat .lbrace then
    return .record (word :: more) (← fields source fuel)
  else if more.isEmpty then return .ident word
  else return .path (word :: more)

/-- Whether a dot stands in front of a field or method, and is an optional one. -/
def dot? : Option Token → Option Bool
  | some (.punct .dot) => some false
  | some (.punct .optDot) => some true
  | _ => none

theorem exists_of_dot? {front : Option Token} {optional : Bool} (stands : dot? front = some optional) :
    ∃ t, front = some t := by
  cases front with
  | none => cases stands
  | some t => exact ⟨t, rfl⟩

theorem moreFields_succ_eq (source : List Char) (fuel : Nat) (e : Expr) :
    moreFields source (fuel + 1) e = (do
      match dot? (← peek?) with
      | none => return e
      | some optional =>
        let _ ← advance?
        let name ← expectIdent
        called source fuel e name optional) := by
  refine congrArg (peek? >>= ·) (funext fun front => ?_)
  dsimp only
  split
  · rfl
  · rfl
  · rename_i other other'
    have no : dot? front = none := by
      unfold dot?
      split
      · exact (other rfl).elim
      · exact (other' rfl).elim
      · rfl
    rw [no]
    rfl

/-- Reads an atom with its fields and calls. -/
def primary (source : List Char) (fuel : Nat) : Reader Expr := do
  let atom ← atom source fuel
  moreFields source fuel atom

/-- The sign that a token is in front of an operand. -/
def sign? : Option Token → Option UnaryOp
  | some (.punct .bang) => some .not
  | some (.punct .minus) => some .neg
  | _ => none

/-- True for the tokens that begin a closure. -/
def isBar : Option Token → Bool
  | some (.punct .bar) => true
  | some (.punct .orOr) => true
  | _ => false

theorem operand_succ_eq (source : List Char) (fuel : Nat) : operand source (fuel + 1) = (do
    let front ← peek?
    match sign? front with
    | some op =>
      let _ ← advance?
      return .unary op (← operators source fuel UnaryOp.strength)
    | none => if isBar front then closureOf source fuel else primary source fuel) := by
  refine congrArg (peek? >>= ·) (funext fun front => ?_)
  split
  · rfl
  · rfl
  · rfl
  · rfl
  · rename_i noBang noMinus noBar noOrOr
    have unsigned : sign? front = none := by
      unfold sign?
      split
      · exact (noBang rfl).elim
      · exact (noMinus rfl).elim
      · rfl
    have open_ : isBar front = false := by
      unfold isBar
      split
      · exact (noBar rfl).elim
      · exact (noOrOr rfl).elim
      · rfl
    rw [unsigned, open_]
    rfl

/-- The readers of expressions with so much fuel move forward. -/
structure MovesWith (source : List Char) (fuel : Nat) : Prop where
  operators : ∀ least, Moves 1 (operators source fuel least)
  moreOperators : ∀ least e, Moves 0 (moreOperators source fuel least e)
  operand : Moves 1 (operand source fuel)
  closureOf : Moves 1 (closureOf source fuel)
  moreFields : ∀ e, Moves 0 (moreFields source fuel e)
  items : ∀ close, Moves 0 (items source fuel close)
  atom : Moves 1 (atom source fuel)
  named : ∀ word, Moves 0 (named source fuel word)
  fields : Moves 0 (fields source fuel)

namespace MovesWith

variable {source : List Char} {fuel : Nat}

theorem zero : MovesWith source 0 where
  operators _ := moves_unexpected _
  moreOperators _ e := Moves.pure e
  operand := moves_unexpected _
  closureOf := moves_unexpected _
  moreFields e := Moves.pure e
  items _ := moves_unexpected _
  atom := moves_unexpected _
  named _ := moves_unexpected _
  fields := moves_unexpected _

private theorem moreOperators_succ (moves : MovesWith source fuel) (least : Nat) (e : Expr) :
    Moves 0 (Expr.moreOperators source (fuel + 1) least e) := by
  refine moves_peek?.look fun front => ?_
  split
  · exact Moves.pure e
  · split
    · exact Moves.pure e
    · refine moves_advance?.look fun _ => ?_
      exact ((moves.operators _).last fun right => moves.moreOperators least _).mono (Nat.zero_le 1)

private theorem operand_succ (moves : MovesWith source fuel) :
    Moves 1 (Expr.operand source (fuel + 1)) := by
  refine moves_peek?.look fun front => ?_
  split
  · exact moves_advance?.look fun _ => (moves.operators _).last fun e => Moves.pure _
  · exact moves_advance?.look fun _ => (moves.operators _).last fun e => Moves.pure _
  · exact moves.closureOf
  · exact moves.closureOf
  · exact moves.atom.last fun e => moves.moreFields e

private theorem closureOf_succ (moves : MovesWith source fuel) :
    Moves 1 (Expr.closureOf source (fuel + 1)) := by
  refine moves_offset.look fun start => moves_closureHead.last fun params => ?_
  refine ((moves.operators 0).last fun body => ?_).mono (Nat.zero_le 1)
  exact moves_lastStop.look fun stop => Moves.pure _

private theorem called (moves : MovesWith source fuel) (e : Expr) (name : String) (optional : Bool) :
    Moves 0 (Expr.called source fuel e name optional) := by
  refine (moves_eat .lparen).look fun call => ?_
  cases call with
  | true => exact (moves.items _).look fun args => moves.moreFields _
  | false => exact moves.moreFields _

private theorem member (moves : MovesWith source fuel) (e : Expr) (optional : Bool) : Moves 1 (do
    let name ← expectIdent
    Expr.called source fuel e name optional) :=
  moves_expectIdent.last fun name => moves.called e name optional

private theorem moreFields_succ (moves : MovesWith source fuel) (e : Expr) :
    Moves 0 (Expr.moreFields source (fuel + 1) e) := by
  rw [moreFields_succ_eq]
  refine moves_peek?.look fun front => ?_
  split
  · exact Moves.pure e
  · exact moves_advance?.look fun _ => (moves.member e _).mono (Nat.zero_le 1)

private theorem itemsBehind (moves : MovesWith source fuel) (close : Punct) (e : Expr) :
    Moves 1 (do
      if ← eat .comma then
        return e :: (← Expr.items source fuel close)
      else
        expect close
        return [e]) :=
  Moves.ifEat ((moves.items close).last fun _ => Moves.pure _)
    ((moves_expect close).last fun _ => Moves.pure _)

private theorem items_succ (moves : MovesWith source fuel) (close : Punct) :
    Moves 0 (Expr.items source (fuel + 1) close) := by
  refine (moves_eat close).look fun closed => ?_
  cases closed with
  | true => exact Moves.pure []
  | false => exact ((moves.operators 0).bind (moves.itemsBehind close)).mono (Nat.zero_le 2)

private theorem atom_succ (moves : MovesWith source fuel) : Moves 1 (Expr.atom source (fuel + 1)) := by
  intro c
  refine movesAt_peek? ?_
  -- What is no fault has a token at the front, and takes it.
  cases front : c.peek? with
  | none => exact moves_unexpected _ c
  | some t =>
    have one := movesAt_advance? front
    split
    · exact one.bind fun _ _ _ _ _ => MovesAt.pure _
    · exact one.bind fun _ _ _ _ _ => MovesAt.pure _
    · exact one.bind fun _ _ _ _ _ => MovesAt.pure _
    · exact one.bind fun _ _ _ _ _ => (((moves.operators 0).last fun e =>
        ((moves_expect .rparen).last fun _ => Moves.pure e).mono (Nat.zero_le 1)).mono
          (Nat.zero_le 1)) _
    · exact one.bind fun _ _ _ _ _ => ((moves.items _).last fun es => Moves.pure _) _
    · exact one.bind fun _ _ _ _ _ => moves.named _ _
    · exact moves_unexpected _ c

private theorem uncalled (moves : MovesWith source fuel) (word : String) (more : List String) :
    Moves 0 (Expr.uncalled source fuel word more) := by
  refine (moves_eat .lbrace).look fun record => ?_
  cases record with
  | true => exact moves.fields.last fun values => Moves.pure _
  | false =>
    rw [if_neg Bool.false_ne_true]
    split <;> exact Moves.pure _

/-- Behind a path there may be the arguments of a call. -/
private theorem pathed (moves : MovesWith source fuel) (word : String) (more : List String) :
    Moves 0 (do
      if ← eat .lparen then
        return .call (word :: more) (← Expr.items source fuel .rparen)
      else Expr.uncalled source fuel word more) := by
  refine (moves_eat .lparen).look fun call => ?_
  cases call with
  | true => exact (moves.items _).last fun args => Moves.pure _
  | false => exact moves.uncalled word more

private theorem named_succ (moves : MovesWith source fuel) (word : String) :
    Moves 0 (Expr.named source (fuel + 1) word) := by
  rw [Expr.named]
  split
  · exact Moves.pure _
  split
  · exact Moves.pure _
  split
  · exact Moves.pure _
  split
  · exact Moves.pure _
  exact moves_remaining.look fun n => (moves_moreSegments n).look (moves.pathed word)

/-- Behind the value of a field there is a mark, and maybe more fields. -/
private theorem fieldsBehind (moves : MovesWith source fuel) (name : String) (value : Expr) :
    Moves 1 (do
      if ← eat .comma then
        return (name, value) :: (← Expr.fields source fuel)
      else
        expect .rbrace
        return [(name, value)]) :=
  Moves.ifEat (moves.fields.last fun _ => Moves.pure _)
    ((moves_expect .rbrace).last fun _ => Moves.pure _)

private theorem fields_succ (moves : MovesWith source fuel) :
    Moves 0 (Expr.fields source (fuel + 1)) := by
  refine (moves_eat .rbrace).look fun closed => ?_
  cases closed with
  | true => exact Moves.pure []
  | false =>
    refine (moves_expectIdent.last fun name => (moves_eat .colon).look fun given => ?_).mono
      (Nat.zero_le 1)
    have later := moves.fieldsBehind name
    cases given with
    | true => exact ((moves.operators 0).bind later).mono (Nat.zero_le 2)
    | false => exact ((Moves.pure (Expr.ident name)).look later).mono (Nat.zero_le 1)

theorem succ (moves : MovesWith source fuel) : MovesWith source (fuel + 1) where
  operators least := moves.operand.last fun e => moves.moreOperators least e
  moreOperators := moves.moreOperators_succ
  operand := moves.operand_succ
  closureOf := moves.closureOf_succ
  moreFields := moves.moreFields_succ
  items := moves.items_succ
  atom := moves.atom_succ
  named := moves.named_succ
  fields := moves.fields_succ

end MovesWith

/-- The readers of expressions move forward. -/
theorem movesWith (source : List Char) (fuel : Nat) : MovesWith source fuel := by
  induction fuel with
  | zero => exact .zero
  | succ fuel ih => exact ih.succ

/-! ### Other places -/

/-- Nothing that an atom goes on with. -/
def Quiet (front : Option Token) : Prop :=
  ∀ p ∈ [Punct.pathSep, .dot, .optDot, .lparen, .lbrace], front.any (Token.isPunct p) = false

theorem Quiet.dot? {front : Option Token} (quiet : Quiet front) : dot? front = none := by
  unfold Expr.dot?
  split
  · exact absurd (quiet .dot (by decide)) (by decide)
  · exact absurd (quiet .optDot (by decide)) (by decide)
  · rfl

/-- Nothing that an expression goes on with. -/
def Silent (front : Option Token) : Prop := Quiet front ∧ front.bind BinaryOp.ofToken? = none

/-- Fuel for the tokens left; some readers begin with more calls than others. -/
def Fuelled (more fuel : Nat) (c : Cursor) : Prop := 8 * c.rest.length + more ≤ fuel

variable {source source' : List Char} {fuel fuel' more more' n : Nat} {c d : Cursor}

theorem Fuelled.down (enough : Fuelled (more + 1) (fuel + 1) c) : Fuelled more fuel c := by
  unfold Fuelled at *
  omega

theorem Fuelled.mono (enough : Fuelled more fuel c) (le : more' ≤ more) : Fuelled more' fuel c :=
  Nat.le_trans (Nat.add_le_add_left le _) enough

theorem Fuelled.behind (enough : Fuelled more fuel c) (le : more' ≤ more) :
    Fuelled more' fuel (c.skip n) := by
  unfold Fuelled at *
  rw [Cursor.rest_skip, List.length_drop]
  omega

/-- Behind a token there is fuel for eight more calls. -/
theorem Fuelled.skip (enough : Fuelled more (fuel + 1) c) (some_token : 1 ≤ n)
    (below : n ≤ c.rest.length) : Fuelled (more + 7) fuel (c.skip n) := by
  unfold Fuelled at *
  rw [Cursor.rest_skip, List.length_drop]
  omega

theorem echoes_closureParams {ends : Option Token → Prop} (enough : c.rest.length < fuel)
    (enough' : d.rest.length < fuel') :
    Echoes source source' ends c d (closureParams fuel) (closureParams fuel') := by
  induction fuel generalizing c d fuel' with
  | zero => exact absurd enough (Nat.not_lt_zero _)
  | succ fuel ih =>
    obtain ⟨fuel', rfl⟩ : ∃ k, fuel' = k + 1 := ⟨fuel' - 1, by omega⟩
    have behind (name : String) : Moves 1 (do
        if ← eat .comma then
          return name :: (← closureParams fuel)
        else
          expect .bar
          return [name]) :=
      Moves.ifEat ((moves_closureParams fuel).last fun _ => Moves.pure _)
        ((moves_expect .bar).last fun _ => Moves.pure _)
    refine Echoes.ifEat (Moves.pure []) (moves_expectIdent.last fun name =>
      (behind name).mono (Nat.zero_le 1)) nofun (fun _ _ => Echoes.pure []) ?_
    refine Echoes.identBind behind ?_
    intro name n least below below'
    refine Echoes.ifEat ((moves_closureParams fuel).last fun _ => Moves.pure _)
      ((moves_expect .bar).last fun _ => Moves.pure _) nofun ?_ ?_
    · intro _ _
      refine Echoes.bind (moves_closureParams fuel _) (fun _ => Moves.pure _) (ih ?_ ?_)
        (fun _ _ => id) fun _ _ _ _ _ _ => Echoes.pure _
      · simp only [Cursor.rest_skip, List.length_drop]
        omega
      · simp only [Cursor.rest_skip, List.length_drop]
        omega
    · exact Echoes.bind (moves_expect .bar _) (fun _ => Moves.pure _) (echoes_expect .bar)
        (fun _ _ => id) fun _ _ _ _ _ _ => Echoes.pure _

theorem echoes_closureHead {ends : Option Token → Prop} :
    Echoes source source' ends c d closureHead closureHead := by
  have params : Moves 0 (do closureParams ((← remaining) + 1)) :=
    moves_remaining.look fun n => moves_closureParams (n + 1)
  refine Echoes.ifEat (Moves.pure []) ((moves_expect .bar).last fun _ => params) nofun
    (fun _ _ => Echoes.pure []) ?_
  refine Echoes.bind (moves_expect .bar c) (fun _ => params) (echoes_expect .bar) (fun _ _ => id) ?_
  exact fun _ n _ _ _ _ => echoes_closureParams (Nat.lt_succ_self _) (Nat.lt_succ_self _)

/-- What a closure consists of, without its text. -/
def closureParts (source : List Char) (fuel : Nat) : Reader (List String × Expr) := do
  let params ← closureHead
  let body ← operators source fuel 0
  return (params, body)

/-- A closure has the text from its first bar to the end of its body. -/
theorem closureOf_eq_ok {e : Expr} {c' : Cursor} : closureOf source (fuel + 1) c = .ok (e, c') ↔
    ∃ params body, closureParts source fuel c = .ok ((params, body), c') ∧
      e = .closure params body (String.ofList (Text.slice source c.offset c'.lastStop)) := by
  constructor
  · intro ran
    obtain ⟨_, _, ⟨⟩, ran⟩ := bind_eq_ok.mp ran
    obtain ⟨params, c₁, head, ran⟩ := bind_eq_ok.mp ran
    obtain ⟨body, c₂, tail, ran⟩ := bind_eq_ok.mp ran
    obtain ⟨_, _, ⟨⟩, ⟨⟩⟩ := bind_eq_ok.mp ran
    exact ⟨params, body, bind_eq_ok.mpr ⟨params, c₁, head, bind_eq_ok.mpr ⟨body, _, tail, rfl⟩⟩, rfl⟩
  · rintro ⟨params, body, ran, rfl⟩
    obtain ⟨_, c₁, head, ran⟩ := bind_eq_ok.mp ran
    obtain ⟨_, c₂, tail, ⟨⟩⟩ := bind_eq_ok.mp ran
    exact bind_eq_ok.mpr ⟨c.offset, c, rfl, bind_eq_ok.mpr ⟨params, c₁, head,
      bind_eq_ok.mpr ⟨body, _, tail, rfl⟩⟩⟩

/-- With so much fuel the readers of expressions do the same wherever the same tokens stand. -/
structure EchoesWith (source source' : List Char) (fuel : Nat) : Prop where
  operators : ∀ {c d fuel' least}, Fuelled 3 fuel c → Fuelled 3 fuel' d →
    Echoes source source' Silent c d (operators source fuel least) (operators source' fuel' least)
  moreOperators : ∀ {c d fuel' least e}, Fuelled 1 fuel c → Fuelled 1 fuel' d →
    Echoes source source' Silent c d (moreOperators source fuel least e)
      (moreOperators source' fuel' least e)
  operand : ∀ {c d fuel'}, Fuelled 2 fuel c → Fuelled 2 fuel' d →
    Echoes source source' Silent c d (operand source fuel) (operand source' fuel')
  closureOf : ∀ {c d fuel'}, Fuelled 1 fuel c → Fuelled 1 fuel' d →
    Echoes source source' Silent c d (closureOf source fuel) (closureOf source' fuel')
  moreFields : ∀ {c d fuel' e}, Fuelled 1 fuel c → Fuelled 1 fuel' d →
    Echoes source source' Quiet c d (moreFields source fuel e) (moreFields source' fuel' e)
  items : ∀ {c d fuel' close}, Fuelled 4 fuel c → Fuelled 4 fuel' d →
    Echoes source source' Quiet c d (items source fuel close) (items source' fuel' close)
  atom : ∀ {c d fuel'}, Fuelled 1 fuel c → Fuelled 1 fuel' d →
    Echoes source source' Quiet c d (atom source fuel) (atom source' fuel')
  named : ∀ {c d fuel' word}, Fuelled 1 fuel c → Fuelled 1 fuel' d →
    Echoes source source' Quiet c d (named source fuel word) (named source' fuel' word)
  fields : ∀ {c d fuel'}, Fuelled 1 fuel c → Fuelled 1 fuel' d →
    Echoes source source' Quiet c d (fields source fuel) (fields source' fuel')

theorem Fuelled.ne_zero (enough : Fuelled (more + 1) fuel c) : ∃ left, fuel = left + 1 := by
  refine ⟨fuel - 1, ?_⟩
  unfold Fuelled at enough
  omega

namespace EchoesWith

theorem zero : EchoesWith source source' 0 := by
  have no {more : Nat} {c : Cursor} : ¬ Fuelled (more + 1) 0 c := fun enough =>
    nomatch enough.ne_zero
  constructor <;> exact fun enough => absurd enough no

private theorem operators_succ (echoes : EchoesWith source source' fuel) {least : Nat}
    (enough : Fuelled 3 (fuel + 1) c) (enough' : Fuelled 3 (fuel' + 1) d) :
    Echoes source source' Silent c d (Expr.operators source (fuel + 1) least)
      (Expr.operators source' (fuel' + 1) least) := by
  have moves := movesWith source fuel
  refine Echoes.bind (moves.operand c) (fun e => moves.moreOperators least e)
    (echoes.operand enough.down enough'.down) (fun _ _ => id) ?_
  intro e n some_token below below' _
  exact echoes.moreOperators ((enough.skip some_token below).mono (by decide))
    ((enough'.skip some_token below').mono (by decide))

private theorem moreOperators_succ (echoes : EchoesWith source source' fuel) {least : Nat} {e : Expr}
    (enough : Fuelled 1 (fuel + 1) c) (enough' : Fuelled 1 (fuel' + 1) d) :
    Echoes source source' Silent c d (Expr.moreOperators source (fuel + 1) least e)
      (Expr.moreOperators source' (fuel' + 1) least e) := by
  have moves := movesWith source fuel
  have next (op : BinaryOp) : Moves 1 (do
      let right ← Expr.operators source fuel (op.strength + 1)
      Expr.moreOperators source fuel least (.binary op e right)) :=
    (moves.operators _).last fun right => moves.moreOperators _ _
  refine Echoes.peek ?_ ?_
  · intro same
    split
    · exact Echoes.pure e
    · rename_i op stands
      split
      · exact Echoes.pure e
      · obtain ⟨t, front, -⟩ := Option.bind_eq_some_iff.mp stands
        refine Echoes.passed front same ((next op).mono (Nat.zero_le 1)) fun here there => ?_
        have enough := enough.skip (Nat.le_refl 1) here
        have enough' := enough'.skip (Nat.le_refl 1) there
        refine Echoes.bind (moves.operators _ _) (fun right => moves.moreOperators _ _)
          (echoes.operators (enough.mono (by decide)) (enough'.mono (by decide))) (fun _ _ => id) ?_
        exact fun right n _ _ _ _ =>
          echoes.moreOperators (enough.behind (by decide)) (enough'.behind (by decide))
  · intro e' silent ran
    rw [silent.2]
    generalize c.peek?.bind BinaryOp.ofToken? = found at ran
    cases found with
    | none =>
      cases ran
      rfl
    | some op =>
      dsimp only at ran
      split at ran
      · cases ran
        rfl
      · exact absurd ran (moves_advance?.look (fun _ => next op) c).ne_self

private theorem operand_succ (echoes : EchoesWith source source' fuel)
    (enough : Fuelled 2 (fuel + 1) c) (enough' : Fuelled 2 (fuel' + 1) d) :
    Echoes source source' Silent c d (Expr.operand source (fuel + 1))
      (Expr.operand source' (fuel' + 1)) := by
  have moves := movesWith source fuel
  have signed (op : UnaryOp) {t : Token} (same : c.peek? = d.peek?) (front : c.peek? = some t) :
      Echoes source source' Silent c d
        (do
          let _ ← advance?
          return Expr.unary op (← Expr.operators source fuel UnaryOp.strength))
        (do
          let _ ← advance?
          return Expr.unary op (← Expr.operators source' fuel' UnaryOp.strength)) := by
    refine Echoes.passed front same (((moves.operators _).last fun e => Moves.pure _).mono
      (Nat.zero_le 1)) fun here there => ?_
    exact Echoes.bind (moves.operators _ _) (fun _ => Moves.pure _)
      (echoes.operators ((enough.skip (Nat.le_refl 1) here).mono (by decide))
        ((enough'.skip (Nat.le_refl 1) there).mono (by decide)))
      (fun _ _ => id) fun _ _ _ _ _ _ => Echoes.pure _
  refine Echoes.front ((movesWith source (fuel + 1)).operand c) fun same => ?_
  split
  · exact signed .not same ‹_›
  · exact signed .neg same ‹_›
  · exact echoes.closureOf enough.down enough'.down
  · exact echoes.closureOf enough.down enough'.down
  · refine Echoes.bind (moves.atom c) (fun e => moves.moreFields e)
      (echoes.atom enough.down enough'.down) (fun _ _ silent => silent.1) ?_
    intro e n some_token below below' _
    exact (echoes.moreFields ((enough.skip some_token below).mono (by decide))
      ((enough'.skip some_token below').mono (by decide))).mono fun _ silent => silent.1

/-- The text of a closure is the text of its tokens. -/
private theorem closureOf_succ (echoes : EchoesWith source source' fuel)
    (enough : Fuelled 1 (fuel + 1) c) (enough' : Fuelled 1 (fuel' + 1) d) :
    Echoes source source' Silent c d (Expr.closureOf source (fuel + 1))
      (Expr.closureOf source' (fuel' + 1)) := by
  have moves := movesWith source fuel
  have parts : Echoes source source' Silent c d (closureParts source fuel)
      (closureParts source' fuel') := by
    refine Echoes.bind (moves_closureHead c) (fun params => (moves.operators 0).last fun body =>
      Moves.pure (params, body)) (@echoes_closureHead _ _ _ _ Silent) nofun ?_
    intro params n some_token below below' _
    exact Echoes.bind (moves.operators 0 _) (fun _ => Moves.pure _)
      (echoes.operators ((enough.skip some_token below).mono (by decide))
        ((enough'.skip some_token below').mono (by decide)))
      (fun _ _ => id) fun _ _ _ _ _ _ => Echoes.pure _
  intro n e below ran agree close
  have some_token := ((movesWith source (fuel + 1)).closureOf c).least below ran
  obtain ⟨params, body, read, rfl⟩ := closureOf_eq_ok.mp ran
  refine closureOf_eq_ok.mpr ⟨params, body, parts n _ below read agree close, ?_⟩
  obtain ⟨last, rfl⟩ : ∃ k, n = k + 1 := ⟨n - 1, by omega⟩
  obtain ⟨s, t, first, first', -⟩ := agree.tokens 0 (Nat.succ_pos last)
  obtain ⟨s', t', end_, end_', -⟩ := agree.tokens last (Nat.lt_succ_self last)
  rw [Cursor.lastStop_skip end_, Cursor.lastStop_skip end_', Cursor.offset_eq first,
    Cursor.offset_eq first', agree.texts 0 last (Nat.zero_le _) (Nat.lt_succ_self _) s first t first'
      s' end_ t' end_']

private theorem called (echoes : EchoesWith source source' fuel) {e : Expr} {name : String}
    {optional : Bool} (enough : Fuelled 8 fuel c) (enough' : Fuelled 8 fuel' d) :
    Echoes source source' Quiet c d (Expr.called source fuel e name optional)
      (Expr.called source' fuel' e name optional) := by
  have moves := movesWith source fuel
  refine Echoes.ifEat ((moves.items _).look fun _ => moves.moreFields _) (moves.moreFields _)
    (fun _ t quiet => quiet _ (by decide)) (fun _ _ => ?_) ?_
  · exact Echoes.bind (moves.items _ _) (fun _ => moves.moreFields _)
      (echoes.items (enough.behind (by decide)) (enough'.behind (by decide))) (fun _ _ => id)
      fun _ _ _ _ _ _ => echoes.moreFields ((enough.behind (Nat.le_refl 8)).behind (by decide))
        ((enough'.behind (Nat.le_refl 8)).behind (by decide))
  · exact echoes.moreFields (enough.mono (by decide)) (enough'.mono (by decide))

private theorem moreFields_succ (echoes : EchoesWith source source' fuel) {e : Expr}
    (enough : Fuelled 1 (fuel + 1) c) (enough' : Fuelled 1 (fuel' + 1) d) :
    Echoes source source' Quiet c d (Expr.moreFields source (fuel + 1) e)
      (Expr.moreFields source' (fuel' + 1) e) := by
  have moves := movesWith source fuel
  rw [moreFields_succ_eq, moreFields_succ_eq]
  refine Echoes.peek ?_ ?_
  · intro same
    split
    · exact Echoes.pure e
    · rename_i optional stands
      obtain ⟨t, front⟩ := exists_of_dot? stands
      refine Echoes.passed front same ((moves.member e optional).mono (Nat.zero_le 1))
        fun here there => ?_
      have enough := enough.skip (Nat.le_refl 1) here
      have enough' := enough'.skip (Nat.le_refl 1) there
      exact Echoes.identBind (fun name => moves.called e name optional) fun name n _ _ _ =>
        echoes.called (enough.behind (Nat.le_refl 8)) (enough'.behind (Nat.le_refl 8))
  · intro e' quiet ran
    rw [quiet.dot?]
    generalize dot? c.peek? = found at ran
    cases found with
    | none =>
      cases ran
      rfl
    | some optional =>
      exact absurd ran (moves_advance?.look (fun _ => moves.member e optional) c).ne_self

private theorem itemsBehind (echoes : EchoesWith source source' fuel) {close : Punct} {e : Expr}
    (enough : Fuelled 4 fuel c) (enough' : Fuelled 4 fuel' d) :
    Echoes source source' Quiet c d
      (do
        if ← eat .comma then
          return e :: (← Expr.items source fuel close)
        else
          expect close
          return [e])
      (do
        if ← eat .comma then
          return e :: (← Expr.items source' fuel' close)
        else
          expect close
          return [e]) := by
  have moves := movesWith source fuel
  refine Echoes.ifEat ((moves.items close).last fun _ => Moves.pure _)
    ((moves_expect close).last fun _ => Moves.pure _) nofun (fun _ _ => ?_) ?_
  · exact Echoes.bind (moves.items close _) (fun _ => Moves.pure _)
      (echoes.items (enough.behind (Nat.le_refl 4)) (enough'.behind (Nat.le_refl 4)))
      (fun _ _ => id) fun _ _ _ _ _ _ => Echoes.pure _
  · exact Echoes.bind (moves_expect close c) (fun _ => Moves.pure _) (echoes_expect close)
      (fun _ _ => id) fun _ _ _ _ _ _ => Echoes.pure _

private theorem items_succ (echoes : EchoesWith source source' fuel) {close : Punct}
    (enough : Fuelled 4 (fuel + 1) c) (enough' : Fuelled 4 (fuel' + 1) d) :
    Echoes source source' Quiet c d (Expr.items source (fuel + 1) close)
      (Expr.items source' (fuel' + 1) close) := by
  have moves := movesWith source fuel
  refine Echoes.ifEat (Moves.pure []) ((moves.operators 0).last fun e =>
    (moves.itemsBehind close e).mono (Nat.zero_le 1)) nofun (fun _ _ => Echoes.pure []) ?_
  refine Echoes.bind (moves.operators 0 c) (moves.itemsBehind close)
    (echoes.operators enough.down enough'.down) nofun ?_
  intro e n some_token below below' _
  exact echoes.itemsBehind ((enough.skip some_token below).mono (by decide))
    ((enough'.skip some_token below').mono (by decide))

private theorem atom_succ (echoes : EchoesWith source source' fuel)
    (enough : Fuelled 1 (fuel + 1) c) (enough' : Fuelled 1 (fuel' + 1) d) :
    Echoes source source' Quiet c d (Expr.atom source (fuel + 1))
      (Expr.atom source' (fuel' + 1)) := by
  have moves := movesWith source fuel
  refine Echoes.front ((movesWith source (fuel + 1)).atom c) fun same => ?_
  split
  · exact Echoes.passed ‹_› same (Moves.pure _) fun _ _ => Echoes.pure _
  · exact Echoes.passed ‹_› same (Moves.pure _) fun _ _ => Echoes.pure _
  · exact Echoes.passed ‹_› same (Moves.pure _) fun _ _ => Echoes.pure _
  · have closed (e : Expr) : Moves 1 (do
        expect .rparen
        return e) := (moves_expect .rparen).last fun _ => Moves.pure e
    refine Echoes.passed ‹_› same (((moves.operators 0).bind closed).mono (Nat.zero_le 2))
      fun here there => ?_
    refine Echoes.bind (moves.operators 0 _) closed
      (echoes.operators ((enough.skip (Nat.le_refl 1) here).mono (by decide))
        ((enough'.skip (Nat.le_refl 1) there).mono (by decide))) nofun fun e _ _ _ _ _ => ?_
    exact Echoes.bind (moves_expect .rparen _) (fun _ => Moves.pure _) (echoes_expect .rparen)
      (fun _ _ => id) fun _ _ _ _ _ _ => Echoes.pure _
  · refine Echoes.passed ‹_› same ((moves.items _).last fun _ => Moves.pure _) fun here there => ?_
    exact Echoes.bind (moves.items _ _) (fun _ => Moves.pure _)
      (echoes.items ((enough.skip (Nat.le_refl 1) here).mono (by decide))
        ((enough'.skip (Nat.le_refl 1) there).mono (by decide))) (fun _ _ => id)
      fun _ _ _ _ _ _ => Echoes.pure _
  · exact Echoes.passed ‹_› same (moves.named _) fun here there =>
      echoes.named ((enough.skip (Nat.le_refl 1) here).mono (by decide))
        ((enough'.skip (Nat.le_refl 1) there).mono (by decide))
  · exact Echoes.unexpected _

private theorem uncalled (echoes : EchoesWith source source' fuel) {word : String}
    {more : List String} (enough : Fuelled 1 (fuel + 1) c) (enough' : Fuelled 1 (fuel' + 1) d) :
    Echoes source source' Quiet c d (Expr.uncalled source fuel word more)
      (Expr.uncalled source' fuel' word more) := by
  have moves := movesWith source fuel
  refine Echoes.ifEat (moves.fields.last fun _ => Moves.pure _) (j := 0) ?_
    (fun _ t quiet => quiet _ (by decide)) (fun here there => ?_) ?_
  · split <;> exact Moves.pure _
  · exact Echoes.bind (moves.fields _) (fun _ => Moves.pure _)
      (echoes.fields ((enough.skip (Nat.le_refl 1) here).mono (by decide))
        ((enough'.skip (Nat.le_refl 1) there).mono (by decide)))
      (fun _ _ => id) fun _ _ _ _ _ _ => Echoes.pure _
  · split <;> exact Echoes.pure _

private theorem named_succ (echoes : EchoesWith source source' fuel) {word : String}
    (enough : Fuelled 1 (fuel + 1) c) (enough' : Fuelled 1 (fuel' + 1) d) :
    Echoes source source' Quiet c d (Expr.named source (fuel + 1) word)
      (Expr.named source' (fuel' + 1) word) := by
  have moves := movesWith source fuel
  rw [Expr.named, Expr.named]
  split
  · exact Echoes.pure _
  split
  · exact Echoes.pure _
  split
  · exact Echoes.pure _
  split
  · exact Echoes.pure _
  -- The number of tokens left is not the same at both places, but bounds the segments at both.
  have path : Echoes source source' Quiet c d (moreSegments c.rest.length)
      (moreSegments d.rest.length) :=
    echoes_moreSegments (fun t quiet => quiet _ (by decide)) (Nat.le_refl _) (Nat.le_refl _)
  refine Echoes.remaining ?_
  refine Echoes.bind (moves_moreSegments _ c) (moves.pathed word) path (fun _ _ => id) ?_
  intro more n _ _ _ _
  refine Echoes.ifEat ((moves.items _).last fun _ => Moves.pure _) (moves.uncalled word more)
    (fun _ t quiet => quiet _ (by decide)) (fun here there => ?_) ?_
  · have enough : Fuelled 1 (fuel + 1) (c.skip n) := enough.behind (Nat.le_refl 1)
    have enough' : Fuelled 1 (fuel' + 1) (d.skip n) := enough'.behind (Nat.le_refl 1)
    exact Echoes.bind (moves.items _ _) (fun _ => Moves.pure _)
      (echoes.items ((enough.skip (Nat.le_refl 1) here).mono (by decide))
        ((enough'.skip (Nat.le_refl 1) there).mono (by decide)))
      (fun _ _ => id) fun _ _ _ _ _ _ => Echoes.pure _
  · exact echoes.uncalled (enough.behind (Nat.le_refl 1)) (enough'.behind (Nat.le_refl 1))

private theorem fieldsBehind (echoes : EchoesWith source source' fuel) {name : String} {value : Expr}
    (enough : Fuelled 1 fuel c) (enough' : Fuelled 1 fuel' d) :
    Echoes source source' Quiet c d
      (do
        if ← eat .comma then
          return (name, value) :: (← Expr.fields source fuel)
        else
          expect .rbrace
          return [(name, value)])
      (do
        if ← eat .comma then
          return (name, value) :: (← Expr.fields source' fuel')
        else
          expect .rbrace
          return [(name, value)]) := by
  have moves := movesWith source fuel
  refine Echoes.ifEat (moves.fields.last fun _ => Moves.pure _)
    ((moves_expect .rbrace).last fun _ => Moves.pure _) nofun (fun _ _ => ?_) ?_
  · exact Echoes.bind (moves.fields _) (fun _ => Moves.pure _)
      (echoes.fields (enough.behind (Nat.le_refl 1)) (enough'.behind (Nat.le_refl 1)))
      (fun _ _ => id) fun _ _ _ _ _ _ => Echoes.pure _
  · exact Echoes.bind (moves_expect .rbrace c) (fun _ => Moves.pure _) (echoes_expect .rbrace)
      (fun _ _ => id) fun _ _ _ _ _ _ => Echoes.pure _

private theorem fields_succ (echoes : EchoesWith source source' fuel)
    (enough : Fuelled 1 (fuel + 1) c) (enough' : Fuelled 1 (fuel' + 1) d) :
    Echoes source source' Quiet c d (Expr.fields source (fuel + 1))
      (Expr.fields source' (fuel' + 1)) := by
  have moves := movesWith source fuel
  have given (name : String) : Moves 1 (do
      let value ← if ← eat .colon then Expr.operators source fuel 0 else pure (.ident name)
      if ← eat .comma then
        return (name, value) :: (← Expr.fields source fuel)
      else
        expect .rbrace
        return [(name, value)]) := by
    refine Moves.ifEat (i := 0) ?_ ?_
    · exact ((moves.operators 0).bind (moves.fieldsBehind name)).mono (Nat.zero_le 2)
    · exact (Moves.pure (Expr.ident name)).look (moves.fieldsBehind name)
  refine Echoes.ifEat (Moves.pure []) (moves_expectIdent.last fun name =>
    (given name).mono (Nat.zero_le 1)) nofun (fun _ _ => Echoes.pure []) ?_
  refine Echoes.identBind given ?_
  intro name n some_token below below'
  have enough := enough.skip some_token below
  have enough' := enough'.skip some_token below'
  refine Echoes.ifEat (((moves.operators 0).bind (moves.fieldsBehind name)).mono (Nat.zero_le 2))
    ((Moves.pure (Expr.ident name)).look (moves.fieldsBehind name)) nofun (fun _ _ => ?_) ?_
  · refine Echoes.bind (moves.operators 0 _) (moves.fieldsBehind name)
      (echoes.operators (enough.behind (by decide)) (enough'.behind (by decide))) nofun ?_
    exact fun value _ _ _ _ _ => echoes.fieldsBehind
      ((enough.behind (Nat.le_refl 8)).behind (by decide))
      ((enough'.behind (Nat.le_refl 8)).behind (by decide))
  · exact echoes.fieldsBehind (enough.mono (by decide)) (enough'.mono (by decide))

/-- One more call. The other reader has fuel for it too. -/
theorem succ (echoes : EchoesWith source source' fuel) : EchoesWith source source' (fuel + 1) where
  operators enough enough' := by
    obtain ⟨fuel', rfl⟩ := enough'.ne_zero
    exact echoes.operators_succ enough enough'
  moreOperators enough enough' := by
    obtain ⟨fuel', rfl⟩ := enough'.ne_zero
    exact echoes.moreOperators_succ enough enough'
  operand enough enough' := by
    obtain ⟨fuel', rfl⟩ := enough'.ne_zero
    exact echoes.operand_succ enough enough'
  closureOf enough enough' := by
    obtain ⟨fuel', rfl⟩ := enough'.ne_zero
    exact echoes.closureOf_succ enough enough'
  moreFields enough enough' := by
    obtain ⟨fuel', rfl⟩ := enough'.ne_zero
    exact echoes.moreFields_succ enough enough'
  items enough enough' := by
    obtain ⟨fuel', rfl⟩ := enough'.ne_zero
    exact echoes.items_succ enough enough'
  atom enough enough' := by
    obtain ⟨fuel', rfl⟩ := enough'.ne_zero
    exact echoes.atom_succ enough enough'
  named enough enough' := by
    obtain ⟨fuel', rfl⟩ := enough'.ne_zero
    exact echoes.named_succ enough enough'
  fields enough enough' := by
    obtain ⟨fuel', rfl⟩ := enough'.ne_zero
    exact echoes.fields_succ enough enough'

end EchoesWith

/-- The readers of expressions do the same wherever the same tokens stand, in front of nothing that
goes on. -/
theorem echoesWith (source source' : List Char) (fuel : Nat) : EchoesWith source source' fuel := by
  induction fuel with
  | zero => exact .zero
  | succ fuel ih => exact ih.succ

/-! ### Beginnings of operands -/

/-- A closure begins with a bar. -/
theorem isBar_of_closureOf {e : Expr} {c' : Cursor} (ran : closureOf source fuel c = .ok (e, c')) :
    sign? c.peek? = none ∧ isBar c.peek? = true := by
  cases fuel with
  | zero => cases ran
  | succ fuel =>
    obtain ⟨params, body, parts, -⟩ := closureOf_eq_ok.mp ran
    obtain ⟨_, c₁, head, -⟩ := bind_eq_ok.mp parts
    obtain ⟨empty, c₂, ate, head⟩ := bind_eq_ok.mp head
    obtain ⟨front, rfl⟩ := eat_eq_ok.mp ate
    cases empty with
    | true =>
      rw [Cursor.peek?_of_isPunct front.symm]
      exact ⟨rfl, rfl⟩
    | false =>
      obtain ⟨_, c₃, bar, -⟩ := bind_eq_ok.mp head
      have bar : expect .bar c = .ok (_, c₃) := bar
      rw [Cursor.peek?_of_isPunct (expect_eq_ok.mp bar).1]
      exact ⟨rfl, rfl⟩

/-- Where a closure can be read it is the operand. -/
theorem operand_of_closureOf {e : Expr} {c' : Cursor}
    (ran : closureOf source fuel c = .ok (e, c')) : operand source (fuel + 1) c = .ok (e, c') := by
  obtain ⟨unsigned, bar⟩ := isBar_of_closureOf ran
  rw [operand_succ_eq]
  refine bind_eq_ok.mpr ⟨c.peek?, c, rfl, ?_⟩
  rw [unsigned, bar]
  exact ran

/-- Of all the marks only parentheses and brackets begin an atom. -/
theorem atom_of_punct {p : Punct} {e : Expr} {c' : Cursor} (front : c.peek? = some (.punct p))
    (ran : atom source fuel c = .ok (e, c')) : p = .lparen ∨ p = .lbracket := by
  cases fuel with
  | zero => cases ran
  | succ fuel =>
    obtain ⟨_, _, ⟨⟩, ran⟩ := bind_eq_ok.mp ran
    rw [front] at ran
    cases p with
    | lparen => exact .inl rfl
    | lbracket => exact .inr rfl
    | _ => cases ran

/-- Where an atom can be read it begins the operand. -/
theorem operand_of_primary {e : Expr} {c' : Cursor} (ran : primary source fuel c = .ok (e, c')) :
    operand source (fuel + 1) c = .ok (e, c') := by
  obtain ⟨base, c₁, atom, -⟩ := bind_eq_ok.mp ran
  have start : sign? c.peek? = none ∧ isBar c.peek? = false := by
    cases front : c.peek? with
    | none => exact ⟨rfl, rfl⟩
    | some t =>
      cases t with
      | punct p => rcases atom_of_punct front atom with rfl | rfl <;> exact ⟨rfl, rfl⟩
      | _ => exact ⟨rfl, rfl⟩
  rw [operand_succ_eq]
  refine bind_eq_ok.mpr ⟨c.peek?, c, rfl, ?_⟩
  rw [start.1, start.2]
  exact ran

/-! ### Whole texts -/

/-- A text is an expression if reading takes all of its tokens. -/
theorem parse_eq_ok {source : String} {e : Expr} : parse source = .ok e ↔
    ∃ spans, tokenize source = .ok spans ∧
      operators source.toList (8 * spans.length + 8) 0 ⟨spans, 0, source.utf8ByteSize⟩ =
        .ok (e, Cursor.skip spans.length ⟨spans, 0, source.utf8ByteSize⟩) := by
  have moves (fuel : Nat) := (movesWith source.toList fuel).operators 0
  have ended {c c' : Cursor} : expectEnd c = .ok ((), c') ↔ c.rest = [] ∧ c' = c := by
    rw [expectEnd]
    split
    · rename_i empty
      exact ⟨fun ran => ⟨List.isEmpty_iff.mp empty, by cases ran; rfl⟩, fun ⟨_, same⟩ => same ▸ rfl⟩
    · rename_i left
      exact ⟨nofun, fun ⟨empty, _⟩ => absurd (List.isEmpty_iff.mpr empty) left⟩
  have some_token {spans : List Spanned} (some_token : spans.length ≠ 0) :
      whole source.toList ⟨spans, 0, source.utf8ByteSize⟩ =
        operators source.toList (8 * spans.length + 8) 0 ⟨spans, 0, source.utf8ByteSize⟩ :=
    congrFun (if_neg some_token) _
  rw [parse, runOn_eq_ok]
  constructor
  · rintro ⟨spans, c', split, ran⟩
    obtain ⟨e', c₁, ran, rest⟩ := bind_eq_ok.mp ran
    obtain ⟨_, c₂, atEnd, ⟨⟩⟩ := bind_eq_ok.mp rest
    obtain ⟨empty, -⟩ := ended.mp atEnd
    refine ⟨spans, split, ?_⟩
    by_cases none : spans.length = 0
    · obtain rfl := List.length_eq_zero_iff.mp none
      cases ran
    · rw [some_token none] at ran
      obtain ⟨n, -, below, rfl⟩ := moves _ _ _ _ ran
      rw [Cursor.rest_skip, List.drop_eq_nil_iff] at empty
      rwa [Nat.le_antisymm below empty] at ran
  · rintro ⟨spans, split, ran⟩
    have least : 1 ≤ spans.length := (moves _ _).least (Nat.le_refl _) ran
    have empty : (Cursor.skip spans.length ⟨spans, 0, source.utf8ByteSize⟩).rest = [] := by
      rw [Cursor.rest_skip, List.drop_length]
    have read := some_token (Nat.ne_of_gt least)
    exact ⟨spans, _, split, bind_eq_ok.mpr ⟨e, _, read.trans ran,
      bind_eq_ok.mpr ⟨(), _, ended.mpr ⟨empty, rfl⟩, rfl⟩⟩⟩

/-- What is read from some of the tokens is what their text is read as. -/
theorem parse_of_operators {text : String} {spans : List Spanned} {e : Expr}
    (enough : Fuelled 3 fuel c) (below : n ≤ c.rest.length)
    (ran : operators source fuel 0 c = .ok (e, c.skip n)) (split : tokenize text = .ok spans)
    (length : spans.length = n)
    (agree : Cursor.Agree source text.toList n c ⟨spans, 0, text.utf8ByteSize⟩) :
    parse text = .ok e := by
  subst length
  refine parse_eq_ok.mpr ⟨spans, split, ?_⟩
  have fuelled : Fuelled 3 (8 * spans.length + 8) ⟨spans, 0, text.utf8ByteSize⟩ :=
    Nat.add_le_add_left (by decide) _
  refine (echoesWith source text.toList fuel).operators enough fuelled _ e below ran agree (.inr ?_)
  rw [Cursor.peek?_skip, List.getElem?_eq_none (Nat.le_refl _)]
  exact ⟨by simp [Quiet], rfl⟩

end Expr
end Pipeline
