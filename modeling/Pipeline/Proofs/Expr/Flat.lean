import Pipeline.Expr.Parser
import Pipeline.Proofs.Token.Reading

/-!
# Expressions written without parentheses

Where every operator between operands binds less tightly than the one to its right and no more
tightly than the one to its left, an expression that is written without parentheses is read as
itself.
-/

set_option autoImplicit false
set_option relaxedAutoImplicit false

namespace Pipeline

/-- The mark of an operator. -/
def UnaryOp.mark : UnaryOp → Punct
  | not => .bang
  | neg => .minus

/-- The mark of an operator. -/
def BinaryOp.mark : BinaryOp → Punct
  | or => .orOr
  | and => .andAnd
  | eq => .eqEq
  | ne => .bangEq
  | lt => .lt
  | le => .ltEq
  | gt => .gt
  | ge => .gtEq
  | add => .plus
  | sub => .minus
  | mul => .star
  | div => .slash
  | rem => .percent

theorem UnaryOp.symbol_eq (op : UnaryOp) : op.symbol = op.mark.text := by
  cases op <;> rfl

theorem BinaryOp.symbol_eq (op : BinaryOp) : op.symbol = op.mark.text := by
  cases op <;> rfl

theorem BinaryOp.ofToken?_mark (op : BinaryOp) : ofToken? (.punct op.mark) = some op := by
  cases op <;> rfl

/-- Operators before an operand bind tighter than those between operands. -/
theorem BinaryOp.strength_lt (op : BinaryOp) : op.strength < UnaryOp.strength := by
  cases op <;> decide

namespace Expr

/-- A name that is read as an identifier. -/
def IsVariable (name : String) : Prop := IsIdent name ∧ name ∉ ["true", "false", "None", "self"]

/-- Expressions of integers, truth values, names and operators. -/
inductive Scalar : Expr → Prop
  | bool (b : Bool) : Scalar (.lit (.bool b))
  | int {n : Int} : 0 ≤ n → Scalar (.lit (.int n))
  | ident {name : String} : IsVariable name → Scalar (.ident name)
  | unary {op : UnaryOp} {e : Expr} : Scalar e → Scalar (.unary op e)
  | binary {op : BinaryOp} {l r : Expr} : Scalar l → Scalar r → Scalar (.binary op l r)

/-- The text of such an expression without any parentheses. -/
def flat : Expr → String
  | lit (.bool b) => if b then "true" else "false"
  | lit (.int n) => Text.intText n
  | ident name => name
  | unary op e => op.symbol ++ flat e
  | binary op l r => flat l ++ " " ++ op.symbol ++ " " ++ flat r
  | _ => ""

/-- The tokens of this text. -/
def flatTokens : Expr → List Token
  | lit (.bool b) => [.ident (if b then "true" else "false")]
  | lit (.int n) => [.int n]
  | ident name => [.ident name]
  | unary op e => .punct op.mark :: flatTokens e
  | binary op l r => flatTokens l ++ .punct op.mark :: flatTokens r
  | _ => []

/-- How tightly the outermost operator of an expression binds. -/
def strength : Expr → Nat
  | binary op _ _ => op.strength
  | _ => UnaryOp.strength

/-- The flat text of an expression is read as the expression: no operand needs parentheses, and
every integer can be written. -/
def isFlat : Expr → Bool
  | lit (.int n) => n ≤ Lexer.maxInt
  | unary _ e => isFlat e && UnaryOp.strength ≤ e.strength
  | binary op l r => isFlat l && isFlat r && op.strength ≤ l.strength && op.strength < r.strength
  | _ => true

/-! ### Tokens -/

open Lexer (Lexes Stops)


/-- Nothing goes on in what follows: the end, or a blank. -/
def Ends (cs : List Char) : Prop := ∀ c ∈ cs.head?, c = ' '

theorem Ends.nil : Ends [] := nofun

theorem Ends.space (cs : List Char) : Ends (' ' :: cs) := by
  rintro c ⟨⟩
  rfl

private theorem Ends.stops {cs : List Char} (ends : Ends cs) {p : Char → Bool}
    (blank : p ' ' = false) : Stops p cs := fun c front => ends c front ▸ blank

private theorem toList_literal {n : Int} (positive : 0 ≤ n) :
    (Text.intText n).toList = Text.natChars n.toNat := by
  obtain ⟨k, rfl⟩ := Int.eq_ofNat_of_zero_le positive
  exact Text.toList_intText k

/-- No operator goes on in what an expression begins with. -/
private theorem Scalar.head {e : Expr} (scalar : e.Scalar) :
    ∃ c rest, e.flat.toList = c :: rest ∧ c ≠ '>' ∧ c ≠ '=' := by
  induction scalar with
  | bool b => cases b <;> exact ⟨_, _, rfl, by decide, by decide⟩
  | @int n positive =>
    rw [flat, toList_literal positive]
    cases spelled : Text.natChars n.toNat with
    | nil => exact absurd spelled Nat.toDigits_ne_nil
    | cons c rest =>
      have digit : c.isDigit = true :=
        Nat.isDigit_of_mem_toDigits (by decide) (by decide) (spelled ▸ List.mem_cons_self)
      refine ⟨c, rest, rfl, ?_, ?_⟩ <;>
      · rintro rfl
        cases digit
  | ident named =>
    obtain ⟨c, rest, spelled, start, -⟩ := named.1
    refine ⟨c, rest, spelled, ?_, ?_⟩ <;>
    · rintro rfl
      cases start
  | @unary op e _ _ =>
    cases op with
    | not => exact ⟨'!', e.flat.toList, by rw [flat, String.toList_append]; rfl, by decide, by decide⟩
    | neg => exact ⟨'-', e.flat.toList, by rw [flat, String.toList_append]; rfl, by decide, by decide⟩
  | binary _ _ left _ =>
    obtain ⟨c, rest, spelled, other⟩ := left
    simp only [flat, String.toList_append, spelled, List.cons_append]
    exact ⟨c, _, rfl, other⟩

/-- The flat text splits into its tokens. -/
theorem Scalar.lexes {e : Expr} (scalar : e.Scalar) (flat : e.isFlat = true) {cs : List Char}
    {ts : List Token} (ends : Ends cs) (later : Lexes cs ts) :
    Lexes (e.flat.toList ++ cs) (e.flatTokens ++ ts) := by
  induction scalar generalizing cs ts with
  | bool b =>
    have word : IsIdent (if b then "true" else "false") := by
      cases b
      · exact .of_chars 'f' ['a', 'l', 's', 'e'] rfl rfl rfl
      · exact .of_chars 't' ['r', 'u', 'e'] rfl rfl rfl
    exact Lexes.ident word (ends.stops rfl) later
  | @int n positive =>
    have small : n.toNat ≤ Lexer.maxInt := by
      have small : n ≤ Lexer.maxInt := of_decide_eq_true flat
      omega
    have token := Lexes.int small (ends.stops rfl) later
    rw [Int.toNat_of_nonneg positive] at token
    rw [Expr.flat, toList_literal positive]
    exact token
  | ident named => exact Lexes.ident named.1 (ends.stops rfl) later
  | @unary op e scalar ih =>
    simp only [isFlat, Bool.and_eq_true] at flat
    obtain ⟨c, rest, spelled, head⟩ := scalar.head
    have inside := ih flat.1 ends later
    rw [Expr.flat, String.toList_append, List.append_assoc]
    have starts {p : Char → Bool} (other : p c = false) : Stops p (e.flat.toList ++ cs) := by
      rw [spelled]
      rintro d ⟨⟩
      exact other
    cases op with
    | not => exact Lexes.bang (starts (by simpa using head.2)) inside
    | neg => exact Lexes.minus (starts (by simpa using head.1)) inside
  | @binary op l r _ _ left right =>
    simp only [isFlat, Bool.and_eq_true] at flat
    have behind := Lexes.beforeSpace op.mark (right flat.1.1.2 ends later)
    have whole := left flat.1.1.1 (Ends.space _) behind.space
    have text : (Expr.flat (.binary op l r)).toList ++ cs =
        l.flat.toList ++ ' ' :: (op.mark.text.toList ++ ' ' :: (r.flat.toList ++ cs)) := by
      simp [Expr.flat, BinaryOp.symbol_eq]
    rw [text, flatTokens, List.append_assoc]
    exact whole

/-! ### Reading -/

open Reader

/-- In front of given tokens a reader comes to go on like another one behind them. -/
private def GoesOn {α : Type} (r r' : Reader α) (front back : List Token) : Prop :=
  ∀ c : Cursor, c.tokens = front ++ back → ∃ c' : Cursor, c'.tokens = back ∧ r c = r' c'

private theorem GoesOn.trans {α : Type} {r r' r'' : Reader α} {front more back : List Token}
    (first : GoesOn r r' front (more ++ back)) (second : GoesOn r' r'' more back) :
    GoesOn r r'' (front ++ more) back := by
  intro c tokens
  obtain ⟨c', tokens', same⟩ := first c (by rw [tokens, List.append_assoc])
  obtain ⟨c'', tokens'', same'⟩ := second c' tokens'
  exact ⟨c'', tokens'', same.trans same'⟩

private theorem GoesOn.reads {α : Type} {r r' : Reader α} {front back : List Token} {a : α}
    (goesOn : GoesOn r r' front back) (reads : Reads r' [] a back) : Reads r front a back := by
  intro c tokens
  obtain ⟨c', tokens', same⟩ := goesOn c tokens
  obtain ⟨c'', ran, left⟩ := reads c' tokens'
  exact ⟨c'', same.trans ran, left⟩

private theorem goesOn_bind {α β : Type} {r : Reader α} {f : α → Reader β} {front back : List Token}
    {a : α} (first : Reads r front a back) : GoesOn (r >>= f) (f a) front back := by
  intro c tokens
  obtain ⟨c', ran, left⟩ := first c tokens
  refine ⟨c', left, ?_⟩
  change (r c >>= fun x => f x.1 x.2) = f a c'
  rw [ran]
  rfl

/-- What can stand behind an operand: nothing, or an operator that binds no more tightly. -/
private def Behind (limit : Nat) (back : List Token) : Prop :=
  ∀ t ∈ back.head?, ∃ op, BinaryOp.ofToken? t = some op ∧ op.strength ≤ limit

private theorem Behind.mono {limit limit' : Nat} {back : List Token} (behind : Behind limit back)
    (le : limit ≤ limit') : Behind limit' back := fun t front =>
  let ⟨op, stands, low⟩ := behind t front
  ⟨op, stands, Nat.le_trans low le⟩

private theorem Behind.isPunct {limit : Nat} {back : List Token} (behind : Behind limit back)
    {p : Punct} (other : BinaryOp.ofToken? (.punct p) = none) :
    ∀ t ∈ back.head?, t.isPunct p = false := by
  intro t front
  obtain ⟨op, stands, -⟩ := behind t front
  cases t with
  | punct q =>
    simp only [Token.isPunct, decide_eq_false_iff_not]
    rintro rfl
    cases other.symm.trans stands
  | _ => rfl

variable {source : List Char} {fuel least : Nat} {back : List Token}

/-- Operators that bind less tightly than asked for are left. -/
private theorem reads_moreOperators {e : Expr}
    (behind : ∀ t ∈ back.head?, ∃ op, BinaryOp.ofToken? t = some op ∧ op.strength < least) :
    Reads (moreOperators source fuel least e) [] e back := by
  cases fuel with
  | zero => exact Reads.pure e back
  | succ fuel =>
    refine Reads.look reads_peek? ?_
    rw [List.nil_append]
    cases front : back.head? with
    | none => exact Reads.pure e back
    | some t =>
      obtain ⟨op, stands, low⟩ := behind t front
      simp only [Option.bind_some, stands, if_pos low]
      exact Reads.pure e back

private theorem reads_moreFields {limit : Nat} {e : Expr} (behind : Behind limit back) :
    Reads (moreFields source fuel e) [] e back := by
  cases fuel with
  | zero => exact Reads.pure e back
  | succ fuel =>
    refine Reads.look reads_peek? ?_
    rw [List.nil_append]
    dsimp only
    split
    · rename_i front
      cases behind.isPunct (p := .dot) rfl _ front
    · rename_i front
      cases behind.isPunct (p := .optDot) rfl _ front
    · exact Reads.look (Reads.pure none back) (Reads.pure e back)

/-- An operand that is no closure and has no sign is an atom. -/
private theorem reads_operand {t : Token} {front : List Token} {limit : Nat} {e : Expr}
    (unsigned : ∀ p ∈ [Punct.bang, .minus, .bar, .orOr], t.isPunct p = false)
    (behind : Behind limit back) (reads : Reads (atom source fuel) (t :: front) e back) :
    Reads (operand source (fuel + 1)) (t :: front) e back := by
  simp only [List.forall_mem_cons, Token.isPunct] at unsigned
  refine Reads.look reads_peek? ?_
  rw [List.cons_append, List.head?_cons]
  split
  · rename_i same
    cases same
    exact absurd unsigned.1 (by decide)
  · rename_i same
    cases same
    exact absurd unsigned.2.1 (by decide)
  · rename_i same
    cases same
    exact absurd unsigned.2.2.1 (by decide)
  · rename_i same
    cases same
    exact absurd unsigned.2.2.2.1 (by decide)
  · exact reads.last (reads_moreFields behind)

private theorem reads_int {limit : Nat} (n : Int) (behind : Behind limit back) :
    Reads (operand source (fuel + 2)) [.int n] (.lit (.int n)) back := by
  refine reads_operand (by simp [Token.isPunct]) behind ?_
  refine Reads.look reads_peek? ?_
  exact (reads_advance? (.int n)).next (Reads.pure _ back)

private theorem reads_word {limit : Nat} {word : String} {e : Expr} (behind : Behind limit back)
    (reads : Reads (named source fuel word) [] e back) :
    Reads (operand source (fuel + 2)) [.ident word] e back := by
  refine reads_operand (by simp [Token.isPunct]) behind ?_
  refine Reads.look reads_peek? ?_
  exact (reads_advance? (.ident word)).next reads

private theorem reads_named {limit : Nat} {name : String} (own : IsVariable name)
    (behind : Behind limit back) :
    Reads (named source (fuel + 1) name) [] (.ident name) back := by
  have other := own.2
  simp only [List.mem_cons, List.not_mem_nil, or_false, not_or] at other
  rw [named, if_neg other.1, if_neg other.2.1, if_neg other.2.2.1, if_neg other.2.2.2]
  refine Reads.look reads_remaining ?_
  rw [List.nil_append]
  have alone : Reads (moreSegments back.length) (Token.ofSegments []) [] back :=
    reads_moreSegments (Nat.zero_le _) (behind.isPunct rfl)
  refine Reads.look alone ?_
  refine Reads.look (reads_eat_not (behind.isPunct rfl)) ?_
  refine Reads.look (reads_eat_not (behind.isPunct rfl)) ?_
  exact Reads.pure _ back

/-- Behind an operand, reading goes on with the operators that follow it. -/
private theorem goesOn_of_operand {front : List Token} {e : Expr}
    (reads : Reads (operand source fuel) front e back) :
    GoesOn (operators source (fuel + 1) least) (moreOperators source fuel least e) front back :=
  goesOn_bind reads

/-- An operator that binds tightly enough takes the expression behind it. -/
private theorem goesOn_operator {op : BinaryOp} {front : List Token} {l r : Expr}
    (low : least ≤ op.strength)
    (reads : Reads (operators source fuel (op.strength + 1)) front r back) :
    GoesOn (moreOperators source (fuel + 1) least l)
      (moreOperators source fuel least (.binary op l r)) (.punct op.mark :: front) back := by
  rw [moreOperators]
  refine (goesOn_bind (@reads_peek? ((.punct op.mark :: front) ++ back))).trans ?_
  simp only [List.cons_append, List.head?_cons, Option.bind_some, op.ofToken?_mark,
    if_neg (Nat.not_lt.mpr low)]
  exact (goesOn_bind (reads_advance? (.punct op.mark))).trans (goesOn_bind reads)

/-- A flat expression is read up to its end, where nothing binds more tightly. -/
private theorem goesOn_operators {e : Expr} (scalar : e.Scalar) (flat : e.isFlat = true)
    (enough : 4 * e.flatTokens.length ≤ fuel) (low : least ≤ e.strength)
    (behind : Behind e.strength back) :
    ∃ left, fuel ≤ left + 4 * e.flatTokens.length ∧ GoesOn (operators source fuel least)
      (moreOperators source left least e) e.flatTokens back := by
  -- Each token takes up at most four steps of the reader, so that there are enough left for the rest.
  induction scalar generalizing fuel least back with
  | bool b =>
    obtain ⟨f, rfl⟩ := Nat.exists_eq_add_of_le' enough
    refine ⟨f + 3, by simp [flatTokens], goesOn_of_operand (reads_word behind ?_)⟩
    cases b <;> exact Reads.pure _ back
  | @int n positive =>
    obtain ⟨f, rfl⟩ := Nat.exists_eq_add_of_le' enough
    exact ⟨f + 3, by simp [flatTokens], goesOn_of_operand (reads_int n behind)⟩
  | ident own =>
    obtain ⟨f, rfl⟩ := Nat.exists_eq_add_of_le' enough
    exact ⟨f + 3, by simp [flatTokens], goesOn_of_operand (reads_word behind (reads_named own behind))⟩
  | @unary op e _ ih =>
    simp only [isFlat, Bool.and_eq_true, decide_eq_true_eq] at flat
    simp only [flatTokens, List.length_cons] at enough ⊢
    obtain ⟨g, rfl⟩ : ∃ g, fuel = g + 2 := ⟨fuel - 2, by omega⟩
    obtain ⟨left, -, goesOn⟩ := @ih g _ back flat.1 (by omega) flat.2 (behind.mono flat.2)
    have inside : Reads (operators source g UnaryOp.strength) e.flatTokens e back := by
      refine goesOn.reads (reads_moreOperators fun t front => ?_)
      obtain ⟨op, stands, -⟩ := behind t front
      exact ⟨op, stands, op.strength_lt⟩
    refine ⟨g + 1, by omega, goesOn_of_operand (Reads.look reads_peek? ?_)⟩
    cases op with
    | not => exact (reads_advance? _).next (inside.last (Reads.pure _ back))
    | neg => exact (reads_advance? _).next (inside.last (Reads.pure _ back))
  | @binary op l r _ _ ihl ihr =>
    simp only [isFlat, Bool.and_eq_true, decide_eq_true_eq] at flat
    obtain ⟨⟨⟨flatL, flatR⟩, lowL⟩, lowR⟩ := flat
    simp only [flatTokens, List.length_append, List.length_cons] at enough ⊢
    have low : least ≤ op.strength := low
    have behind : Behind op.strength back := behind
    have next : Behind l.strength ((.punct op.mark :: r.flatTokens) ++ back) := by
      rintro t ⟨⟩
      exact ⟨op, op.ofToken?_mark, lowL⟩
    obtain ⟨first, restL, goesOnL⟩ := @ihl fuel least _ flatL (by omega) (Nat.le_trans low lowL) next
    obtain ⟨g, rfl⟩ : ∃ g, first = g + 1 := ⟨first - 1, by omega⟩
    obtain ⟨left, -, goesOnR⟩ :=
      @ihr g _ back flatR (by omega) lowR (behind.mono (Nat.le_of_lt lowR))
    have inside : Reads (operators source g (op.strength + 1)) r.flatTokens r back := by
      refine goesOnR.reads (reads_moreOperators fun t front => ?_)
      obtain ⟨op', stands, le⟩ := behind t front
      exact ⟨op', stands, Nat.lt_succ_of_le le⟩
    exact ⟨g, by omega, goesOnL.trans (goesOn_operator low inside)⟩

/-- The flat text of an expression is read as the expression, where no operand needs parentheses. -/
theorem parse_flat {e : Expr} (scalar : e.Scalar) (flat : e.isFlat = true) :
    parse e.flat = .ok e := by
  have split : Lexes e.flat.toList e.flatTokens := by
    have whole := scalar.lexes flat Ends.nil Lexes.nil
    rwa [List.append_nil, List.append_nil] at whole
  refine runOn_of_reads split ?_
  have some_token : e.flatTokens.length ≠ 0 := by
    cases scalar <;> simp [flatTokens]
  refine Reads.look reads_remaining ?_
  rw [List.append_nil, if_neg some_token]
  obtain ⟨left, -, goesOn⟩ := @goesOn_operators e.flat.toList (8 * e.flatTokens.length + 8) 0 [] e
    scalar flat (by omega) (Nat.zero_le _) nofun
  exact goesOn.reads (reads_moreOperators nofun)

end Expr
end Pipeline
