import Pipeline.Proofs.Expr.Relocation
import Pipeline.Proofs.Token.Slices

/-!
# Texts that are kept

A snippet keeps its text without the blanks around it, and every closure in it keeps the text from
its first bar to the end of its body. Both texts are read again as what they were kept for: a closure
alone is the same closure, and so are the closures inside it.
-/

set_option autoImplicit false
set_option relaxedAutoImplicit false

namespace Pipeline

namespace Expr

open Reader

/-- An expression stands somewhere in another one, or is it. -/
inductive Occurs : Expr → Expr → Prop
  | here (e : Expr) : Occurs e e
  | field {e base : Expr} (name : String) (optional : Bool) :
      Occurs e base → Occurs e (.field base name optional)
  | receiver {e receiver : Expr} (name : String) (args : List Expr) (optional : Bool) :
      Occurs e receiver → Occurs e (.method receiver name args optional)
  | methodArg {e arg : Expr} {args : List Expr} (receiver : Expr) (name : String)
      (optional : Bool) : arg ∈ args → Occurs e arg → Occurs e (.method receiver name args optional)
  | callArg {e arg : Expr} {args : List Expr} (callee : List String) :
      arg ∈ args → Occurs e arg → Occurs e (.call callee args)
  | operand {e operand : Expr} (op : UnaryOp) : Occurs e operand → Occurs e (.unary op operand)
  | left {e left : Expr} (op : BinaryOp) (right : Expr) :
      Occurs e left → Occurs e (.binary op left right)
  | right {e right : Expr} (op : BinaryOp) (left : Expr) :
      Occurs e right → Occurs e (.binary op left right)
  | item {e item : Expr} {items : List Expr} : item ∈ items → Occurs e item → Occurs e (.list items)
  | value {e : Expr} {field : String × Expr} {fields : List (String × Expr)} (path : List String) :
      field ∈ fields → Occurs e field.2 → Occurs e (.record path fields)
  | body {e body : Expr} (params : List String) (source : String) :
      Occurs e body → Occurs e (.closure params body source)

/-- Every closure in an expression is what its own text is read as. -/
def Kept (e : Expr) : Prop := ∀ params body source, Occurs (.closure params body source) e →
  parse source = .ok (.closure params body source)

end Expr

namespace Reader

variable {α β : Type} {r : Reader α} {f : α → Reader β} {c : Cursor} {i : Nat} {P : α → Prop}
  {Q : β → Prop}

/-- What a reader comes to from a cursor satisfies a condition. -/
def Yields (c : Cursor) (r : Reader α) (P : α → Prop) : Prop := ∀ a c', r c = .ok (a, c') → P a

theorem Yields.pure {a : α} (here : P a) : Yields c (pure a) P := by
  rintro b c' ⟨⟩
  exact here

theorem Yields.bind (moves : MovesAt c i r) (first : Yields c r P) (second : ∀ a n, i ≤ n →
    n ≤ c.rest.length → r c = .ok (a, c.skip n) → P a → Yields (c.skip n) (f a) Q) :
    Yields c (r >>= f) Q := by
  intro b c'' ran
  obtain ⟨a, c', ran, ran'⟩ := bind_eq_ok.mp ran
  obtain ⟨n, least, below, rfl⟩ := moves a c' ran
  exact second a n least below ran (first a _ ran) b c'' ran'

/-- A first step whose value does not matter. -/
theorem Yields.after (moves : MovesAt c i r) (second : ∀ a n, i ≤ n → n ≤ c.rest.length →
    r c = .ok (a, c.skip n) → Yields (c.skip n) (f a) Q) : Yields c (r >>= f) Q :=
  Yields.bind (P := fun _ => True) moves (fun _ _ _ => trivial)
    fun a n least below ran _ => second a n least below ran

theorem Yields.peek {k : Option Token → Reader α} (next : Yields c (k c.peek?) P) :
    Yields c (peek? >>= k) P := next

theorem Yields.unexpected (what : Expected) : Yields c (unexpected what : Reader α) P := by
  rintro a c' ⟨⟩

end Reader

namespace Expr

open Reader

variable {source : List Char} {fuel : Nat} {c : Cursor}

/-! ### Closures in expressions -/

theorem kept_lit (value : Literal) : Kept (.lit value) := nofun

theorem kept_ident (name : String) : Kept (.ident name) := nofun

theorem kept_self : Kept .self := nofun

theorem kept_path (segments : List String) : Kept (.path segments) := nofun

theorem Kept.field {base : Expr} (kept : Kept base) (name : String) (optional : Bool) :
    Kept (.field base name optional) := by
  intro params body text occurs
  cases occurs with
  | field _ _ inside => exact kept params body text inside

theorem Kept.method {receiver : Expr} {args : List Expr} (kept : Kept receiver)
    (kept_args : ∀ arg ∈ args, Kept arg) (name : String) (optional : Bool) :
    Kept (.method receiver name args optional) := by
  intro params body text occurs
  cases occurs with
  | receiver _ _ _ inside => exact kept params body text inside
  | methodArg _ _ _ member inside => exact kept_args _ member params body text inside

theorem kept_call {args : List Expr} (kept_args : ∀ arg ∈ args, Kept arg) (callee : List String) :
    Kept (.call callee args) := by
  intro params body text occurs
  cases occurs with
  | callArg _ member inside => exact kept_args _ member params body text inside

theorem Kept.unary {operand : Expr} (kept : Kept operand) (op : UnaryOp) :
    Kept (.unary op operand) := by
  intro params body text occurs
  cases occurs with
  | operand _ inside => exact kept params body text inside

theorem Kept.binary {left right : Expr} (kept : Kept left) (kept' : Kept right) (op : BinaryOp) :
    Kept (.binary op left right) := by
  intro params body text occurs
  cases occurs with
  | left _ _ inside => exact kept params body text inside
  | right _ _ inside => exact kept' params body text inside

theorem kept_list {items : List Expr} (kept_items : ∀ item ∈ items, Kept item) :
    Kept (.list items) := by
  intro params body text occurs
  cases occurs with
  | item member inside => exact kept_items _ member params body text inside

theorem kept_record {fields : List (String × Expr)} (kept_fields : ∀ field ∈ fields, Kept field.2)
    (path : List String) : Kept (.record path fields) := by
  intro params body text occurs
  cases occurs with
  | value _ member inside => exact kept_fields _ member params body text inside

theorem Kept.closure {params : List String} {body : Expr} {text : String} (kept : Kept body)
    (alone : parse text = .ok (.closure params body text)) : Kept (.closure params body text) := by
  intro params' body' text' occurs
  cases occurs with
  | here => exact alone
  | body _ _ inside => exact kept params' body' text' inside

/-! ### Texts of closures -/

/-- A closure is what its text is read as. -/
theorem parse_of_closureOf {params : List String} {body : Expr} {text : String} {c' : Cursor}
    (inside : c.Inside source) (enough : Fuelled 1 fuel c)
    (ran : closureOf source fuel c = .ok (.closure params body text, c')) :
    parse text = .ok (.closure params body text) := by
  obtain ⟨n, some_token, below, rfl⟩ := (movesWith source fuel).closureOf c _ _ ran
  obtain ⟨spans, split, length, agree⟩ := inside.exists_agree some_token below
  obtain ⟨left, rfl⟩ := enough.ne_zero
  obtain ⟨_, _, -, same⟩ := closureOf_eq_ok.mp ran
  obtain ⟨-, -, rfl⟩ := Expr.closure.inj same
  generalize Text.slice source c.offset (c.skip n).lastStop = text at *
  obtain rfl := length
  -- Alone, the closure is the only operand, and no operator stands behind it.
  refine parse_eq_ok.mpr ⟨spans, by rw [tokenize, String.toList_ofList, split.tokensFrom], ?_⟩
  rw [String.toList_ofList]
  generalize (String.ofList text).utf8ByteSize = size
  have ended : (Cursor.skip spans.length ⟨spans, 0, size⟩).peek? = none := by
    rw [Cursor.peek?_skip, List.getElem?_eq_none (Nat.le_refl _), Option.map_none]
  have fuelled : Fuelled 1 (8 * spans.length + 6) ⟨spans, 0, size⟩ :=
    Nat.add_le_add_left (by decide) _
  have closure := (echoesWith source text (left + 1)).closureOf enough fuelled _ _ below ran
    (agree size) (.inr ⟨by simp [Quiet, ended], by rw [ended]; rfl⟩)
  refine bind_eq_ok.mpr ⟨_, _, operand_of_closureOf closure, bind_eq_ok.mpr ⟨_, _, rfl, ?_⟩⟩
  rw [ended]
  rfl

/-- With so much fuel the closures of all that is read keep their texts. -/
structure KeepsWith (source : List Char) (fuel : Nat) : Prop where
  operators : ∀ {c least}, c.Inside source → Fuelled 3 fuel c →
    Yields c (operators source fuel least) Kept
  moreOperators : ∀ {c least e}, c.Inside source → Fuelled 1 fuel c → Kept e →
    Yields c (moreOperators source fuel least e) Kept
  operand : ∀ {c}, c.Inside source → Fuelled 2 fuel c → Yields c (operand source fuel) Kept
  closureOf : ∀ {c}, c.Inside source → Fuelled 1 fuel c → Yields c (closureOf source fuel) Kept
  moreFields : ∀ {c e}, c.Inside source → Fuelled 1 fuel c → Kept e →
    Yields c (moreFields source fuel e) Kept
  items : ∀ {c close}, c.Inside source → Fuelled 4 fuel c →
    Yields c (items source fuel close) fun es => ∀ e ∈ es, Kept e
  atom : ∀ {c}, c.Inside source → Fuelled 1 fuel c → Yields c (atom source fuel) Kept
  named : ∀ {c word}, c.Inside source → Fuelled 1 fuel c →
    Yields c (named source fuel word) Kept
  fields : ∀ {c}, c.Inside source → Fuelled 1 fuel c →
    Yields c (fields source fuel) fun fields => ∀ field ∈ fields, Kept field.2

namespace KeepsWith

theorem zero : KeepsWith source 0 := by
  have no {more : Nat} {c : Cursor} : ¬ Fuelled (more + 1) 0 c := fun enough =>
    nomatch enough.ne_zero
  constructor <;> exact fun _ enough => absurd enough no

private theorem operators_succ (keeps : KeepsWith source fuel) {least : Nat}
    (inside : c.Inside source) (enough : Fuelled 3 (fuel + 1) c) :
    Yields c (Expr.operators source (fuel + 1) least) Kept := by
  refine Yields.bind ((movesWith source fuel).operand c) (keeps.operand inside enough.down) ?_
  intro e n some_token below _ kept
  exact keeps.moreOperators (inside.skip n) ((enough.skip some_token below).mono (by decide)) kept

private theorem moreOperators_succ (keeps : KeepsWith source fuel) {least : Nat} {e : Expr}
    (inside : c.Inside source) (enough : Fuelled 1 (fuel + 1) c) (kept : Kept e) :
    Yields c (Expr.moreOperators source (fuel + 1) least e) Kept := by
  refine Yields.peek ?_
  split
  · exact Yields.pure kept
  · rename_i op stands
    split
    · exact Yields.pure kept
    · obtain ⟨t, front, -⟩ := Option.bind_eq_some_iff.mp stands
      refine Yields.after (movesAt_advance? front) fun _ n some_token below _ => ?_
      have enough := enough.skip some_token below
      refine Yields.bind ((movesWith source fuel).operators _ _)
        (keeps.operators (inside.skip n) (enough.mono (by decide))) fun right m _ _ _ kept' => ?_
      exact keeps.moreOperators ((inside.skip n).skip m) (enough.behind (by decide))
        (kept.binary kept' op)

private theorem operand_succ (keeps : KeepsWith source fuel) (inside : c.Inside source)
    (enough : Fuelled 2 (fuel + 1) c) : Yields c (Expr.operand source (fuel + 1)) Kept := by
  have moves := movesWith source fuel
  have signed (op : UnaryOp) {t : Token} (front : c.peek? = some t) : Yields c (do
      let _ ← advance?
      return Expr.unary op (← Expr.operators source fuel UnaryOp.strength)) Kept := by
    refine Yields.after (movesAt_advance? front) fun _ n some_token below _ => ?_
    exact Yields.bind (moves.operators _ _) (keeps.operators (inside.skip n)
      ((enough.skip some_token below).mono (by decide))) fun e _ _ _ _ kept =>
        Yields.pure (kept.unary op)
  refine Yields.peek ?_
  split
  · exact signed .not ‹_›
  · exact signed .neg ‹_›
  · exact keeps.closureOf inside enough.down
  · exact keeps.closureOf inside enough.down
  · refine Yields.bind (moves.atom c) (keeps.atom inside enough.down) ?_
    intro e n some_token below _ kept
    exact keeps.moreFields (inside.skip n) ((enough.skip some_token below).mono (by decide)) kept

private theorem closureOf_succ (keeps : KeepsWith source fuel) (inside : c.Inside source)
    (enough : Fuelled 1 (fuel + 1) c) : Yields c (Expr.closureOf source (fuel + 1)) Kept := by
  intro e c' ran
  obtain ⟨params, body, parts, rfl⟩ := closureOf_eq_ok.mp ran
  have kept : Yields c (closureParts source fuel) fun parts => Kept parts.2 := by
    refine Yields.after (moves_closureHead c) fun params n some_token below _ => ?_
    exact Yields.bind ((movesWith source fuel).operators 0 _) (keeps.operators (inside.skip n)
      ((enough.skip some_token below).mono (by decide))) fun body _ _ _ _ kept => Yields.pure kept
  exact (kept _ _ parts).closure (parse_of_closureOf inside enough ran)

private theorem called (keeps : KeepsWith source fuel) {e : Expr} {name : String}
    {optional : Bool} (inside : c.Inside source) (enough : Fuelled 8 fuel c) (kept : Kept e) :
    Yields c (Expr.called source fuel e name optional) Kept := by
  refine Yields.after (moves_eat .lparen c) fun call n _ _ _ => ?_
  have inside := inside.skip n
  cases call with
  | true =>
    refine Yields.bind ((movesWith source fuel).items _ _)
      (keeps.items inside (enough.behind (by decide))) fun args m _ _ _ kept_args => ?_
    exact keeps.moreFields (inside.skip m) ((enough.behind (Nat.le_refl 8)).behind (by decide))
      (kept.method kept_args name optional)
  | false => exact keeps.moreFields inside (enough.behind (by decide)) (kept.field name optional)

private theorem moreFields_succ (keeps : KeepsWith source fuel) {e : Expr}
    (inside : c.Inside source) (enough : Fuelled 1 (fuel + 1) c) (kept : Kept e) :
    Yields c (Expr.moreFields source (fuel + 1) e) Kept := by
  rw [moreFields_succ_eq]
  refine Yields.peek ?_
  split
  · exact Yields.pure kept
  · rename_i optional stands
    obtain ⟨t, front⟩ := exists_of_dot? stands
    refine Yields.after (movesAt_advance? front) fun _ n some_token below _ => ?_
    refine Yields.after (moves_expectIdent _) fun name m _ _ _ => ?_
    exact keeps.called ((inside.skip n).skip m)
      ((enough.skip some_token below).behind (Nat.le_refl 8)) kept

private theorem items_succ (keeps : KeepsWith source fuel) {close : Punct}
    (inside : c.Inside source) (enough : Fuelled 4 (fuel + 1) c) :
    Yields c (Expr.items source (fuel + 1) close) fun es => ∀ e ∈ es, Kept e := by
  have moves := movesWith source fuel
  refine Yields.after (moves_eat close c) fun closed n _ _ _ => ?_
  have inside := inside.skip n
  have enough : Fuelled 4 (fuel + 1) (c.skip n) := enough.behind (Nat.le_refl 4)
  cases closed with
  | true => exact Yields.pure nofun
  | false =>
    refine Yields.bind (moves.operators 0 _) (keeps.operators inside enough.down) ?_
    intro e m some_token below _ kept
    have inside := inside.skip m
    refine Yields.after (moves_eat .comma _) fun more k _ _ _ => ?_
    cases more with
    | true =>
      refine Yields.bind (moves.items close _) (keeps.items (inside.skip k)
        ((enough.skip some_token below).behind (by decide))) fun rest _ _ _ _ kept_rest => ?_
      exact Yields.pure (List.forall_mem_cons.mpr ⟨kept, kept_rest⟩)
    | false =>
      refine Yields.after (moves_expect close _) fun _ _ _ _ _ => ?_
      exact Yields.pure (by simpa using kept)

private theorem atom_succ (keeps : KeepsWith source fuel) (inside : c.Inside source)
    (enough : Fuelled 1 (fuel + 1) c) : Yields c (Expr.atom source (fuel + 1)) Kept := by
  have moves := movesWith source fuel
  refine Yields.peek ?_
  split
  · exact Yields.after (moves_advance? c) fun _ _ _ _ _ => Yields.pure (kept_lit _)
  · exact Yields.after (moves_advance? c) fun _ _ _ _ _ => Yields.pure (kept_lit _)
  · exact Yields.after (moves_advance? c) fun _ _ _ _ _ => Yields.pure (kept_lit _)
  · refine Yields.after (movesAt_advance? ‹_›) fun _ n some_token below _ => ?_
    refine Yields.bind (moves.operators 0 _) (keeps.operators (inside.skip n)
      ((enough.skip some_token below).mono (by decide))) fun e _ _ _ _ kept => ?_
    exact Yields.after (moves_expect .rparen _) fun _ _ _ _ _ => Yields.pure kept
  · refine Yields.after (movesAt_advance? ‹_›) fun _ n some_token below _ => ?_
    exact Yields.bind (moves.items _ _) (keeps.items (inside.skip n)
      ((enough.skip some_token below).mono (by decide))) fun es _ _ _ _ kept =>
        Yields.pure (kept_list kept)
  · refine Yields.after (movesAt_advance? ‹_›) fun _ n some_token below _ => ?_
    exact keeps.named (inside.skip n) ((enough.skip some_token below).mono (by decide))
  · exact Yields.unexpected _

private theorem uncalled (keeps : KeepsWith source fuel) {word : String} {more : List String}
    (inside : c.Inside source) (enough : Fuelled 1 (fuel + 1) c) :
    Yields c (Expr.uncalled source fuel word more) Kept := by
  refine Yields.after (moves_eat .lbrace c) fun record n _ below ate => ?_
  cases record with
  | true =>
    obtain rfl := moved_of_eat below ate
    exact Yields.bind ((movesWith source fuel).fields _) (keeps.fields (inside.skip 1)
      ((enough.skip (Nat.le_refl 1) below).mono (by decide))) fun fields _ _ _ _ kept =>
        Yields.pure (kept_record kept _)
  | false =>
    rw [if_neg Bool.false_ne_true]
    split
    · exact Yields.pure (kept_ident word)
    · exact Yields.pure (kept_path _)

private theorem named_succ (keeps : KeepsWith source fuel) {word : String}
    (inside : c.Inside source) (enough : Fuelled 1 (fuel + 1) c) :
    Yields c (Expr.named source (fuel + 1) word) Kept := by
  rw [Expr.named]
  split
  · exact Yields.pure (kept_lit _)
  split
  · exact Yields.pure (kept_lit _)
  split
  · exact Yields.pure (kept_lit _)
  split
  · exact Yields.pure kept_self
  refine Yields.after (moves_remaining c) fun count m _ _ _ => ?_
  refine Yields.after (moves_moreSegments count _) fun more k _ _ _ => ?_
  have inside := (inside.skip m).skip k
  have enough : Fuelled 1 (fuel + 1) ((c.skip m).skip k) :=
    (enough.behind (Nat.le_refl 1)).behind (Nat.le_refl 1)
  refine Yields.after (moves_eat .lparen _) fun call n _ below ate => ?_
  cases call with
  | true =>
    obtain rfl := moved_of_eat below ate
    exact Yields.bind ((movesWith source fuel).items _ _) (keeps.items (inside.skip 1)
      ((enough.skip (Nat.le_refl 1) below).mono (by decide))) fun args _ _ _ _ kept =>
        Yields.pure (kept_call kept _)
  | false => exact keeps.uncalled (inside.skip n) (enough.behind (Nat.le_refl 1))

private theorem fields_succ (keeps : KeepsWith source fuel) (inside : c.Inside source)
    (enough : Fuelled 1 (fuel + 1) c) :
    Yields c (Expr.fields source (fuel + 1)) fun fields => ∀ field ∈ fields, Kept field.2 := by
  have moves := movesWith source fuel
  refine Yields.after (moves_eat .rbrace c) fun closed n _ _ _ => ?_
  cases closed with
  | true => exact Yields.pure nofun
  | false =>
    have enough : Fuelled 1 (fuel + 1) (c.skip n) := enough.behind (Nat.le_refl 1)
    refine Yields.after (moves_expectIdent _) fun name m some_token below _ => ?_
    have inside := (inside.skip n).skip m
    have enough := enough.skip some_token below
    have later (k : Nat) (value : Expr) (kept : Kept value) :
        Yields (((c.skip n).skip m).skip k)
          (do
            if ← eat .comma then
              return (name, value) :: (← Expr.fields source fuel)
            else
              expect .rbrace
              return [(name, value)])
          fun fields => ∀ field ∈ fields, Kept field.2 := by
      refine Yields.after (moves_eat .comma _) fun more j _ _ _ => ?_
      cases more with
      | true =>
        refine Yields.bind (moves.fields _) (keeps.fields ((inside.skip k).skip j)
          ((enough.behind (Nat.le_refl 8)).behind (by decide))) fun rest _ _ _ _ kept_rest => ?_
        exact Yields.pure (List.forall_mem_cons.mpr ⟨kept, kept_rest⟩)
      | false =>
        refine Yields.after (moves_expect .rbrace _) fun _ _ _ _ _ => ?_
        exact Yields.pure (by simpa using kept)
    refine Yields.after (moves_eat .colon _) fun given k _ _ _ => ?_
    cases given with
    | true =>
      refine Yields.bind (moves.operators 0 _) (keeps.operators (inside.skip k)
        (enough.behind (by decide))) fun value j _ _ _ kept => ?_
      rw [← Cursor.skip_add]
      exact later (k + j) value kept
    | false => exact later k (.ident name) (kept_ident name)

theorem succ (keeps : KeepsWith source fuel) : KeepsWith source (fuel + 1) where
  operators := keeps.operators_succ
  moreOperators := keeps.moreOperators_succ
  operand := keeps.operand_succ
  closureOf := keeps.closureOf_succ
  moreFields := keeps.moreFields_succ
  items := keeps.items_succ
  atom := keeps.atom_succ
  named := keeps.named_succ
  fields := keeps.fields_succ

end KeepsWith

theorem keepsWith (source : List Char) (fuel : Nat) : KeepsWith source fuel := by
  induction fuel with
  | zero => exact .zero
  | succ fuel ih => exact ih.succ

/-! ### Kept texts -/

/-- The closures in what a text is read as keep their texts. -/
theorem kept_of_parse {source : String} {e : Expr} (parsed : parse source = .ok e) : Kept e := by
  obtain ⟨spans, split, ran⟩ := parse_eq_ok.mp parsed
  have inside : Cursor.Inside source.toList ⟨spans, 0, source.utf8ByteSize⟩ :=
    ⟨[], Lexer.split_of_tokensFrom split⟩
  exact (keepsWith _ _).operators inside (Nat.add_le_add_left (by decide) _) e _ ran

/-- The blanks around a text play no part in what it is read as. -/
theorem parse_trim {source : String} {e : Expr} (parsed : parse source = .ok e) :
    parse (Text.trim source) = .ok e := by
  obtain ⟨spans, split, ran⟩ := parse_eq_ok.mp parsed
  obtain ⟨before, after, text, inner⟩ := (Lexer.split_of_tokensFrom split).trim
  obtain ⟨earlier, inner, same⟩ := inner.shift
  have tokens : (Cursor.mk spans 0 source.utf8ByteSize).rest =
      earlier.map (Lexer.shift (Text.byteLength before)) ++ [] := by rw [List.append_nil, ← same]
  have length : earlier.length = spans.length := by rw [same, List.length_map]
  have agree : Cursor.Agree _ _ earlier.length _ ⟨earlier, 0, (Text.trim source).utf8ByteSize⟩ :=
    @Cursor.agree_of_shift before _ after _ _ _ _ inner tokens
  rw [← text, length] at agree
  have fuelled : Fuelled 3 (8 * spans.length + 8) ⟨spans, 0, source.utf8ByteSize⟩ :=
    Nat.add_le_add_left (by decide) _
  refine parse_of_operators fuelled (Nat.le_refl _) ran ?_ length ?_
  · rw [tokenize, Text.trim, String.toList_ofList, inner.tokensFrom]
  · rwa [Text.trim, String.toList_ofList]

end Expr

/-- What a snippet and the closures in it keep of the text is read as what it was kept for. -/
theorem Snippet.parse_source {source : String} {snippet : Snippet}
    (parsed : Snippet.parse source = .ok snippet) : Expr.parse snippet.source = .ok snippet.expr ∧
      ∀ params body text, Expr.Occurs (.closure params body text) snippet.expr →
        Expr.parse text = .ok (.closure params body text) := by
  rw [Snippet.parse] at parsed
  split at parsed
  · cases parsed
  · rename_i e read
    cases parsed
    exact ⟨Expr.parse_trim read, Expr.kept_of_parse read⟩

/-- The parameters and the text of the inner closure, where a snippet is a closure in a closure. -/
private def innerText? : Except ParseError Snippet → Option (List String × String)
  | .ok ⟨_, .closure _ (.closure params _ text) _⟩ => some (params, text)
  | _ => none

theorem parse_source_nested : ∃ snippet body, Snippet.parse " |a| |b| a + b " = .ok snippet ∧
    Expr.Occurs (.closure ["b"] body "|b| a + b") snippet.expr ∧
      Expr.parse snippet.source = .ok snippet.expr ∧
        Expr.parse "|b| a + b" = .ok (.closure ["b"] body "|b| a + b") := by
  have inner : innerText? (Snippet.parse " |a| |b| a + b ") = some (["b"], "|b| a + b") := by
    decide +kernel
  generalize parsed : Snippet.parse " |a| |b| a + b " = result at inner
  unfold innerText? at inner
  split at inner
  · rename_i source params params' body text text'
    cases inner
    have occurs : Expr.Occurs (.closure ["b"] body "|b| a + b")
        (.closure params (.closure ["b"] body "|b| a + b") text') := .body _ _ (.here _)
    obtain ⟨whole, closures⟩ := Snippet.parse_source parsed
    exact ⟨_, body, rfl, occurs, whole, closures _ _ _ occurs⟩
  · cases inner

end Pipeline
