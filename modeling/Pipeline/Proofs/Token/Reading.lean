import Pipeline.Proofs.Token.Lexing
import Pipeline.Token.Cursor

/-!
# What readers read

Two statements about readers, with a rule for each step: in front of given tokens a reader takes
some of them and comes to a given value, and whatever tokens of a text a reader is given, the value
it comes to satisfies a condition.
-/

set_option autoImplicit false
set_option relaxedAutoImplicit false

namespace Pipeline

namespace Cursor

/-- The tokens still to be read, without their places. -/
def tokens (c : Cursor) : List Token := c.rest.map (·.token)

/-- All tokens still to be read stand in texts. -/
def Legible (c : Cursor) : Prop := ∀ s ∈ c.rest, s.token.Legible

theorem peek?_eq (c : Cursor) : c.peek? = c.tokens.head? := by
  simp [peek?, tokens]

end Cursor

namespace Reader

variable {α β : Type}

/-- A reader takes the given tokens from the front, leaves those behind them, and comes to a value. -/
def Reads (r : Reader α) (front : List Token) (a : α) (back : List Token) : Prop :=
  ∀ c : Cursor, c.tokens = front ++ back → ∃ c', r c = .ok (a, c') ∧ c'.tokens = back

/-- The value that a reader comes to before a cursor into a text satisfies a condition. -/
def GivesAt (c : Cursor) (r : Reader α) (P : α → Prop) : Prop :=
  ∀ a c', c.Legible → r c = .ok (a, c') → P a ∧ c'.Legible

/-- Every value that a reader of a text comes to satisfies a condition. -/
def Gives (r : Reader α) (P : α → Prop) : Prop := ∀ c, GivesAt c r P

/-- Two steps come to a value where the first one does, and the second one after it. -/
theorem bind_eq_ok {r : Reader α} {f : α → Reader β} {c c' : Cursor} {b : β} :
    (r >>= f) c = .ok (b, c') ↔ ∃ a next, r c = .ok (a, next) ∧ f a next = .ok (b, c') := by
  change (r c >>= fun x => f x.1 x.2) = _ ↔ _
  cases r c with
  | error e => simp [Bind.bind, Except.bind]
  | ok x =>
    constructor
    · exact fun ran => ⟨x.1, x.2, rfl, ran⟩
    · rintro ⟨_, _, ⟨⟩, ran⟩
      exact ran

/-! ### Reading given tokens -/

variable {r : Reader α} {f : α → Reader β} {front more back : List Token} {a : α} {b : β}

theorem Reads.pure (a : α) (back : List Token) : Reads (pure a) [] a back :=
  fun c tokens => ⟨c, rfl, tokens⟩

theorem Reads.bind (first : Reads r front a (more ++ back)) (second : Reads (f a) more b back) :
    Reads (r >>= f) (front ++ more) b back := by
  intro c tokens
  obtain ⟨next, ran, left⟩ := first c (by rw [tokens, List.append_assoc])
  obtain ⟨last, ran', left'⟩ := second next left
  exact ⟨last, bind_eq_ok.mpr ⟨a, next, ran, ran'⟩, left'⟩

/-- A last step that takes nothing. -/
theorem Reads.last (first : Reads r front a back) (second : Reads (f a) [] b back) :
    Reads (r >>= f) front b back := by
  have whole : Reads (r >>= f) (front ++ []) b back := Reads.bind first second
  rwa [List.append_nil] at whole

/-- A first step that takes nothing. -/
theorem Reads.look (first : Reads r [] a (front ++ back)) (second : Reads (f a) front b back) :
    Reads (r >>= f) front b back := first.bind second

/-- A first step that takes one token. -/
theorem Reads.next {t : Token} (first : Reads r [t] a (front ++ back))
    (second : Reads (f a) front b back) : Reads (r >>= f) (t :: front) b back :=
  first.bind second

theorem reads_peek? : Reads peek? [] back.head? back := by
  intro c tokens
  refine ⟨c, ?_, tokens⟩
  rw [List.nil_append] at tokens
  rw [← tokens, ← c.peek?_eq]
  rfl

theorem reads_peekSecond? : Reads peekSecond? [] (back.drop 1).head? back := by
  intro c tokens
  refine ⟨c, ?_, tokens⟩
  rw [List.nil_append] at tokens
  simp [← tokens, peekSecond?, Cursor.tokens]

theorem reads_remaining : Reads remaining [] back.length back := by
  intro c tokens
  refine ⟨c, ?_, tokens⟩
  rw [List.nil_append] at tokens
  simp [← tokens, remaining, Cursor.tokens]

theorem reads_advance? (t : Token) : Reads advance? [t] (some t) back := by
  intro c tokens
  obtain ⟨rest, lastStop, size⟩ := c
  cases rest with
  | nil => simp [Cursor.tokens] at tokens
  | cons s rest =>
    simp only [Cursor.tokens, List.map_cons, List.cons_append, List.nil_append,
      List.cons.injEq] at tokens
    exact ⟨⟨rest, s.stop, size⟩, by rw [← tokens.1]; rfl, tokens.2⟩

theorem reads_eatIf {p : Token → Bool} {t : Token} (taken : p t = true) :
    Reads (eatIf p) [t] true back := by
  intro c tokens
  obtain ⟨rest, lastStop, size⟩ := c
  cases rest with
  | nil => simp [Cursor.tokens] at tokens
  | cons s rest =>
    simp only [Cursor.tokens, List.map_cons, List.cons_append, List.nil_append,
      List.cons.injEq] at tokens
    refine ⟨⟨rest, s.stop, size⟩, ?_, tokens.2⟩
    simp [eatIf, tokens.1, taken]

theorem reads_eatIf_not {p : Token → Bool} (other : ∀ t ∈ back.head?, p t = false) :
    Reads (eatIf p) [] false back := by
  intro c tokens
  refine ⟨c, ?_, tokens⟩
  rw [List.nil_append] at tokens
  subst tokens
  obtain ⟨rest, lastStop, size⟩ := c
  cases rest with
  | nil => rfl
  | cons s rest =>
    have refused : p s.token = false := other s.token (by simp [Cursor.tokens])
    simp [eatIf, refused]

theorem reads_eat (p : Punct) : Reads (eat p) [.punct p] true back :=
  reads_eatIf (by simp [Token.isPunct])

theorem reads_eat_not {p : Punct} (other : ∀ t ∈ back.head?, t.isPunct p = false) :
    Reads (eat p) [] false back := reads_eatIf_not other

theorem reads_eatWord (word : String) : Reads (eatWord word) [.ident word] true back :=
  reads_eatIf (by simp [Token.isWord])

theorem reads_eatWord_not {word : String} (other : ∀ t ∈ back.head?, t.isWord word = false) :
    Reads (eatWord word) [] false back := reads_eatIf_not other

theorem reads_expect (p : Punct) : Reads (expect p) [.punct p] () back :=
  (reads_eat p).bind (Reads.pure () back)

theorem reads_expectIdent (name : String) : Reads expectIdent [.ident name] name back := by
  intro c tokens
  obtain ⟨rest, lastStop, size⟩ := c
  cases rest with
  | nil => simp [Cursor.tokens] at tokens
  | cons s rest =>
    obtain ⟨token, start, stop⟩ := s
    simp only [Cursor.tokens, List.map_cons, List.cons_append, List.nil_append,
      List.cons.injEq] at tokens
    obtain ⟨rfl, left⟩ := tokens
    exact ⟨_, rfl, left⟩

theorem reads_moreSegments {segments : List String} {fuel : Nat} (enough : segments.length ≤ fuel)
    (ends : ∀ t ∈ back.head?, t.isPunct .pathSep = false) :
    Reads (moreSegments fuel) (Token.ofSegments segments) segments back := by
  induction segments generalizing fuel with
  | nil =>
    cases fuel with
    | zero => exact Reads.pure [] back
    | succ fuel =>
      refine Reads.look (reads_eat_not ends) ?_
      exact Reads.pure [] back
  | cons name rest ih =>
    cases fuel with
    | zero => simp at enough
    | succ fuel =>
      have later : Reads (do return name :: (← moreSegments fuel)) (Token.ofSegments rest)
          (name :: rest) back :=
        (ih (by simpa using enough)).last (Reads.pure (name :: rest) back)
      exact (reads_eat .pathSep).next ((reads_expectIdent name).next later)

/-! ### What is read -/

variable {P : α → Prop} {Q : β → Prop} {c : Cursor}

theorem GivesAt.pure (here : P a) : GivesAt c (pure a) P := by
  rintro a' c' legible ran
  cases ran
  exact ⟨here, legible⟩

theorem GivesAt.bind (first : GivesAt c r P) (second : ∀ a c', P a → r c = .ok (a, c') →
    GivesAt c' (f a) Q) : GivesAt c (r >>= f) Q := by
  intro b c'' legible ran
  obtain ⟨a, c', ran, ran'⟩ := bind_eq_ok.mp ran
  obtain ⟨here, legible'⟩ := first a c' legible ran
  exact second a c' here ran b c'' legible' ran'

theorem Gives.pure (here : P a) : Gives (pure a) P := fun _ => GivesAt.pure here

theorem Gives.bind (first : Gives r P) (second : ∀ a, P a → Gives (f a) Q) : Gives (r >>= f) Q :=
  fun c => (first c).bind fun a c' here _ => second a here c'

theorem Gives.map {g : α → β} (first : Gives r P) (next : ∀ a, P a → Q (g a)) :
    Gives (g <$> r) Q :=
  map_eq_pure_bind g r ▸ first.bind fun a here => Gives.pure (next a here)

theorem GivesAt.mono {P' : α → Prop} (gives : GivesAt c r P) (weaker : ∀ a, P a → P' a) :
    GivesAt c r P' := fun a c' legible ran =>
  (gives a c' legible ran).imp_left (weaker a)

theorem gives_unexpected {what : Expected} : Gives (unexpected what : Reader α) P := by
  rintro c a c' - ⟨⟩

theorem gives_peek? : Gives peek? fun front => ∀ t ∈ front, t.Legible := by
  rintro c t c' legible ⟨⟩
  refine ⟨fun t front => ?_, legible⟩
  obtain ⟨s, first, rfl⟩ := Option.map_eq_some_iff.mp front
  exact legible s (List.mem_of_mem_head? first)

theorem gives_peekSecond? : Gives peekSecond? fun _ => True := by
  rintro c t c' legible ⟨⟩
  exact ⟨trivial, legible⟩

theorem gives_remaining : Gives remaining fun _ => True := by
  rintro c n c' legible ⟨⟩
  exact ⟨trivial, legible⟩

theorem gives_eatIf {p : Token → Bool} : Gives (eatIf p) fun _ => True := by
  rintro ⟨rest, lastStop, size⟩ taken c' legible ran
  refine ⟨trivial, ?_⟩
  cases rest with
  | nil =>
    cases ran
    exact legible
  | cons s rest =>
    simp only [eatIf] at ran
    split at ran <;> cases ran
    · exact (List.forall_mem_cons.mp legible).2
    · exact legible

theorem gives_eat {p : Punct} : Gives (eat p) fun _ => True := gives_eatIf

theorem gives_eatWord {word : String} : Gives (eatWord word) fun _ => True := gives_eatIf

theorem gives_expect {p : Punct} : Gives (expect p) fun _ => True := by
  refine gives_eat.bind fun taken _ => ?_
  cases taken with
  | true => exact Gives.pure trivial
  | false => exact gives_unexpected

theorem gives_expectIdent : Gives expectIdent IsIdent := by
  rintro ⟨rest, lastStop, size⟩ name c' legible ran
  simp only [expectIdent] at ran
  split at ran
  · rename_i word start stop rest
    cases ran
    exact List.forall_mem_cons.mp legible
  · cases ran

theorem gives_advance? : Gives advance? fun _ => True := by
  rintro ⟨rest, lastStop, size⟩ t c' legible ran
  cases rest with
  | nil =>
    cases ran
    exact ⟨trivial, legible⟩
  | cons s rest =>
    cases ran
    exact ⟨trivial, (List.forall_mem_cons.mp legible).2⟩

/-- The identifier taken is the one at the front. -/
theorem givesAt_expectIdent {word : String} (front : c.peek? = some (.ident word)) :
    GivesAt c expectIdent fun name => name = word ∧ IsIdent name := by
  intro name c' legible ran
  refine ⟨⟨?_, (gives_expectIdent c name c' legible ran).1⟩,
    (gives_expectIdent c name c' legible ran).2⟩
  simp only [expectIdent] at ran
  split at ran
  · rename_i shape
    cases ran
    simp only [Cursor.peek?, shape] at front
    cases front
    rfl
  · cases ran

theorem gives_moreSegments (fuel : Nat) :
    Gives (moreSegments fuel) fun segments => ∀ name ∈ segments, IsIdent name := by
  induction fuel with
  | zero => exact Gives.pure (by simp)
  | succ fuel ih =>
    refine gives_eat.bind fun taken _ => ?_
    cases taken with
    | false => exact Gives.pure (by simp)
    | true =>
      refine gives_expectIdent.bind fun name ident => ih.bind fun rest idents => ?_
      exact Gives.pure (List.forall_mem_cons.mpr ⟨ident, idents⟩)

/-! ### Whole texts -/

theorem reads_expectEnd : Reads expectEnd [] () [] := by
  intro c tokens
  refine ⟨c, ?_, tokens⟩
  obtain ⟨rest, lastStop, size⟩ := c
  obtain rfl : rest = [] := by simpa [Cursor.tokens] using tokens
  rfl

/-- A whole text is read token by token to its end. -/
theorem runOn_eq_ok {source : String} : r.runOn source = .ok a ↔
    ∃ spans c', tokenize source = .ok spans ∧
      (do let a ← r; expectEnd; pure a : Reader α) ⟨spans, 0, source.utf8ByteSize⟩ =
        .ok (a, c') := by
  unfold runOn Cursor.ofSource
  cases tokenize source with
  | error e => simp [Bind.bind, Except.bind]
  | ok spans =>
    change ((do let a ← r; expectEnd; pure a : Reader α) ⟨spans, 0, source.utf8ByteSize⟩ >>=
      fun x => Pure.pure x.1) = _ ↔ _
    generalize ended : (do let a ← r; expectEnd; pure a : Reader α)
      ⟨spans, 0, source.utf8ByteSize⟩ = result
    constructor
    · intro ran
      cases result with
      | error e => cases ran
      | ok x =>
        cases ran
        exact ⟨spans, x.2, rfl, ended⟩
    · rintro ⟨_, c', ⟨⟩, ran⟩
      rw [ended] at ran
      rw [ran]
      rfl

/-- A text is read as the value that its tokens are read as. -/
theorem runOn_of_reads {source : String} {ts : List Token} (split : Lexer.Lexes source.toList ts)
    (reads : Reads r ts a []) : r.runOn source = .ok a := by
  obtain ⟨spans, tokenized, tokens⟩ := split 0
  have whole : Reads (do let a ← r; expectEnd; pure a : Reader α) ts a [] :=
    reads.last (reads_expectEnd.last (Reads.pure a []))
  obtain ⟨c', ran, -⟩ := whole ⟨spans, 0, source.utf8ByteSize⟩
    (by simpa [Cursor.tokens] using tokens)
  exact runOn_eq_ok.mpr ⟨spans, c', tokenized, ran⟩

/-- The value that a text is read as is one that a reader of texts gives. -/
theorem Gives.of_runOn {source : String} (gives : Gives r P) (ran : r.runOn source = .ok a) :
    P a := by
  obtain ⟨spans, c', tokenized, ran⟩ := runOn_eq_ok.mp ran
  obtain ⟨b, next, ran, ended⟩ := bind_eq_ok.mp ran
  obtain ⟨_, _, -, same⟩ := bind_eq_ok.mp ended
  cases same
  have legible : Cursor.Legible ⟨spans, 0, source.utf8ByteSize⟩ :=
    Lexer.tokensFrom_legible tokenized
  exact (gives _ _ next legible ran).1

end Reader
end Pipeline
