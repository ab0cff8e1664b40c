import Pipeline.Token.Lexer

/-!
# Texts that split into given tokens

A text that is put together from the spellings of tokens splits into these tokens, as long as no
token could go on in what follows it. Offsets play no part in this.
-/

set_option autoImplicit false
set_option relaxedAutoImplicit false

namespace Pipeline

theorem Text.digitsValue_natChars (n : Nat) : digitsValue (natChars n) = n :=
  Nat.ofDigitChars_toDigits (by decide) (by decide)

theorem Text.toList_intText (n : Nat) : (intText n).toList = natChars n := by
  have positive : ¬ (n : Int) < 0 := by omega
  simp [intText, natText, positive]

/-- The words that are identifiers. -/
def IsIdent (name : String) : Prop :=
  ∃ c cs, name.toList = c :: cs ∧ Lexer.isIdentStart c = true ∧
    ∀ d ∈ cs, Lexer.isIdentChar d = true

theorem IsIdent.of_chars {name : String} (c : Char) (cs : List Char) (spelled : name.toList = c :: cs)
    (start : Lexer.isIdentStart c = true) (more : cs.all Lexer.isIdentChar = true) : IsIdent name :=
  ⟨c, cs, spelled, start, List.all_eq_true.mp more⟩

/-- Tokens that stand in texts: identifiers are words, and integers are in range. -/
def Token.Legible : Token → Prop
  | ident name => IsIdent name
  | int n => ∃ k : Nat, n = k ∧ k ≤ Lexer.maxInt
  | _ => True

/-- The tokens of the segments behind the first one of a path. -/
def Token.ofSegments (names : List String) : List Token :=
  names.flatMap fun name => [.punct .pathSep, .ident name]

namespace Lexer

/-- Characters that split into tokens, wherever they stand. -/
def Lexes (cs : List Char) (ts : List Token) : Prop :=
  ∀ offset, ∃ spans, tokensFrom offset 0 cs = .ok spans ∧ spans.map (·.token) = ts

/-- The next character, if there is one, does not satisfy a condition. -/
def Stops (p : Char → Bool) (cs : List Char) : Prop := ∀ c ∈ cs.head?, p c = false

theorem countWhile_append {p : Char → Bool} {word rest : List Char}
    (inside : ∀ c ∈ word, p c = true) (stops : Stops p rest) :
    countWhile p (word ++ rest) = word.length := by
  induction word with
  | nil =>
    cases rest with
    | nil => rfl
    | cons c cs => simp [countWhile, stops c rfl]
  | cons c cs ih =>
    rw [List.forall_mem_cons] at inside
    simp [countWhile, inside.1, ih inside.2]

private theorem tokensFrom_skip {cs : List Char} {k : Nat} (offset : Nat) (inside : k ≤ cs.length) :
    ∃ offset', tokensFrom offset k cs = tokensFrom offset' 0 (cs.drop k) := by
  induction cs generalizing k offset with
  | nil =>
    obtain rfl : k = 0 := by simpa using inside
    exact ⟨offset, rfl⟩
  | cons c cs ih =>
    cases k with
    | zero => exact ⟨offset, rfl⟩
    | succ k => exact ih (offset + c.utf8Size) (by simpa using inside)

theorem Lexes.nil : Lexes [] [] := fun _ => ⟨[], rfl, rfl⟩

theorem Lexes.space {cs : List Char} {ts : List Token} (later : Lexes cs ts) :
    Lexes (' ' :: cs) ts := fun offset => later (offset + 1)

/-- A token at the front, and tokens behind it. -/
theorem Lexes.lexeme {c : Char} {cs : List Char} (width : Nat) {t : Token} {ts : List Token}
    (dark : isSpace c = false) (found : Lexer.lexeme c cs = ⟨width, some t⟩)
    (inside : width ≤ cs.length) (later : Lexes (cs.drop width) ts) :
    Lexes (c :: cs) (t :: ts) := by
  intro offset
  obtain ⟨offset', skipped⟩ := tokensFrom_skip (offset + c.utf8Size) inside
  obtain ⟨spans, split, tokens⟩ := later offset'
  have whole := skipped.trans split
  refine ⟨⟨t, offset, offset + Text.byteLength (c :: cs.take width)⟩ :: spans, ?_, ?_⟩
  · simp [tokensFrom, dark, found, whole]
  · simp [tokens]

theorem isDigit_of_isIdentStart {c : Char} (start : isIdentStart c = true) :
    Text.isDigit c = false := by
  simp only [isIdentStart, Bool.or_eq_true, Bool.and_eq_true, decide_eq_true_eq] at start
  rcases start with between | rfl
  · simp [Text.isDigit, Char.le_def, UInt32.le_iff_toNat_le] at between ⊢
    omega
  · decide

private theorem isSpace_of_isIdentChar {c : Char} (inside : isIdentChar c = true) :
    isSpace c = false := by
  cases space : isSpace c with
  | false => rfl
  | true =>
    simp only [isSpace, Bool.or_eq_true, decide_eq_true_eq] at space
    rcases space with ((rfl | rfl) | rfl) | rfl <;> exact absurd inside (by decide)

/-- An identifier behind which no identifier goes on. -/
theorem Lexes.ident {name : String} {cs : List Char} {ts : List Token} (ident : IsIdent name)
    (stops : Stops isIdentChar cs) (later : Lexes cs ts) :
    Lexes (name.toList ++ cs) (.ident name :: ts) := by
  obtain ⟨c, word, spelled, start, more⟩ := ident
  have width : countWhile isIdentChar (word ++ cs) = word.length := countWhile_append more stops
  have dark : isSpace c = false := isSpace_of_isIdentChar (by simp [isIdentChar, start])
  have same : String.ofList (c :: word) = name := by rw [← spelled, String.ofList_toList]
  rw [spelled, List.cons_append]
  refine Lexes.lexeme word.length dark ?_ (by simp) (by simpa using later)
  simp [Lexer.lexeme, isDigit_of_isIdentStart start, start, width, same]

/-- What can follow a number: no digit, and no point that would make it a fraction. -/
def endsNumber (c : Char) : Bool := !isNumberChar c && c != '.'

/-- A number in decimal behind which no number goes on. -/
theorem Lexes.int {n : Nat} {cs : List Char} {ts : List Token} (small : n ≤ maxInt)
    (stops : Stops (fun c => !endsNumber c) cs) (later : Lexes cs ts) :
    Lexes (Text.natChars n ++ cs) (.int n :: ts) := by
  have digits : ∀ c ∈ Text.natChars n, Text.isDigit c = true := by
    intro c member
    have digit : c.isDigit = true := Nat.isDigit_of_mem_toDigits (by decide) (by decide) member
    simpa [Char.isDigit, Text.isDigit, Char.le_def] using digit
  have value := Text.digitsValue_natChars n
  cases spelled : Text.natChars n with
  | nil => exact absurd spelled Nat.toDigits_ne_nil
  | cons c word =>
    rw [spelled] at digits value
    rw [List.forall_mem_cons] at digits
    have numeric : ∀ d ∈ word, isNumberChar d = true := fun d member => by
      simp [isNumberChar, digits.2 d member]
    have ends : Stops isNumberChar cs := fun d here => by
      have := stops d here
      simp [endsNumber] at this
      simp [this]
    have width : countWhile isNumberChar (word ++ cs) = word.length :=
      countWhile_append numeric ends
    have dark : isSpace c = false :=
      isSpace_of_isIdentChar (by simp [isIdentChar, digits.1])
    have whole : (c :: word).filter Text.isDigit = c :: word :=
      List.filter_eq_self.mpr (List.forall_mem_cons.mpr digits)
    have token : intToken? (c :: word) = some (.int n) := by simp [intToken?, value, small]
    rw [List.cons_append]
    refine Lexes.lexeme word.length dark ?_ (by simp) (by simpa using later)
    have integer : Lexer.number c (word ++ cs) = ⟨word.length, some (.int n)⟩ := by
      unfold Lexer.number
      simp only [width, List.drop_left, List.take_left, whole]
      split
      · have point := stops '.' rfl
        cases point
      · rw [token]
    simp [Lexer.lexeme, digits.1, integer]

/-! ### Punctuation marks -/

theorem Lexes.comma {cs : List Char} {ts : List Token} (later : Lexes cs ts) :
    Lexes (',' :: cs) (.punct .comma :: ts) :=
  Lexes.lexeme 0 rfl rfl (Nat.zero_le _) later

theorem Lexes.lparen {cs : List Char} {ts : List Token} (later : Lexes cs ts) :
    Lexes ('(' :: cs) (.punct .lparen :: ts) :=
  Lexes.lexeme 0 rfl rfl (Nat.zero_le _) later

theorem Lexes.rparen {cs : List Char} {ts : List Token} (later : Lexes cs ts) :
    Lexes (')' :: cs) (.punct .rparen :: ts) :=
  Lexes.lexeme 0 rfl rfl (Nat.zero_le _) later

theorem Lexes.pathSep {cs : List Char} {ts : List Token} (later : Lexes cs ts) :
    Lexes (':' :: ':' :: cs) (.punct .pathSep :: ts) :=
  Lexes.lexeme 1 rfl rfl (by simp) later

theorem Lexes.arrow {cs : List Char} {ts : List Token} (later : Lexes cs ts) :
    Lexes ('-' :: '>' :: cs) (.punct .arrow :: ts) :=
  Lexes.lexeme 1 rfl rfl (by simp) later

/-- Marks of one character that another character makes longer ones. -/
private def extensible : List (Char × Punct × Char) :=
  [('<', .lt, '='), ('>', .gt, '='), ('=', .eq, '='), (':', .colon, ':'), ('-', .minus, '>'),
    ('!', .bang, '=')]

private theorem mark_extensible {c d : Char} {p : Punct} {cs : List Char}
    (listed : (c, p, d) ∈ extensible) (stops : Stops (· == d) cs) :
    Lexer.mark c cs = ⟨0, some (.punct p)⟩ := by
  simp only [extensible, List.mem_cons, Prod.mk.injEq, List.not_mem_nil, or_false] at listed
  obtain ⟨rfl, rfl, rfl⟩ | ⟨rfl, rfl, rfl⟩ | ⟨rfl, rfl, rfl⟩ | ⟨rfl, rfl, rfl⟩ | ⟨rfl, rfl, rfl⟩ |
    ⟨rfl, rfl, rfl⟩ := listed
  all_goals
    rw [Lexer.mark]
    rintro tail rfl
    cases stops _ rfl

/-- A mark of one character, in front of a character with which it is no longer mark. -/
private theorem Lexes.mark {c d : Char} {p : Punct} {cs : List Char} {ts : List Token}
    (listed : (c, p, d) ∈ extensible) (dark : isSpace c = false)
    (direct : Lexer.lexeme c cs = Lexer.mark c cs) (stops : Stops (· == d) cs)
    (later : Lexes cs ts) : Lexes (c :: cs) (.punct p :: ts) :=
  Lexes.lexeme 0 dark (direct.trans (mark_extensible listed stops)) (Nat.zero_le _) later

theorem Lexes.lt {cs : List Char} {ts : List Token} (stops : Stops (· == '=') cs)
    (later : Lexes cs ts) : Lexes ('<' :: cs) (.punct .lt :: ts) :=
  Lexes.mark (by simp [extensible]) rfl rfl stops later

theorem Lexes.gt {cs : List Char} {ts : List Token} (stops : Stops (· == '=') cs)
    (later : Lexes cs ts) : Lexes ('>' :: cs) (.punct .gt :: ts) :=
  Lexes.mark (by simp [extensible]) rfl rfl stops later

theorem Lexes.eq {cs : List Char} {ts : List Token} (stops : Stops (· == '=') cs)
    (later : Lexes cs ts) : Lexes ('=' :: cs) (.punct .eq :: ts) :=
  Lexes.mark (by simp [extensible]) rfl rfl stops later

theorem Lexes.colon {cs : List Char} {ts : List Token} (stops : Stops (· == ':') cs)
    (later : Lexes cs ts) : Lexes (':' :: cs) (.punct .colon :: ts) :=
  Lexes.mark (by simp [extensible]) rfl rfl stops later

theorem Lexes.minus {cs : List Char} {ts : List Token} (stops : Stops (· == '>') cs)
    (later : Lexes cs ts) : Lexes ('-' :: cs) (.punct .minus :: ts) :=
  Lexes.mark (by simp [extensible]) rfl rfl stops later

theorem Lexes.bang {cs : List Char} {ts : List Token} (stops : Stops (· == '=') cs)
    (later : Lexes cs ts) : Lexes ('!' :: cs) (.punct .bang :: ts) :=
  Lexes.mark (by simp [extensible]) rfl rfl stops later

/-- No mark goes on in a blank. -/
theorem Lexes.beforeSpace (p : Punct) {cs : List Char} {ts : List Token} (later : Lexes cs ts) :
    Lexes (p.text.toList ++ ' ' :: cs) (.punct p :: ts) := by
  cases p <;> first
    | exact Lexes.lexeme 0 rfl rfl (Nat.zero_le _) later.space
    | exact Lexes.lexeme 1 rfl rfl (Nat.le_add_left _ _) later.space

/-- Segments of a path, each behind a separator, behind which no identifier goes on. -/
theorem Lexes.segments {names : List String} {cs : List Char} {ts : List Token}
    (idents : ∀ name ∈ names, IsIdent name) (stops : Stops isIdentChar cs) (later : Lexes cs ts) :
    Lexes (names.flatMap (fun name => ':' :: ':' :: name.toList) ++ cs)
      (Token.ofSegments names ++ ts) := by
  induction names with
  | nil => exact later
  | cons name rest ih =>
    rw [List.forall_mem_cons] at idents
    have next : Stops isIdentChar
        (rest.flatMap (fun name => ':' :: ':' :: name.toList) ++ cs) := by
      cases rest with
      | nil => exact stops
      | cons name rest =>
        rintro c ⟨⟩
        rfl
    have whole := Lexes.pathSep ((Lexes.ident idents.1 next (ih idents.2)))
    simpa [Token.ofSegments] using whole

/-! ### Tokens that come from a text -/

private theorem string_legible {width : Nat} {read : Option (List Char)} {cs : List Char} :
    ∀ t ∈ (string width read cs).token, t.Legible := by
  fun_induction string width read cs with
  | case1 | case2 | case3 => nofun
  | case4 width read e rest notNewline ih => exact ih
  | case5 width read tail =>
    intro t written
    obtain ⟨cs, -, rfl⟩ := Option.map_eq_some_iff.mp written
    trivial
  | case6 width read c rest _ _ _ ih => exact ih

private theorem mark_legible {c : Char} {cs : List Char} : ∀ t ∈ (mark c cs).token, t.Legible := by
  intro t written
  unfold mark at written
  split at written <;> cases written <;> trivial

private theorem intToken?_legible {digits : List Char} : ∀ t ∈ intToken? digits, t.Legible := by
  intro t written
  simp only [intToken?] at written
  split at written
  · rename_i small
    cases written
    exact ⟨_, rfl, small⟩
  · cases written

private theorem number_legible {c : Char} {cs : List Char} :
    ∀ t ∈ (number c cs).token, t.Legible := by
  unfold number
  dsimp only
  split
  · split
    · rintro t ⟨⟩
      trivial
    · exact intToken?_legible
  · exact intToken?_legible

private theorem isIdentChar_of_mem_take {cs : List Char} :
    ∀ d ∈ cs.take (countWhile isIdentChar cs), isIdentChar d = true := by
  induction cs with
  | nil => simp
  | cons c cs ih =>
    intro d member
    by_cases inside : isIdentChar c = true
    · rw [countWhile, if_pos inside, List.take_succ_cons] at member
      rcases List.mem_cons.mp member with rfl | later
      · exact inside
      · exact ih d later
    · rw [countWhile, if_neg inside] at member
      cases member

private theorem lexeme_legible {c : Char} {cs : List Char} :
    ∀ t ∈ (lexeme c cs).token, t.Legible := by
  unfold lexeme
  split
  · exact number_legible
  · split
    · rename_i start
      rintro t ⟨⟩
      exact ⟨c, _, String.toList_ofList, start, isIdentChar_of_mem_take⟩
    · split
      · exact string_legible
      · exact mark_legible

theorem tokensFrom_legible {offset skip : Nat} {cs : List Char} {spans : List Spanned}
    (split : tokensFrom offset skip cs = .ok spans) : ∀ s ∈ spans, s.token.Legible := by
  induction cs generalizing offset skip spans with
  | nil =>
    cases split
    nofun
  | cons c cs ih =>
    cases skip with
    | succ k => exact ih split
    | zero =>
      simp only [tokensFrom] at split
      split at split
      · exact ih split
      · split at split
        · cases split
        · rename_i t found
          split at split
          · cases split
          · rename_i rest later
            cases split
            rw [List.forall_mem_cons]
            exact ⟨lexeme_legible t found, ih later⟩

end Lexer
end Pipeline
