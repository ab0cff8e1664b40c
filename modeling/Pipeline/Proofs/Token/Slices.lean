import Pipeline.Proofs.Token.Echoes
import Pipeline.Proofs.Token.Lexing

/-!
# Tokens of a stretch of text

The tokens of a text are words with blanks between them, and no word depends on what stands before
it or on how much stands behind it. So the text from the beginning of one token to the end of a later
one splits into these tokens again, and a text without the blanks around it splits into the same ones.
-/

set_option autoImplicit false
set_option relaxedAutoImplicit false

namespace Pipeline

/-! ### Stretches of text -/

namespace Text

@[simp] theorem byteLength_append (xs ys : List Char) :
    byteLength (xs ++ ys) = byteLength xs + byteLength ys := by
  induction xs with
  | nil => exact (Nat.zero_add _).symm
  | cons c xs ih => simp only [List.cons_append, byteLength, ih, Nat.add_assoc]

theorem dropBytes_append (xs ys : List Char) : dropBytes (byteLength xs) (xs ++ ys) = ys := by
  induction xs with
  | nil => cases ys <;> rfl
  | cons c xs ih =>
    have some_byte : byteLength (c :: xs) ≠ 0 := by
      have := c.utf8Size_pos
      simp only [byteLength]
      omega
    rw [List.cons_append, dropBytes, if_neg some_byte, byteLength, Nat.add_sub_cancel_left, ih]

theorem takeBytes_append (xs ys : List Char) : takeBytes (byteLength xs) (xs ++ ys) = xs := by
  induction xs with
  | nil => cases ys <;> rfl
  | cons c xs ih =>
    have some_byte : byteLength (c :: xs) ≠ 0 := by
      have := c.utf8Size_pos
      simp only [byteLength]
      omega
    rw [List.cons_append, takeBytes, if_neg some_byte, byteLength, Nat.add_sub_cancel_left, ih]

theorem slice_append (before text after : List Char) :
    slice (before ++ text ++ after) (byteLength before) (byteLength (before ++ text)) = text := by
  rw [slice, List.append_assoc, dropBytes_append, byteLength_append, Nat.add_sub_cancel_left,
    takeBytes_append]

private theorem dropWhile_eq_self {p : Char → Bool} {xs : List Char}
    (first : ∀ c ∈ xs.head?, p c = false) : xs.dropWhile p = xs := by
  cases xs with
  | nil => rfl
  | cons c xs => exact List.dropWhile_cons_of_neg (by simp [first c rfl])

/-- Trimming takes away the blanks at both ends. -/
theorem trimChars_append {before text after : List Char} (blank : ∀ c ∈ before, isBlank c = true)
    (blank' : ∀ c ∈ after, isBlank c = true) (first : ∀ c ∈ text.head?, isBlank c = false)
    (last : ∀ c ∈ text.getLast?, isBlank c = false) : trimChars (before ++ text ++ after) = text := by
  have behind : (text ++ after).reverse.dropWhile isBlank = text.reverse := by
    rw [List.reverse_append, List.dropWhile_append_of_pos (by simpa using blank'),
      dropWhile_eq_self (by rwa [List.head?_reverse])]
  rw [trimChars, List.append_assoc, List.dropWhile_append_of_pos blank]
  cases text with
  | nil =>
    have all : after.dropWhile isBlank = [] := by
      rw [← List.append_nil after, List.dropWhile_append_of_pos blank']
      rfl
    rw [List.nil_append, all]
    rfl
  | cons c text =>
    have whole : (c :: text ++ after).dropWhile isBlank = c :: text ++ after := dropWhile_eq_self first
    rw [whole, behind, List.reverse_reverse]

end Text

namespace Lexer

open Text (isBlank byteLength)

/-! ### Words -/

/-- A word is a token, whatever part of the rest stands behind it, and there is no blank at its
ends. -/
structure Munches (c : Char) (word rest : List Char) (t : Token) : Prop where
  cut : ∀ after, after <+: rest → lexeme c (word ++ after) = ⟨word.length, some t⟩
  first : isBlank c = false
  last : ∀ d ∈ word.getLast?, isBlank d = false

variable {c : Char} {cs word rest : List Char} {t : Token} {width : Nat}

theorem Munches.mono {after : List Char} (munches : Munches c word rest t) (cut : after <+: rest) :
    Munches c word after t :=
  ⟨fun less shorter => munches.cut less (shorter.trans cut), munches.first, munches.last⟩

private theorem Stops.mono {p : Char → Bool} {after : List Char} (stops : Stops p rest)
    (cut : after <+: rest) : Stops p after := by
  obtain ⟨more, rfl⟩ := cut
  intro d front
  exact stops d (by simp [List.head?_append, Option.mem_def.mp front])

private theorem exists_word (p : Char → Bool) (cs : List Char) :
    ∃ word rest, cs = word ++ rest ∧ (∀ d ∈ word, p d = true) ∧ Stops p rest := by
  induction cs with
  | nil => exact ⟨[], [], rfl, by simp, nofun⟩
  | cons c cs ih =>
    by_cases inside : p c = true
    · obtain ⟨word, rest, rfl, all, stops⟩ := ih
      exact ⟨c :: word, rest, rfl, List.forall_mem_cons.mpr ⟨inside, all⟩, stops⟩
    · refine ⟨[], c :: cs, rfl, by simp, ?_⟩
      rintro d ⟨⟩
      exact Bool.not_eq_true _ ▸ inside

private theorem isBlank_eq_false (low : 33 ≤ c.toNat) (high : c.toNat ≤ 126) : isBlank c = false := by
  simp only [isBlank, Bool.or_eq_false_iff, Bool.and_eq_false_iff, decide_eq_false_iff_not]
  omega

private theorem isBlank_of_isIdentChar (inside : isIdentChar c = true) : isBlank c = false := by
  simp only [isIdentChar, isIdentStart, Text.isDigit, Bool.or_eq_true, Bool.and_eq_true,
    decide_eq_true_eq, Char.le_def, UInt32.le_iff_toNat_le] at inside
  have value : c.val.toNat = c.toNat := rfl
  rcases inside with ((lower | upper) | rfl) | digit
  · exact isBlank_eq_false (Nat.le_trans (by decide) lower.1) (Nat.le_trans lower.2 (by decide))
  · exact isBlank_eq_false (Nat.le_trans (by decide) upper.1) (Nat.le_trans upper.2 (by decide))
  · decide
  · exact isBlank_eq_false (Nat.le_trans (by decide) digit.1) (Nat.le_trans digit.2 (by decide))

/-- What is found at the front is a word of the text. -/
private def Found (c : Char) (cs : List Char) (width : Nat) (t : Token) : Prop :=
  ∃ word rest, cs = word ++ rest ∧ word.length = width ∧ Munches c word rest t

private theorem found_ident (start : isIdentStart c = true)
    (found : lexeme c cs = ⟨width, some t⟩) : Found c cs width t := by
  have run {word rest : List Char} (letters : ∀ d ∈ word, isIdentChar d = true)
      (stops : Stops isIdentChar rest) : lexeme c (word ++ rest) =
        ⟨word.length, some (.ident (String.ofList (c :: word)))⟩ := by
    simp [lexeme, isDigit_of_isIdentStart start, start, countWhile_append letters stops]
  obtain ⟨word, rest, rfl, letters, stops⟩ := exists_word isIdentChar cs
  rw [run letters stops] at found
  obtain ⟨rfl, ⟨⟩⟩ := Lexeme.mk.inj found
  refine ⟨word, rest, rfl, rfl, fun after cut => run letters (stops.mono cut), ?_, ?_⟩
  · exact isBlank_of_isIdentChar (by simp [isIdentChar, start])
  · exact fun d last => isBlank_of_isIdentChar (letters d (List.mem_of_getLast? last))

private theorem isBlank_of_isNumberChar (inside : isNumberChar c = true) : isBlank c = false := by
  refine isBlank_of_isIdentChar ?_
  simp only [isNumberChar, isIdentChar, isIdentStart, Bool.or_eq_true, decide_eq_true_eq] at *
  exact inside.elim .inr fun underscore => .inl (.inr underscore)

/-- No fraction stands behind the digits of a literal. -/
private def Integral (rest : List Char) : Prop :=
  ∀ d more, rest = '.' :: d :: more → Text.isDigit d = false

private theorem number_of_integral (digits : ∀ d ∈ word, isNumberChar d = true)
    (stops : Stops isNumberChar rest) (integral : Integral rest) :
    number c (word ++ rest) = ⟨word.length, intToken? ((c :: word).filter Text.isDigit)⟩ := by
  simp only [number, countWhile_append digits stops, List.take_left, List.drop_left]
  split
  · rename_i d more
    rw [integral d more rfl, if_neg Bool.false_ne_true]
  · rfl

private theorem number_of_fraction {d : Char} {more : List Char}
    (digits : ∀ d ∈ word, isNumberChar d = true) (digit : Text.isDigit d = true)
    (digits' : ∀ d ∈ more, isNumberChar d = true) (stops : Stops isNumberChar rest) :
    ∃ x, ∀ after, after <+: rest → number c (word ++ '.' :: d :: (more ++ after)) =
      ⟨word.length + 2 + more.length, some (.float x)⟩ := by
  let fraction := (d :: more).filter Text.isDigit
  let value := Text.digitsValue ((c :: word).filter Text.isDigit ++ fraction)
  refine ⟨Text.Decimal.nearest value (-fraction.length), fun after cut => ?_⟩
  have point : Stops isNumberChar ('.' :: d :: (more ++ after)) := by
    rintro _ ⟨⟩
    decide
  simp only [number, countWhile_append digits point, List.drop_left, List.take_left, digit, if_true,
    countWhile_append digits' (stops.mono cut), fraction, value]

/-- A literal takes all digits there are, and a fraction if one stands behind them. -/
private theorem found_number (digit : Text.isDigit c = true)
    (found : lexeme c cs = ⟨width, some t⟩) : Found c cs width t := by
  have first : isBlank c = false := isBlank_of_isNumberChar (by simp [isNumberChar, digit])
  have start (cs : List Char) : lexeme c cs = number c cs := by rw [lexeme, if_pos digit]
  rw [start] at found
  obtain ⟨word, rest, rfl, digits, stops⟩ := exists_word isNumberChar cs
  by_cases integral : Integral rest
  · rw [number_of_integral digits stops integral] at found
    obtain ⟨rfl, token⟩ := Lexeme.mk.inj found
    refine ⟨word, rest, rfl, rfl, fun after cut => ?_, first, fun d last =>
      isBlank_of_isNumberChar (digits d (List.mem_of_getLast? last))⟩
    rw [start, number_of_integral digits (stops.mono cut), token]
    rintro d more rfl
    obtain ⟨less, rfl⟩ := cut
    exact integral d _ rfl
  · simp only [Integral, Classical.not_forall, Bool.not_eq_false] at integral
    obtain ⟨d, rest, rfl, digit'⟩ := integral
    obtain ⟨more, rest, rfl, digits', stops'⟩ := exists_word isNumberChar rest
    obtain ⟨x, run⟩ := number_of_fraction (c := c) digits digit' digits' stops'
    rw [run rest (List.prefix_refl rest)] at found
    obtain ⟨rfl, ⟨⟩⟩ := Lexeme.mk.inj found
    refine ⟨word ++ '.' :: d :: more, rest, by simp, by simp; omega, fun after cut => ?_, first, ?_⟩
    · have text : word ++ '.' :: d :: more ++ after = word ++ '.' :: d :: (more ++ after) := by simp
      rw [start, text, run after cut]
      congr 1
      simp
      omega
    · intro e last
      have same : (word ++ '.' :: d :: more).getLast? = (d :: more).getLast? := by
        simp [List.getLast?_append, List.getLast?_cons]
      have number : ∀ e ∈ d :: more, isNumberChar e = true :=
        List.forall_mem_cons.mpr ⟨by simp [isNumberChar, digit'], digits'⟩
      exact isBlank_of_isNumberChar (number e (List.mem_of_getLast? (same ▸ last)))

private theorem string_eq_some {k : Nat} {read : Option (List Char)}
    (found : string k read cs = ⟨width, some t⟩) : ∃ inner rest, cs = inner ++ '"' :: rest ∧
      width = k + inner.length + 1 ∧
      ∀ less, string k read (inner ++ '"' :: less) = ⟨width, some t⟩ := by
  fun_induction string k read cs with
  | case1 | case2 | case3 => cases found
  | case4 k read e rest notNewline ih =>
    obtain ⟨inner, rest', rfl, wide, again⟩ := ih found
    refine ⟨'\\' :: e :: inner, rest', rfl, by simp; omega, fun less => ?_⟩
    rw [List.cons_append, List.cons_append, string, if_neg notNewline]
    exact again less
  | case5 k read tail =>
    exact ⟨[], tail, rfl, (congrArg Lexeme.width found).symm, fun less => found⟩
  | case6 k read d rest noEscape noEscape' noQuote ih =>
    obtain ⟨inner, rest', rfl, wide, again⟩ := ih found
    refine ⟨d :: inner, rest', rfl, by simp; omega, fun less => ?_⟩
    have noEscape (tail : List Char) (slash : d = '\\') : False := by
      cases inner with
      | nil => exact noEscape' _ _ slash rfl
      | cons e inner => exact noEscape' _ _ slash rfl
    rw [List.cons_append, string]
    · exact again less
    · exact fun slash _ => noEscape [] slash
    · exact fun _ tail slash _ => noEscape tail slash
    · exact noQuote

private theorem found_string (found : lexeme '"' cs = ⟨width, some t⟩) : Found '"' cs width t := by
  obtain ⟨inner, rest, rfl, wide, again⟩ := string_eq_some (show string 0 (some []) cs = _ from found)
  refine ⟨inner ++ ['"'], rest, by simp, by simp; omega, fun after cut => ?_, by decide, ?_⟩
  · have run : lexeme '"' (inner ++ '"' :: after) = _ := again after
    rw [List.append_assoc, List.singleton_append, run, wide]
    simp
  · intro d last
    rw [List.getLast?_concat] at last
    cases last
    decide

private theorem ne_cons_of_prefix {d : Char} {after : List Char}
    (other : ∀ tail, cs = d :: tail → False) (cut : after <+: cs) :
    ∀ tail, after = d :: tail → False := by
  rintro tail rfl
  obtain ⟨more, rfl⟩ := cut
  exact other _ rfl

/-- A mark of one character stays one where the second character of a longer mark is missing. -/
private theorem found_mark (direct : ∀ cs, lexeme c cs = mark c cs)
    (found : lexeme c cs = ⟨width, some t⟩) : Found c cs width t := by
  suffices ∃ word rest, cs = word ++ rest ∧ word.length = width ∧
      (∀ after, after <+: rest → mark c (word ++ after) = ⟨word.length, some t⟩) ∧
        isBlank c = false ∧ ∀ d ∈ word.getLast?, isBlank d = false by
    obtain ⟨word, rest, text, length, cut, first, last⟩ := this
    exact ⟨word, rest, text, length, fun after shorter => (direct _).trans (cut after shorter),
      first, last⟩
  rw [direct] at found
  unfold mark at found
  split at found
  all_goals first
    | (cases found; done)
    | (cases found; exact ⟨[], _, rfl, rfl, fun _ _ => rfl, by decide, nofun⟩)
    | (cases found
       exact ⟨[_], _, rfl, rfl, fun _ _ => rfl, by decide, fun _ last => by cases last; decide⟩)
    | (rename_i other
       cases found
       refine ⟨[], _, rfl, rfl, fun after cut => ?_, by decide, nofun⟩
       rw [List.nil_append, mark]
       · rfl
       · exact ne_cons_of_prefix other cut)

theorem exists_munches (found : lexeme c cs = ⟨width, some t⟩) :
    ∃ word rest, cs = word ++ rest ∧ word.length = width ∧ Munches c word rest t := by
  change Found c cs width t
  by_cases digit : Text.isDigit c = true
  · exact found_number digit found
  by_cases start : isIdentStart c = true
  · exact found_ident start found
  by_cases quote : c = '"'
  · subst quote
    exact found_string found
  · exact found_mark (fun cs => by rw [lexeme, if_neg digit, if_neg start, if_neg quote]) found

/-! ### Splitting a text -/

/-- A text from a byte offset on is words, which are the given tokens, with spaces between them. -/
inductive Split : Nat → List Char → List Spanned → Prop
  | nil (offset : Nat) : Split offset [] []
  | space {offset : Nat} {c : Char} {cs : List Char} {spans : List Spanned} :
      isSpace c = true → Split (offset + c.utf8Size) cs spans → Split offset (c :: cs) spans
  | word {offset : Nat} {c : Char} {word rest : List Char} {t : Token} {spans : List Spanned} :
      Munches c word rest t → Split (offset + byteLength (c :: word)) rest spans →
        Split offset (c :: word ++ rest)
          (⟨t, offset, offset + byteLength (c :: word)⟩ :: spans)

private theorem isBlank_of_isSpace (space : isSpace c = true) : isBlank c = true := by
  simp only [isSpace, Bool.or_eq_true, decide_eq_true_eq] at space
  rcases space with ((rfl | rfl) | rfl) | rfl <;> decide

private theorem utf8Size_of_isSpace (space : isSpace c = true) : c.utf8Size = 1 := by
  simp only [isSpace, Bool.or_eq_true, decide_eq_true_eq] at space
  rcases space with ((rfl | rfl) | rfl) | rfl <;> rfl

private theorem tokensFrom_append (offset : Nat) (word rest : List Char) :
    tokensFrom offset word.length (word ++ rest) =
      tokensFrom (offset + byteLength word) 0 rest := by
  induction word generalizing offset with
  | nil => rfl
  | cons c word ih => exact (ih (offset + c.utf8Size)).trans (by rw [byteLength, Nat.add_assoc])

variable {offset : Nat} {spans u v : List Spanned}

theorem split_of_tokensFrom (split : tokensFrom offset 0 cs = .ok spans) :
    Split offset cs spans := by
  -- Every word takes its first character at least.
  induction n : cs.length using Nat.strongRecOn generalizing cs offset spans with
  | ind n ih =>
    cases cs with
    | nil =>
      cases split
      exact .nil offset
    | cons c cs =>
      rw [Lexer.tokensFrom] at split
      split at split
      · rename_i space
        rw [← utf8Size_of_isSpace space] at split
        exact .space space (ih cs.length (n ▸ Nat.lt_succ_self _) split rfl)
      · dsimp only at split
        split at split
        · cases split
        · rename_i t token
          split at split
          · cases split
          · rename_i later ran
            have found : lexeme c cs = ⟨(lexeme c cs).width, some t⟩ := by rw [← token]
            obtain ⟨word, rest, rfl, width, munches⟩ := exists_munches found
            cases split
            rw [← width, List.take_left]
            refine .word munches (ih rest.length ?_ ?_ rfl)
            · simp only [List.length_cons, List.length_append] at n
              omega
            · rw [← ran, ← width, tokensFrom_append, byteLength, Nat.add_assoc]

theorem Split.tokensFrom (split : Split offset cs spans) :
    tokensFrom offset 0 cs = .ok spans := by
  induction split with
  | nil => rfl
  | space space _ ih =>
    rw [Lexer.tokensFrom, if_pos space, ← ih, utf8Size_of_isSpace space]
  | @word offset c word rest t spans munches _ ih =>
    have found := munches.cut rest (List.prefix_refl rest)
    have dark : isSpace c = false := by
      cases space : isSpace c with
      | false => rfl
      | true => exact absurd (munches.first.symm.trans (isBlank_of_isSpace space)) Bool.false_ne_true
    have later : Lexer.tokensFrom (offset + c.utf8Size) word.length (word ++ rest) = .ok spans := by
      rw [tokensFrom_append, ← ih, byteLength, Nat.add_assoc]
    rw [List.cons_append, Lexer.tokensFrom, dark, if_neg Bool.false_ne_true]
    simp only [found, later, List.take_left]

/-- A text without tokens is white space. -/
theorem Split.blank (split : Split offset cs []) : ∀ c ∈ cs, isBlank c = true := by
  generalize none : ([] : List Spanned) = spans at split
  induction split with
  | nil => simp
  | space space _ ih => exact List.forall_mem_cons.mpr ⟨isBlank_of_isSpace space, ih none⟩
  | word => cases none

/-- A text in two parts, the first of which has the first tokens and ends with the last one of
them. -/
structure Cut (offset : Nat) (u v : List Spanned) (text rest : List Char) : Prop where
  front : Split offset text u
  back : Split (offset + byteLength text) rest v
  stop : ∀ s ∈ u.getLast?, s.stop = offset + byteLength text
  last : ∀ d ∈ text.getLast?, isBlank d = false

theorem Cut.nil (split : Split offset cs v) : Cut offset [] v [] cs :=
  ⟨.nil offset, split, nofun, nofun⟩

theorem Cut.eq_nil {text rest : List Char} (cut : Cut offset [] v text rest) : text = [] := by
  cases last : text.getLast? with
  | none => exact List.getLast?_eq_none_iff.mp last
  | some d =>
    have blank := cut.front.blank d (List.mem_of_getLast? last)
    exact absurd (blank.symm.trans (cut.last d last)) nofun

theorem Split.cut (split : Split offset cs (u ++ v)) :
    ∃ text rest, cs = text ++ rest ∧ Cut offset u v text rest := by
  generalize parts : u ++ v = spans at split
  induction split generalizing u with
  | nil offset =>
    obtain ⟨rfl, rfl⟩ := List.append_eq_nil_iff.mp parts
    exact ⟨[], [], rfl, .nil (.nil offset)⟩
  | @space offset c cs spans space split ih =>
    cases u with
    | nil =>
      obtain rfl : v = spans := parts
      exact ⟨[], c :: cs, rfl, .nil (.space space split)⟩
    | cons s u =>
      obtain ⟨text, rest, rfl, cut⟩ := ih parts
      refine ⟨c :: text, rest, rfl, .space space cut.front, ?_, ?_, ?_⟩
      · rw [byteLength, ← Nat.add_assoc]
        exact cut.back
      · rw [byteLength, ← Nat.add_assoc]
        exact cut.stop
      · cases text with
        | nil => cases cut.front
        | cons d text => exact cut.last
  | @word offset c word rest t spans munches split ih =>
    cases u with
    | nil =>
      obtain rfl : v = _ :: spans := parts
      exact ⟨[], _, rfl, .nil (.word munches split)⟩
    | cons s u =>
      obtain ⟨rfl, later⟩ := List.cons.inj parts
      obtain ⟨text, rest, rfl, cut⟩ := ih later
      refine ⟨c :: word ++ text, rest, by simp,
        .word (munches.mono (List.prefix_append _ _)) cut.front, ?_, ?_, ?_⟩
      · rw [Text.byteLength_append, ← Nat.add_assoc]
        exact cut.back
      · cases u with
        | nil =>
          rintro s ⟨⟩
          rw [cut.eq_nil, List.append_nil]
          rfl
        | cons s u =>
          rw [Text.byteLength_append, ← Nat.add_assoc]
          exact cut.stop
      · cases text with
        | nil =>
          rw [List.append_nil]
          cases word with
          | nil =>
            rintro d ⟨⟩
            exact munches.first
          | cons d word => exact munches.last
        | cons d text =>
          rw [List.getLast?_append]
          intro e last
          refine cut.last e ?_
          cases found : (d :: text).getLast? with
          | none => cases List.getLast?_eq_none_iff.mp found
          | some e' =>
            rw [found] at last
            exact last

/-- White space before the first token. -/
theorem Split.strip (split : Split offset cs spans) : ∃ blanks text, cs = blanks ++ text ∧
    (∀ c ∈ blanks, isBlank c = true) ∧ Split (offset + byteLength blanks) text spans ∧
      (∀ s ∈ spans.head?, s.start = offset + byteLength blanks) ∧
        ∀ d ∈ text.head?, isBlank d = false := by
  induction split with
  | nil offset => exact ⟨[], [], rfl, by simp, .nil offset, nofun, nofun⟩
  | @space offset c cs spans space split ih =>
    obtain ⟨blanks, text, rfl, blank, later, start, first⟩ := ih
    refine ⟨c :: blanks, text, rfl, List.forall_mem_cons.mpr ⟨isBlank_of_isSpace space, blank⟩,
      ?_, ?_, first⟩
    · rwa [byteLength, ← Nat.add_assoc]
    · rwa [byteLength, ← Nat.add_assoc]
  | @word offset c word rest t spans munches split ih =>
    refine ⟨[], c :: word ++ rest, rfl, by simp, .word munches split, ?_, ?_⟩
    · rintro s ⟨⟩
      rfl
    · rintro d ⟨⟩
      exact munches.first

/-- The text of some of the tokens. -/
theorem Split.between {w : List Spanned} (split : Split offset cs (u ++ w ++ v)) :
    ∃ before text after, cs = before ++ text ++ after ∧
      Split (offset + byteLength before) text w ∧
        (∀ s ∈ w.head?, s.start = offset + byteLength before) ∧
          ∀ s ∈ w.getLast?, s.stop = offset + byteLength (before ++ text) := by
  rw [List.append_assoc] at split
  obtain ⟨before, later, rfl, first⟩ := split.cut
  obtain ⟨blanks, later, rfl, -, stripped, start, -⟩ := first.back.strip
  obtain ⟨text, after, rfl, second⟩ := stripped.cut
  have place : offset + byteLength before + byteLength blanks =
      offset + byteLength (before ++ blanks) := by
    rw [Text.byteLength_append, Nat.add_assoc]
  refine ⟨before ++ blanks, text, after, by simp, place ▸ second.front, fun s front => ?_, ?_⟩
  · refine (start s ?_).trans place
    rw [List.head?_append, Option.mem_def.mp front]
    rfl
  · intro s last
    rw [second.stop s last, place, Text.byteLength_append (before ++ blanks), Nat.add_assoc]

/-- The text from the beginning of one token to the end of a later one. -/
theorem Split.stretch {i j : Nat} {s s' : Spanned} (split : Split offset cs spans) (order : i ≤ j)
    (first : spans[i]? = some s) (last : spans[j]? = some s') :
    ∃ before text after, cs = before ++ text ++ after ∧ s.start = offset + byteLength before ∧
      s'.stop = offset + byteLength (before ++ text) := by
  have parts : spans.take i ++ (spans.drop i).take (j - i + 1) ++ (spans.drop i).drop (j - i + 1) =
      spans := by
    rw [List.append_assoc, List.take_append_drop, List.take_append_drop]
  rw [← parts] at split
  obtain ⟨before, text, after, rfl, -, start, stop⟩ := split.between
  refine ⟨before, text, after, rfl, start s ?_, stop s' ?_⟩
  · rw [List.head?_take, if_neg (Nat.succ_ne_zero _), List.head?_drop]
    exact first
  · rw [List.getLast?_take, if_neg (Nat.succ_ne_zero _), List.getElem?_drop, Nat.add_sub_cancel,
      Nat.add_sub_cancel' order, last]
    rfl

/-- The text without the blanks around it has the same tokens. -/
theorem Split.trim (split : Split offset cs spans) : ∃ before after,
    cs = before ++ Text.trimChars cs ++ after ∧
      Split (offset + byteLength before) (Text.trimChars cs) spans := by
  obtain ⟨before, text, rfl, blank, stripped, -, first⟩ := split.strip
  rw [← List.append_nil spans] at stripped
  obtain ⟨text, after, rfl, cut⟩ := stripped.cut
  have first : ∀ d ∈ text.head?, isBlank d = false := by
    intro d front
    refine first d ?_
    rw [List.head?_append, Option.mem_def.mp front]
    rfl
  have trimmed := Text.trimChars_append blank cut.back.blank first cut.last
  rw [List.append_assoc] at trimmed
  rw [trimmed]
  exact ⟨before, after, by simp, cut.front⟩

/-- The same token, so many bytes later. -/
def shift (bytes : Nat) (s : Spanned) : Spanned := ⟨s.token, s.start + bytes, s.stop + bytes⟩

/-- Where a text begins plays no part in its words. -/
theorem Split.shift {bytes : Nat} (split : Split (offset + bytes) cs spans) :
    ∃ earlier, Split offset cs earlier ∧ spans = earlier.map (Lexer.shift bytes) := by
  generalize place : offset + bytes = offset' at split
  induction split generalizing offset with
  | nil => exact ⟨[], .nil offset, rfl⟩
  | space space _ ih =>
    obtain ⟨earlier, split, rfl⟩ := @ih (offset + _) (by rw [← place, Nat.add_right_comm])
    exact ⟨earlier, .space space split, rfl⟩
  | @word offset' c word rest t spans munches _ ih =>
    obtain ⟨earlier, split, rfl⟩ := @ih (offset + byteLength (c :: word))
      (by rw [← place, Nat.add_right_comm])
    refine ⟨_, .word munches split, ?_⟩
    rw [List.map_cons, Lexer.shift, ← place, Nat.add_right_comm]

end Lexer

namespace Cursor

open Lexer (Split shift)

/-- The tokens left are tokens at the end of a text. -/
def Inside (source : List Char) (c : Cursor) : Prop := ∃ u, Split 0 source (u ++ c.rest)

variable {source before text after : List Char} {spans v : List Spanned} {c : Cursor} {n size : Nat}

theorem Inside.skip (inside : Inside source c) (n : Nat) : Inside source (c.skip n) := by
  obtain ⟨u, split⟩ := inside
  refine ⟨u ++ c.rest.take n, ?_⟩
  rwa [rest_skip, List.append_assoc, List.take_append_drop]

/-- The tokens of a stretch of text are alike where the whole text is split and where it is alone. -/
theorem agree_of_shift (split : Split 0 text spans)
    (tokens : c.rest = spans.map (shift (Text.byteLength before)) ++ v) :
    Agree (before ++ text ++ after) text spans.length c ⟨spans, 0, size⟩ := by
  have found {i : Nat} (below : i < spans.length) :
      c.rest[i]? = spans[i]?.map (shift (Text.byteLength before)) := by
    rw [tokens, List.getElem?_append_left (by simpa using below), List.getElem?_map]
  constructor
  · intro i below
    have there : spans[i]? = some spans[i] := List.getElem?_eq_getElem below
    have here : c.rest[i]? = some (shift (Text.byteLength before) spans[i]) := by
      rw [found below, there, Option.map_some]
    exact ⟨_, spans[i], here, there, rfl⟩
  · intro i j order below s here t there s' here' t' there'
    obtain ⟨front, word, back, rfl, start, stop⟩ := split.stretch order there there'
    rw [found (Nat.lt_of_le_of_lt order below), Option.mem_def.mp there] at here
    rw [found below, Option.mem_def.mp there'] at here'
    cases here
    cases here'
    have start' : (shift (Text.byteLength before) t).start = Text.byteLength (before ++ front) := by
      change t.start + _ = _
      rw [start, Text.byteLength_append, Nat.zero_add, Nat.add_comm]
    have stop' : (shift (Text.byteLength before) t').stop =
        Text.byteLength (before ++ front ++ word) := by
      change t'.stop + _ = _
      rw [stop, List.append_assoc, Text.byteLength_append before, Nat.zero_add, Nat.add_comm]
    have source : before ++ (front ++ word ++ back) ++ after =
        before ++ front ++ word ++ (back ++ after) := by simp
    rw [start', stop', source, Text.slice_append, start, stop, Nat.zero_add, Nat.zero_add,
      Text.slice_append]

/-- The text of some of the tokens left has these tokens. -/
theorem Inside.exists_agree (inside : Inside source c) (some_token : 0 < n)
    (below : n ≤ c.rest.length) : ∃ spans,
      Split 0 (Text.slice source c.offset (c.skip n).lastStop) spans ∧ spans.length = n ∧ ∀ size,
        Agree source (Text.slice source c.offset (c.skip n).lastStop) n c ⟨spans, 0, size⟩ := by
  obtain ⟨u, split⟩ := inside
  obtain ⟨last, rfl⟩ : ∃ k, n = k + 1 := ⟨n - 1, by omega⟩
  have room : 0 < c.rest.length := by omega
  have first : c.rest[0]? = some c.rest[0] := List.getElem?_eq_getElem room
  have final : c.rest[last]? = some c.rest[last] := List.getElem?_eq_getElem below
  rw [← List.take_append_drop (last + 1) c.rest, ← List.append_assoc] at split
  obtain ⟨before, text, after, rfl, inner, start, stop⟩ := split.between
  have offset : c.offset = Text.byteLength before := by
    rw [offset_eq first, start c.rest[0], Nat.zero_add]
    rw [List.head?_take, if_neg (Nat.succ_ne_zero _), List.head?_eq_getElem?]
    exact first
  have lastStop : (c.skip (last + 1)).lastStop = Text.byteLength (before ++ text) := by
    rw [lastStop_skip final, stop c.rest[last], Nat.zero_add]
    rw [List.getLast?_take, if_neg (Nat.succ_ne_zero _), Nat.add_sub_cancel, final]
    rfl
  rw [offset, lastStop, Text.slice_append]
  obtain ⟨spans, split', tokens⟩ := inner.shift
  have length : spans.length = last + 1 := by
    have := congrArg List.length tokens
    rwa [List.length_take, List.length_map, Nat.min_eq_left below, eq_comm] at this
  refine ⟨spans, split', length, fun size => length ▸ agree_of_shift split' (v := c.rest.drop (last + 1)) ?_⟩
  rw [← tokens, List.take_append_drop]

end Cursor
end Pipeline
