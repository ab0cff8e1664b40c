import Pipeline.Proofs.Ty.Tokens

/-!
# The text of a type splits into its tokens

A type stands at the end of a text or before a comma or a closing bracket; nothing of it can be
taken together with what follows. Lists in brackets are spelled group by group.
-/

set_option autoImplicit false
set_option relaxedAutoImplicit false

namespace Pipeline

open Lexer

/-- What can follow a type. -/
def Closes (cs : List Char) : Prop := ∀ c ∈ cs.head?, c = ',' ∨ c = ')' ∨ c = '>'

/-- Characters that spell given tokens in front of anything that can follow a type. -/
structure Spells (cs : List Char) (ts : List Token) : Prop where
  /-- The characters cannot join with a bracket before them. -/
  starts : ∃ c ∈ cs.head?, c ≠ '='
  lexes : ∀ rest us, Closes rest → Lexes rest us → Lexes (cs ++ rest) (ts ++ us)

theorem Closes.stops {p : Char → Bool} {cs : List Char} (closes : Closes cs) (comma : p ',' = false)
    (paren : p ')' = false) (bracket : p '>' = false) : Stops p cs := by
  intro c here
  obtain rfl | rfl | rfl := closes c here
  · exact comma
  · exact paren
  · exact bracket

theorem Closes.cons {c : Char} {cs : List Char} (closing : c = ',' ∨ c = ')' ∨ c = '>') :
    Closes (c :: cs) := by
  rintro _ ⟨⟩
  exact closing

/-! ### Lists in brackets -/

/-- Groups of characters with a comma and a blank between them. -/
def listed : List (List Char) → List Char
  | [] => []
  | cs :: more => cs ++ more.flatMap fun cs => ',' :: ' ' :: cs

/-- Groups of characters in angle brackets, which are left out where there is no group. -/
def inBrackets : List (List Char) → List Char
  | [] => []
  | cs :: more => '<' :: listed (cs :: more) ++ ['>']

variable {css : List (List Char)} {tss : List (List Token)} {rest : List Char} {us : List Token}

private theorem lexes_more (spelled : List.Forall₂ Spells css tss) (closes : Closes rest)
    (later : Lexes rest us) :
    Closes (css.flatMap (fun cs => ',' :: ' ' :: cs) ++ rest) ∧
    Lexes (css.flatMap (fun cs => ',' :: ' ' :: cs) ++ rest)
      (tss.flatMap (fun ts => .punct .comma :: ts) ++ us) := by
  induction spelled with
  | nil => exact ⟨closes, later⟩
  | @cons cs ts css tss here _ ih =>
    have group := here.lexes _ _ ih.1 ih.2
    refine ⟨Closes.cons (.inl rfl), ?_⟩
    simpa using group.space.comma

theorem lexes_listed (spelled : List.Forall₂ Spells css tss) (closes : Closes rest)
    (later : Lexes rest us) : Lexes (listed css ++ rest) (Token.listed tss ++ us) := by
  cases spelled with
  | nil => exact later
  | cons here more =>
    obtain ⟨closes', later'⟩ := lexes_more more closes later
    simpa [listed, Token.listed] using here.lexes _ _ closes' later'

theorem lexes_inBrackets (spelled : List.Forall₂ Spells css tss) (stops : Stops (· == '=') rest)
    (later : Lexes rest us) : Lexes (inBrackets css ++ rest) (Token.inBrackets tss ++ us) := by
  cases spelled with
  | nil => exact later
  | @cons cs ts css tss here more =>
    have closed : Lexes ('>' :: rest) (.punct .gt :: us) := later.gt stops
    have inside := lexes_listed (.cons here more) (Closes.cons (.inr (.inr rfl))) closed
    have opens : Stops (· == '=') (listed (cs :: css) ++ '>' :: rest) := by
      obtain ⟨c, first, other⟩ := here.starts
      cases cs with
      | nil => cases first
      | cons d cs =>
        cases first
        rintro _ ⟨⟩
        simpa using other
    simpa [inBrackets, Token.inBrackets] using inside.lt opens

theorem Stops.inBrackets {p : Char → Bool} (opening : p '<' = false) (stops : Stops p rest) :
    Stops p (inBrackets css ++ rest) := by
  cases css with
  | nil => exact stops
  | cons cs css =>
    rintro _ ⟨⟩
    exact opening

/-! ### Paths -/

theorem lexes_ofSegments {first : String} {more : List String}
    (idents : ∀ name ∈ first :: more, IsIdent name) (stops : Stops isIdentChar rest)
    (later : Lexes rest us) :
    Lexes ((Path.ofSegments (first :: more)).toList ++ rest)
      (Token.ofPath (Path.ofSegments (first :: more)) ++ us) := by
  rw [Path.toList_ofSegments, Token.ofPath_ofSegments idents, List.append_assoc]
  rw [List.forall_mem_cons] at idents
  refine Lexes.ident idents.1 ?_ (Lexes.segments idents.2 stops later)
  cases more with
  | nil => exact stops
  | cons name more =>
    rintro _ ⟨⟩
    rfl

theorem IsIdent.starts {name : String} (ident : IsIdent name) (cs : List Char) :
    ∃ c ∈ (name.toList ++ cs).head?, c ≠ '=' := by
  obtain ⟨c, word, spelled, start, -⟩ := ident
  refine ⟨c, by simp [spelled], ?_⟩
  rintro rfl
  exact absurd start (by decide)

/-- A path with groups in brackets behind it. -/
theorem spells_applied {first : String} {more : List String}
    (idents : ∀ name ∈ first :: more, IsIdent name) (spelled : List.Forall₂ Spells css tss) :
    Spells ((Path.ofSegments (first :: more)).toList ++ inBrackets css)
      (Token.ofPath (Path.ofSegments (first :: more)) ++ Token.inBrackets tss) where
  starts := by
    rw [Path.toList_ofSegments, List.append_assoc]
    exact (idents first (by simp)).starts _
  lexes := by
    intro rest us closes later
    have brackets := lexes_inBrackets spelled (closes.stops rfl rfl rfl) later
    have stops : Stops isIdentChar (inBrackets css ++ rest) :=
      Stops.inBrackets rfl (closes.stops rfl rfl rfl)
    simpa using lexes_ofSegments idents stops brackets

/-! ### Texts of types -/

namespace Ty

/-- The characters of a constraint. -/
def constraintChars (c : String × Ty) : List Char :=
  c.1.toList ++ ' ' :: '=' :: ' ' :: c.2.text.toList

/-- The characters of a result type. -/
def resultChars (ret : Ty) : List Char :=
  if ret = unit then [] else ' ' :: '-' :: '>' :: ' ' :: ret.text.toList

attribute [local simp] text moreText assocText listed inBrackets constraintChars resultChars

theorem toList_moreText (ts : List Ty) :
    (moreText ts).toList = (ts.map (·.text.toList)).flatMap fun cs => ',' :: ' ' :: cs := by
  induction ts with
  | nil => rfl
  | cons t rest ih => simp [ih]

theorem toList_assocText (assoc : List (String × Ty)) :
    (assocText assoc).toList = (assoc.map constraintChars).flatMap fun cs => ',' :: ' ' :: cs := by
  induction assoc with
  | nil => rfl
  | cons c rest ih => simp [ih]

theorem toList_text_named (path : String) (args : List Ty) :
    (named path args).text.toList =
      (shortPath path).toList ++ inBrackets (args.map (·.text.toList)) := by
  cases args with
  | nil => simp
  | cons t rest => simp [toList_moreText]

theorem toList_text_fn (params : List Ty) (ret : Ty) :
    (fn params ret).text.toList =
      'f' :: 'n' :: '(' :: listed (params.map (·.text.toList)) ++ ')' :: resultChars ret := by
  by_cases nothing : ret = unit
  · subst nothing
    cases params with
    | nil => simp
    | cons t rest => simp [toList_moreText]
  · cases params with
    | nil => simp [nothing]
    | cons t rest => simp [nothing, toList_moreText]

end Ty

theorem TraitRef.toList_text (t : TraitRef) :
    t.text.toList = (shortPath t.path).toList ++
      inBrackets (t.args.map (·.text.toList) ++ t.assoc.map Ty.constraintChars) := by
  obtain ⟨path, args, assoc⟩ := t
  cases args with
  | nil =>
    cases assoc with
    | nil => simp [text, inBrackets]
    | cons c rest => simp [text, inBrackets, listed, Ty.constraintChars, Ty.toList_assocText]
  | cons t rest =>
    simp [text, inBrackets, listed, Ty.toList_moreText, Ty.toList_assocText]

namespace Ty

theorem toList_text_promise (path : String) (args : List Ty) (assoc : List (String × Ty)) :
    (promise path args assoc).text.toList =
      'i' :: 'm' :: 'p' :: 'l' :: ' ' :: (TraitRef.mk path args assoc).text.toList := by
  cases args with
  | nil =>
    cases assoc with
    | nil => simp [text, TraitRef.text]
    | cons c rest => simp [text, TraitRef.text]
  | cons t rest => simp [text, TraitRef.text]

/-! ### Texts of types that were read -/

theorem spells_constraint {name : String} {t : Ty} (ident : IsIdent name)
    (spelled : Spells t.text.toList t.tokens) :
    Spells (constraintChars (name, t)) (constraintTokens (name, t)) where
  starts := ident.starts _
  lexes := by
    intro rest us closes later
    have value := (spelled.lexes rest us closes later).space
    have equals := (value.eq (by rintro _ ⟨⟩; rfl)).space
    simpa [constraintChars, constraintTokens] using
      Lexes.ident ident (by rintro _ ⟨⟩; rfl) equals

theorem lexes_result {ret : Ty} {rest : List Char} {us : List Token}
    (spelled : Spells ret.text.toList ret.tokens) (closes : Closes rest) (later : Lexes rest us) :
    Lexes (resultChars ret ++ rest) (Token.ofResult ret ret.tokens ++ us) := by
  unfold resultChars Token.ofResult
  split
  · exact later
  · exact (spelled.lexes rest us closes later).space.arrow.space

private theorem spells_list {ts : List Ty} (each : ∀ t ∈ ts, Spells t.text.toList t.tokens) :
    List.Forall₂ Spells (ts.map (·.text.toList)) (tokensList ts) := by
  rw [tokensList_eq_map, List.forall₂_map_left_iff, List.forall₂_map_right_iff, List.forall₂_same]
  exact each

theorem spells_items {ts : List Ty} {assoc : List (String × Ty)}
    (each : ∀ t ∈ ts, Spells t.text.toList t.tokens) (names : ∀ c ∈ assoc, IsIdent c.1)
    (types : ∀ c ∈ assoc, Spells c.2.text.toList c.2.tokens) :
    List.Forall₂ Spells (ts.map (·.text.toList) ++ assoc.map constraintChars)
      (tokensList ts ++ tokensAssoc assoc) := by
  refine List.rel_append (spells_list each) ?_
  rw [tokensAssoc_eq_map, List.forall₂_map_left_iff, List.forall₂_map_right_iff, List.forall₂_same]
  exact fun c member => spells_constraint (names c member) (types c member)

/-- A trait reference whose parts are spelled. -/
theorem spells_traitRef {first : String} {more : List String} {args : List Ty}
    {assoc : List (String × Ty)} (idents : ∀ name ∈ first :: more, IsIdent name)
    (short : shortPath (Path.ofSegments (first :: more)) = Path.ofSegments (first :: more))
    (each : ∀ t ∈ args, Spells t.text.toList t.tokens) (names : ∀ c ∈ assoc, IsIdent c.1)
    (types : ∀ c ∈ assoc, Spells c.2.text.toList c.2.tokens) :
    Spells (TraitRef.mk (Path.ofSegments (first :: more)) args assoc).text.toList
      (TraitRef.mk (Path.ofSegments (first :: more)) args assoc).tokens := by
  rw [TraitRef.toList_text, short, TraitRef.tokens]
  exact spells_applied idents (spells_items each names types)

private theorem ident_impl : IsIdent "impl" := .of_chars 'i' ['m', 'p', 'l'] rfl (by decide) (by decide)

private theorem ident_fn : IsIdent "fn" := .of_chars 'f' ['n'] rfl (by decide) (by decide)

private theorem ident_self : IsIdent "Self" := .of_chars 'S' ['e', 'l', 'f'] rfl (by decide) (by decide)

private theorem ident_infer : IsIdent "_" := .of_chars '_' [] rfl (by decide) (by decide)

private theorem spells_fn {params : List Ty} {ret : Ty}
    (each : ∀ t ∈ params, Spells t.text.toList t.tokens)
    (result : Spells ret.text.toList ret.tokens) :
    Spells (fn params ret).text.toList (fn params ret).tokens := by
  rw [toList_text_fn, tokens]
  refine ⟨⟨'f', rfl, by decide⟩, fun rest us closes later => ?_⟩
  have closed := (lexes_result result closes later).rparen
  have inside := (lexes_listed (spells_list each) (Closes.cons (.inr (.inl rfl))) closed).lparen
  simpa using Lexes.ident ident_fn (by rintro _ ⟨⟩; rfl) inside

private theorem spells_const {n : Nat} (small : n ≤ maxInt) :
    Spells (const (Text.intText n)).text.toList (const (Text.intText n)).tokens := by
  rw [text, Text.toList_intText, tokens_const]
  refine ⟨?_, fun rest us closes later => Lexes.int small (closes.stops rfl rfl rfl) later⟩
  cases spelled : Text.natChars n with
  | nil => exact absurd spelled Nat.toDigits_ne_nil
  | cons c cs =>
    refine ⟨c, rfl, ?_⟩
    rintro rfl
    have member : '=' ∈ Nat.toDigits 10 n := by
      rw [← Text.natChars, spelled]
      simp
    have digit : '='.isDigit = true := Nat.isDigit_of_mem_toDigits (by decide) (by decide) member
    exact absurd digit (by decide)

private theorem spells_projection {first : String} {more : List String}
    (idents : ∀ name ∈ first :: more, IsIdent name) :
    Spells (projection selfTy (Path.ofSegments (first :: more))).text.toList
      (projection selfTy (Path.ofSegments (first :: more))).tokens := by
  refine ⟨⟨'S', by simp [text], by decide⟩, fun rest us closes later => ?_⟩
  have names := (lexes_ofSegments idents (closes.stops rfl rfl rfl) later).pathSep
  simpa [text, tokens] using Lexes.ident ident_self (by rintro _ ⟨⟩; rfl) names

/-- A type that was read, with no path of the prelude in it, splits into its tokens. -/
theorem Written.spells {t : Ty} (written : t.Written) (outside : t.mentionsPrelude = false) :
    Spells t.text.toList t.tokens := by
  induction written with
  | named _ idents _ ih =>
    simp only [mentionsPrelude, anyPart, Bool.or_eq_false_iff, anyPartList_eq_false,
      startsInPrelude, decide_eq_false_iff_not] at outside
    rw [toList_text_named, shortPath_of_head outside.1, tokens]
    exact spells_applied idents (spells_list fun t member => ih t member (outside.2 t member))
  | const small => exact spells_const small
  | fn _ _ ih ihResult =>
    simp only [mentionsPrelude, anyPart, Bool.or_eq_false_iff, anyPartList_eq_false] at outside
    exact spells_fn (fun t member => ih t member (outside.2.1 t member)) (ihResult outside.2.2)
  | promise idents _ names _ ih ihTypes =>
    simp only [mentionsPrelude, anyPart, Bool.or_eq_false_iff, anyPartList_eq_false,
      anyPartAssoc_eq_false, startsInPrelude, decide_eq_false_iff_not] at outside
    have applied := spells_traitRef idents (shortPath_of_head outside.1)
      (fun t member => ih t member (outside.2.1 t member)) names
      (fun c member => ihTypes c member (outside.2.2 c member))
    rw [toList_text_promise]
    refine ⟨⟨'i', rfl, by decide⟩, fun rest us closes later => ?_⟩
    exact Lexes.ident ident_impl (by rintro _ ⟨⟩; rfl) (applied.lexes rest us closes later).space
  | projection idents => exact spells_projection idents
  | selfTy =>
    refine ⟨⟨'S', rfl, by decide⟩, fun rest us closes later => ?_⟩
    exact Lexes.ident ident_self (closes.stops rfl rfl rfl) later
  | infer =>
    refine ⟨⟨'_', rfl, by decide⟩, fun rest us closes later => ?_⟩
    exact Lexes.ident ident_infer (closes.stops rfl rfl rfl) later
  | unit => exact ⟨⟨'(', rfl, by decide⟩, fun _ _ _ later => later.rparen.lparen⟩

end Ty

theorem TraitRef.Written.spells {t : TraitRef} (written : t.Written)
    (outside : t.mentionsPrelude = false) : Spells t.text.toList t.tokens := by
  obtain ⟨idents, items⟩ := written
  simp only [mentionsPrelude, Ty.mentionsPrelude, Ty.anyPart, Bool.or_eq_false_iff,
    Ty.anyPartList_eq_false, Ty.anyPartAssoc_eq_false, Ty.startsInPrelude,
    decide_eq_false_iff_not] at outside
  exact Ty.spells_traitRef idents (shortPath_of_head outside.1)
    (fun a member => (items.args a member).spells (outside.2.1 a member)) items.names
    (fun c member => (items.types c member).spells (outside.2.2 c member))

end Pipeline
