import Pipeline.Decl.Signature
import Pipeline.Proofs.Ty.Readers
import Pipeline.Proofs.Ty.Spelling

/-!
# Printing undoes reading

Types, trait references and signatures that were read from a text are read again from the text they
print as, and are the same. The paths of the prelude are the exception: they print without their
first segment, so they come back as paths of one segment less.
-/

set_option autoImplicit false
set_option relaxedAutoImplicit false

namespace Pipeline

open Lexer Reader Written

namespace MethodSig

/-- The tokens of a parameter. -/
def paramTokens (p : String × Ty) : List Token := .ident p.1 :: .punct .colon :: p.2.tokens

/-- The tokens of the word before a signature. -/
def tagTokens : MethodTag → List Token
  | .regular => []
  | .const => [.ident "const"]
  | .external => [.ident "extern"]

/-- The tokens of the receiver and of the parameters, one group for each. -/
def paramGroups (s : MethodSig) : List (List Token) :=
  if s.receiver then [.ident "self"] :: s.params.map paramTokens else s.params.map paramTokens

/-- The tokens of a signature. -/
def tokens (s : MethodSig) : List Token :=
  tagTokens s.tag ++ .ident "fn" :: .ident s.name :: .punct .lparen ::
    (Token.listed s.paramGroups ++ .punct .rparen :: Token.ofResult s.ret s.ret.tokens)

/-- Parameters that can be read, where a first parameter that is called like the receiver would be
taken for it. -/
structure AreWritten (receiver : Bool) (params : List (String × Ty)) : Prop where
  names : ∀ p ∈ params, IsIdent p.1
  types : ∀ p ∈ params, p.2.Written
  first : receiver = false → ∀ p ∈ params.head?, p.1 ≠ "self"

/-- The signatures that can be read. -/
structure Legible (s : MethodSig) : Prop where
  name : IsIdent s.name
  params : AreWritten s.receiver s.params
  ret : s.ret.Written

/-- True when some path in a signature begins with the segment of the prelude. -/
def mentionsPrelude (s : MethodSig) : Bool :=
  s.params.any (·.2.mentionsPrelude) || s.ret.mentionsPrelude

/-! ### The text splits into the tokens -/

/-- The characters of a parameter. -/
def paramChars (p : String × Ty) : List Char := p.1.toList ++ ':' :: ' ' :: p.2.text.toList

/-- The characters of the receiver and of the parameters, one group for each. -/
def paramTexts (s : MethodSig) : List (List Char) :=
  if s.receiver then ['s', 'e', 'l', 'f'] :: s.params.map paramChars else s.params.map paramChars

private theorem toList_join_comma (texts : List String) :
    (Text.join ", " texts).toList = listed (texts.map (·.toList)) := by
  cases texts with
  | nil => rfl
  | cons t rest => simp [Text.toList_join, listed, List.flatMap_map]

theorem toList_text (s : MethodSig) : s.text.toList = s.tag.marker.toList ++ 'f' :: 'n' :: ' ' ::
    (s.name.toList ++ '(' :: (listed s.paramTexts ++ ')' :: Ty.resultChars s.ret)) := by
  have params : (s.params.map fun p => p.1 ++ ": " ++ p.2.text).map String.toList =
      s.params.map paramChars := by
    simp [paramChars, Function.comp_def]
  have groups : (Text.join ", " (if s.receiver then
      "self" :: s.params.map fun p => p.1 ++ ": " ++ p.2.text
      else s.params.map fun p => p.1 ++ ": " ++ p.2.text)).toList = listed s.paramTexts := by
    rw [toList_join_comma, paramTexts]
    split
    · simp [params]
    · rw [params]
  cases result : s.ret <;> simp [text, groups, result, Ty.resultChars]

theorem spells_param {p : String × Ty} (ident : IsIdent p.1)
    (spelled : Spells p.2.text.toList p.2.tokens) : Spells (paramChars p) (paramTokens p) where
  starts := ident.starts _
  lexes := by
    intro rest us closes later
    have value := (spelled.lexes rest us closes later).space.colon (by rintro _ ⟨⟩; rfl)
    simpa [paramChars, paramTokens] using Lexes.ident ident (by rintro _ ⟨⟩; rfl) value

theorem spells_groups {s : MethodSig} (names : ∀ p ∈ s.params, IsIdent p.1)
    (types : ∀ p ∈ s.params, Spells p.2.text.toList p.2.tokens) :
    List.Forall₂ Spells s.paramTexts s.paramGroups := by
  have params : List.Forall₂ Spells (s.params.map paramChars) (s.params.map paramTokens) := by
    rw [List.forall₂_map_left_iff, List.forall₂_map_right_iff, List.forall₂_same]
    exact fun p member => spells_param (names p member) (types p member)
  have ident_receiver : IsIdent "self" := .of_chars 's' ['e', 'l', 'f'] rfl (by decide) (by decide)
  unfold paramTexts paramGroups
  split
  · refine .cons ⟨⟨'s', rfl, by decide⟩, fun rest us closes later => ?_⟩ params
    exact Lexes.ident ident_receiver (closes.stops rfl rfl rfl) later
  · exact params

private theorem lexes_tag {cs : List Char} {ts : List Token} (tag : MethodTag)
    (later : Lexes cs ts) : Lexes (tag.marker.toList ++ cs) (tagTokens tag ++ ts) := by
  have ident_const : IsIdent "const" := .of_chars 'c' ['o', 'n', 's', 't'] rfl (by decide) (by decide)
  have ident_external : IsIdent "extern" :=
    .of_chars 'e' ['x', 't', 'e', 'r', 'n'] rfl (by decide) (by decide)
  cases tag with
  | regular => exact later
  | const => exact Lexes.ident ident_const (by rintro _ ⟨⟩; rfl) later.space
  | external => exact Lexes.ident ident_external (by rintro _ ⟨⟩; rfl) later.space

/-- A signature that was read splits into its tokens. -/
theorem Legible.lexes {s : MethodSig} (legible : s.Legible) (outside : s.mentionsPrelude = false) :
    Lexes s.text.toList s.tokens := by
  simp only [mentionsPrelude, Bool.or_eq_false_iff, List.any_eq_false, Bool.not_eq_true] at outside
  have groups := spells_groups legible.params.names fun p member =>
    (legible.params.types p member).spells (outside.1 p member)
  have closes : Closes [] := nofun
  have result := (Ty.lexes_result (legible.ret.spells outside.2) closes Lexes.nil).rparen
  have inside := (lexes_listed groups (Closes.cons (.inr (.inl rfl))) result).lparen
  have name := Lexes.ident legible.name (by rintro _ ⟨⟩; rfl) inside
  have ident_fn : IsIdent "fn" := .of_chars 'f' ['n'] rfl (by decide) (by decide)
  have word := Lexes.ident ident_fn (by rintro _ ⟨⟩; rfl) name.space
  rw [toList_text, tokens]
  simpa using lexes_tag s.tag word

/-! ### The tokens are read as the signature -/

variable {back : List Token}

/-- Reads a parameter that is not the receiver, and those behind it. -/
private def namedParams (fuel : Nat) : Reader (Bool × List (String × Ty)) := do
  let name ← expectIdent
  expect .colon
  let t ← anyTy
  if ← eat .comma then
    return (false, (name, t) :: (← signatureParams fuel false).2)
  else
    expect .rparen
    return (false, [(name, t)])

theorem AreWritten.tail {receiver : Bool} {p : String × Ty} {rest : List (String × Ty)}
    (written : AreWritten receiver (p :: rest)) : AreWritten true rest where
  names := (List.forall_mem_cons.mp written.names).2
  types := (List.forall_mem_cons.mp written.types).2
  first := nofun

/-- Parameters up to the closing parenthesis. -/
theorem reads_params {params : List (String × Ty)} {n : Nat} {first : Bool}
    (written : AreWritten (!first) params) (enough : params.length < n) :
    Reads (signatureParams n first) (Token.listed (params.map paramTokens) ++ [.punct .rparen])
      (false, params) back := by
  induction params generalizing n first with
  | nil =>
    cases n with
    | zero => omega
    | succ n => exact Reads.next (reads_eat .rparen) (Reads.pure _ back)
  | cons p rest ih =>
    obtain ⟨name, t⟩ := p
    cases n with
    | zero => omega
    | succ n =>
      have type : t.Written := written.types (name, t) (by simp)
      have named : Reads (namedParams n) (Token.listed ((name, t) :: rest |>.map paramTokens) ++
          [.punct .rparen]) (false, (name, t) :: rest) back := by
        cases rest with
        | nil =>
          simp only [List.map_cons, List.map_nil, Token.listed, List.flatMap_nil, List.append_nil]
          refine Reads.next (reads_expectIdent name) (Reads.next (reads_expect .colon) ?_)
          refine Reads.bind (reads_anyTy type (Ends.cons (.inr (.inl rfl)))) ?_
          refine Reads.look (reads_eat_not ?_) ?_
          · rintro _ ⟨⟩
            rfl
          · exact Reads.last (reads_expect .rparen) (Reads.pure _ back)
        | cons u rest =>
          rw [List.map_cons, List.map_cons, Token.listed_cons, ← List.map_cons,
            List.append_assoc, List.cons_append]
          refine Reads.next (reads_expectIdent name) (Reads.next (reads_expect .colon) ?_)
          refine Reads.bind (reads_anyTy type (Ends.cons (.inl rfl))) ?_
          refine Reads.next (reads_eat .comma) ?_
          exact Reads.last (ih written.tail (by simpa using enough)) (Reads.pure _ back)
      unfold signatureParams
      refine Reads.look (reads_eat_not ?_) ?_
      · rintro _ ⟨⟩
        rfl
      · cases first with
        | false => exact Reads.look (Reads.pure false _) named
        | true =>
          refine Reads.look (reads_eatWord_not ?_) named
          rintro _ ⟨⟩
          simpa [Token.isWord] using written.first rfl (name, t) rfl

/-- The receiver and the parameters up to the closing parenthesis. -/
theorem reads_groups {s : MethodSig} {n : Nat} (written : AreWritten s.receiver s.params)
    (enough : s.paramGroups.length < n) :
    Reads (signatureParams n true) (Token.listed s.paramGroups ++ [.punct .rparen])
      (s.receiver, s.params) back := by
  obtain ⟨name, tag, receiver, params, ret⟩ := s
  cases receiver with
  | false => exact reads_params written (by simpa [paramGroups] using enough)
  | true =>
    cases n with
    | zero => omega
    | succ n =>
      simp only [paramGroups, if_true, List.length_cons, List.length_map] at enough ⊢
      unfold signatureParams
      refine Reads.look (reads_eat_not (by rintro _ ⟨⟩; rfl)) ?_
      cases params with
      | nil =>
        refine Reads.next (reads_eatWord "self") (Reads.look (reads_eat_not ?_) ?_)
        · rintro _ ⟨⟩
          rfl
        · exact Reads.last (reads_expect .rparen) (Reads.pure _ back)
      | cons p rest =>
        rw [List.map_cons, Token.listed_cons, ← List.map_cons]
        refine Reads.next (reads_eatWord "self") (Reads.next (reads_eat .comma) ?_)
        exact Reads.last (reads_params written (by simpa using enough)) (Reads.pure _ back)

/-- The word before a signature. -/
theorem reads_tag (tag : MethodTag) :
    Reads methodTag (tagTokens tag) tag (.ident "fn" :: back) := by
  cases tag with
  | regular =>
    refine Reads.look (reads_eatWord_not (by rintro _ ⟨⟩; rfl)) ?_
    refine Reads.look (reads_eatWord_not (by rintro _ ⟨⟩; rfl)) ?_
    exact Reads.pure _ _
  | const => exact Reads.next (reads_eatWord "const") (Reads.pure _ _)
  | external =>
    refine Reads.look (reads_eatWord_not (by rintro _ ⟨⟩; rfl)) ?_
    exact Reads.next (reads_eatWord "extern") (Reads.pure _ _)

theorem reads_resultTy {ret : Ty} (written : ret.Written) :
    Reads resultTy (Token.ofResult ret ret.tokens) ret [] := by
  unfold resultTy Token.ofResult
  split
  · rename_i nothing
    subst nothing
    exact Reads.look (reads_eat_not nofun) (Reads.pure _ [])
  · exact Reads.next (reads_eat .arrow) (reads_anyTy written nofun)

private theorem length_listed (tss : List (List Token)) :
    tss.length ≤ (Token.listed tss).length + 1 := by
  cases tss with
  | nil => simp
  | cons ts more =>
    have behind : more.length ≤ (more.flatMap fun ts => .punct .comma :: ts).length := by
      induction more with
      | nil => simp
      | cons us more ih =>
        simp only [List.flatMap_cons, List.length_append, List.length_cons]
        omega
    simp only [Token.listed, List.length_append, List.length_cons]
    omega

theorem reads_signature {s : MethodSig} (legible : s.Legible) :
    Reads signature s.tokens s [] := by
  refine Reads.bind (reads_tag s.tag) (Reads.next (reads_eatWord "fn") ?_)
  refine Reads.next (reads_expectIdent s.name) (Reads.next (reads_expect .lparen) ?_)
  rw [List.append_cons]
  refine Reads.look reads_remaining (Reads.bind (reads_groups legible.params ?_) ?_)
  · have groups := length_listed s.paramGroups
    simp only [List.length_append, List.length_cons]
    omega
  · exact Reads.last (reads_resultTy legible.ret) (Reads.pure _ [])

/-! ### What is read from a text -/

variable {c : Cursor}

/-- The identifier behind a word that was not taken is another one. -/
private theorem givesAt_otherName {word : String} {c' : Cursor}
    (ran : eatWord word c = .ok (false, c')) :
    GivesAt c' expectIdent fun name => name ≠ word ∧ IsIdent name := by
  intro name c'' legible taken
  obtain ⟨ident, legible'⟩ := gives_expectIdent c' name c'' legible taken
  refine ⟨⟨?_, ident⟩, legible'⟩
  rintro rfl
  simp only [expectIdent] at taken
  split at taken
  · rename_i shape
    cases taken
    simp only [eatWord, eatIf] at ran
    split at ran
    · rename_i empty
      cases ran
      rw [empty] at shape
      cases shape
    · rename_i t rest front
      split at ran
      · cases ran
      · rename_i other
        cases ran
        rw [front] at shape
        cases shape
        simp [Token.isWord] at other
  · cases taken

/-- A first parameter with a name of a certain kind, and those behind it. -/
private theorem givesAt_namedParams {n : Nat} {Q : String → Prop}
    (front : GivesAt c expectIdent fun name => Q name ∧ IsIdent name)
    (later : Gives (signatureParams n false) fun read => AreWritten true read.2) :
    GivesAt c (namedParams n) fun read =>
      read.1 = false ∧ (∀ p ∈ read.2.head?, Q p.1) ∧ AreWritten true read.2 := by
  unfold namedParams
  refine front.bind ?_
  rintro name c' ⟨certain, ident⟩ -
  refine (gives_expect.bind fun _ _ => gives_anyTy.bind fun t written => ?_) c'
  refine gives_eat.bind fun more _ => ?_
  have single : ∀ p ∈ [(name, t)].head?, Q p.1 := by
    rintro _ ⟨⟩
    exact certain
  cases more with
  | true =>
    refine later.bind fun read rest => Gives.pure ⟨rfl, single, ?_⟩
    exact ⟨List.forall_mem_cons.mpr ⟨ident, rest.names⟩,
      List.forall_mem_cons.mpr ⟨written, rest.types⟩, nofun⟩
  | false =>
    refine gives_expect.bind fun _ _ => Gives.pure ⟨rfl, single, ?_⟩
    exact ⟨by simpa using ident, by simpa using written, nofun⟩

private theorem gives_signatureParams {n : Nat} {first : Bool} :
    Gives (signatureParams n first) fun read => AreWritten (read.1 || !first) read.2 := by
  induction n generalizing first with
  | zero => exact gives_unexpected
  | succ n ih =>
    have later : Gives (signatureParams n false) fun read => AreWritten true read.2 :=
      fun c => (ih c).mono fun read written => by simpa using written
    unfold signatureParams
    refine gives_eat.bind fun closed _ => ?_
    cases closed with
    | true => exact Gives.pure ⟨nofun, nofun, nofun⟩
    | false =>
      cases first with
      | false =>
        intro c
        have named := givesAt_namedParams (Q := fun _ => True)
          ((gives_expectIdent c).mono fun _ ident => ⟨trivial, ident⟩) later
        exact named.mono fun read written => by simpa using written.2.2
      | true =>
        intro c
        refine GivesAt.bind (gives_eatWord c) ?_
        rintro self c' - ran
        cases self with
        | true =>
          refine (gives_eat.bind fun more _ => ?_) c'
          cases more with
          | true => exact later.bind fun read written => Gives.pure written
          | false => exact gives_expect.bind fun _ _ => Gives.pure ⟨nofun, nofun, nofun⟩
        | false =>
          refine (givesAt_namedParams (givesAt_otherName ran) later).mono ?_
          rintro ⟨receiver, params⟩ ⟨rfl, other, written⟩
          exact ⟨written.names, written.types, fun _ => other⟩

private theorem gives_tag : Gives methodTag fun _ => True := by
  refine gives_eatWord.bind fun const _ => ?_
  cases const with
  | true => exact Gives.pure trivial
  | false =>
    refine gives_eatWord.bind fun taken _ => ?_
    cases taken with
    | true => exact Gives.pure trivial
    | false => exact Gives.pure trivial

private theorem gives_resultTy : Gives resultTy Ty.Written := by
  refine gives_eat.bind fun arrow _ => ?_
  cases arrow with
  | true => exact gives_anyTy
  | false => exact Gives.pure .unit

/-- Every signature that is read from a text can be read. -/
theorem gives_signature : Gives signature Legible := by
  refine gives_tag.bind fun tag _ => gives_eatWord.bind fun word _ => ?_
  cases word with
  | false => exact gives_unexpected
  | true =>
    refine gives_expectIdent.bind fun name ident => gives_expect.bind fun _ _ => ?_
    refine gives_remaining.bind fun n _ => gives_signatureParams.bind fun read params => ?_
    refine gives_resultTy.bind fun ret written => Gives.pure ⟨ident, ?_, written⟩
    simpa using params

end MethodSig

/-- What was read from a text is read again from the text it prints as: a type, a trait reference or
a signature in which no path begins with the segment of the prelude. -/
theorem parse_text_of_parse (source : String) :
    (∀ t, Ty.parse source = .ok t → t.mentionsPrelude = false → Ty.parse t.text = .ok t) ∧
    (∀ t, TraitRef.parse source = .ok t → t.mentionsPrelude = false →
      TraitRef.parse t.text = .ok t) ∧
    (∀ s, MethodSig.parse source = .ok s → s.mentionsPrelude = false →
      MethodSig.parse s.text = .ok s) := by
  refine ⟨fun t parsed outside => ?_, fun t parsed outside => ?_, fun s parsed outside => ?_⟩
  · have written : t.Written := gives_anyTy.of_runOn parsed
    have split := (written.spells outside).lexes [] [] nofun Lexes.nil
    rw [List.append_nil, List.append_nil] at split
    exact runOn_of_reads split (reads_anyTy written nofun)
  · have written : t.Written := gives_traitRef.of_runOn parsed
    have split := (written.spells outside).lexes [] [] nofun Lexes.nil
    rw [List.append_nil, List.append_nil] at split
    exact runOn_of_reads split (reads_traitRef written nofun)
  · have legible : s.Legible := MethodSig.gives_signature.of_runOn parsed
    exact runOn_of_reads (legible.lexes outside) (MethodSig.reads_signature legible)

private theorem eq_ok_of_toOption {α : Type} {r : Except ParseError α} {a : α}
    (given : r.toOption = some a) : r = .ok a := by
  cases r with
  | error e => cases given
  | ok b =>
    cases given
    rfl

/-- A function type. -/
def listTy : Ty := .fn [.named "T" [], .unit] (.named "shop::List" [.infer, .const "3"])

/-- A trait with an argument and a constraint. -/
def intoRef : TraitRef := ⟨"shop::Into", [.selfTy], [("Out", .fn [] .unit)]⟩

/-- A method with a receiver and with parameters of every sort of type. -/
def foldSig : MethodSig where
  name := "fold"
  tag := .const
  receiver := true
  params := [("items", listTy), ("item", .projection .selfTy "Item"),
    ("into", .promise "Into" [] [("Out", .fn [] .unit)])]
  ret := .named "T" []

/-- Blanks, leading zeros, a unit result and a comma at the end go away, and nothing else does. -/
theorem parse_text_of_parse_fold :
    (Ty.parse "fn( T,())->shop::List< _ ,03 >" = .ok listTy ∧ Ty.parse listTy.text = .ok listTy) ∧
    (TraitRef.parse "shop::Into<Self,Out=fn()->()>" = .ok intoRef ∧
      TraitRef.parse intoRef.text = .ok intoRef) ∧
    (MethodSig.parse ("const fn fold(self, items: fn(T, ()) -> shop::List<_, 3>, " ++
        "item: Self::Item, into: impl Into<Out = fn()->()>,) -> T") = .ok foldSig ∧
      MethodSig.parse foldSig.text = .ok foldSig) := by
  have type : Ty.parse "fn( T,())->shop::List< _ ,03 >" = .ok listTy :=
    eq_ok_of_toOption (by decide +kernel)
  have bound : TraitRef.parse "shop::Into<Self,Out=fn()->()>" = .ok intoRef :=
    eq_ok_of_toOption (by decide +kernel)
  have signature : MethodSig.parse ("const fn fold(self, items: fn(T, ()) -> shop::List<_, 3>, " ++
      "item: Self::Item, into: impl Into<Out = fn()->()>,) -> T") = .ok foldSig :=
    eq_ok_of_toOption (by decide +kernel)
  exact ⟨⟨type, (parse_text_of_parse _).1 listTy type (by decide +kernel)⟩,
    ⟨bound, (parse_text_of_parse _).2.1 intoRef bound (by decide +kernel)⟩,
    signature, (parse_text_of_parse _).2.2 foldSig signature (by decide +kernel)⟩

end Pipeline
