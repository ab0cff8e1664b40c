import Pipeline.Proofs.Token.Reading
import Pipeline.Proofs.Ty.Tokens
import Pipeline.Ty.Written

/-!
# Reading the tokens of a type

The readers of types come back with the type whose tokens stand in front of them, if a type can end
there; and what they read from the tokens of any text are types that can be read. Three calls for
each token are fuel enough.
-/

set_option autoImplicit false
set_option relaxedAutoImplicit false

namespace Pipeline.Written

open Reader

/-- Tokens before which a type can end. -/
def Ends (back : List Token) : Prop :=
  ∀ t ∈ back.head?, t = .punct .comma ∨ t = .punct .rparen ∨ t = .punct .gt

theorem Ends.cons {t : Token} {back : List Token}
    (ending : t = .punct .comma ∨ t = .punct .rparen ∨ t = .punct .gt) : Ends (t :: back) := by
  rintro _ ⟨⟩
  exact ending

theorem Ends.isPunct {p : Punct} {back : List Token} (ends : Ends back)
    (other : p ∉ [.comma, .rparen, .gt]) : ∀ t ∈ back.head?, t.isPunct p = false := by
  intro t here
  simp only [List.mem_cons, List.not_mem_nil, or_false, not_or] at other
  obtain rfl | rfl | rfl := ends t here <;> simp [Token.isPunct, Ne.symm, other]

variable {back : List Token}

/-! ### Coming back with the type written -/

theorem reads_path {first : String} {more : List String}
    (ends : ∀ t ∈ back.head?, t.isPunct .pathSep = false) :
    Reads path (.ident first :: Token.ofSegments more) (first :: more) back := by
  have enough : more.length ≤ (Token.ofSegments more ++ back).length := by
    have length : (Token.ofSegments more).length = more.length * 2 := by
      simp [Token.ofSegments]
    rw [List.length_append]
    omega
  refine Reads.next (reads_expectIdent first) (Reads.look reads_remaining ?_)
  exact Reads.last (reads_moreSegments enough ends) (Reads.pure _ back)

/-- The readers of types come back with this type. -/
def Returns (t : Ty) : Prop :=
  ∀ n back, 3 * t.tokens.length ≤ n → Ends back → Reads (ty n) t.tokens t back

/-- The second token of a type is not the mark of a constraint. -/
theorem second_token {t : Ty} (written : t.Written) (ends : Ends back) :
    ((t.tokens ++ back).drop 1).head? ≠ some (.punct .eq) := by
  have other : back.head? ≠ some (.punct .eq) := by
    intro here
    obtain same | same | same := ends _ here <;> cases same
  cases written with
  | @named first more args free idents _ =>
    rw [Ty.tokens, Token.ofPath_ofSegments idents]
    cases more with
    | cons => simp [Token.ofSegments]
    | nil =>
      cases args with
      | nil => simpa [Token.ofSegments, Ty.tokensList, Token.inBrackets] using other
      | cons => simp [Token.ofSegments, Ty.tokensList, Token.inBrackets]
  | const | selfTy | infer => simpa [Ty.tokens] using other
  | fn | projection | unit => simp [Ty.tokens]
  | promise idents => simp [Ty.tokens, Token.ofPath_ofSegments idents]

/-- A constraint at the end of the brackets. -/
theorem reads_lastConstraint {name : String} {t : Ty} {n : Nat} {constrained : Bool}
    (returns : Returns t) (enough : 3 * t.tokens.length ≤ n) :
    Reads (angledItems (n + 1) true constrained)
      (Ty.constraintTokens (name, t) ++ [.punct .gt]) ([], [(name, t)]) back := by
  unfold angledItems
  refine Reads.look reads_peek? (Reads.look reads_peekSecond? ?_)
  refine Reads.next (reads_expectIdent name) (Reads.next (reads_expect .eq) ?_)
  refine Reads.bind (returns n _ enough (Ends.cons (.inr (.inr rfl)))) ?_
  exact Reads.last (reads_eat .gt) (Reads.pure _ back)

/-- A constraint before other constraints. -/
theorem reads_constraint {name : String} {t : Ty} {n : Nat} {constrained : Bool}
    {front : List Token} {args : List Ty} {assoc : List (String × Ty)}
    (returns : Returns t) (enough : 3 * t.tokens.length ≤ n)
    (later : Reads (angledItems n true true) front (args, assoc) back) :
    Reads (angledItems (n + 1) true constrained)
      (Ty.constraintTokens (name, t) ++ .punct .comma :: front) (args, (name, t) :: assoc)
      back := by
  unfold angledItems
  refine Reads.look reads_peek? (Reads.look reads_peekSecond? ?_)
  refine Reads.next (reads_expectIdent name) (Reads.next (reads_expect .eq) ?_)
  refine Reads.bind (returns n _ enough (Ends.cons (.inl rfl))) ?_
  refine Reads.look (reads_eat_not ?_) (Reads.next (reads_expect .comma) ?_)
  · rintro _ ⟨⟩
    rfl
  · exact Reads.last later (Reads.pure _ back)

/-- A type at the end of the brackets. -/
theorem reads_lastArg {t : Ty} {n : Nat} {named : Bool} (written : t.Written)
    (returns : Returns t) (enough : 3 * t.tokens.length ≤ n) :
    Reads (angledItems (n + 1) named false) (t.tokens ++ [.punct .gt]) ([t], []) back := by
  unfold angledItems
  refine Reads.look reads_peek? (Reads.look reads_peekSecond? ?_)
  have ends : Ends (.punct .gt :: back) := Ends.cons (.inr (.inr rfl))
  split
  · rename_i second
    exact absurd second (by simpa using second_token written ends)
  · refine Reads.bind (returns n _ enough ends) ?_
    exact Reads.last (reads_eat .gt) (Reads.pure _ back)

/-- A type before other arguments or constraints. -/
theorem reads_arg {t : Ty} {n : Nat} {named : Bool} {front : List Token} {args : List Ty}
    {assoc : List (String × Ty)} (written : t.Written) (returns : Returns t)
    (enough : 3 * t.tokens.length ≤ n)
    (later : Reads (angledItems n named false) front (args, assoc) back) :
    Reads (angledItems (n + 1) named false) (t.tokens ++ .punct .comma :: front)
      (t :: args, assoc) back := by
  unfold angledItems
  refine Reads.look reads_peek? (Reads.look reads_peekSecond? ?_)
  have ends : Ends (.punct .comma :: front ++ back) := Ends.cons (.inl rfl)
  split
  · rename_i second
    exact absurd second (by simpa using second_token written ends)
  · refine Reads.bind (returns n _ enough ends) ?_
    refine Reads.look (reads_eat_not ?_) (Reads.next (reads_expect .comma) ?_)
    · rintro _ ⟨⟩
      rfl
    · exact Reads.last later (Reads.pure _ back)

/-- Constraints up to the closing bracket. -/
theorem reads_constraints {c : String × Ty} {rest : List (String × Ty)} {n : Nat}
    {constrained : Bool} (returns : ∀ c' ∈ c :: rest, Returns c'.2)
    (enough : 3 * (Token.listed ((c :: rest).map Ty.constraintTokens)).length < n) :
    Reads (angledItems n true constrained)
      (Token.listed ((c :: rest).map Ty.constraintTokens) ++ [.punct .gt]) ([], c :: rest)
      back := by
  induction rest generalizing c n constrained with
  | nil =>
    cases n with
    | zero => omega
    | succ n =>
      simp only [List.map_cons, List.map_nil, Token.listed, List.flatMap_nil,
        List.append_nil] at enough ⊢
      refine reads_lastConstraint (returns c (by simp)) ?_
      simp only [Ty.constraintTokens, List.length_cons] at enough
      omega
  | cons d rest ih =>
    cases n with
    | zero => omega
    | succ n =>
      rw [List.map_cons, List.map_cons, Token.listed_cons, ← List.map_cons] at enough ⊢
      rw [List.append_assoc, List.cons_append]
      simp only [List.length_append, List.length_cons, Ty.constraintTokens] at enough
      refine reads_constraint (returns c (by simp)) (by omega) ?_
      exact ih (fun c' member => returns c' (List.mem_cons_of_mem _ member)) (by omega)

/-- Types and constraints up to the closing bracket. -/
theorem reads_items {t : Ty} {rest : List Ty} {assoc : List (String × Ty)} {n : Nat} {named : Bool}
    (written : ∀ t' ∈ t :: rest, t'.Written) (returns : ∀ t' ∈ t :: rest, Returns t')
    (returnsAssoc : ∀ c ∈ assoc, Returns c.2) (allowed : assoc = [] ∨ named = true)
    (enough : 3 * (Token.listed (Ty.tokensList (t :: rest) ++ Ty.tokensAssoc assoc)).length < n) :
    Reads (angledItems n named false)
      (Token.listed (Ty.tokensList (t :: rest) ++ Ty.tokensAssoc assoc) ++ [.punct .gt])
      (t :: rest, assoc) back := by
  induction rest generalizing t n with
  | nil =>
    cases n with
    | zero => omega
    | succ n =>
      cases assoc with
      | nil =>
        simp only [Ty.tokensList, Ty.tokensAssoc, List.append_nil, Token.listed,
          List.flatMap_nil] at enough ⊢
        exact reads_lastArg (written t (by simp)) (returns t (by simp)) (by omega)
      | cons c assoc =>
        obtain rfl : named = true := by simpa using allowed
        simp only [Ty.tokensList, List.cons_append, List.nil_append, Ty.tokensAssoc_eq_map,
          List.map_cons, Token.listed_cons] at enough ⊢
        rw [← List.map_cons] at enough ⊢
        rw [List.append_assoc, List.cons_append]
        simp only [List.length_append, List.length_cons] at enough
        exact reads_arg (written t (by simp)) (returns t (by simp)) (by omega)
          (reads_constraints returnsAssoc (by omega))
  | cons u rest ih =>
    cases n with
    | zero => omega
    | succ n =>
      simp only [Ty.tokensList, List.cons_append, Token.listed_cons] at enough ⊢
      rw [List.append_assoc, List.cons_append]
      simp only [List.length_append, List.length_cons] at enough
      refine reads_arg (written t (by simp)) (returns t (by simp)) (by omega) ?_
      exact ih (fun t' member => written t' (List.mem_cons_of_mem _ member))
        (fun t' member => returns t' (List.mem_cons_of_mem _ member)) (by
          simp only [Ty.tokensList, List.cons_append]
          omega)

/-- Arguments and constraints, in brackets if there are any. -/
theorem reads_angled {args : List Ty} {assoc : List (String × Ty)} {n : Nat} {named : Bool}
    (written : ∀ t ∈ args, t.Written) (returns : ∀ t ∈ args, Returns t)
    (returnsAssoc : ∀ c ∈ assoc, Returns c.2) (allowed : assoc = [] ∨ named = true)
    (ends : ∀ t ∈ back.head?, t.isPunct .lt = false)
    (enough : 3 * (Token.inBrackets (Ty.tokensList args ++ Ty.tokensAssoc assoc)).length < n) :
    Reads (angled n named) (Token.inBrackets (Ty.tokensList args ++ Ty.tokensAssoc assoc))
      (args, assoc) back := by
  cases n with
  | zero => omega
  | succ n =>
    unfold angled
    cases args with
    | nil =>
      cases assoc with
      | nil =>
        refine Reads.look (reads_eat_not ends) ?_
        exact Reads.pure _ back
      | cons c assoc =>
        obtain rfl : named = true := by simpa using allowed
        rw [Ty.tokensAssoc_eq_map] at enough ⊢
        simp only [Ty.tokensList, List.nil_append, List.map_cons, Token.inBrackets,
          List.length_append, List.length_cons] at enough ⊢
        refine Reads.next (reads_eat .lt) ?_
        rw [← List.map_cons] at enough ⊢
        exact reads_constraints returnsAssoc (by omega)
    | cons t args =>
      refine Reads.next (reads_eat .lt) (reads_items written returns returnsAssoc allowed ?_)
      simp only [Ty.tokensList, List.cons_append, Token.inBrackets, List.length_append,
        List.length_cons] at enough ⊢
      omega

/-- The first token of a type is no closing parenthesis. -/
theorem first_token {t : Ty} (written : t.Written) :
    ∀ token ∈ (t.tokens ++ back).head?, token.isPunct .rparen = false := by
  cases written with
  | named _ idents _ => simp [Ty.tokens, Token.ofPath_ofSegments idents, Token.isPunct]
  | _ => simp [Ty.tokens, Token.isPunct]

/-- The parameter types of a function type up to the closing parenthesis. -/
theorem reads_params {params : List Ty} {n : Nat} (written : ∀ t ∈ params, t.Written)
    (returns : ∀ t ∈ params, Returns t)
    (enough : 3 * (Token.listed (Ty.tokensList params)).length < n) :
    Reads (tyParams n) (Token.listed (Ty.tokensList params) ++ [.punct .rparen]) params back := by
  induction params generalizing n with
  | nil =>
    cases n with
    | zero => omega
    | succ n => exact Reads.next (reads_eat .rparen) (Reads.pure [] back)
  | cons t rest ih =>
    rw [List.forall_mem_cons] at written returns
    cases n with
    | zero => omega
    | succ n =>
      have opening {more : List Token} :
          ∀ token ∈ (t.tokens ++ more ++ back).head?, token.isPunct .rparen = false := by
        rw [List.append_assoc]
        exact first_token written.1
      unfold tyParams
      cases rest with
      | nil =>
        simp only [Ty.tokensList, Token.listed, List.flatMap_nil, List.append_nil] at enough ⊢
        refine Reads.look (reads_eat_not opening) ?_
        refine Reads.bind (returns.1 n _ (by omega) (Ends.cons (.inr (.inl rfl)))) ?_
        refine Reads.look (reads_eat_not ?_) (Reads.last (reads_expect .rparen) (Reads.pure _ back))
        rintro _ ⟨⟩
        rfl
      | cons u rest =>
        rw [Ty.tokensList, Ty.tokensList, Token.listed_cons, ← Ty.tokensList] at enough ⊢
        rw [List.append_assoc, List.cons_append]
        simp only [List.length_append, List.length_cons] at enough
        refine Reads.look (reads_eat_not opening) ?_
        refine Reads.bind (returns.1 n _ (by omega) (Ends.cons (.inl rfl))) ?_
        refine Reads.next (reads_eat .comma) (Reads.last ?_ (Reads.pure _ back))
        exact ih written.2 returns.2 (by omega)

/-- Tokens behind a path that do not continue it. -/
private theorem inBrackets_no_pathSep {tss : List (List Token)} (ends : Ends back) :
    ∀ t ∈ (Token.inBrackets tss ++ back).head?, t.isPunct .pathSep = false := by
  cases tss with
  | nil => exact ends.isPunct (by decide)
  | cons ts more =>
    rintro _ ⟨⟩
    rfl

/-- The type that begins with a path, behind the path. -/
private def pathTy (fuel : Nat) (written : List String) : Reader Ty :=
  match selfPath? written with
  | some t => return t
  | none => do
    let (args, _) ← angled fuel false
    return .named (Path.ofSegments written) args

private theorem reads_ty_of_path {first : String} {front : List Token} {t : Ty} {n : Nat}
    (infer : first ≠ "_") (impl : first ≠ "impl") (fn : first ≠ "fn")
    (read : Reads (path >>= pathTy n) (.ident first :: front) t back) :
    Reads (ty (n + 1)) (.ident first :: front) t back := by
  unfold ty
  refine Reads.look reads_peek? ?_
  rw [List.cons_append, List.head?_cons]
  split
  · rename_i same
    cases same
  · rename_i same
    cases same
  · rename_i same
    cases same
    exact absurd rfl infer
  · rename_i same
    cases same
    exact absurd rfl impl
  · rename_i same
    cases same
    exact absurd rfl fn
  · exact read
  · rename_i other
    exact absurd rfl (other first)

private theorem selfPath?_of_not_reserved {first : String} {more : List String}
    (free : Ty.isReserved first = false) : selfPath? (first :: more) = none := by
  have other : first ≠ "Self" := by
    rintro rfl
    exact absurd free (by decide)
  unfold selfPath?
  split <;> simp_all

private theorem returns_named {first : String} {more : List String} {args : List Ty}
    (free : Ty.isReserved first = false) (idents : ∀ name ∈ first :: more, IsIdent name)
    (written : ∀ t ∈ args, t.Written) (returns : ∀ t ∈ args, Returns t) :
    Returns (.named (Path.ofSegments (first :: more)) args) := by
  intro n back enough ends
  have items : Ty.tokensList args = Ty.tokensList args ++ Ty.tokensAssoc [] := by
    simp [Ty.tokensAssoc]
  rw [Ty.tokens, Token.ofPath_ofSegments idents] at enough ⊢
  rw [List.length_append, List.length_cons, items] at enough
  simp only [Ty.isReserved, Bool.or_eq_false_iff, decide_eq_false_iff_not] at free
  cases n with
  | zero => omega
  | succ n =>
    refine reads_ty_of_path free.1.1.1 free.1.1.2 free.1.2 ?_
    refine Reads.bind (reads_path (inBrackets_no_pathSep ends)) ?_
    rw [pathTy, selfPath?_of_not_reserved (by simp [Ty.isReserved, free]), items]
    refine Reads.last (reads_angled written returns (by simp) (.inl rfl) ?_ (by omega))
      (Reads.pure _ back)
    exact ends.isPunct (by decide)

private theorem returns_projection {first : String} {more : List String}
    (idents : ∀ name ∈ first :: more, IsIdent name) :
    Returns (.projection .selfTy (Path.ofSegments (first :: more))) := by
  intro n back enough ends
  cases n with
  | zero => simp [Ty.tokens] at enough
  | succ n =>
    have tokens : (Ty.projection .selfTy (Path.ofSegments (first :: more))).tokens =
        .ident "Self" :: Token.ofSegments (first :: more) := by
      simp [Ty.tokens, Token.ofPath_ofSegments idents, Token.ofSegments]
    rw [tokens]
    refine reads_ty_of_path (by decide) (by decide) (by decide) ?_
    refine Reads.last (reads_path (ends.isPunct (by decide))) ?_
    exact Reads.pure _ back

private theorem returns_promise {first : String} {more : List String} {args : List Ty}
    {assoc : List (String × Ty)} (idents : ∀ name ∈ first :: more, IsIdent name)
    (written : ∀ t ∈ args, t.Written) (returns : ∀ t ∈ args, Returns t)
    (returnsAssoc : ∀ c ∈ assoc, Returns c.2) :
    Returns (.promise (Path.ofSegments (first :: more)) args assoc) := by
  intro n back enough ends
  rw [Ty.tokens, Token.ofPath_ofSegments idents] at enough ⊢
  simp only [List.length_append, List.length_cons] at enough
  cases n with
  | zero => omega
  | succ n =>
    unfold ty
    refine Reads.look reads_peek? (Reads.next (reads_advance? _) ?_)
    refine Reads.bind (reads_path (inBrackets_no_pathSep ends)) ?_
    refine Reads.last (reads_angled written returns returnsAssoc (.inr rfl) ?_ (by omega))
      (Reads.pure _ back)
    exact ends.isPunct (by decide)

private theorem returns_fn {params : List Ty} {ret : Ty} (written : ∀ t ∈ params, t.Written)
    (returns : ∀ t ∈ params, Returns t) (result : Returns ret) : Returns (.fn params ret) := by
  intro n back enough ends
  rw [Ty.tokens] at enough ⊢
  simp only [List.length_append, List.length_cons, List.cons_append] at enough ⊢
  cases n with
  | zero => omega
  | succ n =>
    unfold ty
    refine Reads.look reads_peek? (Reads.next (reads_advance? _) ?_)
    refine Reads.next (reads_expect .lparen) ?_
    rw [List.append_cons]
    refine Reads.bind (reads_params written returns (by omega)) ?_
    unfold Token.ofResult at enough ⊢
    split
    · rename_i nothing
      subst nothing
      exact Reads.look (reads_eat_not (ends.isPunct (by decide)))
        (Reads.pure _ back)
    · rename_i something
      rw [if_neg something, List.length_cons] at enough
      exact Reads.next (reads_eat .arrow)
        (Reads.last (result n back (by omega) ends) (Reads.pure _ back))

/-- The readers of types come back with every type that can be read. -/
theorem returns_of_written {t : Ty} (written : t.Written) : Returns t := by
  induction written with
  | named free idents each ih => exact returns_named free idents each ih
  | const small =>
    intro n back enough _
    rw [Ty.tokens_const] at enough ⊢
    cases n with
    | zero => simp at enough
    | succ n => exact Reads.look reads_peek? (Reads.next (reads_advance? _) (Reads.pure _ back))
  | fn each _ ih ihResult => exact returns_fn each ih ihResult
  | promise idents each _ _ ih ihTypes => exact returns_promise idents each ih ihTypes
  | projection idents => exact returns_projection idents
  | selfTy =>
    intro n back enough ends
    cases n with
    | zero => simp [Ty.tokens] at enough
    | succ n =>
      refine reads_ty_of_path (by decide) (by decide) (by decide) ?_
      exact Reads.last (@reads_path back "Self" [] (ends.isPunct (by decide))) (Reads.pure _ back)
  | infer =>
    intro n back enough _
    cases n with
    | zero => simp [Ty.tokens] at enough
    | succ n => exact Reads.look reads_peek? (Reads.next (reads_advance? _) (Reads.pure _ back))
  | unit =>
    intro n back enough _
    cases n with
    | zero => simp [Ty.tokens] at enough
    | succ n =>
      refine Reads.look reads_peek? (Reads.next (reads_advance? _) ?_)
      exact Reads.next (reads_expect .rparen) (Reads.pure _ back)

/-! ### What is read from a text -/

variable {c : Cursor}

private theorem gives_behind (first : String) (ident : IsIdent first) :
    Gives (do return first :: (← moreSegments (← remaining))) fun segments =>
      ∃ more, segments = first :: more ∧ ∀ name ∈ first :: more, IsIdent name :=
  gives_remaining.bind fun fuel _ => (gives_moreSegments fuel).bind fun more idents =>
    Gives.pure ⟨more, rfl, List.forall_mem_cons.mpr ⟨ident, idents⟩⟩

theorem gives_path : Gives path fun segments =>
    ∃ first more, segments = first :: more ∧ ∀ name ∈ first :: more, IsIdent name :=
  gives_expectIdent.bind fun first ident c =>
    (gives_behind first ident c).mono fun _ read => ⟨first, read⟩

/-- A path begins with the identifier at the front. -/
theorem givesAt_path {word : String} (front : c.peek? = some (.ident word)) :
    GivesAt c path fun segments =>
      ∃ more, segments = word :: more ∧ ∀ name ∈ word :: more, IsIdent name := by
  refine GivesAt.bind (givesAt_expectIdent front) ?_
  rintro first c' ⟨rfl, ident⟩ -
  exact gives_behind first ident c'

theorem gives_angledItems {n : Nat} {named constrained : Bool}
    (types : ∀ k < n, Gives (ty k) Ty.Written) :
    Gives (angledItems n named constrained) fun items => Ty.AreWritten items.1 items.2 := by
  induction n generalizing constrained with
  | zero => exact gives_unexpected
  | succ n ih =>
    have later (constrained : Bool) :
        Gives (angledItems n named constrained) fun items => Ty.AreWritten items.1 items.2 :=
      ih fun k below => types k (Nat.lt_succ_of_lt below)
    have type := types n (Nat.lt_succ_self n)
    unfold angledItems
    refine gives_peek?.bind fun first _ => gives_peekSecond?.bind fun second _ => ?_
    split
    · cases named with
      | false => exact gives_unexpected
      | true =>
        refine gives_expectIdent.bind fun name ident => gives_expect.bind fun _ _ => ?_
        refine type.bind fun t written => gives_eat.bind fun closed _ => ?_
        cases closed with
        | true => exact Gives.pure ⟨nofun, by simpa using ident, by simpa using written⟩
        | false =>
          refine gives_expect.bind fun _ _ => (later true).bind fun items rest => Gives.pure ?_
          exact ⟨rest.args, List.forall_mem_cons.mpr ⟨ident, rest.names⟩,
            List.forall_mem_cons.mpr ⟨written, rest.types⟩⟩
    · cases constrained with
      | true => exact gives_unexpected
      | false =>
        refine type.bind fun t written => gives_eat.bind fun closed _ => ?_
        cases closed with
        | true => exact Gives.pure ⟨by simpa using written, nofun, nofun⟩
        | false =>
          refine gives_expect.bind fun _ _ => (later false).bind fun items rest => Gives.pure ?_
          exact ⟨List.forall_mem_cons.mpr ⟨written, rest.args⟩, rest.names, rest.types⟩

theorem gives_angled {n : Nat} {named : Bool} (types : ∀ k < n, Gives (ty k) Ty.Written) :
    Gives (angled n named) fun items => Ty.AreWritten items.1 items.2 := by
  cases n with
  | zero => exact gives_unexpected
  | succ n =>
    refine gives_eat.bind fun opened _ => ?_
    cases opened with
    | false => exact Gives.pure ⟨nofun, nofun, nofun⟩
    | true => exact gives_angledItems fun k below => types k (Nat.lt_succ_of_lt below)

theorem gives_tyParams {n : Nat} (types : ∀ k < n, Gives (ty k) Ty.Written) :
    Gives (tyParams n) fun params => ∀ t ∈ params, t.Written := by
  induction n with
  | zero => exact gives_unexpected
  | succ n ih =>
    unfold tyParams
    refine gives_eat.bind fun closed _ => ?_
    cases closed with
    | true => exact Gives.pure nofun
    | false =>
      refine (types n (Nat.lt_succ_self n)).bind fun t written => gives_eat.bind fun more _ => ?_
      cases more with
      | true =>
        refine (ih fun k below => types k (Nat.lt_succ_of_lt below)).bind fun rest each => ?_
        exact Gives.pure (List.forall_mem_cons.mpr ⟨written, each⟩)
      | false => exact gives_expect.bind fun _ _ => Gives.pure (by simpa using written)

/-- The type that begins with a path can be read if its first segment stands at the front. -/
private theorem gives_pathTy {first : String} {more : List String} {n : Nat}
    (infer : first ≠ "_") (impl : first ≠ "impl") (fn : first ≠ "fn")
    (idents : ∀ name ∈ first :: more, IsIdent name) (types : ∀ k < n, Gives (ty k) Ty.Written) :
    Gives (pathTy n (first :: more)) Ty.Written := by
  by_cases self : first = "Self"
  · subst self
    cases more with
    | nil => exact Gives.pure .selfTy
    | cons name more => exact Gives.pure (.projection (List.forall_mem_cons.mp idents).2)
  · have free : Ty.isReserved first = false := by simp [Ty.isReserved, infer, impl, fn, self]
    rw [pathTy, selfPath?_of_not_reserved free]
    refine (gives_angled types).bind fun items each => Gives.pure ?_
    exact .named free idents each.args

/-- Every type that is read from a text can be read. -/
theorem gives_ty (n : Nat) : Gives (ty n) Ty.Written := by
  induction n using Nat.strongRecOn with
  | ind n ih =>
    cases n with
    | zero => exact gives_unexpected
    | succ n =>
      have types : ∀ k < n, Gives (ty k) Ty.Written :=
        fun k below => ih k (Nat.lt_succ_of_lt below)
      unfold ty
      intro c
      refine GivesAt.bind (gives_peek? c) ?_
      rintro front c' legible ⟨⟩
      split
      · exact (gives_advance?.bind fun _ _ => gives_expect.bind fun _ _ => Gives.pure .unit) c
      · rename_i front
        obtain ⟨k, rfl, small⟩ := legible _ front
        exact (gives_advance?.bind fun _ _ => Gives.pure (.const small)) c
      · exact (gives_advance?.bind fun _ _ => Gives.pure .infer) c
      · refine (gives_advance?.bind fun _ _ => gives_path.bind ?_) c
        rintro _ ⟨first, more, rfl, idents⟩
        refine (gives_angled types).bind fun items each => Gives.pure ?_
        exact .promise idents each.args each.names each.types
      · refine (gives_advance?.bind fun _ _ => gives_expect.bind fun _ _ => ?_) c
        refine (gives_tyParams types).bind fun params each => gives_eat.bind fun arrow _ => ?_
        cases arrow with
        | true =>
          refine (ih n (Nat.lt_succ_self n)).bind fun ret written => ?_
          exact Gives.pure (.fn each written)
        | false => exact Gives.pure (.fn each .unit)
      · rename_i infer impl fn front
        refine GivesAt.bind (givesAt_path front) ?_
        rintro _ c' ⟨more, rfl, idents⟩ -
        exact gives_pathTy infer impl fn idents types c'
      · exact gives_unexpected c

/-! ### Without fuel -/

theorem gives_fuel : Gives fuel fun _ => True :=
  gives_remaining.bind fun _ _ => Gives.pure trivial

theorem reads_fuel : Reads fuel [] (3 * back.length + 3) back :=
  Reads.look reads_remaining (Reads.pure _ back)

theorem reads_anyTy {t : Ty} (written : t.Written) (ends : Ends back) :
    Reads anyTy t.tokens t back := by
  refine Reads.look reads_fuel (returns_of_written written _ back ?_ ends)
  rw [List.length_append]
  omega

theorem gives_anyTy : Gives anyTy Ty.Written := gives_fuel.bind fun n _ => gives_ty n

theorem reads_traitRef {t : TraitRef} (written : t.Written) (ends : Ends back) :
    Reads traitRef t.tokens t back := by
  obtain @⟨first, more, args, assoc, idents, items⟩ := written
  rw [TraitRef.tokens, Token.ofPath_ofSegments idents]
  refine Reads.bind (reads_path (inBrackets_no_pathSep ends)) (Reads.look reads_fuel ?_)
  have each : ∀ t ∈ args, Returns t := fun t member => returns_of_written (items.args t member)
  have types : ∀ c ∈ assoc, Returns c.2 := fun c member => returns_of_written (items.types c member)
  refine Reads.last (reads_angled items.args each types (.inr rfl) ?_ ?_) (Reads.pure _ back)
  · exact ends.isPunct (by decide)
  · rw [List.length_append]
    omega

theorem gives_traitRef : Gives traitRef TraitRef.Written := by
  refine gives_path.bind ?_
  rintro _ ⟨first, more, rfl, idents⟩
  refine gives_fuel.bind fun n _ => ?_
  refine (gives_angled fun k _ => gives_ty k).bind fun items written => ?_
  exact Gives.pure (.intro idents written)

/-! ### Bounds and generic parameters -/

/-- Every bound that is read from a text is by a trait that can be read. -/
theorem gives_bounds (n : Nat) : Gives (bounds n) fun bs => ∀ b ∈ bs, b.traitRef.Written := by
  induction n with
  | zero => exact Gives.pure nofun
  | succ n ih =>
    have traits (marked : Bool) : Gives (do
        let t ← traitRef
        if ← eat .plus then return ⟨t, marked⟩ :: (← bounds n) else return [⟨t, marked⟩])
        fun bs => ∀ b ∈ bs, b.traitRef.Written := by
      refine gives_traitRef.bind fun t written => gives_eat.bind fun more _ => ?_
      cases more with
      | true =>
        exact ih.bind fun rest each => Gives.pure (List.forall_mem_cons.mpr ⟨written, each⟩)
      | false => exact Gives.pure (by simpa using written)
    unfold bounds
    refine gives_eat.bind fun marked _ => ?_
    cases marked with
    | false => exact traits false
    | true =>
      refine gives_eatWord.bind fun word _ => ?_
      cases word with
      | false => exact gives_unexpected
      | true => exact traits true

theorem gives_allBounds : Gives allBounds fun bs => ∀ b ∈ bs, b.traitRef.Written :=
  gives_remaining.bind fun n _ => gives_bounds (n + 1)

/-- The generic parameters that can be read. -/
structure ReadableGeneric (g : WrittenGeneric) : Prop where
  constTy : ∀ t ∈ g.constTy, t.Written
  bounds : ∀ b ∈ g.bounds, b.traitRef.Written
  default : ∀ t ∈ g.default, t.Written

theorem gives_generic : Gives generic ReadableGeneric := by
  refine gives_eatWord.bind fun constant _ => ?_
  cases constant with
  | true =>
    refine gives_expectIdent.bind fun name _ => gives_expect.bind fun _ _ => ?_
    refine gives_anyTy.bind fun t written => Gives.pure ⟨?_, nofun, nofun⟩
    rintro _ ⟨⟩
    exact written
  | false =>
    refine gives_expectIdent.bind fun name _ => gives_eat.bind fun bounded _ => ?_
    have behind (bs : List WrittenBound) (each : ∀ b ∈ bs, b.traitRef.Written) : Gives (do
        let default ← if ← eat .eq then some <$> anyTy else pure none
        return ⟨name, none, bs, default⟩) ReadableGeneric := by
      refine gives_eat.bind fun defaulted _ => ?_
      cases defaulted with
      | false => exact Gives.pure ⟨nofun, each, nofun⟩
      | true =>
        have default : Gives (some <$> anyTy) fun t? => ∀ t ∈ t?, t.Written :=
          gives_anyTy.map fun t written => by simpa using written
        exact default.bind fun t? written => Gives.pure ⟨nofun, each, written⟩
    cases bounded with
    | true => exact gives_allBounds.bind behind
    | false => exact behind [] nofun

theorem gives_whereClause :
    Gives whereClause fun clause => clause.1.Written ∧ ∀ b ∈ clause.2, b.traitRef.Written :=
  gives_anyTy.bind fun _ written => gives_expect.bind fun _ _ =>
    gives_allBounds.bind fun _ each => Gives.pure ⟨written, each⟩

end Pipeline.Written
