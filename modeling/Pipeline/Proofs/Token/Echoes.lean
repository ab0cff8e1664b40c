import Pipeline.Proofs.Token.Moves

/-!
# Readers before other tokens

What a reader does depends on the tokens that it takes, on the stretches of text between them, and
on the token behind them as far as it looks at that one. In front of other tokens that are alike it
comes to the same value, wherever in whatever text they stand.
-/

set_option autoImplicit false
set_option relaxedAutoImplicit false

namespace Pipeline

/-- The first tokens left are alike in two texts: they are the same, and so is the text from the
beginning of one of them to the end of a later one. -/
structure Cursor.Agree (source source' : List Char) (n : Nat) (c d : Cursor) : Prop where
  tokens : ∀ i < n, ∃ s t, c.rest[i]? = some s ∧ d.rest[i]? = some t ∧ s.token = t.token
  texts : ∀ i j, i ≤ j → j < n → ∀ s ∈ c.rest[i]?, ∀ t ∈ d.rest[i]?, ∀ s' ∈ c.rest[j]?,
    ∀ t' ∈ d.rest[j]?, Text.slice source s.start s'.stop = Text.slice source' t.start t'.stop

namespace Cursor.Agree

variable {source source' : List Char} {m n : Nat} {c d : Cursor}

theorem mono (agree : Agree source source' n c d) (le : m ≤ n) : Agree source source' m c d :=
  ⟨fun i below => agree.tokens i (Nat.lt_of_lt_of_le below le),
    fun i j order below => agree.texts i j order (Nat.lt_of_lt_of_le below le)⟩

theorem skip (agree : Agree source source' (m + n) c d) :
    Agree source source' n (c.skip m) (d.skip m) := by
  constructor
  · intro i below
    simp only [rest_skip, List.getElem?_drop]
    exact agree.tokens (m + i) (by omega)
  · intro i j order below
    simp only [rest_skip, List.getElem?_drop]
    exact agree.texts (m + i) (m + j) (by omega) (by omega)

theorem peek? (agree : Agree source source' n c d) (some_token : 0 < n) : c.peek? = d.peek? := by
  obtain ⟨s, t, here, there, same⟩ := agree.tokens 0 some_token
  rw [← skip_zero c, ← skip_zero d, peek?_skip, peek?_skip, here, there, Option.map_some,
    Option.map_some, same]

theorem le_length (agree : Agree source source' n c d) : n ≤ d.rest.length := by
  cases n with
  | zero => exact Nat.zero_le _
  | succ n =>
    obtain ⟨-, t, -, there, -⟩ := agree.tokens n (Nat.lt_succ_self n)
    exact (List.getElem?_eq_some_iff.mp there).1

end Cursor.Agree

namespace Reader

variable {α β : Type}

/-- What one reader does from a cursor another one does from a cursor before tokens that are alike
as far as the first one goes. The token behind them is the same too, or one that `ends` what is
read. -/
def Echoes (source source' : List Char) (ends : Option Token → Prop) (c d : Cursor)
    (r r' : Reader α) : Prop :=
  ∀ n a, n ≤ c.rest.length → r c = .ok (a, c.skip n) → Cursor.Agree source source' n c d →
    (c.skip n).peek? = (d.skip n).peek? ∨ ends (d.skip n).peek? → r' d = .ok (a, d.skip n)

variable {source source' : List Char} {ends ends' : Option Token → Prop} {c d : Cursor}
  {r r' : Reader α} {f f' : α → Reader β} {i j n : Nat}

theorem Echoes.pure (a : α) : Echoes source source' ends c d (pure a) (pure a) := by
  intro n b below ran _ _
  obtain ⟨rfl, same⟩ := Prod.mk.inj (Except.ok.inj ran)
  obtain rfl : 0 = n := Cursor.skip_injective (Nat.zero_le _) below same
  rfl

theorem Echoes.mono (echoes : Echoes source source' ends' c d r r')
    (weaker : ∀ t, ends t → ends' t) : Echoes source source' ends c d r r' :=
  fun n a below ran agree close => echoes n a below ran agree (close.imp_right (weaker _))

theorem Echoes.unexpected (what : Expected) :
    Echoes source source' ends c d (unexpected what : Reader α) r' := by
  intro n a _ ran
  cases ran

/-- Two steps. What ends the first one plays no part where the second one takes a token. -/
theorem Echoes.bind (moves : MovesAt c i r) (moves' : ∀ a, Moves j (f a))
    (first : Echoes source source' ends' c d r r') (weaker : j = 0 → ∀ t, ends t → ends' t)
    (second : ∀ a n, i ≤ n → n ≤ c.rest.length → n ≤ d.rest.length → r c = .ok (a, c.skip n) →
      Echoes source source' ends (c.skip n) (d.skip n) (f a) (f' a)) :
    Echoes source source' ends c d (r >>= f) (r' >>= f') := by
  intro n b below ran agree close
  obtain ⟨a, c', first_ran, ran'⟩ := bind_eq_ok.mp ran
  obtain ⟨m, least, here, rfl⟩ := moves a c' first_ran
  obtain ⟨k, least', there, place⟩ := moves' a (c.skip m) b _ ran'
  rw [Cursor.rest_skip, List.length_drop] at there
  rw [← Cursor.skip_add] at place
  obtain rfl : n = m + k := Cursor.skip_injective below (by omega) place
  have between : (c.skip m).peek? = (d.skip m).peek? ∨ ends' (d.skip m).peek? := by
    cases k with
    | zero => exact close.imp_right (weaker (Nat.le_zero.mp least') _)
    | succ k => exact Or.inl (agree.skip.peek? (Nat.succ_pos k))
  have inside : m ≤ d.rest.length := Nat.le_trans (Nat.le_add_right m k) agree.le_length
  rw [Cursor.skip_add] at ran' close
  rw [Cursor.skip_add m k d] at close ⊢
  have echo := first m a here first_ran (agree.mono (Nat.le_add_right m k)) between
  have echo' := second a m least here inside first_ran k b (by simpa using there) ran' agree.skip close
  exact bind_eq_ok.mpr ⟨a, _, echo, echo'⟩

/-- One token is taken. -/
theorem Echoes.token (Here : Option Token → α → Prop)
    (reads : ∀ {c : Cursor} {a c'}, r c = .ok (a, c') ↔ Here c.peek? a ∧ c' = c.skip 1)
    (some_token : ∀ a, ¬ Here none a) : Echoes source source' ends c d r r := by
  intro n a below ran agree _
  obtain ⟨here, place⟩ := reads.mp ran
  cases front : c.peek? with
  | none => exact absurd (front ▸ here) (some_token a)
  | some t =>
    obtain rfl : n = 1 := Cursor.skip_injective below (Cursor.length_pos front) place
    rw [agree.peek? Nat.one_pos] at here
    exact reads.mpr ⟨here, rfl⟩

theorem echoes_expectIdent : Echoes source source' ends c d expectIdent expectIdent :=
  Echoes.token (fun front name => front = some (.ident name)) expectIdent_eq_ok nofun

/-- An identifier, and what comes behind it. -/
theorem Echoes.identBind {k k' : String → Reader α} (moves : ∀ name, Moves j (k name))
    (second : ∀ name n, 1 ≤ n → n ≤ c.rest.length → n ≤ d.rest.length →
      Echoes source source' ends (c.skip n) (d.skip n) (k name) (k' name)) :
    Echoes source source' ends c d (expectIdent >>= k) (expectIdent >>= k') :=
  Echoes.bind (moves_expectIdent c) moves echoes_expectIdent (fun _ _ => id)
    fun name n least below below' _ => second name n least below below'

theorem echoes_expect (p : Punct) : Echoes source source' ends c d (expect p) (expect p) :=
  Echoes.token (fun front _ => front.any (Token.isPunct p) = true) expect_eq_ok nofun

/-- The token at the front is passed over. -/
theorem Echoes.passed {t : Token} (front : c.peek? = some t) (same : c.peek? = d.peek?)
    (moves : Moves 0 r) (next : 1 ≤ c.rest.length → 1 ≤ d.rest.length →
      Echoes source source' ends (c.skip 1) (d.skip 1) r r') :
    Echoes source source' ends c d (advance? >>= fun _ => r) (advance? >>= fun _ => r') := by
  intro n a below ran agree close
  have here := Cursor.length_pos front
  have there := Cursor.length_pos (same ▸ front)
  obtain ⟨_, c', passed, ran⟩ := bind_eq_ok.mp ran
  rw [advance?_eq_ok front] at passed
  cases passed
  obtain ⟨k, -, inside, place⟩ := moves _ a _ ran
  rw [Cursor.rest_skip, List.length_drop] at inside
  rw [← Cursor.skip_add] at place
  obtain rfl : n = 1 + k := Cursor.skip_injective below (by omega) place
  refine bind_eq_ok.mpr ⟨some t, d.skip 1, advance?_eq_ok (same ▸ front), ?_⟩
  rw [Cursor.skip_add] at ran
  simp only [Cursor.skip_add 1 k] at close ⊢
  refine next here there k a ?_ ran agree.skip close
  rwa [Cursor.rest_skip, List.length_drop]

/-- What depends on the token at the front is the same where this token is, and has to be said where
nothing is taken and another one stands there. -/
theorem Echoes.peek {k k' : Option Token → Reader α}
    (inside : c.peek? = d.peek? → Echoes source source' ends c d (k c.peek?) (k' c.peek?))
    (border : ∀ a, ends d.peek? → k c.peek? c = .ok (a, c) → k' d.peek? d = .ok (a, d)) :
    Echoes source source' ends c d (peek? >>= k) (peek? >>= k') := by
  intro n a below ran agree close
  change k c.peek? c = .ok (a, c.skip n) at ran
  change k' d.peek? d = .ok (a, d.skip n)
  by_cases same : c.peek? = d.peek?
  · rw [← same]
    exact inside same n a below ran agree close
  · cases n with
    | zero => exact border a (close.resolve_left same) ran
    | succ n => exact absurd (agree.peek? (Nat.succ_pos n)) same

/-- What comes after counting depends on the number of tokens left. -/
theorem Echoes.remaining {k k' : Nat → Reader α}
    (next : Echoes source source' ends c d (k c.rest.length) (k' d.rest.length)) :
    Echoes source source' ends c d (remaining >>= k) (remaining >>= k') := next

/-- A reader that takes a token depends on the one at the front. -/
theorem Echoes.front {k k' : Option Token → Reader α} (moves : MovesAt c 1 (peek? >>= k))
    (inside : c.peek? = d.peek? → Echoes source source' ends c d (k c.peek?) (k' c.peek?)) :
    Echoes source source' ends c d (peek? >>= k) (peek? >>= k') :=
  Echoes.peek inside fun _ _ ran => absurd ran moves.ne_self

/-- Two ways to go on, by whether a mark stands at the front. What ends the reading is no such mark
if no token needs to be taken without it. -/
theorem Echoes.ifEat {p : Punct} {yes yes' no no' : Reader α} (moves : Moves 0 yes)
    (moves' : Moves j no) (refused : j = 0 → ∀ t, ends t → t.any (Token.isPunct p) = false)
    (taken : 1 ≤ c.rest.length → 1 ≤ d.rest.length →
      Echoes source source' ends (c.skip 1) (d.skip 1) yes yes')
    (left : Echoes source source' ends c d no no') :
    Echoes source source' ends c d (eat p >>= fun here => if here = true then yes else no)
      (eat p >>= fun here => if here = true then yes' else no') := by
  intro n a below ran agree close
  obtain ⟨here, c', ate, ran⟩ := bind_eq_ok.mp ran
  obtain ⟨front, rfl⟩ := eat_eq_ok.mp ate
  cases here with
  | false =>
    have least := (moves' c).least below ran
    have front' : false = d.peek?.any (Token.isPunct p) := by
      cases n with
      | succ n => rw [front, agree.peek? (Nat.succ_pos n)]
      | zero =>
        rcases close with same | closed
        · rw [front]
          exact congrArg _ same
        · exact (refused (Nat.le_zero.mp least) _ closed).symm
    exact bind_eq_ok.mpr ⟨false, d, eat_eq_ok.mpr ⟨front', rfl⟩, left n a below ran agree close⟩
  | true =>
    obtain ⟨t, first⟩ := Option.isSome_iff_exists.mp (Option.isSome_of_any front.symm)
    have here := Cursor.length_pos first
    obtain ⟨k, -, inside, place⟩ := moves _ a _ ran
    rw [if_pos rfl, Cursor.rest_skip, List.length_drop] at inside
    rw [if_pos rfl, ← Cursor.skip_add] at place
    obtain rfl : n = 1 + k := Cursor.skip_injective below (by omega) place
    have there : 1 ≤ d.rest.length := Nat.le_trans (Nat.le_add_right 1 k) agree.le_length
    have front' : true = d.peek?.any (Token.isPunct p) := by
      rw [front, agree.peek? (Nat.lt_add_right k Nat.one_pos)]
    refine bind_eq_ok.mpr ⟨true, _, eat_eq_ok.mpr ⟨front', rfl⟩, ?_⟩
    rw [if_pos rfl, Cursor.skip_add] at ran
    simp only [Cursor.skip_add 1 k] at close ⊢
    refine taken here there k a ?_ ran agree.skip close
    rwa [Cursor.rest_skip, List.length_drop]

/-- Without a separator at the front there are no more segments. -/
theorem moreSegments_of_refused (fuel : Nat) (refused : c.peek?.any (Token.isPunct .pathSep) = false) :
    moreSegments fuel c = .ok ([], c) := by
  cases fuel with
  | zero => rfl
  | succ fuel => exact bind_eq_ok.mpr ⟨false, c, eat_eq_ok.mpr ⟨refused.symm, rfl⟩, rfl⟩

/-- The segments behind a first one that stand at the front are taken. -/
theorem echoes_moreSegments {fuel fuel' : Nat}
    (refused : ∀ t, ends t → t.any (Token.isPunct .pathSep) = false)
    (enough : c.rest.length ≤ fuel) (enough' : d.rest.length ≤ fuel') :
    Echoes source source' ends c d (moreSegments fuel) (moreSegments fuel') := by
  have later (fuel : Nat) : Moves 1 (do
      let name ← expectIdent
      return name :: (← moreSegments fuel)) :=
    moves_expectIdent.last fun name => (moves_moreSegments fuel).last fun rest => Moves.pure _
  induction fuel generalizing c d fuel' with
  | zero =>
    intro n segments below ran agree close
    obtain rfl : n = 0 := by omega
    cases ran
    refine moreSegments_of_refused fuel' ?_
    rcases close with same | closed
    · rw [← d.skip_zero, ← same, Cursor.peek?_skip]
      simp [enough]
    · exact refused _ closed
  | succ fuel ih =>
    cases fuel' with
    | zero =>
      intro n segments below ran agree close
      obtain rfl : n = 0 := Nat.le_zero.mp (Nat.le_trans agree.le_length enough')
      obtain ⟨taken, next, ate, ran⟩ := bind_eq_ok.mp ran
      obtain ⟨-, rfl⟩ := eat_eq_ok.mp ate
      cases taken with
      | false =>
        cases ran
        rfl
      | true =>
        obtain ⟨k, least, inside, place⟩ := later fuel _ segments _ ran
        rw [Cursor.rest_skip, List.length_drop, if_pos rfl] at inside
        rw [← Cursor.skip_add, if_pos rfl] at place
        have := Cursor.skip_injective below (by omega) place
        omega
    | succ fuel' =>
      refine Echoes.ifEat ((later fuel).mono (Nat.zero_le 1)) (Moves.pure [])
        (fun _ => refused) (fun here there => ?_) (Echoes.pure [])
      refine Echoes.identBind (j := 0) ?_ ?_
      · exact fun name => (moves_moreSegments fuel).last fun rest => Moves.pure _
      · intro name n least inside inside'
        simp only [Cursor.rest_skip, List.length_drop] at inside inside'
        refine Echoes.bind (moves_moreSegments fuel _) (fun _ => Moves.pure _) (ih ?_ ?_)
          (fun _ _ => id) fun rest _ _ _ _ _ => Echoes.pure _
        · simp only [Cursor.rest_skip, List.length_drop]
          omega
        · simp only [Cursor.rest_skip, List.length_drop]
          omega

end Reader
end Pipeline
