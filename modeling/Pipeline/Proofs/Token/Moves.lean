import Pipeline.Proofs.Token.Reading

/-!
# How far readers go

A reader moves its cursor forward over some of the tokens and does nothing else to it. There is a
rule for each step that says over how many tokens it moves at least.
-/

set_option autoImplicit false
set_option relaxedAutoImplicit false

namespace Pipeline

namespace Cursor

/-- The cursor behind the first tokens left. -/
def skip : Nat → Cursor → Cursor
  | 0, c => c
  | n + 1, c =>
    match c.rest with
    | [] => c
    | s :: rest => skip n { c with rest := rest, lastStop := s.stop }

variable {c d : Cursor} {m n : Nat}

@[simp] theorem skip_zero (c : Cursor) : c.skip 0 = c := rfl

@[simp] theorem rest_skip (n : Nat) (c : Cursor) : (c.skip n).rest = c.rest.drop n := by
  induction n generalizing c with
  | zero => rfl
  | succ n ih =>
    obtain ⟨rest, lastStop, size⟩ := c
    cases rest with
    | nil => rfl
    | cons s rest => simp [skip, ih]

theorem skip_add (m n : Nat) (c : Cursor) : c.skip (m + n) = (c.skip m).skip n := by
  induction m generalizing c with
  | zero => rw [Nat.zero_add, skip_zero]
  | succ m ih =>
    rw [Nat.succ_add]
    obtain ⟨rest, lastStop, size⟩ := c
    cases rest with
    | nil =>
      have stays (k : Nat) : skip k ⟨[], lastStop, size⟩ = ⟨[], lastStop, size⟩ := by
        cases k <;> rfl
      rw [stays, stays, stays]
    | cons s rest => exact ih ⟨rest, s.stop, size⟩

/-- Behind a token the last stop is the end of this token. -/
theorem lastStop_skip {s : Spanned} (here : c.rest[n]? = some s) :
    (c.skip (n + 1)).lastStop = s.stop := by
  induction n generalizing c with
  | zero =>
    obtain ⟨rest, lastStop, size⟩ := c
    cases rest with
    | nil => cases here
    | cons t rest =>
      cases here
      rfl
  | succ n ih =>
    obtain ⟨rest, lastStop, size⟩ := c
    cases rest with
    | nil => cases here
    | cons t rest => exact @ih ⟨rest, t.stop, size⟩ here

theorem offset_eq {s : Spanned} (front : c.rest[0]? = some s) : c.offset = s.start := by
  obtain ⟨rest, lastStop, size⟩ := c
  cases rest with
  | nil => cases front
  | cons t rest =>
    cases front
    rfl

theorem skip_injective (below : m ≤ c.rest.length) (below' : n ≤ c.rest.length)
    (same : c.skip m = c.skip n) : m = n := by
  have length := congrArg (fun d : Cursor => d.rest.length) same
  simp only [rest_skip, List.length_drop] at length
  omega

theorem length_pos {t : Token} (front : c.peek? = some t) : 0 < c.rest.length := by
  obtain ⟨rest, lastStop, size⟩ := c
  cases rest with
  | nil => cases front
  | cons s rest => exact Nat.succ_pos _

theorem peek?_of_isPunct {p : Punct} (here : c.peek?.any (Token.isPunct p) = true) :
    c.peek? = some (.punct p) := by
  cases front : c.peek? with
  | none =>
    rw [front] at here
    cases here
  | some t =>
    rw [front] at here
    cases t with
    | punct q =>
      obtain rfl : p = q := of_decide_eq_true here
      rfl
    | _ => cases here

theorem peek?_skip (n : Nat) (c : Cursor) : (c.skip n).peek? = c.rest[n]?.map (·.token) := by
  rw [peek?, rest_skip, List.head?_drop]

end Cursor

namespace Reader

variable {α β : Type}

/-! ### Moving forward -/

/-- From a cursor a reader moves over so many tokens at least, if it comes to a value. -/
def MovesAt (c : Cursor) (least : Nat) (r : Reader α) : Prop :=
  ∀ a c', r c = .ok (a, c') → ∃ n, least ≤ n ∧ n ≤ c.rest.length ∧ c' = c.skip n

/-- A reader moves forward, over so many tokens at least. -/
def Moves (least : Nat) (r : Reader α) : Prop := ∀ c, MovesAt c least r

variable {r : Reader α} {f : α → Reader β} {c : Cursor} {i j n : Nat} {a : α}

theorem MovesAt.mono (moves : MovesAt c i r) (le : j ≤ i) : MovesAt c j r := fun a c' ran =>
  let ⟨n, least, below, place⟩ := moves a c' ran
  ⟨n, Nat.le_trans le least, below, place⟩

theorem Moves.mono (moves : Moves i r) (le : j ≤ i) : Moves j r := fun c => (moves c).mono le

/-- A reader that moved over `n` tokens moved over so many as it always does. -/
theorem MovesAt.least (moves : MovesAt c i r) (below : n ≤ c.rest.length)
    (ran : r c = .ok (a, c.skip n)) : i ≤ n := by
  obtain ⟨m, least, below', place⟩ := moves a _ ran
  rwa [Cursor.skip_injective below below' place]

/-- A reader that takes a token does not stay where it is. -/
theorem MovesAt.ne_self (moves : MovesAt c 1 r) : r c ≠ .ok (a, c) := fun ran =>
  absurd (moves.least (Nat.zero_le _) ran) (Nat.not_succ_le_zero 0)

theorem MovesAt.pure (a : α) : MovesAt c 0 (pure a) := by
  rintro a' c' ⟨⟩
  exact ⟨0, Nat.le_refl _, Nat.zero_le _, rfl⟩

theorem MovesAt.bind (first : MovesAt c i r) (second : ∀ a n, i ≤ n → n ≤ c.rest.length →
    r c = .ok (a, c.skip n) → MovesAt (c.skip n) j (f a)) : MovesAt c (i + j) (r >>= f) := by
  intro b c'' ran
  obtain ⟨a, c', ran, ran'⟩ := bind_eq_ok.mp ran
  obtain ⟨m, least, below, rfl⟩ := first a c' ran
  obtain ⟨n, least', below', rfl⟩ := second a m least below ran b c'' ran'
  rw [Cursor.rest_skip, List.length_drop] at below'
  exact ⟨m + n, by omega, by omega, (Cursor.skip_add m n c).symm⟩

theorem Moves.pure (a : α) : Moves 0 (pure a) := fun _ => MovesAt.pure a

theorem Moves.bind (first : Moves i r) (second : ∀ a, Moves j (f a)) : Moves (i + j) (r >>= f) :=
  fun c => (first c).bind fun a n _ _ _ => second a (c.skip n)

/-- A first step that may stay where it is. -/
theorem Moves.look (first : Moves 0 r) (second : ∀ a, Moves j (f a)) : Moves j (r >>= f) :=
  Nat.zero_add j ▸ first.bind second

/-- A last step that may stay where it is. -/
theorem Moves.last (first : Moves i r) (second : ∀ a, Moves 0 (f a)) : Moves i (r >>= f) :=
  first.bind second

theorem moves_unexpected (what : Expected) : Moves i (unexpected what : Reader α) := by
  rintro c a c' ⟨⟩

theorem moves_peek? : Moves 0 peek? := by
  rintro c a c' ⟨⟩
  exact ⟨0, Nat.le_refl _, Nat.zero_le _, rfl⟩

theorem moves_offset : Moves 0 offset := by
  rintro c a c' ⟨⟩
  exact ⟨0, Nat.le_refl _, Nat.zero_le _, rfl⟩

theorem moves_lastStop : Moves 0 lastStop := by
  rintro c a c' ⟨⟩
  exact ⟨0, Nat.le_refl _, Nat.zero_le _, rfl⟩

theorem moves_remaining : Moves 0 remaining := by
  rintro c a c' ⟨⟩
  exact ⟨0, Nat.le_refl _, Nat.zero_le _, rfl⟩

/-- What comes after a look at the front depends on the token there. -/
theorem movesAt_peek? {f : Option Token → Reader β} (next : MovesAt c i (f c.peek?)) :
    MovesAt c i (peek? >>= f) := next

theorem advance?_eq_ok {t : Token} (front : c.peek? = some t) :
    advance? c = .ok (some t, c.skip 1) := by
  obtain ⟨rest, lastStop, size⟩ := c
  cases rest with
  | nil => cases front
  | cons s rest =>
    cases front
    rfl

theorem movesAt_advance? {t : Token} (front : c.peek? = some t) : MovesAt c 1 advance? := by
  intro a c' ran
  rw [advance?_eq_ok front] at ran
  cases ran
  exact ⟨1, Nat.le_refl 1, Cursor.length_pos front, rfl⟩

theorem moves_advance? : Moves 0 advance? := by
  intro c
  cases front : c.peek? with
  | some t => exact (movesAt_advance? front).mono (Nat.zero_le 1)
  | none =>
    obtain ⟨rest, lastStop, size⟩ := c
    cases rest with
    | nil =>
      rintro a c' ⟨⟩
      exact ⟨0, Nat.le_refl 0, Nat.zero_le _, rfl⟩
    | cons s rest => cases front

/-- A mark is taken where it stands at the front, and nothing happens elsewhere. -/
theorem eat_eq_ok {p : Punct} {c' : Cursor} {taken : Bool} :
    eat p c = .ok (taken, c') ↔ taken = c.peek?.any (Token.isPunct p) ∧
      c' = c.skip (if taken = true then 1 else 0) := by
  obtain ⟨rest, lastStop, size⟩ := c
  cases rest with
  | nil =>
    constructor
    · rintro ⟨⟩
      exact ⟨rfl, rfl⟩
    · rintro ⟨rfl, rfl⟩
      rfl
  | cons s rest =>
    have front : Cursor.peek? ⟨s :: rest, lastStop, size⟩ = some s.token := rfl
    have run : eat p ⟨s :: rest, lastStop, size⟩ = if s.token.isPunct p = true
        then .ok (true, ⟨rest, s.stop, size⟩) else .ok (false, ⟨s :: rest, lastStop, size⟩) := rfl
    rw [run, front, Option.any_some]
    cases s.token.isPunct p <;>
    · constructor
      · rintro ⟨⟩
        exact ⟨rfl, rfl⟩
      · rintro ⟨rfl, rfl⟩
        rfl

theorem moves_eat (p : Punct) : Moves 0 (eat p) := by
  intro c taken c' ran
  obtain ⟨here, rfl⟩ := eat_eq_ok.mp ran
  refine ⟨_, Nat.zero_le _, ?_, rfl⟩
  split
  · rename_i yes
    obtain ⟨t, front⟩ := Option.isSome_iff_exists.mp (Option.isSome_of_any (here.symm.trans yes))
    exact Cursor.length_pos front
  · exact Nat.zero_le _

/-- A mark that was taken is one token. -/
theorem moved_of_eat {p : Punct} (below : n ≤ c.rest.length) (ran : eat p c = .ok (true, c.skip n)) :
    n = 1 := by
  obtain ⟨here, same⟩ := eat_eq_ok.mp ran
  obtain ⟨t, front⟩ := Option.isSome_iff_exists.mp (Option.isSome_of_any here.symm)
  exact Cursor.skip_injective below (Cursor.length_pos front) same

/-- Two ways to go on, by whether a mark stands at the front. -/
theorem Moves.ifEat {p : Punct} {yes no : Reader β} (taken : Moves i yes) (left : Moves (i + 1) no) :
    Moves (i + 1) (eat p >>= fun here => if here = true then yes else no) := by
  intro c b c'' ran
  obtain ⟨here, c', ran, ran'⟩ := bind_eq_ok.mp ran
  obtain ⟨m, -, below, rfl⟩ := moves_eat p c here c' ran
  cases here with
  | true =>
    obtain rfl := moved_of_eat below ran
    obtain ⟨n, least, below', rfl⟩ := taken _ b c'' ran'
    rw [Cursor.rest_skip, List.length_drop] at below'
    exact ⟨1 + n, by omega, by omega, (Cursor.skip_add 1 n c).symm⟩
  | false =>
    obtain ⟨n, least, below', rfl⟩ := left _ b c'' ran'
    rw [Cursor.rest_skip, List.length_drop] at below'
    exact ⟨m + n, by omega, by omega, (Cursor.skip_add m n c).symm⟩

theorem expect_eq_ok {p : Punct} {c' : Cursor} :
    expect p c = .ok ((), c') ↔ c.peek?.any (Token.isPunct p) = true ∧ c' = c.skip 1 := by
  rw [expect, bind_eq_ok]
  constructor
  · rintro ⟨taken, next, ran, ran'⟩
    cases taken with
    | true =>
      cases ran'
      exact (eat_eq_ok.mp ran).imp_left Eq.symm
    | false => cases ran'
  · rintro ⟨here, rfl⟩
    exact ⟨true, _, eat_eq_ok.mpr ⟨here.symm, rfl⟩, rfl⟩

theorem moves_expect (p : Punct) : Moves 1 (expect p) :=
  Moves.ifEat (Moves.pure ()) (moves_unexpected _)

theorem expectIdent_eq_ok {name : String} {c' : Cursor} :
    expectIdent c = .ok (name, c') ↔ c.peek? = some (.ident name) ∧ c' = c.skip 1 := by
  obtain ⟨rest, lastStop, size⟩ := c
  constructor
  · intro ran
    simp only [expectIdent] at ran
    split at ran
    · cases ran
      exact ⟨rfl, rfl⟩
    · cases ran
  · rintro ⟨front, rfl⟩
    cases rest with
    | nil => cases front
    | cons s rest =>
      obtain ⟨token, start, stop⟩ := s
      cases front
      rfl

theorem moves_expectIdent : Moves 1 expectIdent := by
  intro c name c' ran
  obtain ⟨front, rfl⟩ := expectIdent_eq_ok.mp ran
  exact ⟨1, Nat.le_refl 1, Cursor.length_pos front, rfl⟩

theorem moves_moreSegments (fuel : Nat) : Moves 0 (moreSegments fuel) := by
  induction fuel with
  | zero => exact Moves.pure []
  | succ fuel ih =>
    refine (moves_eat .pathSep).look fun taken => ?_
    cases taken with
    | true =>
      have later (name : String) : Moves 0 (do return name :: (← moreSegments fuel)) :=
        ih.last fun rest => Moves.pure (name :: rest)
      exact (moves_expectIdent.last later).mono (Nat.zero_le 1)
    | false => exact Moves.pure []

end Reader
end Pipeline
