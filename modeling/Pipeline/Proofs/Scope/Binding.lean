import Pipeline.Proofs.Data.NameMap
import Pipeline.Scope.Resolve

/-!
# What bindings make of a name

The entry of a name tells the strongest bindings of the name: a symbol bound so, and the paths
bound by globs when these disagree. The order of the bindings therefore decides only which of the
disagreeing symbols the entry holds.
-/

set_option autoImplicit false
set_option relaxedAutoImplicit false

namespace Pipeline

theorem Strength.eq_of_rank_eq {s t : Strength} (same : s.rank = t.rank) : s = t := by
  cases s <;> cases t <;> first | rfl | cases same

/-- One binding of a name. -/
structure Binding where
  symbol : Symbol
  strength : Strength
deriving DecidableEq, Repr

/-- True of bindings among which a glob means something else than a symbol. -/
def Contested (bindings : List Binding) (symbol : Symbol) : Prop :=
  ∃ b ∈ bindings, b.strength = .glob ∧ b.symbol ≠ symbol

namespace NameEntry

/-- What an entry says about the bindings, none of them refused, that led to it. -/
structure Summarizes (entry : NameEntry) (bindings : List Binding) : Prop where
  bound : ⟨entry.symbol, entry.strength⟩ ∈ bindings
  strongest : ∀ b ∈ bindings, b.strength.rank ≤ entry.strength.rank
  agreed : ∀ b ∈ bindings, b.strength = .explicit → b.symbol = entry.symbol
  rivals : ∀ path, path ∈ entry.rivals ↔ entry.strength = .glob ∧
    Contested bindings entry.symbol ∧ ∃ b ∈ bindings, b.strength = .glob ∧ b.symbol.path = path
  order : NameSet.InOrder entry.rivals

theorem summarizes_single (symbol : Symbol) (strength : Strength) :
    (NameEntry.mk symbol strength []).Summarizes [⟨symbol, strength⟩] where
  bound := List.mem_singleton_self _
  strongest b member := Nat.le_of_eq (by rw [List.mem_singleton.mp member])
  agreed b member _ := by rw [List.mem_singleton.mp member]
  rivals path := by
    refine iff_of_false List.not_mem_nil fun ⟨_, ⟨b, member, _, different⟩, _⟩ => different ?_
    rw [List.mem_singleton.mp member]
  order := .nil

/-- The four ways in which a binding is taken: it is stronger than the entry, or weaker, or means
the same, or is a glob that disagrees. -/
theorem rebind_eq_ok {entry entry' : NameEntry} {symbol : Symbol} {strength : Strength}
    (taken : ModuleScope.NameEntry.rebind entry symbol strength = .ok entry') :
    (entry.strength.rank < strength.rank ∧ entry' = ⟨symbol, strength, []⟩) ∨
    (strength.rank < entry.strength.rank ∧ entry' = entry) ∨
    (entry.strength = strength ∧ entry.symbol = symbol ∧ entry' = entry) ∨
    (entry.strength = .glob ∧ strength = .glob ∧ entry.symbol ≠ symbol ∧ entry' = { entry with
      rivals := NameSet.insert symbol.path (NameSet.insert entry.symbol.path entry.rivals) }) := by
  unfold ModuleScope.NameEntry.rebind at taken
  split at taken
  · rename_i stronger
    cases taken
    exact Or.inl ⟨stronger, rfl⟩
  · rename_i notStronger
    split at taken
    · rename_i weaker
      cases taken
      exact Or.inr (Or.inl ⟨weaker, rfl⟩)
    · rename_i notWeaker
      have same : entry.strength = strength := Strength.eq_of_rank_eq (by omega)
      split at taken
      · rename_i symbols
        cases taken
        exact Or.inr (Or.inr (Or.inl ⟨same, symbols, rfl⟩))
      · rename_i different
        split at taken
        · rename_i glob
          cases taken
          exact Or.inr (Or.inr (Or.inr ⟨same.trans glob, glob, different, rfl⟩))
        · cases taken

/-- A binding is refused only if it is as strong as the entry, is no glob and means something
else. -/
theorem rebind_eq_error {entry : NameEntry} {symbol : Symbol} {strength : Strength} {path : String}
    (refused : ModuleScope.NameEntry.rebind entry symbol strength = .error path) :
    entry.strength = strength ∧ strength ≠ .glob ∧ entry.symbol ≠ symbol := by
  unfold ModuleScope.NameEntry.rebind at refused
  split at refused
  · cases refused
  · split at refused
    · cases refused
    · split at refused
      · cases refused
      · split at refused
        · cases refused
        · rename_i notStronger notWeaker different notGlob
          exact ⟨Strength.eq_of_rank_eq (by omega), notGlob, different⟩

variable {entry entry' : NameEntry} {bindings : List Binding} {symbol : Symbol}
  {strength : Strength}

private theorem Summarizes.of_mem_iff (summary : entry.Summarizes bindings)
    {others : List Binding} (same : ∀ b, b ∈ others ↔ b ∈ bindings) : entry.Summarizes others where
  bound := (same _).mpr summary.bound
  strongest b member := summary.strongest b ((same b).mp member)
  agreed b member := summary.agreed b ((same b).mp member)
  rivals path := by simpa [Contested, same] using summary.rivals path
  order := summary.order

private theorem Summarizes.weaker (summary : entry.Summarizes bindings)
    (weaker : strength.rank < entry.strength.rank) :
    entry.Summarizes (bindings ++ [⟨symbol, strength⟩]) where
  bound := List.mem_append_left _ summary.bound
  strongest b member := by
    rcases List.mem_append.mp member with old | new
    · exact summary.strongest b old
    · rw [List.mem_singleton.mp new]
      exact Nat.le_of_lt weaker
  agreed b member explicit := by
    rcases List.mem_append.mp member with old | new
    · exact summary.agreed b old explicit
    · rw [List.mem_singleton.mp new] at explicit
      rw [show strength = .explicit from explicit] at weaker
      cases strong : entry.strength <;> rw [strong] at weaker <;> simp [Strength.rank] at weaker
  rivals path := by
    rw [summary.rivals path]
    refine and_congr_right fun glob => ?_
    have notGlob : strength ≠ .glob := by
      rintro rfl
      rw [glob] at weaker
      exact Nat.lt_irrefl _ weaker
    simp [Contested, List.mem_append, or_and_right, exists_or, notGlob]
  order := summary.order

private theorem Summarizes.stronger (summary : entry.Summarizes bindings)
    (stronger : entry.strength.rank < strength.rank) :
    (NameEntry.mk symbol strength []).Summarizes (bindings ++ [⟨symbol, strength⟩]) := by
  have below : ∀ b ∈ bindings, b.strength.rank < strength.rank := fun b member =>
    Nat.lt_of_le_of_lt (summary.strongest b member) stronger
  refine ⟨List.mem_append_right _ (List.mem_singleton_self _), fun b member => ?_,
    fun b member explicit => ?_, fun path => ?_, .nil⟩
  · rcases List.mem_append.mp member with old | new
    · exact Nat.le_of_lt (below b old)
    · exact Nat.le_of_eq (by rw [List.mem_singleton.mp new])
  · rcases List.mem_append.mp member with old | new
    · have high := below b old
      rw [explicit] at high
      cases strength <;> simp [Strength.rank] at high
    · rw [List.mem_singleton.mp new]
  · refine iff_of_false List.not_mem_nil ?_
    rintro ⟨glob, ⟨b, member, alike, different⟩, _⟩
    rcases List.mem_append.mp member with old | new
    · have high := below b old
      rw [show strength = .glob from glob, alike] at high
      exact Nat.lt_irrefl _ high
    · rw [List.mem_singleton.mp new] at different
      exact different rfl

private theorem Summarizes.disagree (summary : entry.Summarizes bindings)
    (glob : entry.strength = .glob) (different : entry.symbol ≠ symbol) :
    ({ entry with
        rivals := NameSet.insert symbol.path (NameSet.insert entry.symbol.path entry.rivals) } :
      NameEntry).Summarizes (bindings ++ [⟨symbol, .glob⟩]) where
  bound := List.mem_append_left _ summary.bound
  strongest b member := by
    rcases List.mem_append.mp member with old | new
    · exact summary.strongest b old
    · exact Nat.le_of_eq (by rw [List.mem_singleton.mp new, glob])
  agreed b member explicit := by
    rcases List.mem_append.mp member with old | new
    · exact summary.agreed b old explicit
    · rw [List.mem_singleton.mp new] at explicit
      cases explicit
  rivals path := by
    have contested : Contested (bindings ++ [⟨symbol, .glob⟩]) entry.symbol :=
      ⟨_, List.mem_append_right _ (List.mem_singleton_self _), rfl, different.symm⟩
    -- an undecided entry lists all globs already, a decided one has globs for its symbol only
    have listed : (path = entry.symbol.path ∨ path ∈ entry.rivals) ↔
        ∃ b ∈ bindings, b.strength = .glob ∧ b.symbol.path = path := by
      constructor
      · rintro (rfl | listed)
        · exact ⟨_, summary.bound, glob, rfl⟩
        · exact ((summary.rivals path).mp listed).2.2
      · rintro ⟨b, member, alike, named⟩
        by_cases same : b.symbol = entry.symbol
        · exact Or.inl (by rw [← named, same])
        · exact Or.inr ((summary.rivals path).mpr
            ⟨glob, ⟨b, member, alike, same⟩, ⟨b, member, alike, named⟩⟩)
    rw [NameSet.mem_insert, NameSet.mem_insert, listed]
    constructor
    · rintro (rfl | ⟨b, member, here⟩)
      · exact ⟨glob, contested, _, List.mem_append_right _ (List.mem_singleton_self _), rfl, rfl⟩
      · exact ⟨glob, contested, b, List.mem_append_left _ member, here⟩
    · rintro ⟨-, -, b, member, alike, named⟩
      rcases List.mem_append.mp member with old | new
      · exact Or.inr ⟨b, old, alike, named⟩
      · rw [List.mem_singleton.mp new] at named
        exact Or.inl named.symm
  order := (summary.order.insert _).insert _

/-- An entry that takes one more binding tells about that binding too. -/
theorem Summarizes.rebind (summary : entry.Summarizes bindings)
    (taken : ModuleScope.NameEntry.rebind entry symbol strength = .ok entry') :
    entry'.Summarizes (bindings ++ [⟨symbol, strength⟩]) := by
  rcases rebind_eq_ok taken with
    ⟨stronger, rfl⟩ | ⟨weaker, rfl⟩ | ⟨rfl, rfl, rfl⟩ | ⟨glob, rfl, different, rfl⟩
  · exact summary.stronger stronger
  · exact summary.weaker weaker
  · refine summary.of_mem_iff fun b => ?_
    rw [List.mem_append, List.mem_singleton]
    exact ⟨fun member => member.elim id fun new => new ▸ summary.bound, Or.inl⟩
  · exact summary.disagree glob different

/-- A binding that agrees with the explicit ones before is taken, unless it is one of the
prelude. -/
theorem Summarizes.rebind_taken (summary : entry.Summarizes bindings)
    (imported : strength ≠ .prelude)
    (agrees : strength = .explicit → ∀ b ∈ bindings, b.strength = .explicit → b.symbol = symbol) :
    ∃ entry', ModuleScope.NameEntry.rebind entry symbol strength = .ok entry' := by
  cases taken : ModuleScope.NameEntry.rebind entry symbol strength with
  | ok entry' => exact ⟨entry', rfl⟩
  | error path =>
    obtain ⟨alike, notGlob, different⟩ := rebind_eq_error taken
    have explicit : strength = .explicit := by
      cases strength with
      | prelude => exact absurd rfl imported
      | glob => exact absurd rfl notGlob
      | explicit => rfl
    exact absurd (agrees explicit _ summary.bound (alike.trans explicit)) different

/-- Entries that stand for the same, whichever of the rivals they hold. -/
structure Agrees (a b : NameEntry) : Prop where
  strength : a.strength = b.strength
  rivals : a.rivals = b.rivals
  symbol : a.rivals = [] → a.symbol = b.symbol

/-- Entries made of the same bindings agree; of bindings of the prelude there is at most one. -/
theorem Summarizes.agrees {other : NameEntry} {others : List Binding}
    (summary : entry.Summarizes bindings) (summary' : other.Summarizes others)
    (same : ∀ b, b ∈ others ↔ b ∈ bindings)
    (once : ∀ b ∈ bindings, ∀ c ∈ bindings, b.strength = .prelude → c.strength = .prelude →
      b.symbol = c.symbol) : entry.Agrees other := by
  replace summary' := summary'.of_mem_iff fun b => (same b).symm
  have strength : entry.strength = other.strength :=
    Strength.eq_of_rank_eq
      (Nat.le_antisymm (summary'.strongest _ summary.bound) (summary.strongest _ summary'.bound))
  -- the two symbols, if different, contest each other
  have contested : entry.strength = .glob →
      (Contested bindings entry.symbol ↔ Contested bindings other.symbol) := by
    intro glob
    constructor
    · rintro ⟨b, member, alike, different⟩
      by_cases same : entry.symbol = other.symbol
      · exact ⟨b, member, alike, same ▸ different⟩
      · exact ⟨_, summary.bound, glob, same⟩
    · rintro ⟨b, member, alike, different⟩
      by_cases same : entry.symbol = other.symbol
      · exact ⟨b, member, alike, same ▸ different⟩
      · exact ⟨_, summary'.bound, strength ▸ glob, Ne.symm same⟩
  have rivals : entry.rivals = other.rivals := by
    refine summary.order.ext summary'.order fun path => ?_
    rw [summary.rivals path, summary'.rivals path, ← strength]
    exact and_congr_right fun glob => and_congr_left' (contested glob)
  refine ⟨strength, rivals, fun none => ?_⟩
  cases kind : entry.strength with
  | prelude => exact once _ summary.bound _ summary'.bound kind (strength ▸ kind)
  | explicit => exact (summary.agreed _ summary'.bound (strength ▸ kind)).symm
  | glob =>
    refine Classical.byContradiction fun different => ?_
    have listed : entry.symbol.path ∈ entry.rivals := (summary.rivals _).mpr
      ⟨kind, ⟨_, summary'.bound, strength ▸ kind, Ne.symm different⟩, _, summary.bound, kind, rfl⟩
    rw [none] at listed
    exact List.not_mem_nil listed

end NameEntry
end Pipeline
