import Mathlib.Data.List.Nodup
import Mathlib.Data.List.Perm.Basic
import Pipeline.Proofs.Data.NameMap

/-!
# The order of entering names

What is entered under different names may be entered in any order; of what is entered under one
name the last stays. A map of entries under different names, and a set, do not depend on the order
in which they are filled.
-/

set_option autoImplicit false
set_option relaxedAutoImplicit false

namespace Pipeline

/-- A name stands before another one, behind it, or is the same. -/
private theorem before_or_behind (a b : String) : a < b ∨ a = b ∨ b < a := by
  by_cases same : a = b
  · exact Or.inr (Or.inl same)
  · rcases String.le_total a b with le | le
    · exact Or.inl (String.not_le.mp fun ge => same (String.le_antisymm le ge))
    · exact Or.inr (Or.inr (String.not_le.mp fun ge => same (String.le_antisymm ge le)))

private theorem ne_of_before {a b : String} (before : a < b) : a ≠ b :=
  fun same => String.lt_irrefl a (same ▸ before)

namespace NameMap

variable {α : Type}

theorem insert_head (x : String) (a b : α) (rest : NameMap α) :
    insert x a ((x, b) :: rest) = (x, a) :: rest := if_pos rfl

theorem insert_before {x n : String} (before : x < n) (a b : α) (rest : NameMap α) :
    insert x a ((n, b) :: rest) = (x, a) :: (n, b) :: rest := by
  rw [insert, if_neg (ne_of_before before).symm, if_pos before]

theorem insert_behind {x n : String} (behind : n < x) (a b : α) (rest : NameMap α) :
    insert x a ((n, b) :: rest) = (n, b) :: insert x a rest := by
  rw [insert, if_neg (ne_of_before behind), if_neg (String.lt_asymm behind)]

private theorem insert_comm_of_lt (m : NameMap α) {x y : String} (before : x < y) (a b : α) :
    (m.insert x a).insert y b = (m.insert y b).insert x a := by
  induction m with
  | nil => exact (insert_behind before b a []).trans (insert_before before a b []).symm
  | cons entry rest ih =>
    obtain ⟨n, c⟩ := entry
    -- Where the first entry stands to the smaller name, and behind that to the greater one.
    rcases before_or_behind n x with first | rfl | behind
    · rw [insert_behind first, insert_behind (String.lt_trans first before),
        insert_behind (String.lt_trans first before), insert_behind first, ih]
    · rw [insert_head, insert_behind before, insert_behind before, insert_head]
    · rw [insert_before behind, insert_behind before]
      rcases before_or_behind n y with between | rfl | last
      · rw [insert_behind between, insert_before behind]
      · rw [insert_head, insert_before before]
      · rw [insert_before last, insert_before before]

/-- Entries under different names may change places. -/
theorem insert_comm (m : NameMap α) {x y : String} (different : x ≠ y) (a b : α) :
    (m.insert x a).insert y b = (m.insert y b).insert x a := by
  rcases before_or_behind x y with before | same | after
  · exact insert_comm_of_lt m before a b
  · exact absurd same different
  · exact (insert_comm_of_lt m after b a).symm

/-- The last entry of a name stays. -/
theorem insert_insert (m : NameMap α) (x : String) (a b : α) :
    (m.insert x a).insert x b = m.insert x b := by
  induction m with
  | nil => exact insert_head x b a []
  | cons entry rest ih =>
    obtain ⟨n, c⟩ := entry
    rcases before_or_behind n x with first | rfl | behind
    · rw [insert_behind first, insert_behind first, insert_behind first, ih]
    · rw [insert_head, insert_head, insert_head]
    · rw [insert_before behind, insert_head, insert_before behind]

theorem insert_foldl_perm {pairs pairs' : List (String × α)} (perm : pairs.Perm pairs')
    (once : (pairs.map (·.1)).Nodup) (m : NameMap α) :
    pairs.foldl (fun m p => m.insert p.1 p.2) m = pairs'.foldl (fun m p => m.insert p.1 p.2) m := by
  refine perm.foldl_eq' (fun p hp q hq m => ?_) m
  by_cases same : p.1 = q.1
  · rw [List.inj_on_of_nodup_map once hp hq same]
  · exact insert_comm m same p.2 q.2

/-- A map of entries under different names does not depend on their order. -/
theorem ofList_perm {pairs pairs' : List (String × α)} (perm : pairs.Perm pairs')
    (once : (pairs.map (·.1)).Nodup) : ofList pairs = ofList pairs' :=
  insert_foldl_perm perm once []

theorem contains_insert (m : NameMap α) (name other : String) (a : α) :
    (m.insert name a).contains other = true ↔ name = other ∨ m.contains other = true := by
  unfold contains
  rw [get?_insert]
  split <;> simp_all

theorem contains_foldl (pairs : List (String × α)) (m : NameMap α) (name : String) :
    (pairs.foldl (fun m p => m.insert p.1 p.2) m).contains name = true ↔
      m.contains name = true ∨ name ∈ pairs.map (·.1) := by
  induction pairs generalizing m with
  | nil => simp
  | cons p rest ih =>
    rw [List.foldl_cons, ih, contains_insert, List.map_cons, List.mem_cons,
      or_comm (a := p.1 = name), or_assoc, eq_comm (a := p.1)]

end NameMap

namespace NameSet

theorem insert_head (x : String) (rest : NameSet) : insert x (x :: rest) = x :: rest := if_pos rfl

theorem insert_before {x n : String} (before : x < n) (rest : NameSet) :
    insert x (n :: rest) = x :: n :: rest := by
  rw [insert, if_neg (ne_of_before before).symm, if_pos before]

theorem insert_behind {x n : String} (behind : n < x) (rest : NameSet) :
    insert x (n :: rest) = n :: insert x rest := by
  rw [insert, if_neg (ne_of_before behind), if_neg (String.lt_asymm behind)]

private theorem insert_comm_of_before (s : NameSet) {x y : String} (before : x < y) :
    (s.insert x).insert y = (s.insert y).insert x := by
  induction s with
  | nil => exact (insert_behind before []).trans (insert_before before []).symm
  | cons n rest ih =>
    rcases before_or_behind n x with first | rfl | behind
    · rw [insert_behind first, insert_behind (String.lt_trans first before),
        insert_behind (String.lt_trans first before), insert_behind first, ih]
    · rw [insert_head, insert_behind before, insert_head]
    · rw [insert_before behind, insert_behind before]
      rcases before_or_behind n y with between | rfl | last
      · rw [insert_behind between, insert_before behind]
      · rw [insert_head, insert_before before]
      · rw [insert_before last, insert_before before]

/-- Names may be added to a set in any order. -/
theorem insert_comm (s : NameSet) (x y : String) :
    (s.insert x).insert y = (s.insert y).insert x := by
  rcases before_or_behind x y with before | rfl | after
  · exact insert_comm_of_before s before
  · rfl
  · exact (insert_comm_of_before s after).symm

theorem mem_foldl_insert (names : List String) (s : NameSet) (name : String) :
    name ∈ names.foldl (fun s n => insert n s) s ↔ name ∈ s ∨ name ∈ names := by
  induction names generalizing s with
  | nil => simp
  | cons n rest ih =>
    rw [List.foldl_cons, ih, mem_insert, List.mem_cons, or_comm (a := name = n), or_assoc]

/-- Lists make the same set when they have the same members. -/
theorem ofList_eq_iff {names names' : List String} :
    ofList names = ofList names' ↔ ∀ name, name ∈ names ↔ name ∈ names' := by
  constructor
  · intro same name
    rw [← mem_ofList, same, mem_ofList]
  · intro same
    refine (InOrder.ofList names).ext (InOrder.ofList names') fun name => ?_
    rw [mem_ofList, mem_ofList, same]

end NameSet

end Pipeline
