import Mathlib.Data.List.Nodup
import Pipeline.Data.NameMap

/-!
# Looking up names

What is entered under a name is found under it, and nothing else changes. A set holds what it was
made of. Sets are in order, so that two sets with the same members are equal.
-/

set_option autoImplicit false
set_option relaxedAutoImplicit false

namespace Pipeline

namespace NameMap

variable {α : Type}

theorem get?_insert (m : NameMap α) (name other : String) (a : α) :
    (m.insert name a).get? other = if name = other then some a else m.get? other := by
  induction m with
  | nil => rfl
  | cons entry rest ih =>
    obtain ⟨n, b⟩ := entry
    by_cases same : n = name
    · subst same
      by_cases asked : n = other <;> simp [insert, get?, asked]
    · by_cases before : name < n
      · simp [insert, same, before, get?]
      · by_cases asked : n = other
        · subst asked
          simp [insert, same, before, get?, Ne.symm same]
        · simp [insert, same, before, get?, asked, ih]

/-- A map that is made of names holds these names. -/
theorem get?_map_names (names : List String) (f : String → α) (name : String) :
    NameMap.get? name (names.map fun n => (n, f n)) =
      if name ∈ names then some (f name) else none := by
  induction names with
  | nil => rfl
  | cons first rest ih =>
    rw [List.map_cons, get?, ih]
    by_cases here : first = name
    · simp [here]
    · simp [here, Ne.symm here]

private theorem mem_of_get?_foldl {pairs : List (String × α)} {m : NameMap α} {name : String}
    {a : α} (found : (pairs.foldl (fun m p => m.insert p.1 p.2) m).get? name = some a) :
    (name, a) ∈ pairs ∨ m.get? name = some a := by
  induction pairs generalizing m with
  | nil => exact Or.inr found
  | cons p rest ih =>
    rcases ih found with member | before
    · exact Or.inl (List.mem_cons_of_mem _ member)
    · rw [get?_insert] at before
      split at before
      · rename_i same
        cases before
        exact Or.inl (same ▸ List.mem_cons_self)
      · exact Or.inr before

/-- What a map made of pairs holds is one of these. -/
theorem mem_of_get?_ofList {pairs : List (String × α)} {name : String} {a : α}
    (found : (ofList pairs).get? name = some a) : (name, a) ∈ pairs := by
  rcases mem_of_get?_foldl found with member | before
  · exact member
  · cases before

private theorem get?_foldl_isSome {pairs : List (String × α)} {m : NameMap α} {name : String}
    (entered : (∃ a, (name, a) ∈ pairs) ∨ (m.get? name).isSome = true) :
    ((pairs.foldl (fun m p => m.insert p.1 p.2) m).get? name).isSome = true := by
  induction pairs generalizing m with
  | nil => simpa using entered
  | cons p rest ih =>
    refine ih ?_
    rw [get?_insert]
    by_cases same : p.1 = name
    · exact Or.inr (by simp [same])
    · rw [if_neg same]
      refine entered.imp_left fun ⟨a, member⟩ => ⟨a, (List.mem_cons.mp member).resolve_left ?_⟩
      rintro rfl
      exact same rfl

theorem get?_ofList_isSome {pairs : List (String × α)} {name : String} {a : α}
    (member : (name, a) ∈ pairs) : ((ofList pairs).get? name).isSome = true :=
  get?_foldl_isSome (Or.inl ⟨a, member⟩)

/-- Where each name is entered once, all that is entered stays. -/
theorem get?_ofList {pairs : List (String × α)} (once : (pairs.map (·.1)).Nodup) {name : String}
    {a : α} (member : (name, a) ∈ pairs) : (ofList pairs).get? name = some a := by
  obtain ⟨b, found⟩ := Option.isSome_iff_exists.mp (get?_ofList_isSome member)
  have inside := mem_of_get?_ofList found
  have same : (name, b) = (name, a) := List.inj_on_of_nodup_map once inside member rfl
  cases same
  exact found

private theorem rel_get?_foldl {β : Type} {R : String → α → β → Prop} {pairs : List (String × α)}
    {pairs' : List (String × β)}
    (related : List.Forall₂ (fun p q => p.1 = q.1 ∧ R p.1 p.2 q.2) pairs pairs') {m : NameMap α}
    {m' : NameMap β} (before : ∀ name, Option.Rel (R name) (m.get? name) (m'.get? name))
    (name : String) :
    Option.Rel (R name) ((pairs.foldl (fun m p => m.insert p.1 p.2) m).get? name)
      ((pairs'.foldl (fun m p => m.insert p.1 p.2) m').get? name) := by
  induction related generalizing m m' with
  | nil => exact before name
  | @cons p q rest rest' here _ ih =>
    refine ih fun other => ?_
    rw [get?_insert, get?_insert, ← here.1]
    split
    · rename_i same
      exact .some (same ▸ here.2)
    · exact before other

/-- Maps that are made of related pairs are related name by name. -/
theorem rel_get?_ofList {β : Type} {R : String → α → β → Prop} {pairs : List (String × α)}
    {pairs' : List (String × β)}
    (related : List.Forall₂ (fun p q => p.1 = q.1 ∧ R p.1 p.2 q.2) pairs pairs') (name : String) :
    Option.Rel (R name) ((ofList pairs).get? name) ((ofList pairs').get? name) :=
  rel_get?_foldl related (fun _ => .none) name

/-! ### Entries -/

theorem names_insert (m : NameMap α) (name : String) (a : α) :
    (m.insert name a).names = NameSet.insert name m.names := by
  induction m with
  | nil => rfl
  | cons entry rest ih =>
    obtain ⟨n, b⟩ := entry
    unfold names at ih ⊢
    by_cases same : n = name
    · simp [insert, NameSet.insert, same]
    · by_cases before : name < n
      · simp [insert, NameSet.insert, same, before]
      · simp [insert, NameSet.insert, same, before, ih]

theorem mem_of_mem_insert {m : NameMap α} {name : String} {a : α} {entry : String × α}
    (member : entry ∈ m.insert name a) : entry = (name, a) ∨ entry ∈ m := by
  induction m with
  | nil => exact Or.inl (List.mem_singleton.mp member)
  | cons first rest ih =>
    obtain ⟨n, b⟩ := first
    unfold insert at member
    split at member
    · exact (List.mem_cons.mp member).imp_right (List.mem_cons_of_mem _)
    · split at member
      · exact List.mem_cons.mp member
      · rcases List.mem_cons.mp member with rfl | inside
        · exact Or.inr List.mem_cons_self
        · exact (ih inside).imp_right (List.mem_cons_of_mem _)

theorem mem_of_mem_ofList {pairs : List (String × α)} {entry : String × α}
    (member : entry ∈ ofList pairs) : entry ∈ pairs := by
  refine List.foldlRecOn (motive := fun m => entry ∈ m → entry ∈ pairs) pairs _
    (fun inside => absurd inside List.not_mem_nil) (fun m before p among inside => ?_) member
  rcases mem_of_mem_insert inside with rfl | earlier
  · exact among
  · exact before earlier

end NameMap

namespace NameSet

theorem mem_insert {s : NameSet} {name other : String} :
    other ∈ s.insert name ↔ other = name ∨ other ∈ s := by
  induction s with
  | nil => simp [insert]
  | cons n rest ih =>
    simp only [insert]
    split
    · rename_i same
      subst same
      simp
    · split
      · simp
      · simp only [List.mem_cons, ih]
        exact or_left_comm

private theorem mem_foldl {names : List String} {s : NameSet} {name : String} :
    name ∈ names.foldl (fun s n => insert n s) s ↔ name ∈ names ∨ name ∈ s := by
  induction names generalizing s with
  | nil => simp
  | cons n rest ih =>
    simp only [List.foldl_cons, ih, mem_insert, List.mem_cons, or_assoc]
    exact or_left_comm

theorem mem_ofList {names : List String} {name : String} : name ∈ ofList names ↔ name ∈ names := by
  simp [ofList, mem_foldl]

/-- The members stand in ascending order. -/
def InOrder (s : NameSet) : Prop := s.Pairwise (· < ·)

theorem InOrder.nil : InOrder [] := List.Pairwise.nil

theorem InOrder.insert {s : NameSet} (order : s.InOrder) (name : String) :
    (s.insert name).InOrder := by
  induction s with
  | nil => exact List.pairwise_singleton _ _
  | cons n rest ih =>
    have above : ∀ other ∈ rest, n < other := (List.pairwise_cons.mp order).1
    simp only [NameSet.insert]
    split
    · exact order
    · rename_i different
      split
      · rename_i before
        refine List.pairwise_cons.mpr ⟨fun other member => ?_, order⟩
        rcases List.mem_cons.mp member with rfl | behind
        · exact before
        · exact String.lt_trans before (above other behind)
      · rename_i notBefore
        have behind : n < name := by
          rcases String.le_total n name with le | le
          · exact String.not_le.mp fun ge => different (String.le_antisymm le ge)
          · exact absurd (String.not_le.mp fun ge => different (String.le_antisymm ge le)) notBefore
        refine List.pairwise_cons.mpr ⟨fun other member => ?_, ih (List.pairwise_cons.mp order).2⟩
        rcases mem_insert.mp member with rfl | member
        · exact behind
        · exact above other member

theorem InOrder.ofList (names : List String) : (NameSet.ofList names).InOrder :=
  List.foldlRecOn (motive := InOrder) names _ .nil fun _ before name _ => before.insert name

theorem InOrder.nodup {s : NameSet} (order : s.InOrder) : s.Nodup := by
  have ne {a b : String} (lt : a < b) : a ≠ b := by
    rintro rfl
    exact String.lt_irrefl a lt
  exact List.Pairwise.imp ne order

/-- Sets with the same members are equal. -/
theorem InOrder.ext {s t : NameSet} (orderS : s.InOrder) (orderT : t.InOrder)
    (same : ∀ name, name ∈ s ↔ name ∈ t) : s = t := by
  have perm : s.Perm t := (List.perm_ext_iff_of_nodup orderS.nodup orderT.nodup).mpr same
  exact perm.eq_of_pairwise
    (fun _ _ _ _ lt gt => absurd gt (String.lt_asymm lt)) orderS orderT

end NameSet

namespace NameMap

variable {α : Type}

/-- A map has one entry for each name. -/
theorem names_ofList_nodup (pairs : List (String × α)) : (ofList pairs).names.Nodup := by
  have order : NameSet.InOrder (ofList pairs).names :=
    List.foldlRecOn (motive := fun m : NameMap α => NameSet.InOrder m.names) pairs _ NameSet.InOrder.nil
      fun m before p _ => names_insert m p.1 p.2 ▸ before.insert p.1
  exact order.nodup

theorem mem_of_get? {m : NameMap α} {name : String} {a : α} (found : m.get? name = some a) :
    (name, a) ∈ m := by
  induction m with
  | nil => cases found
  | cons entry rest ih =>
    obtain ⟨n, b⟩ := entry
    unfold get? at found
    split at found
    · rename_i same
      cases found
      exact same ▸ List.mem_cons_self
    · exact List.mem_cons_of_mem _ (ih found)

theorem exists_get?_of_mem_names {m : NameMap α} {name : String} (member : name ∈ m.names) :
    ∃ a, m.get? name = some a := by
  induction m with
  | nil => cases member
  | cons entry rest ih =>
    obtain ⟨n, b⟩ := entry
    unfold get?
    split
    · exact ⟨b, rfl⟩
    · rename_i other
      exact ih ((List.mem_cons.mp member).resolve_left (Ne.symm other))

theorem mem_values {m : NameMap α} {name : String} {a : α} (found : m.get? name = some a) :
    a ∈ m.values := List.mem_map_of_mem (mem_of_get? found)

/-- Each entry of a map is found under its name. -/
theorem get?_of_mem {m : NameMap α} (once : m.names.Nodup) {name : String} {a : α}
    (member : (name, a) ∈ m) : m.get? name = some a := by
  induction m with
  | nil => cases member
  | cons entry rest ih =>
    obtain ⟨n, b⟩ := entry
    obtain ⟨fresh, once⟩ := List.nodup_cons.mp once
    rcases List.mem_cons.mp member with same | inside
    · cases same
      simp [get?]
    · have other : n ≠ name := by
        rintro rfl
        exact fresh (List.mem_map.mpr ⟨(n, a), inside, rfl⟩)
      rw [get?, if_neg other]
      exact ih once inside

end NameMap

end Pipeline
