import Mathlib.Data.List.Perm.Subperm
import Pipeline.Graph.Order
import Pipeline.Proofs.Graph.Basic

/-!
# The construction order

The order of a graph has every binding once and behind those it depends on. Among all orders of this
kind it is the first, when orders are compared by the places at which their bindings are written.
-/

set_option autoImplicit false
set_option relaxedAutoImplicit false

namespace Pipeline

/-- An order puts everything behind what it needs. -/
def Sorts (needs : String → String → Prop) (order : List String) : Prop :=
  ∀ before x after, order = before ++ x :: after → ∀ n, needs x n → n ∈ before

theorem sorts_nil (needs : String → String → Prop) : Sorts needs [] := by
  intro before x after split
  cases before <;> cases split

theorem Sorts.concat {needs : String → String → Prop} {order : List String} {x : String}
    (sorts : Sorts needs order) (ready : ∀ n, needs x n → n ∈ order) :
    Sorts needs (order ++ [x]) := by
  intro before y after split
  induction after using List.reverseRecOn with
  | nil =>
    obtain ⟨rfl, last⟩ := List.append_inj' split rfl
    cases last
    exact ready
  | append_singleton after z _ =>
    rw [← List.cons_append, ← List.append_assoc] at split
    exact sorts before y after (List.append_inj' split rfl).1

namespace BindingGraph

variable {g : BindingGraph}

/-- A binding depends on another one of the graph. -/
def Needs (g : BindingGraph) (name dependency : String) : Prop :=
  dependency ∈ g.dependenciesOf name ∧ dependency ∈ g.names

theorem ready_iff {placed : List String} {name : String} :
    g.ready placed name = true ↔ ∀ n, g.Needs name n → n ∈ placed := by
  unfold ready Needs
  rw [List.all_eq_true]
  refine forall_congr' fun n => ?_
  by_cases inside : n ∈ g.names <;> simp [contains, inside]

/-- The next binding is the first one that is ready and not yet placed. -/
theorem next?_eq_some {placed : List String} {name : String}
    (found : g.next? placed = some name) :
    (name ∈ g.names ∧ name ∉ placed ∧ ∀ n, g.Needs name n → n ∈ placed) ∧
      ∀ other ∈ g.names, other ∉ placed → (∀ n, g.Needs other n → n ∈ placed) →
        g.names.idxOf name < g.names.idxOf other ∨
          g.names.idxOf name = g.names.idxOf other ∧ name = other := by
  have inside := List.mem_of_find?_eq_some found
  obtain ⟨free, before, after, split, earlier⟩ := List.find?_eq_some_iff_append.mp found
  rw [Bool.and_eq_true, ready_iff] at free
  refine ⟨⟨inside, by simpa using free.1, free.2⟩, fun other known left ready => ?_⟩
  have late : ∀ n, n ∉ placed → (∀ d, g.Needs n d → d ∈ placed) → n ∉ before := by
    intro n left ready member
    have taken := earlier n member
    rw [ready_iff.mpr ready] at taken
    simp [left] at taken
  have place : g.names.idxOf name = before.length := by
    rw [split, List.idxOf_append, if_neg (late name (by simpa using free.1) free.2)]
    simp
  have place' : g.names.idxOf other = (name :: after).idxOf other + before.length := by
    rw [split, List.idxOf_append, if_neg (late other left ready)]
  by_cases same : name = other
  · exact Or.inr ⟨by rw [same], same⟩
  · left
    rw [place, place', List.idxOf_cons_ne _ same]
    omega

/-- Bindings placed one after another, each of them the next one behind those placed before. -/
def Chosen (g : BindingGraph) : List String → List String → Prop
  | _, [] => True
  | placed, name :: rest => g.next? placed = some name ∧ g.Chosen (placed ++ [name]) rest

theorem place_chosen (n : Nat) (placed : List String) :
    ∃ rest, g.place n placed = placed ++ rest ∧ g.Chosen placed rest := by
  induction n generalizing placed with
  | zero => exact ⟨[], by simp [place], trivial⟩
  | succ n ih =>
    unfold place
    cases found : g.next? placed with
    | none => exact ⟨[], by simp, trivial⟩
    | some name =>
      obtain ⟨rest, made, chosen⟩ := ih (placed ++ [name])
      exact ⟨name :: rest, by simp [made], found, chosen⟩

theorem Chosen.mem_names {placed rest : List String} (chosen : g.Chosen placed rest) :
    ∀ name ∈ rest, name ∈ g.names := by
  induction rest generalizing placed with
  | nil => simp
  | cons name rest ih =>
    rw [List.forall_mem_cons]
    exact ⟨(next?_eq_some chosen.1).1.1, ih chosen.2⟩

theorem Chosen.nodup {placed rest : List String} (chosen : g.Chosen placed rest)
    (once : placed.Nodup) : (placed ++ rest).Nodup := by
  induction rest generalizing placed with
  | nil => simpa using once
  | cons name rest ih =>
    have new := (next?_eq_some chosen.1).1.2.1
    rw [List.append_cons]
    refine ih chosen.2 ?_
    rw [← List.concat_eq_append]
    exact List.Nodup.concat new once

theorem Chosen.sorts {placed rest : List String} (chosen : g.Chosen placed rest)
    (sorts : Sorts g.Needs placed) : Sorts g.Needs (placed ++ rest) := by
  induction rest generalizing placed with
  | nil => simpa using sorts
  | cons name rest ih =>
    rw [List.append_cons]
    exact ih chosen.2 (sorts.concat (next?_eq_some chosen.1).1.2.2)

/-- The first binding of another order is ready as well, so that it is not written before the one
chosen. -/
theorem Chosen.not_lex {placed rest other : List String} (chosen : g.Chosen placed rest)
    (length : other.length = rest.length) (known : ∀ name ∈ other, name ∈ g.names)
    (once : (placed ++ other).Nodup) (sorts : Sorts g.Needs (placed ++ other)) :
    ¬ List.Lex (· < ·) (other.map g.names.idxOf) (rest.map g.names.idxOf) := by
  induction rest generalizing placed other with
  | nil =>
    rw [List.eq_nil_of_length_eq_zero length]
    exact List.not_lex_nil
  | cons name rest ih =>
    cases other with
    | nil => cases length
    | cons first others =>
      rw [List.forall_mem_cons] at known
      have left : first ∉ placed := fun member =>
        (List.nodup_append.mp once).2.2 first member first List.mem_cons_self rfl
      have ready := sorts placed first others rfl
      rw [List.map_cons, List.map_cons, List.cons_lex_cons_iff]
      -- Both `name` and `first` could come next; the one written first was taken.
      rcases (next?_eq_some chosen.1).2 first known.1 left ready with before | ⟨place, same⟩
      · omega
      · subst same
        rw [List.append_cons] at once sorts
        rintro (less | ⟨-, later⟩)
        · omega
        · exact ih chosen.2 (Nat.succ.inj length) known.2 once sorts later

/-- An order of a graph without repetitions is a permutation of its bindings, each behind those it
depends on, and no such permutation is lexicographically before it. -/
theorem order_eq_ok {order : List String} (distinct : g.names.Nodup)
    (found : g.order = .ok order) :
    order.Perm g.names ∧ Sorts g.Needs order ∧
      ∀ other, other.Perm g.names → Sorts g.Needs other →
        ¬ List.Lex (· < ·) (other.map g.names.idxOf) (order.map g.names.idxOf) := by
  obtain ⟨rest, made, chosen⟩ := place_chosen (g := g) g.size []
  rw [List.nil_append] at made
  unfold BindingGraph.order at found
  rw [made] at found
  dsimp only at found
  split at found
  · rename_i complete
    cases found
    have size : g.names.length = order.length := by rw [complete]; simp [names, size]
    have once : order.Nodup := by simpa using chosen.nodup List.nodup_nil
    have perm : order.Perm g.names :=
      (List.subperm_of_subset once chosen.mem_names).perm_of_length_le (Nat.le_of_eq size)
    refine ⟨perm, by simpa using chosen.sorts (sorts_nil _), fun other perm' sorts => ?_⟩
    refine chosen.not_lex (perm'.length_eq.trans size) (fun name => perm'.mem_iff.mp) ?_ sorts
    exact perm'.nodup_iff.mpr distinct
  · cases found

end BindingGraph
end Pipeline
