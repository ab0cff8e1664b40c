import Mathlib.Data.Set.Finite.List
import Mathlib.Order.WellFounded
import Pipeline.Proofs.Graph.Order

/-!
# Which bindings can be ordered

A binding can be placed unless its dependencies lead to a cycle. So a graph has an order exactly
when none of its bindings lies on a cycle, and what is left over otherwise are the bindings from
which a cycle can be reached.
-/

set_option autoImplicit false
set_option relaxedAutoImplicit false

namespace Pipeline

open Relation (ReflTransGen TransGen)

/-- Where everything has a successor among finitely many things, a cycle is reached. -/
theorem exists_transGen_self {α : Type} {R : α → α → Prop} {left : List α}
    (next : ∀ x ∈ left, ∃ y ∈ left, R x y) {x : α} (member : x ∈ left) :
    ∃ y ∈ left, ReflTransGen R x y ∧ TransGen R y y := by
  by_contra acyclic
  push Not at acyclic
  -- What is reached from `x` would be well-founded along `R`, and has no last member.
  let Reached := { y // y ∈ left ∧ ReflTransGen R x y }
  have finite : Finite Reached := (left.finite_toSet.subset fun _ reached => reached.1).to_subtype
  let Behind (a b : Reached) : Prop := TransGen R b.1 a.1
  have transitive : IsTrans Reached Behind := ⟨fun _ _ _ first second => second.trans first⟩
  have irreflexive : Std.Irrefl Behind := ⟨fun a => acyclic a.1 a.2.1 a.2.2⟩
  have founded : WellFounded Behind := Finite.wellFounded_of_trans_of_irrefl Behind
  refine founded.induction (C := fun _ => False) ⟨x, member, .refl⟩ fun a ih => ?_
  obtain ⟨y, inside, step⟩ := next a.1 a.2.1
  exact ih ⟨y, inside, a.2.2.tail step⟩ (.single step)

/-! ### Sorted lists -/

section Sorts

variable {needs : String → String → Prop} {order : List String}

theorem Sorts.idxOf_lt (sorts : Sorts needs order) {x n : String} (member : x ∈ order)
    (need : needs x n) : n ∈ order ∧ order.idxOf n < order.idxOf x := by
  obtain ⟨before, after, rfl, fresh⟩ := List.eq_append_cons_of_mem member
  have earlier : n ∈ before := sorts before x after rfl n need
  have place : (before ++ x :: after).idxOf x = before.length := by
    rw [List.idxOf_append_of_notMem fresh, List.idxOf_cons_self, Nat.add_zero]
  refine ⟨List.mem_append_left _ earlier, ?_⟩
  rw [place, List.idxOf_append_of_mem earlier]
  exact List.idxOf_lt_length_of_mem earlier

theorem Sorts.idxOf_lt_of_transGen (sorts : Sorts needs order) {x n : String} (member : x ∈ order)
    (reached : TransGen needs x n) : n ∈ order ∧ order.idxOf n < order.idxOf x := by
  induction reached with
  | single need => exact sorts.idxOf_lt member need
  | tail _ need ih =>
    have step := sorts.idxOf_lt ih.1 need
    exact ⟨step.1, step.2.trans ih.2⟩

/-- No cycle is reached from a list that is sorted. -/
theorem Sorts.acyclic (sorts : Sorts needs order) {x y : String} (member : x ∈ order)
    (reached : ReflTransGen needs x y) : ¬ TransGen needs y y := by
  intro cycle
  have inside : y ∈ order := by
    rcases ReflTransGen.cases_head reached with rfl | ⟨z, first, rest⟩
    · exact member
    · exact (sorts.idxOf_lt_of_transGen member (.head' first rest)).1
  have before := (sorts.idxOf_lt_of_transGen inside cycle).2
  omega

end Sorts

namespace BindingGraph

variable {g : BindingGraph}

/-- A binding depends on itself, at once or through other bindings. -/
def OnCycle (g : BindingGraph) (x : String) : Prop := TransGen g.Needs x x

/-- The dependencies of a binding lead to a cycle, which it may lie on itself. -/
def ReachesCycle (g : BindingGraph) (x : String) : Prop := ∃ y, ReflTransGen g.Needs x y ∧ g.OnCycle y

theorem OnCycle.mem_names {x : String} (cyclic : g.OnCycle x) : x ∈ g.names := by
  obtain ⟨_, _, last⟩ := TransGen.tail'_iff.mp cyclic
  exact last.2

/-! ### Where no further binding can be placed -/

theorem length_place (n : Nat) (placed : List String) :
    (g.place n placed).length = placed.length + n ∨ g.next? (g.place n placed) = none := by
  induction n generalizing placed with
  | zero => exact Or.inl rfl
  | succ n ih =>
    unfold place
    cases found : g.next? placed with
    | none => exact Or.inr found
    | some name =>
      refine (ih (placed ++ [name])).imp_left fun full => ?_
      rw [full, List.length_append, List.length_singleton]
      omega

/-- A binding that is not placed in the end waits for another one that is not. -/
theorem exists_needs_of_next?_eq_none {placed : List String} (stuck : g.next? placed = none)
    {x : String} (known : x ∈ g.names) (left : x ∉ placed) : ∃ n, g.Needs x n ∧ n ∉ placed := by
  have refused := List.find?_eq_none.mp stuck x known
  have waits : ¬ g.ready placed x = true := by simpa [left] using refused
  rw [ready_iff] at waits
  push Not at waits
  exact waits

theorem reachesCycle_of_next?_eq_none {placed : List String} (stuck : g.next? placed = none)
    {x : String} (known : x ∈ g.names) (left : x ∉ placed) : g.ReachesCycle x := by
  have next : ∀ y ∈ g.names.filter (· ∉ placed), ∃ n ∈ g.names.filter (· ∉ placed), g.Needs y n := by
    intro y member
    rw [List.mem_filter, decide_eq_true_eq] at member
    obtain ⟨n, need, waiting⟩ := exists_needs_of_next?_eq_none stuck member.1 member.2
    exact ⟨n, List.mem_filter.mpr ⟨need.2, decide_eq_true waiting⟩, need⟩
  obtain ⟨y, -, reached, cyclic⟩ :=
    exists_transGen_self next (List.mem_filter.mpr ⟨known, decide_eq_true left⟩)
  exact ⟨y, reached, cyclic⟩

theorem not_reachesCycle_of_mem {placed : List String} (chosen : g.Chosen [] placed) {x : String}
    (member : x ∈ placed) : ¬ g.ReachesCycle x := by
  have sorts : Sorts g.Needs placed := chosen.sorts (sorts_nil _)
  rintro ⟨y, reached, cyclic⟩
  exact sorts.acyclic member reached cyclic

/-- Bindings are placed until no further one can be. -/
theorem place_all (g : BindingGraph) :
    g.Chosen [] (g.place g.size []) ∧
      (g.next? (g.place g.size []) = none ∨ g.names ⊆ g.place g.size []) := by
  obtain ⟨rest, made, chosen⟩ := place_chosen (g := g) g.size []
  rw [List.nil_append] at made
  have full := length_place (g := g) g.size []
  rw [made] at full ⊢
  refine ⟨chosen, full.symm.imp_right fun length => ?_⟩
  have once : rest.Nodup := by simpa using chosen.nodup List.nodup_nil
  have size : g.names.length ≤ rest.length := by
    rw [length]
    simp [names, size]
  have perm : rest.Perm g.names :=
    (List.subperm_of_subset once chosen.mem_names).perm_of_length_le size
  exact perm.symm.subset

/-- The bindings that cannot be placed are those from which a cycle is reached. -/
theorem mem_place_iff {x : String} (known : x ∈ g.names) :
    x ∈ g.place g.size [] ↔ ¬ g.ReachesCycle x := by
  obtain ⟨chosen, stuck | all⟩ := g.place_all
  · refine ⟨not_reachesCycle_of_mem chosen, fun free => ?_⟩
    by_contra left
    exact free (reachesCycle_of_next?_eq_none stuck known left)
  · exact ⟨not_reachesCycle_of_mem chosen, fun _ => all known⟩

/-! ### Orders -/

theorem length_place_eq_size (distinct : g.names.Nodup) (free : ∀ x ∈ g.names, ¬ g.OnCycle x) :
    (g.place g.size []).length = g.size := by
  have all : g.names ⊆ g.place g.size [] := by
    intro x known
    rw [mem_place_iff known]
    rintro ⟨y, -, cyclic⟩
    exact free y cyclic.mem_names cyclic
  have chosen := g.place_all.1
  have once : (g.place g.size []).Nodup := by simpa using chosen.nodup List.nodup_nil
  have perm : (g.place g.size []).Perm g.names :=
    (List.perm_ext_iff_of_nodup once distinct).mpr fun x => ⟨fun member => chosen.mem_names x member,
      fun known => all known⟩
  rw [perm.length_eq]
  simp [names, size]

theorem exists_order_iff (distinct : g.names.Nodup) :
    (∃ order, g.order = .ok order) ↔ ∀ x ∈ g.names, ¬ g.OnCycle x := by
  constructor
  · rintro ⟨order, found⟩ x known
    obtain ⟨perm, sorts, -⟩ := order_eq_ok distinct found
    exact sorts.acyclic (perm.mem_iff.mpr known) .refl
  · intro free
    unfold BindingGraph.order
    exact ⟨_, if_pos (length_place_eq_size distinct free)⟩

theorem order_eq_error {stuck : List String} (found : g.order = .error stuck) :
    stuck.Sublist g.names ∧ ∀ x, x ∈ stuck ↔ x ∈ g.names ∧ g.ReachesCycle x := by
  unfold BindingGraph.order at found
  dsimp only at found
  split at found
  · cases found
  · cases found
    refine ⟨List.filter_sublist, fun x => ?_⟩
    have left : ∀ known : x ∈ g.names, x ∉ g.place g.size [] ↔ g.ReachesCycle x := by
      intro known
      rw [mem_place_iff known, not_not]
    rw [List.mem_filter]
    refine and_congr_right fun known => ?_
    rw [← left known]
    simp

/-- The order depends on the bindings and on the dependencies among them, and on nothing else. -/
theorem order_congr {g' : BindingGraph} (names : g'.names = g.names)
    (needs : ∀ x n, g'.Needs x n ↔ g.Needs x n) : g'.order = g.order := by
  have size : g'.size = g.size := by
    have length := congrArg List.length names
    simpa [BindingGraph.names, BindingGraph.size] using length
  have ready : ∀ placed x, g'.ready placed x = g.ready placed x := by
    intro placed x
    rw [Bool.eq_iff_iff, ready_iff, ready_iff]
    exact forall_congr' fun n => imp_congr_left (needs x n)
  have next : ∀ placed, g'.next? placed = g.next? placed := by
    intro placed
    unfold next?
    rw [names]
    simp only [ready]
  have place : ∀ n placed, g'.place n placed = g.place n placed := by
    intro n
    induction n with
    | zero => exact fun _ => rfl
    | succ n ih =>
      intro placed
      unfold BindingGraph.place
      rw [next]
      cases g.next? placed with
      | none => rfl
      | some name => exact ih (placed ++ [name])
  unfold BindingGraph.order
  rw [place, size, names]

/-- A binding that only waits for a cycle is left over too, and a dependency on no binding is not
waited for. -/
example : (ofEdits [.dependency "out" "a", .dependency "a" "b", .dependency "b" "a",
    .dependency "free" "ghost"]).order = .error ["out", "a", "b"] := by
  decide +kernel

end BindingGraph
end Pipeline
