import Pipeline.Proofs.Data.Insertion
import Pipeline.Proofs.Graph.Search

/-!
# The cycles of a graph

Of the cycles that a search notes, those with the same members are reported once, each from its
member written first, in the order of these members. What is left are simple cycles still, and every
group of names that reach each other keeps one.
-/

set_option autoImplicit false
set_option relaxedAutoImplicit false

namespace Pipeline.BindingGraph

open Relation (ReflTransGen TransGen)

variable {g : BindingGraph} {c : List String}

/-! ### Lists with the same members -/

section DistinctMembers

variable {lists : List (List String)} {seen : List NameSet}

theorem mem_of_mem_distinctMembers (kept : c ∈ distinctMembers lists seen) :
    c ∈ lists ∧ NameSet.ofList c ∉ seen := by
  fun_induction distinctMembers lists seen with
  | case1 => cases kept
  | case2 first rest seen members known ih =>
    obtain ⟨inside, new⟩ := ih kept
    exact ⟨List.mem_cons_of_mem first inside, new⟩
  | case3 first rest seen members unknown ih =>
    rcases List.mem_cons.mp kept with rfl | later
    · exact ⟨List.mem_cons_self, fun old => unknown (List.contains_iff_mem.mpr old)⟩
    · obtain ⟨inside, new⟩ := ih later
      exact ⟨List.mem_cons_of_mem first inside, fun old => new (List.mem_cons_of_mem members old)⟩

theorem exists_mem_distinctMembers (seen : List NameSet) (member : c ∈ lists) :
    NameSet.ofList c ∈ seen ∨
      ∃ kept ∈ distinctMembers lists seen, NameSet.ofList kept = NameSet.ofList c := by
  fun_induction distinctMembers lists seen with
  | case1 => cases member
  | case2 first rest seen members known ih =>
    rcases List.mem_cons.mp member with rfl | later
    · exact Or.inl (List.contains_iff_mem.mp known)
    · exact ih later
  | case3 first rest seen members unknown ih =>
    rcases List.mem_cons.mp member with rfl | later
    · exact Or.inr ⟨c, List.mem_cons_self, rfl⟩
    · rcases ih later with old | ⟨kept, inside, same⟩
      · rcases List.mem_cons.mp old with here | before
        · exact Or.inr ⟨first, List.mem_cons_self, here.symm⟩
        · exact Or.inl before
      · exact Or.inr ⟨kept, List.mem_cons_of_mem first inside, same⟩

theorem pairwise_distinctMembers (lists : List (List String)) (seen : List NameSet) :
    (distinctMembers lists seen).Pairwise fun a b => NameSet.ofList a ≠ NameSet.ofList b := by
  fun_induction distinctMembers lists seen with
  | case1 => exact List.Pairwise.nil
  | case2 first rest seen members known ih => exact ih
  | case3 first rest seen members unknown ih =>
    refine List.Pairwise.cons (fun other kept same => ?_) ih
    have new := (mem_of_mem_distinctMembers kept).2
    exact new (same ▸ List.mem_cons_self)

end DistinctMembers

/-! ### Where a cycle begins -/

theorem idxOf_lt_size {x : String} (known : x ∈ g.names) : g.names.idxOf x < g.size := by
  have length : g.names.length = g.size := by simp [names, size]
  rw [← length]
  exact List.idxOf_lt_length_of_mem known

theorem earliest_spec (nonempty : c ≠ []) (known : ∀ x ∈ c, x ∈ g.names) :
    ∃ inside : g.earliest c < c.length,
      ∀ y ∈ c, g.names.idxOf (c.get ⟨g.earliest c, inside⟩) ≤ g.names.idxOf y := by
  obtain ⟨least, found⟩ : ∃ least, (c.map g.names.idxOf).min? = some least :=
    Option.isSome_iff_exists.mp (by simpa [List.isSome_min?_iff] using nonempty)
  obtain ⟨attained, below⟩ := List.min?_eq_some_iff.mp found
  obtain ⟨x, member, place⟩ := List.mem_map.mp attained
  have fold : (c.map g.names.idxOf).foldl min g.size = least := by
    have small := idxOf_lt_size (known x member)
    rw [List.foldl_min, found, Option.getD_some]
    omega
  have chosen : g.earliest c = c.findIdx fun name => g.names.idxOf name = least := by
    unfold earliest
    simp only [position?_getD, fold]
  have inside : g.earliest c < c.length := by
    rw [chosen]
    exact List.findIdx_lt_length_of_exists ⟨x, member, decide_eq_true place⟩
  refine ⟨inside, fun y other => ?_⟩
  have here : g.names.idxOf (c.get ⟨g.earliest c, inside⟩) = least := by
    have found := List.findIdx_getElem (w := chosen ▸ inside)
    simpa only [List.get_eq_getElem, chosen, decide_eq_true_eq] using found
  rw [here]
  exact below _ (List.mem_map_of_mem other)

/-- A cycle is told from its member written first. -/
structure FromEarliest (g : BindingGraph) (c : List String) : Prop where
  cycle : g.IsCycle c
  head : ∀ x ∈ c.head?, ∀ y ∈ c, g.names.idxOf x ≤ g.names.idxOf y

theorem rotate_isRotated (g : BindingGraph) (c : List String) (inside : g.earliest c < c.length) :
    c.IsRotated (g.rotate c) :=
  ⟨g.earliest c, List.rotate_eq_drop_append_take inside.le⟩

theorem mem_rotate (cycle : g.IsCycle c) {x : String} : x ∈ g.rotate c ↔ x ∈ c := by
  obtain ⟨inside, -⟩ := earliest_spec cycle.nonempty fun x member => cycle.mem_names member
  exact (rotate_isRotated g c inside).symm.mem_iff

theorem fromEarliest_rotate (cycle : g.IsCycle c) : g.FromEarliest (g.rotate c) := by
  obtain ⟨inside, least⟩ := earliest_spec cycle.nonempty fun x member => cycle.mem_names member
  refine ⟨cycle.rotated (rotate_isRotated g c inside), fun x first y member => ?_⟩
  have head : (g.rotate c).head? = some (c.get ⟨g.earliest c, inside⟩) := by
    unfold rotate
    dsimp only
    rw [List.drop_eq_getElem_cons inside]
    rfl
  rw [head, Option.mem_some_iff] at first
  subst first
  exact least y ((mem_rotate cycle).mp member)

/-! ### The cycles told -/

/-- Where the first member of a cycle is written. -/
def start (g : BindingGraph) (c : List String) : Nat := (c.head?.bind g.position?).getD g.size

theorem mem_cycles_iff :
    c ∈ g.cycles ↔ ∃ closed ∈ distinctMembers g.closedCycles [], g.rotate closed = c := by
  unfold cycles
  rw [List.mem_mergeSort, List.mem_map]

theorem isCycle_of_mem_distinctMembers (kept : c ∈ distinctMembers g.closedCycles []) :
    g.IsCycle c :=
  g.closedCycles_explored.1 c (mem_of_mem_distinctMembers kept).1

theorem fromEarliest_of_mem_cycles (told : c ∈ g.cycles) : g.FromEarliest c := by
  obtain ⟨closed, kept, rfl⟩ := mem_cycles_iff.mp told
  exact fromEarliest_rotate (isCycle_of_mem_distinctMembers kept)

theorem pairwise_mem_cycles (g : BindingGraph) :
    g.cycles.Pairwise fun a b => ¬ ∀ x, x ∈ a ↔ x ∈ b := by
  have symmetric : ∀ {a b : List String}, (¬ ∀ x, x ∈ a ↔ x ∈ b) → ¬ ∀ x, x ∈ b ↔ x ∈ a :=
    fun differ same => differ fun x => (same x).symm
  unfold cycles
  refine (List.Perm.pairwise_iff symmetric (List.mergeSort_perm _ _)).mpr ?_
  rw [List.pairwise_map]
  refine (pairwise_distinctMembers g.closedCycles []).imp_of_mem fun {a b} first second differ => ?_
  intro same
  refine differ (NameSet.ofList_eq_iff.mpr fun x => ?_)
  rw [← mem_rotate (isCycle_of_mem_distinctMembers first), same,
    mem_rotate (isCycle_of_mem_distinctMembers second)]

theorem pairwise_start_cycles (g : BindingGraph) :
    g.cycles.Pairwise fun a b => g.start a ≤ g.start b := by
  have sorted : g.cycles.Pairwise fun a b => decide (g.start a ≤ g.start b) = true := by
    unfold cycles
    refine List.pairwise_mergeSort (fun a b c first second => ?_) (fun a b => ?_) _
    · simp only [decide_eq_true_eq] at first second ⊢
      exact first.trans second
    · simp only [Bool.or_eq_true, decide_eq_true_eq]
      exact Nat.le_total _ _
  exact sorted.imp of_decide_eq_true

theorem exists_mem_cycles {x : String} (cyclic : TransGen g.DependsOn x x) :
    ∃ c ∈ g.cycles, ∃ y ∈ c, g.Mutual x y := by
  obtain ⟨closed, noted, y, member, shared⟩ := g.closedCycles_explored.2 x cyclic
  obtain old | ⟨kept, inside, same⟩ := exists_mem_distinctMembers [] noted
  · cases old
  · have there : y ∈ kept := (NameSet.ofList_eq_iff.mp same y).mpr member
    have cycle := isCycle_of_mem_distinctMembers inside
    exact ⟨g.rotate kept, mem_cycles_iff.mpr ⟨kept, inside, rfl⟩, y, (mem_rotate cycle).mpr there,
      shared⟩

theorem cycles_eq_nil_iff : g.cycles = [] ↔ ∀ x, ¬ TransGen g.DependsOn x x := by
  constructor
  · intro none x cyclic
    obtain ⟨c, told, -⟩ := exists_mem_cycles cyclic
    rw [none] at told
    cases told
  · intro acyclic
    refine List.eq_nil_iff_forall_not_mem.mpr fun c told => ?_
    have cycle := (fromEarliest_of_mem_cycles told).cycle
    obtain ⟨x, member⟩ := List.exists_mem_of_ne_nil c cycle.nonempty
    exact acyclic x (cycle.transGen member member)

/-- **The cycles that are told are the cycles of the graph, one for each group at least.** Each of
them is a simple cycle that begins with its member written first; no two have the same members; they
stand in the order in which their first members are written; and every name on a cycle is in the
group of some cycle told, that is, reaches one of its members and is reached from there. So none is
told exactly when the graph is acyclic. -/
theorem cycles_exact (g : BindingGraph) :
    (∀ c ∈ g.cycles, g.IsCycle c ∧ ∀ x ∈ c.head?, ∀ y ∈ c, g.names.idxOf x ≤ g.names.idxOf y) ∧
      (g.cycles.Pairwise fun a b => ¬ ∀ x, x ∈ a ↔ x ∈ b) ∧
      (g.cycles.Pairwise fun a b =>
        ∀ x ∈ a.head?, ∀ y ∈ b.head?, g.names.idxOf x ≤ g.names.idxOf y) ∧
      (∀ x, TransGen g.DependsOn x x → ∃ c ∈ g.cycles, ∃ y ∈ c, g.Mutual x y) ∧
      (g.cycles = [] ↔ ∀ x, ¬ TransGen g.DependsOn x x) := by
  have place : ∀ {c : List String} {x : String}, x ∈ c.head? → g.start c = g.names.idxOf x := by
    intro c x first
    unfold start
    rw [Option.mem_def.mp first, Option.bind_some, position?_getD]
  refine ⟨fun c told => ?_, g.pairwise_mem_cycles, ?_, fun x => exists_mem_cycles,
    cycles_eq_nil_iff⟩
  · have cycle := fromEarliest_of_mem_cycles told
    exact ⟨cycle.cycle, cycle.head⟩
  · refine g.pairwise_start_cycles.imp fun {a b} le x first y second => ?_
    rw [← place first, ← place second]
    exact le

/-- The search comes to `d` first, and to `x` from there, which is written before it. -/
example : (ofEdits [.dependency "r" "d", .dependency "x" "d", .dependency "d" "x",
    .dependency "d" "d"]).cycles = [["x", "d"], ["d"]] := by
  cbv

end Pipeline.BindingGraph
