import Mathlib.Data.List.Cycle
import Pipeline.Graph.Cycle
import Pipeline.Proofs.Graph.Basic

/-!
# Searching a graph for cycles

A search goes from a name to what it depends on and notes a cycle whenever it comes back to its own
path. What it notes are simple cycles. When it comes back from a name, it has met everything that
can be reached from there through names that were new; so the first name of a group of names that
reach each other is met with the whole group ahead, and the search closes a cycle through that name.
-/

set_option autoImplicit false
set_option relaxedAutoImplicit false

namespace Pipeline.BindingGraph

open Relation (ReflTransGen TransGen)

variable {g : BindingGraph}

/-- A dependency was recorded for a name, on a binding or on anything else. -/
def DependsOn (g : BindingGraph) (x y : String) : Prop := y ∈ g.dependenciesOf x

/-- Two names reach each other along dependencies. -/
def Mutual (g : BindingGraph) (x y : String) : Prop :=
  ReflTransGen g.DependsOn x y ∧ ReflTransGen g.DependsOn y x

/-- Distinct names, each of which depends on the next one, and the last on the first. -/
structure IsCycle (g : BindingGraph) (c : List String) : Prop where
  nonempty : c ≠ []
  distinct : c.Nodup
  linked : Cycle.Chain g.DependsOn c

theorem Mutual.refl (x : String) : g.Mutual x x := ⟨.refl, .refl⟩

theorem Mutual.trans {x y z : String} (first : g.Mutual x y) (second : g.Mutual y z) :
    g.Mutual x z := ⟨first.1.trans second.1, second.2.trans first.2⟩

theorem Mutual.transGen {x y : String} (shared : g.Mutual x y) (cyclic : TransGen g.DependsOn x x) :
    TransGen g.DependsOn y y := (cyclic.trans_right shared.2).trans_left shared.1

theorem DependsOn.mem_names {x y : String} (depends : g.DependsOn x y) : x ∈ g.names := by
  unfold DependsOn dependenciesOf at depends
  split at depends
  · rename_i named deps found
    have key : named = x := by simpa using List.find?_some found
    exact List.mem_map.mpr ⟨_, List.mem_of_find?_eq_some found, key⟩
  · cases depends

/-! ### Cycles -/

namespace IsCycle

variable {c : List String}

/-- The members of a cycle reach each other, and themselves. -/
theorem transGen (cycle : g.IsCycle c) {x y : String} (first : x ∈ c) (second : y ∈ c) :
    TransGen g.DependsOn x y := by
  have steps : Cycle.Chain (TransGen g.DependsOn) (c : Cycle String) :=
    cycle.linked.imp fun _ _ step => .single step
  exact Cycle.chain_iff_pairwise.mp steps x first y second

theorem mem_names (cycle : g.IsCycle c) {x : String} (member : x ∈ c) : x ∈ g.names := by
  obtain ⟨y, step, -⟩ := TransGen.head'_iff.mp (cycle.transGen member member)
  exact step.mem_names

/-- A cycle may begin anywhere. -/
theorem rotated {c' : List String} (cycle : g.IsCycle c) (rotated : c.IsRotated c') :
    g.IsCycle c' := by
  refine ⟨?_, rotated.nodup_iff.mp cycle.distinct, ?_⟩
  · rintro rfl
    exact cycle.nonempty (List.isRotated_nil_iff.mp rotated)
  · have same : (c : Cycle String) = c' := Cycle.coe_eq_coe.mpr rotated
    exact same ▸ cycle.linked

end IsCycle

/-- What leads from a name to the end of a path closes to a cycle when the end depends on it. -/
theorem isCycle_dropWhile {before : List String} {name d : String}
    (path : (before ++ [name]).IsChain g.DependsOn) (once : (before ++ [name]).Nodup)
    (member : d ∈ before ++ [name]) (back : g.DependsOn name d) :
    g.IsCycle ((before ++ [name]).dropWhile (· != d)) ∧
      d ∈ (before ++ [name]).dropWhile (· != d) := by
  obtain ⟨early, late, split, fresh⟩ := List.eq_append_cons_of_mem member
  have dropped : (before ++ [name]).dropWhile (· != d) = d :: late := by
    rw [split, List.dropWhile_append_of_pos]
    · simp
    · intro x inside
      have other : x ≠ d := by
        rintro rfl
        exact fresh inside
      simpa using other
  have suffix : d :: late <:+ before ++ [name] := ⟨early, split.symm⟩
  have last : (d :: late).getLast (List.cons_ne_nil d late) = name := by
    have ends := congrArg List.getLast? split
    rw [List.getLast?_concat, List.getLast?_append_of_ne_nil _ (List.cons_ne_nil d late),
      List.getLast?_eq_getLast_of_ne_nil (List.cons_ne_nil d late)] at ends
    exact (Option.some.inj ends).symm
  rw [dropped]
  refine ⟨⟨List.cons_ne_nil d late, once.sublist suffix.sublist, ?_⟩, List.mem_cons_self⟩
  rw [Cycle.chain_ne_nil _ (List.cons_ne_nil d late), last, List.isChain_cons_cons]
  exact ⟨back, path.suffix suffix⟩

/-! ### What a search does -/

/-- The search has noted a cycle with a member that a name reaches and that reaches it. -/
def Search.Tells (g : BindingGraph) (s : Search) (x : String) : Prop :=
  ∃ c ∈ s.found, ∃ y ∈ c, g.Mutual x y

/-- What a part of a search does that begins at the end of a path. -/
structure Explores (g : BindingGraph) (path : List String) (s s' : Search) : Prop where
  visits : s.visited ⊆ s'.visited
  keeps : s.found ⊆ s'.found
  sound : ∀ c ∈ s'.found, c ∈ s.found ∨ g.IsCycle c
  /-- Nothing that a new name depends on is left out. -/
  closed : ∀ u ∈ s'.visited, u ∉ s.visited → ∀ d, g.DependsOn u d → d ∈ s'.visited
  /-- A new name that depends on one of the path closes a cycle through it. -/
  closes : ∀ u ∈ s'.visited, u ∉ s.visited → ∀ r ∈ path, g.DependsOn u r → ∃ c ∈ s'.found, r ∈ c
  /-- Of the names on cycles, all new ones are told of that do not belong to earlier ones. -/
  tells : ∀ x ∈ s'.visited, x ∉ s.visited → TransGen g.DependsOn x x →
    s'.Tells g x ∨ ∃ z ∈ s.visited, g.Mutual x z

theorem Search.Tells.mono {s s' : Search} {x : String} (tells : s.Tells g x)
    (keeps : s.found ⊆ s'.found) : s'.Tells g x := by
  obtain ⟨c, noted, member⟩ := tells
  exact ⟨c, keeps noted, member⟩

theorem Search.Tells.of_mutual {s : Search} {x y : String} (tells : s.Tells g y)
    (shared : g.Mutual x y) : s.Tells g x := by
  obtain ⟨c, noted, z, member, further⟩ := tells
  exact ⟨c, noted, z, member, shared.trans further⟩

namespace Explores

variable {path : List String} {s s' s'' : Search}

theorem refl (g : BindingGraph) (path : List String) (s : Search) : g.Explores path s s where
  visits := List.Subset.refl _
  keeps := List.Subset.refl _
  sound _ noted := Or.inl noted
  closed _ old new := absurd old new
  closes _ old new := absurd old new
  tells _ old new := absurd old new

theorem trans (first : g.Explores path s s') (second : g.Explores path s' s'') :
    g.Explores path s s'' where
  visits := List.Subset.trans first.visits second.visits
  keeps := List.Subset.trans first.keeps second.keeps
  sound c noted := (second.sound c noted).elim (first.sound c) Or.inr
  closed u visited new d depends := by
    by_cases early : u ∈ s'.visited
    · exact second.visits (first.closed u early new d depends)
    · exact second.closed u visited early d depends
  closes u visited new r onPath depends := by
    by_cases early : u ∈ s'.visited
    · obtain ⟨c, noted, member⟩ := first.closes u early new r onPath depends
      exact ⟨c, second.keeps noted, member⟩
    · exact second.closes u visited early r onPath depends
  tells x visited new cyclic := by
    by_cases early : x ∈ s'.visited
    · exact (first.tells x early new cyclic).imp_left fun told => told.mono second.keeps
    · rcases second.tells x visited early cyclic with told | ⟨z, between, shared⟩
      · exact Or.inl told
      · by_cases old : z ∈ s.visited
        · exact Or.inr ⟨z, old, shared⟩
        -- `z` was met by the first part, which has told of it or belongs to earlier names.
        · rcases first.tells z between old (shared.transGen cyclic) with told | ⟨w, older, further⟩
          · exact Or.inl ((told.mono second.keeps).of_mutual shared)
          · exact Or.inr ⟨w, older, shared.trans further⟩

theorem mono {path' : List String} (explores : g.Explores path s s') (part : path' ⊆ path) :
    g.Explores path' s s' :=
  { explores with
    closes := fun u visited new r onPath => explores.closes u visited new r (part onPath) }

/-- A cycle is noted. -/
theorem note {c : List String} (cycle : g.IsCycle c) :
    g.Explores path s { s with found := c :: s.found } where
  visits := List.Subset.refl _
  keeps := List.subset_cons_self c s.found
  sound c' noted := by
    rcases List.mem_cons.mp noted with rfl | old
    · exact Or.inr cycle
    · exact Or.inl old
  closed _ old new := absurd old new
  closes _ old new := absurd old new
  tells _ old new := absurd old new

/-- A name is new, and everything that it depends on has been looked at. -/
theorem enter {name : String} (new : name ∉ s.visited) (last : name ∈ path)
    (explores : g.Explores path { s with visited := name :: s.visited } s')
    (met : ∀ d, g.DependsOn name d → d ∈ s'.visited ∧ (d ∈ path → ∃ c ∈ s'.found, d ∈ c)) :
    g.Explores path s s' := by
  have entered : name ∈ s'.visited := explores.visits List.mem_cons_self
  have later {u : String} (other : u ≠ name) (fresh : u ∉ s.visited) : u ∉ name :: s.visited := by
    simp [other, fresh]
  have closed : ∀ u ∈ s'.visited, u ∉ s.visited → ∀ d, g.DependsOn u d → d ∈ s'.visited := by
    intro u visited fresh d depends
    by_cases same : u = name
    · exact (met d (same ▸ depends)).1
    · exact explores.closed u visited (later same fresh) d depends
  have closes : ∀ u ∈ s'.visited, u ∉ s.visited → ∀ r ∈ path, g.DependsOn u r →
      ∃ c ∈ s'.found, r ∈ c := by
    intro u visited fresh r onPath depends
    by_cases same : u = name
    · exact (met r (same ▸ depends)).2 onPath
    · exact explores.closes u visited (later same fresh) r onPath depends
  refine ⟨List.Subset.trans (List.subset_cons_self name s.visited) explores.visits, explores.keeps,
    explores.sound, closed, closes, fun x visited fresh cyclic => ?_⟩
  by_cases old : ∃ z ∈ s.visited, g.Mutual x z
  · exact Or.inr old
  · left
    by_cases group : g.Mutual x name
    · -- The whole group of `x` is new, and `name` is the first of it that is met.
      have ahead : ∀ u, ReflTransGen g.DependsOn name u → g.Mutual x u →
          u ∈ s'.visited ∧ u ∉ s.visited := by
        intro u reached
        induction reached with
        | refl => exact fun _ => ⟨entered, new⟩
        | tail before step ih =>
          rename_i v w
          intro shared
          have between : g.Mutual x v := ⟨group.1.trans before, (ReflTransGen.head step shared.2)⟩
          have here := ih between
          exact ⟨closed v here.1 here.2 w step, fun inside => old ⟨w, inside, shared⟩⟩
      obtain ⟨u, reached, back⟩ := TransGen.tail'_iff.mp (group.transGen cyclic)
      have shared : g.Mutual x u := ⟨group.1.trans reached, (ReflTransGen.single back).trans group.2⟩
      obtain ⟨visited, fresh⟩ := ahead u reached shared
      obtain ⟨c, noted, member⟩ := closes u visited fresh name last back
      exact ⟨c, noted, name, member, group⟩
    · have other : x ≠ name := by
        rintro rfl
        exact group (.refl x)
      rcases explores.tells x visited (later other fresh) cyclic with told | ⟨z, among, shared⟩
      · exact told
      · rcases List.mem_cons.mp among with rfl | inside
        · exact absurd shared group
        · exact absurd ⟨z, inside, shared⟩ old

end Explores

/-! ### The run of a search -/

/-- All names that occur in a graph. -/
def mentioned (g : BindingGraph) : List String := g.entries.flatMap fun e => e.1 :: e.2

/-- How many mentions of names are left to be visited. -/
def unvisited (g : BindingGraph) (s : Search) : Nat := (g.mentioned.filter (· ∉ s.visited)).length

theorem length_mentioned (g : BindingGraph) : g.mentioned.length = g.nameCount := by
  have count (entries : List (String × List String)) (n : Nat) :
      entries.foldl (fun n e => n + e.2.length + 1) n =
        n + (entries.flatMap fun e => e.1 :: e.2).length := by
    induction entries generalizing n with
    | nil => simp
    | cons e rest ih =>
      rw [List.foldl_cons, ih, List.flatMap_cons, List.length_append, List.length_cons]
      omega
  unfold mentioned nameCount
  rw [count, Nat.zero_add]

theorem mem_mentioned_of_mem_names {x : String} (known : x ∈ g.names) : x ∈ g.mentioned := by
  obtain ⟨e, member, rfl⟩ := List.mem_map.mp known
  exact List.mem_flatMap.mpr ⟨e, member, List.mem_cons_self⟩

theorem DependsOn.mem_mentioned {x y : String} (depends : g.DependsOn x y) : y ∈ g.mentioned := by
  unfold DependsOn dependenciesOf at depends
  split at depends
  · rename_i named deps found
    have member := List.mem_of_find?_eq_some found
    exact List.mem_flatMap.mpr ⟨_, member, List.mem_cons_of_mem _ depends⟩
  · cases depends

theorem unvisited_mono {s s' : Search} (more : s.visited ⊆ s'.visited) :
    g.unvisited s' ≤ g.unvisited s := by
  refine (List.monotone_filter_right g.mentioned fun x left => ?_).length_le
  rw [decide_eq_true_eq] at left ⊢
  exact fun visited => left (more visited)

theorem unvisited_cons_lt {s : Search} {name : String} (known : name ∈ g.mentioned)
    (new : name ∉ s.visited) :
    g.unvisited { s with visited := name :: s.visited } < g.unvisited s := by
  have fewer : g.mentioned.filter (· ∉ name :: s.visited) =
      (g.mentioned.filter (· ∉ s.visited)).filter (· ≠ name) := by
    rw [List.filter_filter]
    refine List.filter_congr fun x _ => ?_
    rw [← Bool.decide_and, decide_eq_decide, List.mem_cons, not_or]
  unfold unvisited
  rw [fewer, List.length_filter_lt_length_iff_exists]
  exact ⟨name, List.mem_filter.mpr ⟨known, by simpa using new⟩, by simp⟩

/-- Looking at the dependencies of a name one after another. -/
private theorem explores_foldl (path : List String) (name : String) (limit : Nat)
    (look : Search → String → Search) (start : Search) (deps : List String)
    (each : ∀ s d, start.visited ⊆ s.visited → g.unvisited s ≤ limit → g.DependsOn name d →
      g.Explores path s (look s d) ∧ d ∈ (look s d).visited ∧
        (d ∈ path → ∃ c ∈ (look s d).found, d ∈ c))
    (among : ∀ d ∈ deps, g.DependsOn name d) {s : Search}
    (more : start.visited ⊆ s.visited) (enough : g.unvisited s ≤ limit) :
    g.Explores path s (deps.foldl look s) ∧ ∀ d ∈ deps, d ∈ (deps.foldl look s).visited ∧
      (d ∈ path → ∃ c ∈ (deps.foldl look s).found, d ∈ c) := by
  induction deps generalizing s with
  | nil => exact ⟨.refl g path s, by simp⟩
  | cons d rest ih =>
    rw [List.forall_mem_cons] at among ⊢
    obtain ⟨here, visited, closed⟩ := each s d more enough among.1
    have further : start.visited ⊆ (look s d).visited := List.Subset.trans more here.visits
    have left : g.unvisited (look s d) ≤ limit := (unvisited_mono here.visits).trans enough
    obtain ⟨there, others⟩ := ih among.2 further left
    refine ⟨here.trans there, ⟨there.visits visited, fun onPath => ?_⟩, others⟩
    obtain ⟨c, noted, member⟩ := closed onPath
    exact ⟨c, there.keeps noted, member⟩

/-- A visit explores what is ahead of a path, if there is a step for each name that is left. -/
theorem visit_explores {fuel : Nat} {path : List String} {name : String} {s : Search}
    (enough : g.unvisited s ≤ fuel) (known : name ∈ g.mentioned) (new : name ∉ s.visited)
    (visited : path ⊆ s.visited) (once : path.Nodup)
    (chain : (path ++ [name]).IsChain g.DependsOn) :
    g.Explores (path ++ [name]) s (g.visit fuel path name s) ∧
      name ∈ (g.visit fuel path name s).visited := by
  induction fuel generalizing path name s with
  | zero =>
    have left := unvisited_cons_lt known new
    omega
  | succ fuel ih =>
    have distinct : (path ++ [name]).Nodup := by
      rw [← List.concat_eq_append]
      exact once.concat fun member => new (visited member)
    have onPath : path ++ [name] ⊆ name :: s.visited := by
      intro x member
      rcases List.mem_append.mp member with before | last
      · exact List.mem_cons_of_mem _ (visited before)
      · exact List.mem_cons.mpr (Or.inl (List.mem_singleton.mp last))
    have fewer := unvisited_cons_lt known new
    unfold visit
    have explored := explores_foldl (g := g) (path ++ [name]) name fuel
      (fun s d =>
        if !s.visited.contains d then g.visit fuel (path ++ [name]) d s
        else if (path ++ [name]).contains d then
          { s with found := (path ++ [name]).dropWhile (· != d) :: s.found }
        else s)
      { s with visited := name :: s.visited } (g.dependenciesOf name) ?each
      (fun _ depends => depends) (List.Subset.refl _) (by omega)
    case each =>
      intro s' d more left depends
      have behind : path ++ [name] ⊆ s'.visited := List.Subset.trans onPath more
      by_cases fresh : d ∈ s'.visited
      · have old : (!s'.visited.contains d) = false := by simpa using fresh
        rw [if_neg (by rw [old]; exact Bool.false_ne_true)]
        by_cases back : d ∈ path ++ [name]
        · obtain ⟨cycle, member⟩ := isCycle_dropWhile chain distinct back depends
          rw [if_pos (List.contains_iff_mem.mpr back)]
          exact ⟨.note cycle, fresh, fun _ => ⟨_, List.mem_cons_self, member⟩⟩
        · rw [if_neg fun inside => back (List.contains_iff_mem.mp inside)]
          exact ⟨.refl g _ s', fresh, fun inside => absurd inside back⟩
      · rw [if_pos (by simpa using fresh)]
        have longer : (path ++ [name] ++ [d]).IsChain g.DependsOn := by
          rw [List.append_assoc, List.singleton_append, List.isChain_append_cons_cons]
          exact ⟨chain, depends, List.isChain_singleton d⟩
        obtain ⟨explores, met⟩ := ih left depends.mem_mentioned fresh behind distinct longer
        refine ⟨explores.mono (List.subset_append_left _ _), met, fun inside => ?_⟩
        exact absurd (behind inside) fresh
    refine ⟨explored.1.enter new (List.mem_append_right _ List.mem_cons_self) explored.2, ?_⟩
    exact explored.1.visits List.mem_cons_self

/-- The search from all bindings notes simple cycles, and one for each group of names that reach
each other. -/
theorem closedCycles_explored (g : BindingGraph) :
    (∀ c ∈ g.closedCycles, g.IsCycle c) ∧
      ∀ x, TransGen g.DependsOn x x → ∃ c ∈ g.closedCycles, ∃ y ∈ c, g.Mutual x y := by
  have all (names : List String) (known : names ⊆ g.names) (s : Search) :
      let s' := names.foldl
        (fun s name => if s.visited.contains name then s else g.visit (g.nameCount + 1) [] name s) s
      g.Explores [] s s' ∧ names ⊆ s'.visited := by
    induction names generalizing s with
    | nil => exact ⟨.refl g [] s, List.nil_subset _⟩
    | cons name rest ih =>
      rw [List.cons_subset] at known
      have here : ∃ s', (if s.visited.contains name then s else
          g.visit (g.nameCount + 1) [] name s) = s' ∧ g.Explores [] s s' ∧ name ∈ s'.visited := by
        by_cases old : name ∈ s.visited
        · exact ⟨s, if_pos (List.contains_iff_mem.mpr old), .refl g [] s, old⟩
        · have enough : g.unvisited s ≤ g.nameCount + 1 := by
            have fewer := List.length_filter_le (· ∉ s.visited) g.mentioned
            rw [length_mentioned] at fewer
            exact fewer.trans (Nat.le_succ _)
          obtain ⟨explores, met⟩ := visit_explores enough
            (mem_mentioned_of_mem_names known.1) old (List.nil_subset _) List.nodup_nil
            (List.isChain_singleton name)
          exact ⟨_, if_neg fun inside => old (List.contains_iff_mem.mp inside),
            explores.mono (List.nil_subset _), met⟩
      obtain ⟨s', same, first, met⟩ := here
      obtain ⟨second, others⟩ := ih known.2 s'
      rw [List.foldl_cons, same]
      exact ⟨first.trans second, List.cons_subset.mpr ⟨second.visits met, others⟩⟩
  obtain ⟨explores, visited⟩ := all g.names (List.Subset.refl _) ⟨[], []⟩
  unfold closedCycles
  constructor
  · intro c noted
    exact (explores.sound c (List.mem_reverse.mp noted)).resolve_left List.not_mem_nil
  · intro x cyclic
    obtain ⟨y, step, -⟩ := TransGen.head'_iff.mp cyclic
    rcases explores.tells x (visited step.mem_names) List.not_mem_nil cyclic with told | ⟨z, never, -⟩
    · obtain ⟨c, noted, member⟩ := told
      exact ⟨c, List.mem_reverse.mpr noted, member⟩
    · cases never

end Pipeline.BindingGraph
