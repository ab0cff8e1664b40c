import Pipeline.Plan.Bind
import Pipeline.Proofs.Data.NameMap
import Pipeline.Proofs.Graph.Basic
import Pipeline.Proofs.Schema.References

/-!
# Progress of a document

While the bindings of a document are constructed, its graph keeps them and gets further dependencies
among them; no construction is lost, and none refers to what its binding does not depend on.
-/

set_option autoImplicit false
set_option relaxedAutoImplicit false

namespace Pipeline

open Value (All RefersTo)

/-- The values in a construction. -/
def Construction.values : Construction → List Value
  | component _ params _ => params.map (·.value)
  | record value => [value]
  | host _ => []

namespace Store.Progress

/-- Nothing has gone wrong so far. -/
def Clean (p : Progress) : Prop := p.faults = [] ∧ p.aborted = false

/-- Every construction refers to nothing but what its binding depends on. -/
def Closed (p : Progress) : Prop :=
  ∀ name c, p.constructions.get? name = some c →
    ∀ v ∈ c.values, All (RefersTo (· ∈ p.graph.dependenciesOf name)) v

/-- What has become of a document when further bindings are constructed and further dependencies
are known. -/
structure Advances (p q : Progress) (needs : String → String → Prop) (built : String → Prop) :
    Prop where
  grows : p.graph.Grows q.graph needs
  closed : p.Closed → q.Closed
  built : ∀ name, built name ∨ (p.constructions.get? name).isSome = true →
    (q.constructions.get? name).isSome = true

theorem Advances.refl (p : Progress) : p.Advances p (fun _ _ => False) fun _ => False :=
  ⟨.refl p.graph, fun closed => closed, by simp⟩

theorem Advances.trans {p q r : Progress} {needs needs' : String → String → Prop}
    {built built' : String → Prop} (first : p.Advances q needs built)
    (second : q.Advances r needs' built') :
    p.Advances r (fun x n => needs x n ∨ needs' x n) fun x => built x ∨ built' x := by
  refine ⟨first.grows.trans second.grows, fun closed => second.closed (first.closed closed),
    fun name either => second.built name ?_⟩
  rcases either with (here | there) | before
  · exact Or.inr (first.built name (Or.inl here))
  · exact Or.inl there
  · exact Or.inr (first.built name (Or.inr before))

theorem Advances.congr {p q : Progress} {needs needs' : String → String → Prop}
    {built built' : String → Prop} (advances : p.Advances q needs built)
    (same : ∀ x n, needs x n ↔ needs' x n) (less : ∀ x, built' x → built x) :
    p.Advances q needs' built' :=
  ⟨advances.grows.congr same, advances.closed, fun name either =>
    advances.built name (either.imp_left (less name))⟩

/-- Constructions are not touched by further dependencies. -/
theorem advances_grow {p : Progress} {graph : BindingGraph} {needs : String → String → Prop}
    (grows : p.graph.Grows graph needs) :
    p.Advances { p with graph := graph } needs fun _ => False := by
  refine ⟨grows, fun closed x c found v member => ?_, fun x either => either.resolve_left id⟩
  refine Value.all_refersTo_imp (closed x c found v member) fun n before => ?_
  exact (grows.depends x n).mpr (Or.inl before)

/-- A binding is constructed of values that refer to what it depends on. -/
theorem advances_insert {p : Progress} {graph : BindingGraph} {needs : String → String → Prop}
    {name : String} {c : Construction} (grows : p.graph.Grows graph needs)
    (refers : ∀ v ∈ c.values, All (RefersTo (· ∈ graph.dependenciesOf name)) v) :
    p.Advances { p with graph := graph, constructions := p.constructions.insert name c } needs
      (· = name) := by
  refine ⟨grows, fun closed x c' found v member => ?_, fun x either => ?_⟩
  · rw [NameMap.get?_insert] at found
    split at found
    · rename_i same
      cases found
      exact same ▸ refers v member
    · exact (advances_grow grows).closed closed x c' found v member
  · show ((p.constructions.insert name c).get? x).isSome = true
    rw [NameMap.get?_insert]
    split
    · rfl
    · rename_i other
      exact either.resolve_left fun same => other same.symm

theorem clean_of_fail {p : Progress} {faults : List Diagnostic} (clean : (p.fail faults).Clean) :
    p.Clean ∧ faults = [] := by
  obtain ⟨none, running⟩ := clean
  obtain ⟨before, here⟩ := List.append_eq_nil_iff.mp none
  exact ⟨⟨before, (Bool.or_eq_false_iff.mp running).1⟩, here⟩

/-- The dependencies of a binding on those of a graph that are among names. -/
private def siblingLinks (g : BindingGraph) (name : String) (names : List String) :
    List (String × String) :=
  ((NameSet.ofList names).filter g.contains).map fun n => (name, n)

private theorem mem_siblingLinks {g : BindingGraph} {name x n : String} {names : List String} :
    (x, n) ∈ siblingLinks g name names ↔ n ∈ g.names ∧ x = name ∧ n ∈ names := by
  unfold siblingLinks
  rw [List.mem_map]
  constructor
  · rintro ⟨n', member, same⟩
    cases same
    rw [List.mem_filter, NameSet.mem_ofList, BindingGraph.contains_iff] at member
    exact ⟨member.2, rfl, member.1⟩
  · rintro ⟨known, rfl, member⟩
    refine ⟨n, List.mem_filter.mpr ?_, rfl⟩
    exact ⟨NameSet.mem_ofList.mpr member, BindingGraph.contains_iff.mpr known⟩

theorem grows_dependOn {p : Progress} {name : String} (known : name ∈ p.graph.names)
    (names : List String) :
    p.graph.Grows (p.dependOn name names).graph fun x n => x = name ∧ n ∈ names := by
  have same : (p.dependOn name names).graph = p.graph.addAll (siblingLinks p.graph name names) := by
    simp [dependOn, BindingGraph.addAll, siblingLinks, List.foldl_map]
  have links : p.graph.Grows (p.graph.addAll (siblingLinks p.graph name names))
      fun x n => (x, n) ∈ siblingLinks p.graph name names := by
    refine BindingGraph.grows_addAll fun l member => ?_
    obtain ⟨sibling, named, -⟩ := mem_siblingLinks.mp member
    exact ⟨named ▸ known, sibling⟩
  rw [same]
  refine ⟨links.names, fun x n => ?_, links.once⟩
  rw [links.depends, mem_siblingLinks, and_self_left]

/-- A binding becomes dependent on those of the graph that are among names. -/
theorem foldl_dependOn (p : Progress) (name : String) (names : List (List String)) :
    ∃ graph, names.foldl (fun p ns => p.dependOn name ns) p = { p with graph := graph } ∧
      (name ∈ p.graph.names → p.graph.Grows graph fun x n => x = name ∧ n ∈ names.flatten) := by
  induction names generalizing p with
  | nil => exact ⟨p.graph, rfl, fun _ => (BindingGraph.Grows.refl _).congr (by simp)⟩
  | cons ns rest ih =>
    obtain ⟨graph, made, grows⟩ := ih (p.dependOn name ns)
    refine ⟨graph, made, fun known => ?_⟩
    have here := grows_dependOn known ns
    have later := grows (here.names ▸ known)
    refine (here.trans later).congr fun x n => ?_
    rw [List.flatten_cons, List.mem_append, and_or_left]

end Store.Progress
end Pipeline
