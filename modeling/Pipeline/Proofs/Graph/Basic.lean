import Mathlib.Data.List.Induction
import Mathlib.Data.List.Nodup
import Pipeline.Graph.Basic

/-!
# Entering bindings and dependencies

Every binding stands once in a graph, at the place where it was entered first, and depends once on
each of those recorded for it.
-/

set_option autoImplicit false
set_option relaxedAutoImplicit false

namespace Pipeline.BindingGraph

variable {g : BindingGraph}

theorem contains_iff {name : String} : g.contains name = true ↔ name ∈ g.names := by
  simp [contains]

theorem position?_getD (g : BindingGraph) (name : String) :
    (g.position? name).getD g.size = g.names.idxOf name := by
  have size : g.size = g.names.length := by simp [BindingGraph.size, BindingGraph.names]
  rw [BindingGraph.position?, size, List.idxOf_eq_getD_idxOf?]

/-! ### Bindings -/

theorem names_addBinding (name : String) :
    (g.addBinding name).names = if name ∈ g.names then g.names else g.names ++ [name] := by
  unfold addBinding
  by_cases known : name ∈ g.names
  · rw [if_pos (contains_iff.mpr known), if_pos known]
  · have absent : ¬ g.contains name = true := fun inside => known (contains_iff.mp inside)
    rw [if_neg absent, if_neg known]
    simp [names]

theorem dependenciesOf_addBinding (name other : String) :
    (g.addBinding name).dependenciesOf other = g.dependenciesOf other := by
  unfold addBinding
  split
  · rfl
  · unfold dependenciesOf
    rw [List.find?_append]
    cases g.entries.find? (·.1 == other) with
    | some e => rfl
    | none => by_cases same : name = other <;> simp [same]

/-- A list keeps the first of equal members, so that the last one stays if it is new. -/
theorem eraseDups_concat (names : List String) (name : String) :
    (names ++ [name]).eraseDups =
      if name ∈ names then names.eraseDups else names.eraseDups ++ [name] := by
  rw [List.eraseDups_append]
  by_cases known : name ∈ names <;> simp [known, List.removeAll, List.eraseDups_cons]

theorem nodup_eraseDups (names : List String) : names.eraseDups.Nodup := by
  induction names using List.reverseRecOn with
  | nil => exact List.nodup_nil
  | append_singleton names name ih =>
    rw [eraseDups_concat]
    split
    · exact ih
    · rename_i new
      rw [← List.concat_eq_append]
      exact List.Nodup.concat (fun old => new (List.mem_eraseDups.mp old)) ih

/-- The graph of bindings entered one after another has each of them once. -/
theorem names_foldl_addBinding (names : List String) :
    (names.foldl addBinding empty).names = names.eraseDups := by
  induction names using List.reverseRecOn with
  | nil => rfl
  | append_singleton names name ih =>
    rw [List.foldl_concat, names_addBinding, ih, eraseDups_concat]
    simp only [List.mem_eraseDups]

theorem dependenciesOf_foldl_addBinding (names : List String) (name : String) :
    (names.foldl addBinding empty).dependenciesOf name = [] := by
  induction names using List.reverseRecOn with
  | nil => rfl
  | append_singleton names other ih =>
    rw [List.foldl_concat, dependenciesOf_addBinding, ih]

theorem nodup_foldl_addBinding (names : List String) :
    (names.foldl addBinding empty).names.Nodup := by
  rw [names_foldl_addBinding]
  exact nodup_eraseDups names

/-! ### Dependencies -/

theorem names_addDependency {dependent : String} (dependency : String)
    (known : dependent ∈ g.names) : (g.addDependency dependent dependency).names = g.names := by
  unfold addDependency
  rw [addBinding, if_pos (contains_iff.mpr known)]
  simp only [names, List.map_map]
  refine List.map_congr_left fun e _ => ?_
  dsimp only [Function.comp_apply]
  split <;> rfl

theorem dependenciesOf_addDependency {dependent : String} (dependency : String)
    (known : dependent ∈ g.names) (name : String) :
    (g.addDependency dependent dependency).dependenciesOf name =
      if name = dependent ∧ dependency ∉ g.dependenciesOf name
      then g.dependenciesOf name ++ [dependency] else g.dependenciesOf name := by
  have present : (g.entries.find? (·.1 == dependent)).isSome = true := by
    obtain ⟨e, member, named⟩ := List.mem_map.mp known
    rw [List.find?_isSome]
    exact ⟨e, member, by simp [named]⟩
  unfold addDependency dependenciesOf
  rw [addBinding, if_pos (contains_iff.mpr known)]
  have keeps : ((fun e : String × List String => e.1 == name) ∘ fun e =>
      if e.1 = dependent ∧ ¬ dependency ∈ e.2 then (e.1, e.2 ++ [dependency]) else e) =
      fun e => e.1 == name := by
    funext e
    dsimp only [Function.comp_apply]
    split <;> rfl
  simp only [List.find?_map, keeps]
  cases found : g.entries.find? (·.1 == name) with
  | none =>
    have other : name ≠ dependent := by
      rintro rfl
      rw [found] at present
      cases present
    simp [other]
  | some e =>
    have named : e.1 = name := by simpa using List.find?_some found
    simp only [Option.map_some, named]
    split <;> rfl

/-- Records several dependencies, each a binding with what it depends on. -/
def addAll (g : BindingGraph) (links : List (String × String)) : BindingGraph :=
  links.foldl (fun g l => g.addDependency l.1 l.2) g

theorem names_addAll {links : List (String × String)} (known : ∀ l ∈ links, l.1 ∈ g.names) :
    (g.addAll links).names = g.names := by
  induction links generalizing g with
  | nil => rfl
  | cons l rest ih =>
    rw [List.forall_mem_cons] at known
    have same := names_addDependency l.2 known.1
    exact (ih fun l' member => same ▸ known.2 l' member).trans same

theorem mem_dependenciesOf_addAll {links : List (String × String)}
    (known : ∀ l ∈ links, l.1 ∈ g.names) {name dependency : String} :
    dependency ∈ (g.addAll links).dependenciesOf name ↔
      dependency ∈ g.dependenciesOf name ∨ (name, dependency) ∈ links := by
  induction links generalizing g with
  | nil => simp [addAll]
  | cons l rest ih =>
    rw [List.forall_mem_cons] at known
    have same := names_addDependency l.2 known.1
    have later := ih (g := g.addDependency l.1 l.2) fun l' member => same ▸ known.2 l' member
    have first : dependency ∈ (g.addDependency l.1 l.2).dependenciesOf name ↔
        dependency ∈ g.dependenciesOf name ∨ (name, dependency) = l := by
      rw [dependenciesOf_addDependency l.2 known.1, Prod.ext_iff]
      split
      · rename_i new
        simp [new.1]
      · rename_i old
        rw [not_and, not_not] at old
        refine ⟨Or.inl, fun either => either.elim id fun here => ?_⟩
        have there : dependency = l.2 := here.2
        exact there ▸ old here.1
    rw [List.mem_cons, ← or_assoc, ← first]
    exact later

theorem nodup_dependenciesOf_addAll {links : List (String × String)}
    (known : ∀ l ∈ links, l.1 ∈ g.names) (once : ∀ name, (g.dependenciesOf name).Nodup)
    (name : String) : ((g.addAll links).dependenciesOf name).Nodup := by
  induction links generalizing g with
  | nil => exact once name
  | cons l rest ih =>
    rw [List.forall_mem_cons] at known
    have same := names_addDependency l.2 known.1
    refine ih (fun l' member => same ▸ known.2 l' member) fun other => ?_
    rw [dependenciesOf_addDependency l.2 known.1]
    split
    · rename_i new
      rw [← List.concat_eq_append]
      exact List.Nodup.concat new.2 (once other)
    · exact once other

/-! ### Growing graphs -/

/-- A graph with the same bindings as another one and with further dependencies among them. -/
structure Grows (g g' : BindingGraph) (needs : String → String → Prop) : Prop where
  names : g'.names = g.names
  depends : ∀ x n, n ∈ g'.dependenciesOf x ↔ n ∈ g.dependenciesOf x ∨ n ∈ g.names ∧ needs x n
  once : (∀ x, (g.dependenciesOf x).Nodup) → ∀ x, (g'.dependenciesOf x).Nodup

theorem Grows.refl (g : BindingGraph) : g.Grows g fun _ _ => False :=
  ⟨rfl, by simp, fun once => once⟩

theorem Grows.trans {g g' g'' : BindingGraph} {needs needs' : String → String → Prop}
    (first : g.Grows g' needs) (second : g'.Grows g'' needs') :
    g.Grows g'' fun x n => needs x n ∨ needs' x n := by
  refine ⟨second.names.trans first.names, fun x n => ?_, fun once => second.once (first.once once)⟩
  rw [second.depends, first.depends, first.names, or_assoc, and_or_left]

theorem Grows.congr {g g' : BindingGraph} {needs needs' : String → String → Prop}
    (grows : g.Grows g' needs) (same : ∀ x n, needs x n ↔ needs' x n) : g.Grows g' needs' := by
  refine ⟨grows.names, fun x n => ?_, grows.once⟩
  rw [grows.depends, same]

theorem grows_addAll {links : List (String × String)}
    (known : ∀ l ∈ links, l.1 ∈ g.names ∧ l.2 ∈ g.names) :
    g.Grows (g.addAll links) fun x n => (x, n) ∈ links := by
  have dependents : ∀ l ∈ links, l.1 ∈ g.names := fun l member => (known l member).1
  refine ⟨names_addAll dependents, fun x n => ?_, nodup_dependenciesOf_addAll dependents⟩
  rw [mem_dependenciesOf_addAll dependents]
  refine or_congr_right ⟨fun link => ⟨(known _ link).2, link⟩, fun both => both.2⟩

/-! ### Graphs made step by step -/

/-- What can be done to a graph: a binding is added, or a dependency is recorded. -/
inductive Edit where
  | binding (name : String)
  | dependency (dependent dependency : String)
deriving DecidableEq, Repr

def edit (g : BindingGraph) : Edit → BindingGraph
  | .binding name => g.addBinding name
  | .dependency dependent dependency => g.addDependency dependent dependency

/-- The graph that is made of nothing, edit by edit. -/
def ofEdits (edits : List Edit) : BindingGraph := edits.foldl edit empty

theorem mem_names_addBinding (name : String) : name ∈ (g.addBinding name).names := by
  rw [names_addBinding]
  split
  · assumption
  · exact List.mem_append_right _ List.mem_cons_self

/-- Recording a dependency adds its dependent first. -/
theorem addDependency_addBinding (dependent dependency : String) :
    (g.addBinding dependent).addDependency dependent dependency =
      g.addDependency dependent dependency := by
  have known := contains_iff.mpr (mem_names_addBinding (g := g) dependent)
  have again : (g.addBinding dependent).addBinding dependent = g.addBinding dependent := by
    rw [addBinding, if_pos known]
  unfold addDependency
  rw [again]

/-! ### What has been entered -/

namespace Edit

/-- The binding that an edit is about, which it adds. -/
def subject : Edit → String
  | binding name => name
  | dependency dependent _ => dependent

/-- The dependency that an edit records for a binding. -/
def recorded? (name : String) : Edit → Option String
  | binding _ => none
  | dependency dependent needed => if dependent = name then some needed else none

theorem recorded?_eq_some {name d : String} {e : Edit} :
    e.recorded? name = some d ↔ e = dependency name d := by
  cases e with
  | binding other => simp [recorded?]
  | dependency dependent other => simp [recorded?]

/-- All bindings of a list first, then all their dependencies. -/
def listing (entries : List (String × List String)) : List Edit :=
  entries.map (fun e => binding e.1) ++ entries.flatMap fun e => e.2.map (dependency e.1)

end Edit

theorem ofEdits_concat (edits : List Edit) (e : Edit) :
    ofEdits (edits ++ [e]) = (ofEdits edits).edit e := by
  rw [ofEdits, List.foldl_concat]
  rfl

/-- An edit adds its subject if it is new. -/
theorem names_edit (g : BindingGraph) (e : Edit) :
    (g.edit e).names = if e.subject ∈ g.names then g.names else g.names ++ [e.subject] := by
  rw [← names_addBinding]
  cases e with
  | binding name => rfl
  | dependency dependent dependency =>
    have known := mem_names_addBinding (g := g) dependent
    have same := names_addDependency dependency known
    rwa [addDependency_addBinding] at same

/-- An edit that records a dependency for a binding adds this one if it is new. -/
theorem dependenciesOf_edit_some {e : Edit} {name d : String} (records : e.recorded? name = some d) :
    (g.edit e).dependenciesOf name =
      if d ∈ g.dependenciesOf name then g.dependenciesOf name
      else g.dependenciesOf name ++ [d] := by
  obtain rfl := Edit.recorded?_eq_some.mp records
  have known := mem_names_addBinding (g := g) name
  have made := dependenciesOf_addDependency d known name
  rw [addDependency_addBinding, dependenciesOf_addBinding] at made
  refine made.trans ?_
  by_cases old : d ∈ g.dependenciesOf name <;> simp [old]

/-- Other edits leave the dependencies of a binding as they are. -/
theorem dependenciesOf_edit_none {e : Edit} {name : String} (silent : e.recorded? name = none) :
    (g.edit e).dependenciesOf name = g.dependenciesOf name := by
  cases e with
  | binding other => exact dependenciesOf_addBinding other name
  | dependency dependent dependency =>
    have other : name ≠ dependent := by
      rintro rfl
      simp [Edit.recorded?] at silent
    have known := mem_names_addBinding (g := g) dependent
    have made := dependenciesOf_addDependency dependency known name
    rw [addDependency_addBinding, dependenciesOf_addBinding] at made
    exact made.trans (if_neg fun both => other both.1)

/-- The bindings are the subjects of the edits, in the order in which they are met first. -/
theorem names_ofEdits (edits : List Edit) :
    (ofEdits edits).names = (edits.map Edit.subject).eraseDups := by
  induction edits using List.reverseRecOn with
  | nil => rfl
  | append_singleton edits e ih =>
    rw [ofEdits_concat, names_edit, ih, List.map_append, List.map_singleton, eraseDups_concat]
    simp only [List.mem_eraseDups]

/-- No binding is entered twice. -/
theorem nodup_ofEdits (edits : List Edit) : (ofEdits edits).names.Nodup := by
  rw [names_ofEdits]
  exact nodup_eraseDups _

/-- The dependencies of a binding are those recorded for it, in the order in which they are
recorded first. -/
theorem dependenciesOf_ofEdits (edits : List Edit) (name : String) :
    (ofEdits edits).dependenciesOf name = (edits.filterMap (Edit.recorded? name)).eraseDups := by
  induction edits using List.reverseRecOn with
  | nil => rfl
  | append_singleton edits e ih =>
    rw [ofEdits_concat, List.filterMap_append]
    cases records : e.recorded? name with
    | none =>
      rw [dependenciesOf_edit_none records, ih, List.filterMap_cons_none records,
        List.filterMap_nil, List.append_nil]
    | some d =>
      rw [dependenciesOf_edit_some records, ih, List.filterMap_cons_some records,
        List.filterMap_nil, eraseDups_concat]
      simp only [List.mem_eraseDups]

/-- Where no binding is entered twice, an entry has the dependencies of its binding. -/
theorem dependenciesOf_of_mem (once : g.names.Nodup) {e : String × List String}
    (member : e ∈ g.entries) : g.dependenciesOf e.1 = e.2 := by
  have present : (g.entries.find? (·.1 == e.1)).isSome = true :=
    List.find?_isSome.mpr ⟨e, member, by simp⟩
  obtain ⟨first, found⟩ := Option.isSome_iff_exists.mp present
  have named : first.1 = e.1 := by simpa using List.find?_some found
  have same : first = e :=
    List.inj_on_of_nodup_map once (List.mem_of_find?_eq_some found) member named
  rw [dependenciesOf, found, same]

theorem dependentsOf_eq_filter (once : g.names.Nodup) (name : String) :
    g.dependentsOf name = g.names.filter fun x => decide (name ∈ g.dependenciesOf x) := by
  rw [dependentsOf, names, List.filter_map]
  refine congrArg _ (List.filter_congr fun e member => ?_)
  rw [Function.comp_apply, dependenciesOf_of_mem once member, List.contains_eq_mem]

/-- Where no binding is entered twice, positions are places among the bindings. -/
theorem position?_eq_some (once : g.names.Nodup) {name : String} {i : Nat} :
    g.position? name = some i ↔ g.names[i]? = some name := by
  rw [position?, List.idxOf?_eq_some_iff, List.getElem?_eq_some_iff]
  refine exists_congr fun inside => and_iff_left_of_imp fun here j before there => ?_
  have same : j = i := once.getElem_inj_iff.mp (there.trans here.symm)
  exact Nat.ne_of_lt before same

/-- Entering the entries of a list is entering all its bindings and then all its dependencies. -/
theorem ofList_eq_ofEdits (entries : List (String × List String)) :
    ofList entries = ofEdits (Edit.listing entries) := by
  unfold ofList ofEdits Edit.listing
  rw [List.foldl_append, List.foldl_map, List.foldl_flatMap]
  simp only [List.foldl_map]
  rfl

/-- What a graph has to say about the edits that have made it. -/
structure Records (g : BindingGraph) (edits : List Edit) : Prop where
  /-- Bindings stand in the order in which they have been added or depended from first. -/
  names : g.names = (edits.map Edit.subject).eraseDups
  once : g.names.Nodup
  contains : ∀ name, g.contains name = true ↔ ∃ e ∈ edits, e.subject = name
  position : ∀ name i, g.position? name = some i ↔ g.names[i]? = some name
  size : g.size = g.names.length
  /-- Dependencies stand in the order in which they have been recorded first. -/
  dependencies : ∀ name,
    g.dependenciesOf name = (edits.filterMap (Edit.recorded? name)).eraseDups
  depends : ∀ a b, b ∈ g.dependenciesOf a ↔ .dependency a b ∈ edits
  dependsOnce : ∀ name, (g.dependenciesOf name).Nodup
  dependent : ∀ a b, a ∈ g.dependentsOf b ↔ b ∈ g.dependenciesOf a
  /-- Dependents stand in the order of the bindings. -/
  dependents : ∀ name,
    g.dependentsOf name = g.names.filter fun x => decide (name ∈ g.dependenciesOf x)

theorem records_ofEdits (edits : List Edit) : (ofEdits edits).Records edits := by
  have once := nodup_ofEdits edits
  have listed (name : String) : name ∈ (ofEdits edits).names ↔ ∃ e ∈ edits, e.subject = name := by
    rw [names_ofEdits, List.mem_eraseDups, List.mem_map]
  have depends (a b : String) : b ∈ (ofEdits edits).dependenciesOf a ↔ .dependency a b ∈ edits := by
    simp only [dependenciesOf_ofEdits, List.mem_eraseDups, List.mem_filterMap,
      Edit.recorded?_eq_some, exists_eq_right]
  constructor
  case names => exact names_ofEdits edits
  case once => exact once
  case contains => exact fun name => contains_iff.trans (listed name)
  case position => exact fun _ _ => position?_eq_some once
  case size => rw [BindingGraph.size, BindingGraph.names, List.length_map]
  case dependencies => exact dependenciesOf_ofEdits edits
  case depends => exact depends
  case dependsOnce =>
    intro name
    rw [dependenciesOf_ofEdits]
    exact nodup_eraseDups _
  case dependent =>
    -- Recording a dependency has added its dependent.
    intro a b
    rw [dependentsOf_eq_filter once, List.mem_filter, decide_eq_true_iff]
    refine and_iff_right_of_imp fun needed => (listed a).mpr ?_
    exact ⟨.dependency a b, (depends a b).mp needed, rfl⟩
  case dependents => exact dependentsOf_eq_filter once

end Pipeline.BindingGraph
