import Pipeline.Proofs.Graph.Order
import Pipeline.Proofs.Plan.Bound

/-!
# Complete plans

A document that can be bound has a plan in which nothing is missing: every binding has its step, each
step waits for what its fields read and for what feeds it, and the pipes are there flow by flow.
-/

set_option autoImplicit false
set_option relaxedAutoImplicit false

namespace Pipeline

/-- A step of a plan has a name and a type. -/
def Plan.Typed (g : Plan) (name : String) (t : Ty) : Prop := ∃ s ∈ g.steps, s.name = name ∧ s.ty = t

/-- What a plan of a document has to be. -/
structure Plan.Complete (store : Store) (d : Document) (g : Plan) : Prop where
  /-- There is one step for each binding, and no other. -/
  steps : g.order.Perm d.bindingNames
  /-- Every step has the type written for its binding. -/
  declared : ∀ s ∈ g.steps, ∃ b scope, (s.name, b) ∈ d.bindings ∧
    store.scope? d.module = some scope ∧ store.bindingTy scope b.ty = .ok s.ty
  needs : ∀ s ∈ g.steps, ∀ n, n ∈ s.dependsOn ↔ d.Needs s.name n
  /-- Dependencies stand in the order of the document, each once. -/
  ordered : ∀ s ∈ g.steps, (s.dependsOn.map d.bindingNames.idxOf).Pairwise (· < ·)
  earlier : ∀ before s after, g.steps = before ++ s :: after →
    ∀ n ∈ s.dependsOn, n ∈ before.map (·.name)
  /-- Constructions refer to dependencies alone. -/
  refs : ∀ s ∈ g.steps, ∀ v ∈ s.construction.values, ∀ n ∈ v.mentions, n ∈ s.dependsOn
  /-- No order that respects the dependencies is before this one, when the places of the bindings
  in the document are compared one after another. -/
  least : ∀ other, other.Perm d.bindingNames → Sorts d.Needs other →
    ¬ List.Lex (· < ·) (other.map d.bindingNames.idxOf) (g.order.map d.bindingNames.idxOf)
  /-- The flows are those along the pipes of the document, one pipe after another. -/
  pipes : ∃ chains, g.pipes = chains.flatten ∧
    List.Forall₂ (store.FlowsAlong g.Typed) d.pipes chains

namespace Store

variable {store : Store}

/-! ### Steps -/

theorem stepsOf_spec {p : Progress} {types : NameMap Ty} {order : List String}
    (typed : ∀ n ∈ order, (types.get? n).isSome = true)
    (built : ∀ n ∈ order, (p.constructions.get? n).isSome = true) :
    (stepsOf p types order).map (·.name) = order ∧
      ∀ s ∈ stepsOf p types order, types.get? s.name = some s.ty ∧
        p.constructions.get? s.name = some s.construction ∧
        s.dependsOn = (p.graph.dependenciesOf s.name).mergeSort fun a b =>
          p.graph.names.idxOf a ≤ p.graph.names.idxOf b := by
  unfold stepsOf
  simp only [BindingGraph.position?_getD]
  induction order with
  | nil => simp
  | cons name rest ih =>
    rw [List.forall_mem_cons] at typed built
    obtain ⟨t, here⟩ := Option.isSome_iff_exists.mp typed.1
    obtain ⟨c, made⟩ := Option.isSome_iff_exists.mp built.1
    obtain ⟨names, each⟩ := ih typed.2 built.2
    rw [List.filterMap_cons]
    simp only [here, made]
    refine ⟨congrArg (name :: ·) names, List.forall_mem_cons.mpr ⟨⟨here, made, rfl⟩, each⟩⟩

/-! ### The plan -/

/-- Orders by places in a list are strict where the things ordered differ. -/
private theorem pairwise_mergeSort_idxOf {names deps : List String} (once : deps.Nodup)
    (known : ∀ n ∈ deps, n ∈ names) :
    ((deps.mergeSort fun a b => names.idxOf a ≤ names.idxOf b).map names.idxOf).Pairwise
      (· < ·) := by
  have sorted : (deps.mergeSort fun a b => names.idxOf a ≤ names.idxOf b).Pairwise
      fun a b => decide (names.idxOf a ≤ names.idxOf b) = true := by
    refine List.pairwise_mergeSort (fun a b c first second => ?_) (fun a b => ?_) deps
    · simp only [decide_eq_true_eq] at first second ⊢
      omega
    · simp only [Bool.or_eq_true, decide_eq_true_eq]
      omega
  have distinct := (List.mergeSort_perm deps
    fun a b => decide (names.idxOf a ≤ names.idxOf b)).nodup_iff.mpr once
  rw [List.pairwise_map]
  refine (sorted.and distinct).imp_of_mem fun member _ both => ?_
  have place := of_decide_eq_true both.1
  have other := (List.idxOf_inj (known _ (List.mem_mergeSort.mp member))).not.mpr both.2
  omega

/-- The steps in the order of the graph are a complete plan. -/
theorem Bound.complete {d : Document} {scope : ModuleScope} {types : NameMap Ty} {q : Progress}
    {g : Plan} {order : List String} (bound : store.Bound d scope types q g.pipes)
    (inScope : store.scope? d.module = some scope) (sorted : q.graph.order = .ok order)
    (steps : g.steps = stepsOf q types order) : g.Complete store d := by
  obtain ⟨perm, sorts, least⟩ := BindingGraph.order_eq_ok (bound.names ▸ bound.distinct) sorted
  have needs : q.graph.Needs = d.Needs := by
    funext x n
    rw [BindingGraph.Needs, bound.names, ← bound.depends]
    exact propext ⟨fun both => both.1, fun member => ⟨member, bound.inside x n member⟩⟩
  rw [needs] at sorts
  rw [needs, bound.names] at least
  rw [bound.names] at perm
  obtain ⟨stepNames, each⟩ := stepsOf_spec
    (fun n member => bound.typed n (perm.mem_iff.mp member))
    (fun n member => bound.built n (perm.mem_iff.mp member))
  rw [← steps] at stepNames each
  have depends : ∀ s ∈ g.steps, ∀ n, n ∈ s.dependsOn ↔ d.Needs s.name n := by
    intro s member n
    rw [(each s member).2.2, List.mem_mergeSort, bound.depends]
  have typed : ∀ n t, types.get? n = some t → g.Typed n t := by
    intro n t found
    obtain ⟨b, entry, -⟩ := bound.declared n t found
    have member : n ∈ g.steps.map (·.name) := by
      rw [stepNames, perm.mem_iff, Document.mem_bindingNames]
      exact ⟨b, entry⟩
    obtain ⟨s, inside, rfl⟩ := List.mem_map.mp member
    exact ⟨s, inside, rfl, Option.some.inj ((each s inside).1.symm.trans found)⟩
  constructor
  case steps => rwa [Plan.order, stepNames]
  case declared =>
    intro s member
    obtain ⟨b, entry, declared⟩ := bound.declared _ _ (each s member).1
    exact ⟨b, scope, entry, inScope, declared⟩
  case needs => exact depends
  case ordered =>
    intro s member
    rw [(each s member).2.2, bound.names]
    exact pairwise_mergeSort_idxOf (bound.once s.name) (bound.inside s.name)
  case earlier =>
    intro before s after split n member
    have inside : s ∈ g.steps := by
      rw [split]
      exact List.mem_append_right _ List.mem_cons_self
    have there : order = before.map (·.name) ++ s.name :: after.map (·.name) := by
      rw [← stepNames, split, List.map_append, List.map_cons]
    exact sorts _ _ _ there n ((depends s inside n).mp member)
  case refs =>
    intro s member v inside n mention
    rw [(each s member).2.2, List.mem_mergeSort]
    exact Value.all_refersTo_iff.mp (bound.closed _ _ (each s member).2.1 v inside) n mention
  case least =>
    intro other perm' sorts'
    rw [Plan.order, stepNames]
    exact least other perm' sorts'
  case pipes =>
    obtain ⟨chains, flat, along⟩ := bound.chains
    exact ⟨chains, flat, along.imp fun written chain flows => ⟨flows.1, flows.2.imp typed⟩⟩

theorem planIn_complete {d : Document} {scope : ModuleScope} {g : Plan}
    (inScope : store.scope? d.module = some scope)
    (found : (store.planIn d scope).value = .ok g) : g.Complete store d := by
  unfold planIn at found
  simp only [Logged.value_bind] at found
  generalize read : store.bindingTypes scope (d.location.child "let") d.bindings = r at found
  obtain ⟨types, faults⟩ := r
  simp only at found
  generalize each : (store.bindEach _ _ _ _ _).value = p at found
  split at found
  · cases found
  · rename_i running
    simp only [Logged.value_bind] at found
    split at found
    · cases found
    · rename_i clear
      rw [Bool.not_eq_true, Bool.not_eq_false', List.isEmpty_iff] at clear
      rw [Bool.not_eq_true] at running
      split at found
      · cases found
      · rename_i order sorted
        cases found
        have bound := bound_of_faults_eq_nil read each running
          (List.append_eq_nil_iff.mp clear).1
        exact bound.complete inScope sorted rfl

/-- A store with a source of texts and a sink for them, which also takes the sources it reads. -/
def linesStore : Store where
  index := default
  scopes := [("main", ⟨"main", "main", [
    ("Lines", ⟨⟨.type, "io::Lines"⟩, .explicit, []⟩),
    ("Table", ⟨⟨.type, "io::Table"⟩, .explicit, []⟩)], []⟩)]
  types := []
  traits := [
    (Builtin.sink, ⟨Builtin.sink, "Sink", "std", [⟨"T", .type, none⟩], [], [], none, none⟩),
    (Builtin.source, ⟨Builtin.source, "Source", "std", [], [], [], none, none⟩)]
  impls := [
    ⟨0, "io", "io", [], .named "io::Lines" [], some (.plain Builtin.source []), [],
      [(Builtin.item, .std "String" [])], [], false, .declared⟩,
    ⟨1, "io", "io", [], .named "io::Table" [], some (.plain Builtin.sink [.std "String" []]), [],
      [], [], false, .declared⟩]
  extensions := []
  schemas := [("io::Table", ⟨"io::Table", some .sink, "io", "io", [],
    [⟨"inputs", .std "Vec" [.named "io::Lines" []], none, [], none⟩], [], []⟩)]
  maxDepth := 4

/-- A pipeline whose sink is written before its source. -/
def linesDocument : Document where
  module := "main"
  origin := "main"
  version := supportedVersion
  kind := .main
  bindings := [("table", ⟨"Table", .fields [("inputs", .seq [.str "lines"])]⟩),
    ("lines", ⟨"Lines", .host "stdin()"⟩)]
  pipes := ["lines -> table"]

end Store
end Pipeline
