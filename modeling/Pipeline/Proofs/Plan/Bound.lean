import Pipeline.Proofs.Plan.Bindings
import Pipeline.Proofs.Plan.Flow

/-!
# Documents bound without a fault

First the bindings are entered with their types, then they are constructed, then the pipes are taken.
Where none of this finds a fault, every binding has a type and a construction, and the graph has all
dependencies that the bindings need.
-/

set_option autoImplicit false
set_option relaxedAutoImplicit false

namespace Pipeline

namespace Document

/-- The names of the bindings of a document, each once, in the order in which they are written. -/
def bindingNames (d : Document) : List String := (d.bindings.map (·.1)).eraseDups

/-- A binding needs the bindings that stand free in its fields, and those directly before it in the
pipes. -/
def Needs (d : Document) (name n : String) : Prop :=
  (n ∈ d.bindingNames ∧ ∃ b, (name, b) ∈ d.bindings ∧ n ∈ b.body.reads) ∨
    ∃ written ∈ d.pipes, (n, name) ∈ adjacent (pipeStages written)

theorem mem_bindingNames {d : Document} {name : String} :
    name ∈ d.bindingNames ↔ ∃ b, (name, b) ∈ d.bindings := by
  simp [bindingNames, List.mem_eraseDups]

/-- Where no name is bound twice, these are the names of all bindings. -/
theorem bindingNames_of_nodup {d : Document} (distinct : (d.bindings.map (·.1)).Nodup) :
    d.bindingNames = d.bindings.map (·.1) := by
  unfold bindingNames
  generalize d.bindings.map (·.1) = names at distinct ⊢
  induction names with
  | nil => rfl
  | cons name rest ih =>
    rw [List.nodup_cons] at distinct
    have others : rest.filter (fun n => !n == name) = rest := by
      refine List.filter_eq_self.mpr fun n member => ?_
      simpa using ne_of_mem_of_not_mem member distinct.1
    rw [List.eraseDups_cons, others, ih distinct.2]

end Document

namespace Store

variable {store : Store}

/-! ### Types of bindings -/

theorem get?_bindingTypes {scope : ModuleScope} {lets : Location}
    {bindings : List (String × BindingEntry)} {name : String} {t : Ty}
    (found : (store.bindingTypes scope lets bindings).1.get? name = some t) :
    ∃ b, (name, b) ∈ bindings ∧ store.bindingTy scope b.ty = .ok t := by
  obtain ⟨r, member, typed⟩ := List.mem_filterMap.mp (NameMap.mem_of_get?_ofList found)
  obtain ⟨b, inside, rfl⟩ := List.mem_map.mp member
  obtain ⟨u, read, same⟩ := Option.map_eq_some_iff.mp typed
  cases same
  refine ⟨b.2, inside, ?_⟩
  cases result : store.bindingTy scope b.2.ty with
  | error kind =>
    rw [result] at read
    cases read
  | ok u' =>
    rw [result] at read
    cases read
    rfl

theorem bindingTypes_isSome {scope : ModuleScope} {lets : Location}
    {bindings : List (String × BindingEntry)}
    (none : (store.bindingTypes scope lets bindings).2 = []) :
    ∀ b ∈ bindings, ((store.bindingTypes scope lets bindings).1.get? b.1).isSome = true := by
  intro b member
  cases result : store.bindingTy scope b.2.ty with
  | error kind =>
    have silent := List.filterMap_eq_nil_iff.mp none (b.1, store.bindingTy scope b.2.ty)
      (List.mem_map.mpr ⟨b, member, rfl⟩)
    rw [result] at silent
    cases silent
  | ok t =>
    refine NameMap.get?_ofList_isSome (a := t) (List.mem_filterMap.mpr ?_)
    refine ⟨(b.1, store.bindingTy scope b.2.ty), List.mem_map.mpr ⟨b, member, rfl⟩, ?_⟩
    rw [result]
    rfl

/-! ### The document -/

/-- A document whose bindings are entered in the graph, and in whose types there are faults. -/
def Progress.entered (d : Document) (faults : List Diagnostic) : Progress where
  graph := (d.bindings.map (·.1)).foldl BindingGraph.addBinding .empty
  faults := faults

theorem names_entered (d : Document) (faults : List Diagnostic) :
    (Progress.entered d faults).graph.names = d.bindingNames :=
  BindingGraph.names_foldl_addBinding _

theorem dependenciesOf_entered (d : Document) (faults : List Diagnostic) (name : String) :
    (Progress.entered d faults).graph.dependenciesOf name = [] :=
  BindingGraph.dependenciesOf_foldl_addBinding _ name

/-- What is known of a document that has been bound without a fault. -/
structure Bound (store : Store) (d : Document) (scope : ModuleScope) (types : NameMap Ty)
    (q : Progress) (pipes : List Pipe) : Prop where
  names : q.graph.names = d.bindingNames
  distinct : d.bindingNames.Nodup
  depends : ∀ x n, n ∈ q.graph.dependenciesOf x ↔ d.Needs x n
  inside : ∀ x n, n ∈ q.graph.dependenciesOf x → n ∈ d.bindingNames
  once : ∀ x, (q.graph.dependenciesOf x).Nodup
  closed : q.Closed
  typed : ∀ n ∈ d.bindingNames, (types.get? n).isSome = true
  declared : ∀ n t, types.get? n = some t →
    ∃ b, (n, b) ∈ d.bindings ∧ store.bindingTy scope b.ty = .ok t
  built : ∀ n ∈ d.bindingNames, (q.constructions.get? n).isSome = true
  chains : ∃ chains, pipes = chains.flatten ∧
    List.Forall₂ (store.FlowsAlong fun n t => types.get? n = some t) d.pipes chains

/-- Without a fault in the types, every binding is there and has one. -/
private theorem entered_typed {d : Document} {scope : ModuleScope} {lets : Location}
    {types : NameMap Ty} (read : store.bindingTypes scope lets d.bindings = (types, [])) :
    ∀ n ∈ d.bindingNames, (types.get? n).isSome = true := by
  intro n member
  obtain ⟨b, entry⟩ := Document.mem_bindingNames.mp member
  have some := bindingTypes_isSome (congrArg Prod.snd read) (n, b) entry
  rwa [read] at some

private theorem entered_refs {d : Document} {types : NameMap Ty} (faults : List Diagnostic) :
    ∀ n v, (bindingEnv d.module (d.bindings.map (·.1)) types).vars.get? n = some v →
      n ∈ (Progress.entered d faults).graph.names ∧ ∃ t, v = .ref n t := by
  intro n v found
  obtain ⟨member, reference⟩ := get?_bindingEnv found
  rw [names_entered, Document.bindingNames, List.mem_eraseDups]
  exact ⟨member, reference⟩

/-- The pipes have been taken as well, and there is still no fault. -/
theorem bound_of_faults_eq_nil {d : Document} {scope : ModuleScope} {lets place : Location}
    {types : NameMap Ty} {faults : List Diagnostic} {p : Progress}
    (read : store.bindingTypes scope lets d.bindings = (types, faults))
    (each : (store.bindEach (bindingEnv d.module (d.bindings.map (·.1)) types) types lets
      (.entered d faults) d.bindings).value = p)
    (running : p.aborted = false)
    (none : (store.bindPipes types place p 0 d.pipes).value.1.faults = []) :
    store.Bound d scope types (store.bindPipes types place p 0 d.pipes).value.1
      (store.bindPipes types place p 0 d.pipes).value.2 := by
  subst each
  -- Faults are only ever added: that there is none at the end goes back to the types of the
  -- bindings, which is what the way forward begins with.
  have clean := And.intro (faults_of_bindPipes none) running
  obtain rfl : faults = [] := (clean_of_bindEach rfl clean).1
  have names := names_entered d []
  have typed := entered_typed read
  have known : ∀ b ∈ d.bindings,
      b.1 ∈ (Progress.entered d []).graph.names ∧ (types.get? b.1).isSome = true := by
    intro b entry
    have member := Document.mem_bindingNames.mpr ⟨b.2, entry⟩
    exact ⟨names ▸ member, typed _ member⟩
  have first := bindEach_advances rfl known (entered_refs []) clean
  have same := first.grows.names.trans names
  obtain ⟨stages, later, chains⟩ := bindPipes_advances (same ▸ typed) none
  have whole := first.trans later
  have depends := whole.grows.depends
  simp only [dependenciesOf_entered, List.not_mem_nil, false_or] at depends
  rw [same] at stages
  rw [names] at depends
  constructor
  case names => exact whole.grows.names.trans names
  case distinct =>
    have once := BindingGraph.nodup_foldl_addBinding (d.bindings.map (·.1))
    rwa [BindingGraph.names_foldl_addBinding] at once
  case depends =>
    intro x n
    have piped : (∃ written ∈ d.pipes, (n, x) ∈ adjacent (pipeStages written)) →
        n ∈ d.bindingNames := by
      rintro ⟨written, member, next⟩
      exact stages written member n (mem_of_mem_adjacent next).1
    rw [depends, and_or_left]
    exact or_congr_right ⟨fun both => both.2, fun next => ⟨piped next, next⟩⟩
  case inside =>
    intro x n member
    exact ((depends x n).mp member).1
  case once =>
    refine whole.grows.once fun x => ?_
    rw [dependenciesOf_entered]
    exact List.nodup_nil
  case closed => exact whole.closed nofun
  case typed => exact typed
  case declared =>
    intro n t found
    have types_eq : types = (store.bindingTypes scope lets d.bindings).1 := by rw [read]
    rw [types_eq] at found
    exact get?_bindingTypes found
  case built =>
    intro n member
    obtain ⟨b, entry⟩ := Document.mem_bindingNames.mp member
    exact whole.built n (Or.inl (Or.inl (List.mem_map.mpr ⟨(n, b), entry, rfl⟩)))
  case chains => exact chains

end Store
end Pipeline
