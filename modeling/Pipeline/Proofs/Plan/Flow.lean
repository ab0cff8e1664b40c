import Mathlib.Data.List.Forall2
import Pipeline.Proofs.Plan.Progress

/-!
# Flows along pipes

A pipe that is taken has one flow for each two stages that follow each other. The items of each flow
are what the stage before makes of those that it is fed, and the stage behind can be fed them.
-/

set_option autoImplicit false
set_option relaxedAutoImplicit false

namespace Pipeline

/-- The stages of a written pipe. -/
def pipeStages (written : String) : List String := (Text.split "->" written).map Text.trim

/-- Each name with the one that follows it. -/
def adjacent (names : List String) : List (String × String) := names.zip names.tail

theorem mem_of_mem_adjacent {names : List String} {a b : String} (next : (a, b) ∈ adjacent names) :
    a ∈ names ∧ b ∈ names :=
  ⟨(List.of_mem_zip next).1, List.mem_of_mem_tail (List.of_mem_zip next).2⟩

namespace Store

/-- A stage of a type yields items: those of its impl of `Source`, or else the output of its impl of
`Transform` for the items that it is fed. At the head of a pipe, where nothing is fed, this is its
impl of `Transform` for whatever items. -/
def Produces (store : Store) (t : Ty) (input : Option Ty) (item : Ty) : Prop :=
  (store.project t Builtin.source Builtin.item).value = some item ∨
    (store.project t Builtin.source Builtin.item).value = none ∧
      ∃ c, (store.resolve t (.plain Builtin.transform input.toList)).value.candidate? = some c ∧
        c.assoc? Builtin.output = some item

/-- A stage of a type can be fed items: it has an impl of `Sink` or of `Transform` for them. -/
def Takes (store : Store) (t item : Ty) : Prop :=
  (store.implements t (.plain Builtin.sink [item])).value = true ∨
    (store.implements t (.plain Builtin.transform [item])).value = true

/-- Flows in which each producer is fed the items of the flow before, and the consumer can be fed
those of the producer. `typed` tells the types of the stages. -/
def Fed (store : Store) (typed : String → Ty → Prop) : Option Ty → List Pipe → Prop
  | _, [] => True
  | input, e :: rest =>
    (∃ t, typed e.producer t ∧ store.Produces t input e.item) ∧
      (∃ t, typed e.consumer t ∧ store.Takes t e.item) ∧ Fed store typed (some e.item) rest

variable {store : Store}

theorem Fed.imp {typed typed' : String → Ty → Prop} {input : Option Ty} {pipes : List Pipe}
    (fed : store.Fed typed input pipes) (same : ∀ name t, typed name t → typed' name t) :
    store.Fed typed' input pipes := by
  induction pipes generalizing input with
  | nil => trivial
  | cons e rest ih =>
    obtain ⟨⟨t, known, produces⟩, ⟨u, known', takes⟩, later⟩ := fed
    exact ⟨⟨t, same _ _ known, produces⟩, ⟨u, same _ _ known', takes⟩, ih later⟩

theorem producedItem_eq_some {t item : Ty} {input : Option Ty}
    (found : (store.producedItem t input).value = some item) : store.Produces t input item := by
  unfold producedItem at found
  simp only [Logged.value_bind] at found
  split at found
  · rename_i projected
    cases found
    exact Or.inl projected
  · rename_i projected
    obtain ⟨c, candidate, output⟩ := Option.bind_eq_some_iff.mp found
    exact Or.inr ⟨projected, c, candidate, output⟩

theorem acceptsItems_iff {t item : Ty} :
    (store.acceptsItems t item).value = true ↔ store.Takes t item := by
  unfold acceptsItems Takes
  simp only [Logged.value_bind]
  by_cases sink : (store.implements t (.plain Builtin.sink [item])).value = true <;> simp [sink]

/-- Flows between stages with types. -/
theorem flows_eq_ok {types : NameMap Ty} {place : Location} {input : Option Ty}
    {names : List String} {pipes : List Pipe}
    (typed : ∀ n ∈ names, (types.get? n).isSome = true)
    (found : (store.flows types place input names).value = .ok pipes) :
    pipes.map (fun e => (e.producer, e.consumer)) = adjacent names ∧
      store.Fed (fun n t => types.get? n = some t) input pipes := by
  induction names generalizing input pipes with
  | nil =>
    cases found
    exact ⟨rfl, trivial⟩
  | cons producer rest ih =>
    cases rest with
    | nil =>
      cases found
      exact ⟨rfl, trivial⟩
    | cons consumer rest =>
      rw [List.forall_mem_cons] at typed
      obtain ⟨t, first⟩ := Option.isSome_iff_exists.mp typed.1
      obtain ⟨u, second⟩ := Option.isSome_iff_exists.mp (typed.2 consumer List.mem_cons_self)
      unfold flows at found
      simp only [first, second, Logged.value_bind] at found
      split at found
      · cases found
      · rename_i item produced
        simp only [Logged.value_bind] at found
        split at found
        · rename_i accepted
          simp only [Logged.value_bind, Logged.value_pure] at found
          cases later : (store.flows types place (some item) (consumer :: rest)).value with
          | error d =>
            rw [later] at found
            cases found
          | ok more =>
            rw [later] at found
            cases found
            obtain ⟨ends, fed⟩ := ih typed.2 later
            refine ⟨congrArg ((producer, consumer) :: ·) ends, ⟨t, first, ?_⟩, ⟨u, second, ?_⟩, fed⟩
            · exact producedItem_eq_some produced
            · exact acceptsItems_iff.mp accepted
        · cases found

theorem pipe_eq_error {types : NameMap Ty} {graph : BindingGraph} {place : Location}
    {written : String} {faults : List Diagnostic}
    (failed : (store.pipe types graph place written).value = .error faults) : faults ≠ [] := by
  unfold pipe at failed
  dsimp only at failed
  split at failed
  · cases failed
    simp
  · split at failed
    · rename_i unknown
      cases failed
      simpa using unknown
    · simp only [Logged.value_bind] at failed
      split at failed
      · cases failed
      · cases failed
        simp

/-- A pipe that is taken leads through bindings alone. -/
theorem pipe_eq_ok {types : NameMap Ty} {graph : BindingGraph} {place : Location} {written : String}
    {pipes : List Pipe} (typed : ∀ n ∈ graph.names, (types.get? n).isSome = true)
    (found : (store.pipe types graph place written).value = .ok pipes) :
    (∀ n ∈ pipeStages written, n ∈ graph.names) ∧
      pipes.map (fun e => (e.producer, e.consumer)) = adjacent (pipeStages written) ∧
        store.Fed (fun n t => types.get? n = some t) none pipes := by
  unfold pipe at found
  dsimp only at found
  split at found
  · cases found
  · split at found
    · cases found
    · rename_i known
      have inside : ∀ n ∈ pipeStages written, n ∈ graph.names := by
        intro n member
        rw [Bool.not_eq_true, Bool.not_eq_false', List.isEmpty_iff, List.filter_eq_nil_iff] at known
        exact BindingGraph.contains_iff.mp (by simpa using known n member)
      simp only [Logged.value_bind] at found
      split at found
      · rename_i flowing
        cases found
        exact ⟨inside, flows_eq_ok (fun n member => typed n (inside n member)) flowing⟩
      · cases found

/-! ### All pipes -/

/-- The flows of a written pipe, one for each two stages that follow each other. -/
def FlowsAlong (store : Store) (typed : String → Ty → Prop) (written : String)
    (pipes : List Pipe) : Prop :=
  pipes.map (fun e => (e.producer, e.consumer)) = adjacent (pipeStages written) ∧
    store.Fed typed none pipes

/-- The flows of a pipe make every consumer depend on its producer. -/
theorem advances_pipe {p : Progress} {written : String} {pipes : List Pipe}
    (known : ∀ n ∈ pipeStages written, n ∈ p.graph.names)
    (ends : pipes.map (fun e => (e.producer, e.consumer)) = adjacent (pipeStages written)) :
    p.Advances
      { p with graph := pipes.foldl (fun g e => g.addDependency e.consumer e.producer) p.graph }
      (fun x n => (n, x) ∈ adjacent (pipeStages written)) fun _ => False := by
  have links : ∀ l ∈ pipes.map fun e => (e.consumer, e.producer),
      l.1 ∈ p.graph.names ∧ l.2 ∈ p.graph.names := by
    intro l member
    obtain ⟨e, inside, rfl⟩ := List.mem_map.mp member
    have next : (e.producer, e.consumer) ∈ adjacent (pipeStages written) :=
      ends ▸ List.mem_map.mpr ⟨e, inside, rfl⟩
    exact ⟨known _ (mem_of_mem_adjacent next).2, known _ (mem_of_mem_adjacent next).1⟩
  have same : pipes.foldl (fun g e => g.addDependency e.consumer e.producer) p.graph =
      p.graph.addAll (pipes.map fun e => (e.consumer, e.producer)) := by
    rw [BindingGraph.addAll, List.foldl_map]
  rw [same]
  refine Progress.advances_grow ((BindingGraph.grows_addAll links).congr fun x n => ?_)
  rw [← ends, List.mem_map, List.mem_map]
  simp only [Prod.mk.injEq]
  exact exists_congr fun e => and_congr_right fun _ => and_comm

theorem faults_of_bindPipes {types : NameMap Ty} {place : Location} {p : Progress} {i : Nat}
    {pipes : List String} (none : (store.bindPipes types place p i pipes).value.1.faults = []) :
    p.faults = [] := by
  induction pipes generalizing p i with
  | nil => exact none
  | cons written rest ih =>
    simp only [bindPipes, Logged.value_bind] at none
    split at none
    · exact (List.append_eq_nil_iff.mp (ih none)).1
    · simp only [Logged.value_bind, Logged.value_pure] at none
      have before := ih none
      exact before

/-- Without a fault, all pipes are taken, one after another. -/
theorem bindPipes_advances {types : NameMap Ty} {place : Location} {p : Progress} {i : Nat}
    {pipes : List String} (typed : ∀ n ∈ p.graph.names, (types.get? n).isSome = true)
    (none : (store.bindPipes types place p i pipes).value.1.faults = []) :
    (∀ written ∈ pipes, ∀ n ∈ pipeStages written, n ∈ p.graph.names) ∧
      p.Advances (store.bindPipes types place p i pipes).value.1
        (fun x n => ∃ written ∈ pipes, (n, x) ∈ adjacent (pipeStages written)) (fun _ => False) ∧
      ∃ chains, (store.bindPipes types place p i pipes).value.2 = chains.flatten ∧
        List.Forall₂ (store.FlowsAlong fun n t => types.get? n = some t) pipes chains := by
  induction pipes generalizing p i with
  | nil => exact ⟨by simp, (Progress.Advances.refl p).congr (by simp) (by simp), [], rfl, .nil⟩
  | cons written rest ih =>
    simp only [bindPipes, Logged.value_bind] at none ⊢
    split at none
    · rename_i faults refused
      have clear := faults_of_bindPipes none
      exact absurd (List.append_eq_nil_iff.mp clear).2 (pipe_eq_error refused)
    · rename_i chain taken
      obtain ⟨known, ends, fed⟩ := pipe_eq_ok typed taken
      have first := advances_pipe known ends
      obtain ⟨others, later, chains, flat, each⟩ := ih (first.grows.names.symm ▸ typed) none
      refine ⟨?_, (first.trans later).congr (fun x n => ?_) (by simp), chain :: chains, ?_,
        .cons ⟨ends, fed⟩ each⟩
      · exact List.forall_mem_cons.mpr ⟨known, first.grows.names ▸ others⟩
      · simp
      · exact congrArg (chain ++ ·) flat

end Store
end Pipeline
