import Mathlib.Data.List.TakeWhile
import Pipeline.Proofs.Data.NameMap
import Pipeline.Provider.Collect

/-!
# Collected documents

The documents collected are those of the modules that the imports lead to from the entries. The
queue of requests is served to its end, as no module is served twice and all modules requested are
available; what is served is the least set that has the entries and all that its documents need, in
the order in which the modules are first requested.
-/

set_option autoImplicit false
set_option relaxedAutoImplicit false

namespace Pipeline

namespace Collect

/-- True of an import that names something of the prelude, which is always there. -/
def namesPrelude (written : String) : Bool :=
  (Path.segments (Import.ofText written).path).head? = some preludeModule

/-- Modules that imports request, in the order of the imports. -/
def requested (available : List String) (uses : List String) : List String :=
  uses.flatMap fun written => (modulesForImport available written).getD []

end Collect

namespace Provider

/-- The document of a module, if it can be read. -/
def document? (provider : Provider) (module : String) : Option Document :=
  (provider.fetch module).bind Except.toOption

/-- The modules that the document of a module requests. -/
def needs (provider : Provider) (available : List String) (module : String) : List String :=
  match provider.document? module with
  | some d => Collect.requested available d.uses
  | none => []

/-- The least set of modules that has the entries, and with a module all that its document needs. -/
inductive Reaches (provider : Provider) (available entries : List String) : String → Prop
  | entry {m : String} : m ∈ entries → Reaches provider available entries m
  | needed {m n : String} : Reaches provider available entries m → n ∈ provider.needs available m →
      Reaches provider available entries n

/-- The modules that so many imports one behind another lead to, or fewer. -/
def Within (provider : Provider) (available entries : List String) : Nat → String → Prop
  | 0, m => m ∈ entries
  | n + 1, m => m ∈ entries ∨
      ∃ before, Within provider available entries n before ∧ m ∈ provider.needs available before

/-- What it takes to collect the documents of entries. -/
structure Complete (provider : Provider) (available entries : List String) : Prop where
  known : ∀ m ∈ entries, m ∈ available
  readable : ∀ m, provider.Reaches available entries m → ∃ d, provider.fetch m = some (.ok d)
  mapped : ∀ m d, provider.Reaches available entries m → provider.fetch m = some (.ok d) →
    ∀ written ∈ d.uses, Collect.namesPrelude written = true ∨
      ∃ modules n, Collect.modulesForImport available written = some modules ∧ n ∈ modules ∧
        n ∈ available

/-- What the documents collected are: those of the modules listed. -/
structure Collected (provider : Provider) (available entries modules : List String)
    (documents : List Document) : Prop where
  each : List.Forall₂ (fun m d => provider.fetch m = some (.ok d)) modules documents
  once : modules.Nodup
  least : ∀ m, m ∈ modules ↔ provider.Reaches available entries m
  /-- The modules stand in the order in which they are first requested. -/
  first : modules = (entries ++ modules.flatMap (provider.needs available)).eraseDups
  /-- Modules that fewer imports lead to come before the others. -/
  breadth : ∀ n, ∃ near far, modules = near ++ far ∧
    ∀ m, m ∈ near ↔ provider.Within available entries n m

end Provider

namespace Collect

variable {provider : Provider} {available : List String}

/-! ### Requests -/

theorem mem_available_of_nearest? {segments : List String} {m : String}
    (found : nearest? available segments = some m) : m ∈ available := by
  induction segments with
  | nil => cases found
  | cons last before ih =>
    simp only [nearest?] at found
    split at found
    · rename_i known
      cases found
      exact List.contains_iff_mem.mp known
    · exact ih found

/-- Imports request available modules only. -/
theorem mem_available_of_modulesForImport {written : String} {modules : List String}
    (found : modulesForImport available written = some modules) : ∀ m ∈ modules, m ∈ available := by
  unfold modulesForImport at found
  dsimp only at found
  split at found
  · cases found
    simp
  · split at found
    · rename_i known
      cases found
      exact List.forall_mem_singleton.mpr (List.contains_iff_mem.mp known)
    · split at found
      · cases found
        exact fun m member => (List.mem_filter.mp member).1
      · obtain ⟨m, near, rfl⟩ := Option.map_eq_some_iff.mp found
        exact List.forall_mem_singleton.mpr (mem_available_of_nearest? near)

theorem mem_available_of_requested {uses : List String} :
    ∀ m ∈ requested available uses, m ∈ available := by
  intro m member
  obtain ⟨written, -, inside⟩ := List.mem_flatMap.mp member
  cases found : modulesForImport available written with
  | none =>
    rw [found] at inside
    cases inside
  | some modules =>
    rw [found] at inside
    exact mem_available_of_modulesForImport found m inside

/-- Every import is of the prelude, or of some available module, or is a fault. -/
theorem modulesForImport_isSome_iff {written : String} :
    (modulesForImport available written).isSome = true ↔ namesPrelude written = true ∨
      ∃ modules n, modulesForImport available written = some modules ∧ n ∈ modules ∧
        n ∈ available := by
  constructor
  · intro found
    obtain ⟨modules, found⟩ := Option.isSome_iff_exists.mp found
    rcases modules with _ | ⟨n, more⟩
    · left
      unfold modulesForImport at found
      dsimp only at found
      split at found
      · rename_i prelude
        exact decide_eq_true prelude
      · split at found
        · cases found
        · split at found
          · rename_i inhabited
            rw [Option.some.inj found] at inhabited
            cases inhabited
          · obtain ⟨m, -, same⟩ := Option.map_eq_some_iff.mp found
            cases same
    · exact Or.inr ⟨_, n, found, List.mem_cons_self,
        mem_available_of_modulesForImport found n List.mem_cons_self⟩
  · rintro (prelude | ⟨modules, -, found, -⟩)
    · unfold modulesForImport
      dsimp only
      rw [if_pos (of_decide_eq_true prelude)]
      rfl
    · rw [found]
      rfl

theorem requestsOf_modules (place : Location) (i : Nat) (uses : List String) :
    (requestsOf available place i uses).1.map (·.1) = requested available uses := by
  induction uses generalizing i with
  | nil => rfl
  | cons written rest ih =>
    have here : (requestOf available (place.atIndex i) written).1.map (·.1) =
        (modulesForImport available written).getD [] := by
      unfold requestOf
      split <;> rename_i found <;> simp [found, Function.comp_def]
    simp only [requestsOf, List.map_append, here, ih, requested, List.flatMap_cons]

theorem mem_available_of_requestsOf {place : Location} {i : Nat} {uses : List String} :
    ∀ request ∈ (requestsOf available place i uses).1, request.1 ∈ available := by
  intro request member
  have named := List.mem_map_of_mem (f := (·.1)) member
  rw [requestsOf_modules] at named
  exact mem_available_of_requested _ named

theorem requestsOf_faults_eq_nil {place : Location} {i : Nat} {uses : List String} :
    (requestsOf available place i uses).2 = [] ↔
      ∀ written ∈ uses, (modulesForImport available written).isSome = true := by
  induction uses generalizing i with
  | nil => simp [requestsOf]
  | cons written rest ih =>
    have here : (requestOf available (place.atIndex i) written).2 = [] ↔
        (modulesForImport available written).isSome = true := by
      unfold requestOf
      split <;> rename_i found <;> simp [found]
    simp only [requestsOf, List.append_eq_nil_iff, here, ih, List.forall_mem_cons]

theorem start_modules (available : List String) (place : Location) (entries : List String) :
    (start available place entries).1.map (·.1) = entries.filter (available.contains ·) := by
  simp [start, Function.comp_def]

theorem start_faults_eq_nil {place : Location} {entries : List String} :
    (start available place entries).2 = [] ↔ ∀ m ∈ entries, m ∈ available := by
  simp [start]

/-! ### The loop -/

/-- Requests served one after another until none is left, whatever their number: the modules served,
their documents, and the faults. -/
inductive Serves (provider : Provider) (available : List String) :
    List String → List Request → List String → List Document → List Diagnostic → Prop
  | done {served : List String} : Serves provider available served [] [] [] []
  | again {served order : List String} {request : Request} {queue : List Request}
      {documents : List Document} {faults : List Diagnostic} : request.1 ∈ served →
      Serves provider available served queue order documents faults →
      Serves provider available served (request :: queue) order documents faults
  | missing {served order : List String} {request : Request} {queue : List Request}
      {documents : List Document} {faults : List Diagnostic} : request.1 ∉ served →
      provider.fetch request.1 = none →
      Serves provider available (request.1 :: served) queue order documents faults →
      Serves provider available served (request :: queue) (request.1 :: order) documents
        (⟨request.2, .unknownImport request.1⟩ :: faults)
  | unreadable {served order : List String} {request : Request} {queue : List Request}
      {documents : List Document} {faults : List Diagnostic} {fault : ProviderFault} :
      request.1 ∉ served → provider.fetch request.1 = some (.error fault) →
      Serves provider available (request.1 :: served) queue order documents faults →
      Serves provider available served (request :: queue) (request.1 :: order) documents
        (fault.toDiagnostic request.1 :: faults)
  | document {served order : List String} {request : Request} {queue : List Request}
      {documents : List Document} {faults : List Diagnostic} {d : Document} :
      request.1 ∉ served → provider.fetch request.1 = some (.ok d) →
      Serves provider available (request.1 :: served)
        (queue ++ (requestsOf available ((d.location.child "permute").child "use") 0 d.uses).1)
        order documents faults →
      Serves provider available served (request :: queue) (request.1 :: order) (d :: documents)
        ((requestsOf available ((d.location.child "permute").child "use") 0 d.uses).2 ++ faults)

theorem Serves.of_dropWhile {served order : List String} {queue : List Request}
    {documents : List Document} {faults : List Diagnostic}
    (serves : Serves provider available served
      (queue.dropWhile fun request => served.contains request.1) order documents faults) :
    Serves provider available served queue order documents faults := by
  induction queue with
  | nil => exact serves
  | cons request rest ih =>
    rw [List.dropWhile_cons] at serves
    split at serves
    · rename_i before
      exact .again (List.contains_iff_mem.mp before) (ih serves)
    · exact serves

/-- What has not been served is less once a module has been. -/
private theorem length_unserved_cons {served : List String} {m : String} (known : m ∈ available)
    (fresh : m ∉ served) :
    (available.filter fun n => !(m :: served).contains n).length <
      (available.filter fun n => !served.contains n).length := by
  have again : available.filter (fun n => !(m :: served).contains n) =
      (available.filter fun n => !served.contains n).filter fun n => !(n == m) := by
    rw [List.filter_filter]
    refine List.filter_congr fun n _ => ?_
    rw [List.contains_cons, Bool.not_or]
  rw [again]
  exact List.length_filter_lt_length_iff_exists.mpr
    ⟨m, List.mem_filter.mpr ⟨known, by simpa using fresh⟩, by simp⟩

/-- There are requests enough for all that is available and has not been served. -/
theorem serve_serves (provider : Provider) {bound : Nat} (served : List String)
    {queue : List Request} (inside : ∀ request ∈ queue, request.1 ∈ available)
    (enough : (available.filter fun m => !served.contains m).length ≤ bound) :
    ∃ order, Serves provider available served queue order
      (serve provider available bound served queue).value.1
      (serve provider available bound served queue).value.2 := by
  induction bound generalizing served queue with
  | zero =>
    have none := List.filter_eq_nil_iff.mp (List.eq_nil_of_length_eq_zero (Nat.le_zero.mp enough))
    have ended : queue.dropWhile (fun request => served.contains request.1) = [] :=
      List.dropWhile_eq_nil_iff.mpr fun request member => by
        simpa using none _ (inside request member)
    exact ⟨[], .of_dropWhile (ended ▸ .done)⟩
  | succ bound ih =>
    have inside' : ∀ request ∈ queue.dropWhile fun request => served.contains request.1,
        request.1 ∈ available := fun request member =>
      inside request ((List.dropWhile_sublist _).subset member)
    unfold serve
    rcases left : queue.dropWhile fun request => served.contains request.1 with
      _ | ⟨⟨module, place⟩, rest⟩
    · exact ⟨[], .of_dropWhile (by rw [left]; exact .done)⟩
    · have fresh : module ∉ served := by
        have head := List.head?_dropWhile_not (fun request => served.contains request.1) queue
        rw [left] at head
        simpa using head
      rw [left, List.forall_mem_cons] at inside'
      have fewer := Nat.le_of_lt_succ
        (Nat.lt_of_lt_of_le (length_unserved_cons inside'.1 fresh) enough)
      have first {order : List String} {documents : List Document} {faults : List Diagnostic}
          (serves : Serves provider available served ((module, place) :: rest) order documents
            faults) : Serves provider available served queue order documents faults :=
        .of_dropWhile (left ▸ serves)
      rcases answer : provider.fetch module with _ | fault | d <;>
        simp only [left, answer, Logged.value_bind, Logged.value_pure]
      · obtain ⟨order, serves⟩ := ih _ inside'.2 fewer
        exact ⟨module :: order, first (.missing fresh answer serves)⟩
      · obtain ⟨order, serves⟩ := ih _ inside'.2 fewer
        exact ⟨module :: order, first (.unreadable fresh answer serves)⟩
      · have known : ∀ request ∈ rest ++ (requestsOf available
            ((d.location.child "permute").child "use") 0 d.uses).1, request.1 ∈ available :=
          fun request member => (List.mem_append.mp member).elim (inside'.2 request)
            (mem_available_of_requestsOf request)
        obtain ⟨order, serves⟩ := ih _ known fewer
        exact ⟨module :: order, first (.document fresh answer serves)⟩

/-! ### What is served -/

section

variable {served order entries : List String} {queue : List Request} {documents : List Document}
  {faults : List Diagnostic}

theorem needs_of_fetch {m : String} {d : Document} (answer : provider.fetch m = some (.ok d)) :
    provider.needs available m = requested available d.uses := by
  simp [Provider.needs, Provider.document?, answer, Except.toOption]

private theorem needs_of_missing {m : String} (answer : provider.fetch m = none) :
    provider.needs available m = [] := by
  simp [Provider.needs, Provider.document?, answer]

private theorem needs_of_unreadable {m : String} {fault : ProviderFault}
    (answer : provider.fetch m = some (.error fault)) : provider.needs available m = [] := by
  simp [Provider.needs, Provider.document?, answer, Except.toOption]

/-- The first of many requests that have not been served is served first, and not again. -/
private theorem eraseDups_unserved {m : String} (fresh : m ∉ served) (requests : List String) :
    ((m :: requests).filter (· ∉ served)).eraseDups =
      m :: (requests.filter (· ∉ m :: served)).eraseDups := by
  rw [List.filter_cons, if_pos (by simpa using fresh), List.eraseDups_cons, List.filter_filter]
  refine congrArg (m :: List.eraseDups ·) (List.filter_congr fun n _ => Bool.eq_iff_iff.mpr ?_)
  simp

/-- Modules are served in the order in which they are first requested. -/
theorem Serves.order_eq (serves : Serves provider available served queue order documents faults) :
    order = ((queue.map (·.1) ++ order.flatMap (provider.needs available)).filter
      (· ∉ served)).eraseDups := by
  induction serves with
  | done => rfl
  | again before _ ih =>
    rw [List.map_cons, List.cons_append, List.filter_cons, if_neg (by simpa using before)]
    exact ih
  | missing fresh answer _ ih =>
    rw [List.map_cons, List.cons_append, eraseDups_unserved fresh, List.flatMap_cons,
      needs_of_missing answer, List.nil_append, ← ih]
  | unreadable fresh answer _ ih =>
    rw [List.map_cons, List.cons_append, eraseDups_unserved fresh, List.flatMap_cons,
      needs_of_unreadable answer, List.nil_append, ← ih]
  | document fresh answer _ ih =>
    rw [List.map_append, requestsOf_modules, List.append_assoc] at ih
    rw [List.map_cons, List.cons_append, eraseDups_unserved fresh, List.flatMap_cons,
      needs_of_fetch answer, ← ih]

/-- No module is served twice. -/
theorem Serves.once (serves : Serves provider available served queue order documents faults) :
    order.Nodup ∧ ∀ m ∈ order, m ∉ served := by
  induction serves with
  | done => simp
  | again _ _ ih => exact ih
  | missing fresh _ _ ih | unreadable fresh _ _ ih | document fresh _ _ ih =>
    obtain ⟨once, apart⟩ := ih
    refine ⟨List.nodup_cons.mpr ⟨fun member => apart _ member List.mem_cons_self, once⟩,
      List.forall_mem_cons.mpr ⟨fresh, fun m member before => ?_⟩⟩
    exact apart m member (List.mem_cons_of_mem _ before)

/-- What is served is reached, if what is requested is. -/
theorem Serves.reached (serves : Serves provider available served queue order documents faults)
    (from_ : ∀ request ∈ queue, provider.Reaches available entries request.1) :
    ∀ m ∈ order, provider.Reaches available entries m := by
  induction serves with
  | done => simp
  | again _ _ ih =>
    rw [List.forall_mem_cons] at from_
    exact ih from_.2
  | missing _ _ _ ih | unreadable _ _ _ ih =>
    rw [List.forall_mem_cons] at from_
    exact List.forall_mem_cons.mpr ⟨from_.1, ih from_.2⟩
  | document _ answer _ ih =>
    rw [List.forall_mem_cons] at from_
    refine List.forall_mem_cons.mpr ⟨from_.1, ih fun request member => ?_⟩
    rcases List.mem_append.mp member with here | there
    · exact from_.2 request here
    · refine .needed from_.1 ?_
      rw [needs_of_fetch answer, ← requestsOf_modules]
      exact List.mem_map_of_mem there

/-- There is no fault if all documents served can be read and all their imports be followed. -/
theorem Serves.faults_eq_nil_iff
    (serves : Serves provider available served queue order documents faults) :
    faults = [] ↔ ∀ m ∈ order, ∃ d, provider.fetch m = some (.ok d) ∧
      ∀ written ∈ d.uses, (modulesForImport available written).isSome = true := by
  induction serves with
  | done => simp
  | again _ _ ih => exact ih
  | missing _ answer _ ih | unreadable _ answer _ ih => simp [answer]
  | document _ answer _ ih =>
    rw [List.append_eq_nil_iff, requestsOf_faults_eq_nil, ih, List.forall_mem_cons, answer]
    simp

theorem Serves.each (serves : Serves provider available served queue order documents faults)
    (clean : faults = []) :
    List.Forall₂ (fun m d => provider.fetch m = some (.ok d)) order documents := by
  induction serves with
  | done => exact .nil
  | again _ _ ih => exact ih clean
  | missing | unreadable => cases clean
  | document _ answer _ ih => exact .cons answer (ih (List.append_eq_nil_iff.mp clean).2)

end

end Collect

namespace Provider

variable {provider : Provider} {available entries modules : List String}

/-! ### The closure -/

/-- In the order of first requests, all that is reached is there. -/
theorem mem_of_reaches
    (first : modules = (entries ++ modules.flatMap (provider.needs available)).eraseDups)
    {m : String} (reached : provider.Reaches available entries m) : m ∈ modules := by
  induction reached with
  | entry member =>
    rw [first, List.mem_eraseDups]
    exact List.mem_append_left _ member
  | needed _ member ih =>
    rw [first, List.mem_eraseDups]
    exact List.mem_append_right _ (List.mem_flatMap.mpr ⟨_, ih, member⟩)

/-- In the order of first requests, what fewer imports lead to comes first. -/
theorem breadth_of_first
    (first : modules = (entries ++ modules.flatMap (provider.needs available)).eraseDups)
    (n : Nat) :
    ∃ near far, modules = near ++ far ∧ ∀ m, m ∈ near ↔ provider.Within available entries n m := by
  induction n with
  | zero =>
    rw [List.eraseDups_append] at first
    exact ⟨_, _, first, fun m => List.mem_eraseDups⟩
  | succ n ih =>
    obtain ⟨near, far, split, inside⟩ := ih
    have again := first
    rw [split, List.flatMap_append, ← List.append_assoc, List.eraseDups_append, ← split] at again
    refine ⟨_, _, again, fun m => ?_⟩
    rw [List.mem_eraseDups, List.mem_append, List.mem_flatMap]
    simp only [Within, inside]

/-- The outcome of a collection is that of serving the requests of the entries until none is
left. -/
theorem collect_serves {listed : List String} (listing : provider.modules = .ok listed)
    (entries : List String) :
    ∃ order documents faults,
      Collect.Serves provider (NameSet.ofList listed) []
        (Collect.start (NameSet.ofList listed) (Location.ofDocument provider.name) entries).1
        order documents faults ∧
      (provider.collect entries).value =
        let all := (Collect.start (NameSet.ofList listed) (Location.ofDocument provider.name)
          entries).2 ++ faults
        if all.isEmpty then .ok documents else .error all := by
  have inside : ∀ request ∈ (Collect.start (NameSet.ofList listed)
      (Location.ofDocument provider.name) entries).1, request.1 ∈ NameSet.ofList listed := by
    intro request member
    have named := List.mem_map_of_mem (f := (·.1)) member
    rw [Collect.start_modules] at named
    exact List.contains_iff_mem.mp (List.mem_filter.mp named).2
  obtain ⟨order, serves⟩ := Collect.serve_serves provider [] inside (List.length_filter_le ..)
  refine ⟨order, _, _, serves, ?_⟩
  unfold collect
  rw [listing]
  simp only [Logged.value_bind]
  split <;> rfl

/-- The documents are collected if all that is needed is there, and then they are those of the
modules reached. -/
theorem collect_cases {listed : List String} (listing : provider.modules = .ok listed)
    (entries : List String) :
    (provider.Complete (NameSet.ofList listed) entries ∧
      ∃ modules documents, (provider.collect entries).value = .ok documents ∧
        provider.Collected (NameSet.ofList listed) entries modules documents) ∨
    (¬ provider.Complete (NameSet.ofList listed) entries ∧
      ∃ faults, (provider.collect entries).value = .error faults) := by
  obtain ⟨order, documents, faults, serves, outcome⟩ := provider.collect_serves listing entries
  rw [outcome]
  dsimp only
  have requests := Collect.start_modules (NameSet.ofList listed) (Location.ofDocument provider.name)
    entries
  have reached : ∀ m ∈ order, provider.Reaches (NameSet.ofList listed) entries m := by
    refine serves.reached fun request member => .entry ?_
    have named := List.mem_map_of_mem (f := (·.1)) member
    rw [requests] at named
    exact (List.mem_filter.mp named).1
  by_cases known : ∀ m ∈ entries, m ∈ NameSet.ofList listed
  · have first := serves.order_eq
    rw [requests, List.filter_eq_self.mpr fun m member =>
      List.contains_iff_mem.mpr (known m member), List.filter_eq_self.mpr (by simp)] at first
    have least : ∀ m, m ∈ order ↔ provider.Reaches (NameSet.ofList listed) entries m := fun m =>
      ⟨reached m, mem_of_reaches first⟩
    rw [Collect.start_faults_eq_nil.mpr known, List.nil_append]
    have clean := serves.faults_eq_nil_iff
    simp only [Collect.modulesForImport_isSome_iff] at clean
    by_cases none : faults = []
    · refine Or.inl ⟨⟨known, fun m reached => ?_, fun m d reached answer => ?_⟩, order, documents,
        if_pos (List.isEmpty_iff.mpr none), serves.each none, serves.once.1, least, first,
        breadth_of_first first⟩
      · obtain ⟨d, answer, -⟩ := clean.mp none m ((least m).mpr reached)
        exact ⟨d, answer⟩
      · obtain ⟨d', answer', mapped⟩ := clean.mp none m ((least m).mpr reached)
        rw [answer] at answer'
        cases answer'
        exact mapped
    · refine Or.inr ⟨fun complete => none (clean.mpr fun m member => ?_), faults,
        if_neg (List.isEmpty_iff.not.mpr none)⟩
      obtain ⟨d, answer⟩ := complete.readable m (reached m member)
      exact ⟨d, answer, complete.mapped m d (reached m member) answer⟩
  · refine Or.inr ⟨fun complete => known complete.known, _, if_neg ?_⟩
    rw [List.isEmpty_iff, List.append_eq_nil_iff, Collect.start_faults_eq_nil]
    exact fun both => known both.1

/-- **The documents collected are those of the closure of the entries under imports.** The requests
are served to the end, imports in circles included. There is a result exactly if every entry is
available, every module reached can be read, and every import of its document is of the prelude or
needs some available module; and then it has one document for each module of the least set that has
the entries and all that the documents of its modules need, in the order of the first requests,
breadth first. -/
theorem collect_closure (provider : Provider) {listed : List String}
    (listing : provider.modules = .ok listed) (entries : List String) :
    (∃ order documents faults,
      Collect.Serves provider (NameSet.ofList listed) []
        (Collect.start (NameSet.ofList listed) (Location.ofDocument provider.name) entries).1
        order documents faults ∧
      (provider.collect entries).value =
        let all := (Collect.start (NameSet.ofList listed) (Location.ofDocument provider.name)
          entries).2 ++ faults
        if all.isEmpty then .ok documents else .error all) ∧
    ((∃ documents, (provider.collect entries).value = .ok documents) ↔
      provider.Complete (NameSet.ofList listed) entries) ∧
    ∀ documents, (provider.collect entries).value = .ok documents →
      ∃ modules, provider.Collected (NameSet.ofList listed) entries modules documents := by
  refine ⟨provider.collect_serves listing entries, ?_⟩
  rcases provider.collect_cases listing entries with
    ⟨complete, modules, documents, found, collected⟩ | ⟨incomplete, faults, failed⟩
  · refine ⟨⟨fun _ => complete, fun _ => ⟨documents, found⟩⟩, fun others same => ⟨modules, ?_⟩⟩
    rw [found] at same
    cases same
    exact collected
  · refine ⟨⟨fun ⟨documents, found⟩ => ?_, fun complete => absurd complete incomplete⟩,
      fun documents found => ?_⟩
    all_goals
      rw [failed] at found
      cases found

/-- The provider of documents that are at hand. -/
def ofDocuments (documents : List Document) : Provider where
  name := "memory"
  modules := .ok (documents.map (·.module))
  fetch m := (documents.find? (·.module = m)).map .ok

/-- A document of some types without parts. -/
def typesDocument (module : String) (uses types : List String) : Document where
  module := module
  origin := module
  version := supportedVersion
  kind := .struct
  uses := uses
  types := types.map fun name => (name, default)

/-- Modules that import one another, one of them through the directory it lies in. -/
def ringProvider : Provider :=
  ofDocuments [typesDocument "app" ["lib::*", "std::u32"] [], typesDocument "lib::csv" ["app"] [],
    typesDocument "lib::rows" ["lib::csv::Row"] [], typesDocument "unused" ["app"] []]

/-- The ring is collected once, without what it does not lead to. -/
theorem ringProvider_collected :
    ∃ documents modules, (ringProvider.collect ["app"]).value = .ok documents ∧
      documents.map (·.module) = ["app", "lib::csv", "lib::rows"] ∧
      ringProvider.Collected (NameSet.ofList ["app", "lib::csv", "lib::rows", "unused"]) ["app"]
        modules documents := by
  have made : (ringProvider.collect ["app"]).value.toOption.map (·.map (·.module)) =
      some ["app", "lib::csv", "lib::rows"] := by
    decide +kernel
  cases found : (ringProvider.collect ["app"]).value with
  | error faults =>
    rw [found] at made
    cases made
  | ok documents =>
    rw [found] at made
    have listing : ringProvider.modules = .ok ["app", "lib::csv", "lib::rows", "unused"] := rfl
    obtain ⟨modules, collected⟩ :=
      (collect_closure ringProvider listing ["app"]).2.2 documents found
    exact ⟨documents, modules, rfl, Option.some.inj made, collected⟩

/-- A document that imports from the prelude alone. -/
def preludeProvider : Provider := ofDocuments [typesDocument "app" ["std::u32"] []]

/-- An import of the prelude needs no module, and is no fault. -/
theorem collect_of_prelude_import : ¬ ∀ (provider : Provider) (listed entries : List String),
    provider.modules = .ok listed → (∀ m ∈ listed, (provider.fetch m).isSome = true) →
      ((∃ documents, (provider.collect entries).value = .ok documents) ↔
        (∀ m ∈ entries, m ∈ NameSet.ofList listed) ∧
        (∀ m, provider.Reaches (NameSet.ofList listed) entries m →
          ∃ d, provider.fetch m = some (.ok d)) ∧
        ∀ m d, provider.Reaches (NameSet.ofList listed) entries m →
          provider.fetch m = some (.ok d) → ∀ written ∈ d.uses, ∃ modules n,
            Collect.modulesForImport (NameSet.ofList listed) written = some modules ∧
              n ∈ modules ∧ n ∈ NameSet.ofList listed) := by
  intro all
  have made : (preludeProvider.collect ["app"]).value.toOption.isSome = true := by
    decide +kernel
  have none : Collect.modulesForImport (NameSet.ofList ["app"]) "std::u32" = some [] := by
    decide +kernel
  have all := all preludeProvider ["app"] ["app"] rfl
    (by simp [preludeProvider, ofDocuments, typesDocument])
  cases found : (preludeProvider.collect ["app"]).value with
  | error faults =>
    rw [found] at made
    cases made
  | ok documents =>
    obtain ⟨modules, n, mapped, member, -⟩ := (all.mp ⟨documents, found⟩).2.2 "app" _
      (.entry List.mem_cons_self) rfl "std::u32" List.mem_cons_self
    rw [none] at mapped
    cases mapped
    cases member

end Provider
end Pipeline
