import Mathlib.Data.List.MinMax
import Pipeline.Proofs.Scope.Steps

/-!
# The strongest bindings decide

Names are bound one after another, and a binding that is refused leaves the scope as it is. What a
name stands for in the end is told by all its bindings alike, refused or not: it is the first of the
strongest ones, unless these are globs that disagree.
-/

set_option autoImplicit false
set_option relaxedAutoImplicit false

namespace Pipeline

namespace Binding

/-- The order of bindings by their strengths. -/
def rank (b : Binding) : Nat := b.strength.rank

/-- The paths that are bound by globs. -/
def globPaths (bindings : List Binding) : NameSet :=
  NameSet.ofList ((bindings.filter (·.strength = .glob)).map (·.symbol.path))

/-- The strongest bindings are globs, and they are for different symbols. -/
def Undecided (bindings : List Binding) : Prop :=
  (∃ b ∈ bindings.argmax rank, b.strength = .glob) ∧
    ∃ b ∈ bindings, ∃ c ∈ bindings, b.strength = .glob ∧ c.strength = .glob ∧ b.symbol ≠ c.symbol

variable {bindings : List Binding}

theorem mem_globPaths {path : String} :
    path ∈ globPaths bindings ↔ ∃ b ∈ bindings, b.strength = .glob ∧ b.symbol.path = path := by
  simp [globPaths, NameSet.mem_ofList, and_assoc]

/-- Globs disagree if one of them disagrees with a given one. -/
theorem contested_iff {b : Binding} (member : b ∈ bindings) (glob : b.strength = .glob) :
    Contested bindings b.symbol ↔ ∃ b ∈ bindings, ∃ c ∈ bindings,
      b.strength = .glob ∧ c.strength = .glob ∧ b.symbol ≠ c.symbol := by
  constructor
  · rintro ⟨c, inside, alike, different⟩
    exact ⟨c, inside, b, member, alike, glob, different⟩
  · rintro ⟨c, insideC, d, insideD, alikeC, alikeD, different⟩
    by_cases same : c.symbol = b.symbol
    · exact ⟨d, insideD, alikeD, fun other => different (same.trans other.symm)⟩
    · exact ⟨c, insideC, alikeC, same⟩

end Binding

namespace ModuleScope

open Binding (rank globPaths Undecided)

/-- The scope after one more call, whether or not the binding is refused. -/
def bindOrKeep (scope : ModuleScope) (call : String × Binding) : ModuleScope :=
  match scope.bind call.1 call.2.symbol call.2.strength with
  | .ok next => next
  | .error _ => scope

/-- The scope after several calls. -/
def bindEach (scope : ModuleScope) (calls : List (String × Binding)) : ModuleScope :=
  calls.foldl bindOrKeep scope

/-- The bindings of a name by calls, in their order. -/
def bindingsOf (calls : List (String × Binding)) (name : String) : List Binding :=
  calls.filterMap fun call => if call.1 = name then some call.2 else none

variable {scope : ModuleScope} {name : String} {bindings : List Binding} {b : Binding}

theorem bind_eq_error {symbol : Symbol} {strength : Strength} {path : String} :
    scope.bind name symbol strength = .error path ↔
      ∃ entry, scope.names.get? name = some entry ∧
        NameEntry.rebind entry symbol strength = .error path := by
  unfold bind
  split
  · rename_i fresh
    simp [fresh]
  · rename_i entry known
    simp only [known, Option.some.injEq, exists_eq_left']
    cases NameEntry.rebind entry symbol strength <;> simp

theorem rebind_eq_error_iff {entry : NameEntry} {symbol : Symbol} {strength : Strength}
    {path : String} : NameEntry.rebind entry symbol strength = .error path ↔
      entry.strength = strength ∧ strength ≠ .glob ∧ entry.symbol ≠ symbol ∧
        path = entry.symbol.path := by
  constructor
  · intro refused
    obtain ⟨alike, notGlob, different⟩ := Pipeline.NameEntry.rebind_eq_error refused
    simp only [NameEntry.rebind, alike, Nat.lt_irrefl, if_false, if_neg notGlob, if_neg different]
      at refused
    cases refused
    exact ⟨alike, notGlob, different, rfl⟩
  · rintro ⟨rfl, notGlob, different, rfl⟩
    simp only [NameEntry.rebind, Nat.lt_irrefl, if_false, if_neg notGlob, if_neg different]

/-! ### The entry of a name -/

/-- What an entry says about all bindings of its name: it holds the first of the strongest ones, and
it tells about all those that were taken, the globs among them. -/
structure Tells (known : Option NameEntry) (bindings : List Binding) : Prop where
  leader : known.map (fun e => ⟨e.symbol, e.strength⟩) = bindings.argmax rank
  taken : ∃ taken, Summarized known taken ∧ (∀ b ∈ taken, b ∈ bindings) ∧
    ∀ b ∈ bindings, b.strength = .glob → b ∈ taken

theorem tells_none : Tells none [] := ⟨rfl, [], rfl, nofun, nofun⟩

/-- The first of the strongest bindings changes where one comes that is stronger still. -/
private theorem leader_concat {entry entry' : NameEntry}
    (leader : some ⟨entry.symbol, entry.strength⟩ = bindings.argmax rank)
    (taken : NameEntry.rebind entry b.symbol b.strength = .ok entry') :
    some ⟨entry'.symbol, entry'.strength⟩ = (bindings ++ [b]).argmax rank := by
  rw [List.argmax_concat, ← leader]
  rcases Pipeline.NameEntry.rebind_eq_ok taken with
    ⟨stronger, rfl⟩ | ⟨weaker, rfl⟩ | ⟨alike, -, rfl⟩ | ⟨glob, alike, -, rfl⟩
  · exact (if_pos stronger).symm
  · exact (if_neg (Nat.lt_asymm weaker)).symm
  · exact (if_neg (by rw [rank, rank, alike]; exact Nat.lt_irrefl _)).symm
  · exact (if_neg (by rw [rank, rank, alike, glob]; exact Nat.lt_irrefl _)).symm

/-- An entry tells about one more binding, also about one that is refused. -/
theorem Tells.bind (before : Tells (scope.names.get? name) bindings) :
    Tells ((scope.bindOrKeep (name, b)).names.get? name) (bindings ++ [b]) := by
  obtain ⟨leader, taken, summary, among, globs⟩ := before
  unfold bindOrKeep
  cases bound : scope.bind name b.symbol b.strength with
  | ok next =>
    obtain ⟨entry, origin, rfl⟩ := bind_eq_ok bound
    dsimp only
    rw [NameMap.get?_insert, if_pos rfl]
    rcases origin with ⟨fresh, rfl⟩ | ⟨entry', known, rebound⟩
    · rw [fresh] at leader summary
      obtain rfl : bindings = [] := List.argmax_eq_none.mp leader.symm
      exact ⟨rfl, [b], Pipeline.NameEntry.summarizes_single b.symbol b.strength, fun _ => id,
        fun _ member _ => member⟩
    · rw [known] at leader summary
      refine ⟨leader_concat leader rebound, taken ++ [b],
        Pipeline.NameEntry.Summarizes.rebind summary rebound, fun c member => ?_,
        fun c member glob => ?_⟩
      · exact List.mem_append.mpr ((List.mem_append.mp member).imp_left (among c))
      · exact List.mem_append.mpr ((List.mem_append.mp member).imp_left fun old => globs c old glob)
  | error path =>
    obtain ⟨entry, known, refused⟩ := bind_eq_error.mp bound
    obtain ⟨alike, notGlob, -, -⟩ := rebind_eq_error_iff.mp refused
    dsimp only
    rw [known] at leader summary ⊢
    have notStronger : ¬ entry.strength.rank < b.strength.rank := by
      rw [alike]
      exact Nat.lt_irrefl _
    refine ⟨?_, taken, summary, fun c member => List.mem_append_left _ (among c member),
      fun c member glob => ?_⟩
    · rw [List.argmax_concat, ← leader]
      exact (if_neg notStronger).symm
    · rcases List.mem_append.mp member with old | new
      · exact globs c old glob
      · exact absurd (List.mem_singleton.mp new ▸ glob) notGlob

theorem bindOrKeep_other {other : String} (different : name ≠ other) :
    (scope.bindOrKeep (name, b)).names.get? other = scope.names.get? other := by
  unfold bindOrKeep
  split
  · rename_i bound
    obtain ⟨entry, -, rfl⟩ := bind_eq_ok bound
    rw [NameMap.get?_insert, if_neg different]
  · rfl

theorem bindingsOf_concat (calls : List (String × Binding)) (call : String × Binding) :
    bindingsOf (calls ++ [call]) name =
      bindingsOf calls name ++ if call.1 = name then [call.2] else [] := by
  rw [bindingsOf, List.filterMap_append]
  by_cases same : call.1 = name <;> simp [bindingsOf, same]

/-- The entry of a name tells about all bindings of the name by calls. -/
theorem tells_bindEach (module document : String) (calls : List (String × Binding))
    (name : String) :
    Tells (((empty module document).bindEach calls).names.get? name) (bindingsOf calls name) := by
  induction calls using List.reverseRecOn with
  | nil => exact tells_none
  | append_singleton calls call ih =>
    obtain ⟨other, b⟩ := call
    rw [bindingsOf_concat, bindEach, List.foldl_append]
    by_cases same : other = name
    · subst same
      rw [if_pos rfl]
      exact ih.bind
    · rw [if_neg same, List.append_nil]
      exact (bindOrKeep_other same).symm ▸ ih

/-! ### What is read off the entry -/

/-- An entry has rivals where the strongest bindings are globs that disagree. -/
theorem Tells.rivals {entry : NameEntry} (tells : Tells (some entry) bindings) :
    (Undecided bindings → entry.rivals = globPaths bindings) ∧
      (¬ Undecided bindings → entry.rivals = []) := by
  obtain ⟨leader, taken, summary, among, globs⟩ := tells
  have summary : entry.Summarizes taken := summary
  have leads : ⟨entry.symbol, entry.strength⟩ ∈ bindings.argmax rank := leader.symm
  have strongest : (∃ b ∈ bindings.argmax rank, b.strength = .glob) ↔ entry.strength = .glob := by
    rw [← leader]
    simp
  have contested (glob : entry.strength = .glob) : Contested taken entry.symbol ↔
      ∃ b ∈ bindings, ∃ c ∈ bindings,
        b.strength = .glob ∧ c.strength = .glob ∧ b.symbol ≠ c.symbol := by
    rw [← Binding.contested_iff (List.argmax_mem leads) glob]
    exact ⟨fun ⟨b, member, here⟩ => ⟨b, among b member, here⟩,
      fun ⟨b, member, here⟩ => ⟨b, globs b member here.1, here⟩⟩
  refine ⟨fun ⟨glob, disagree⟩ => summary.order.ext (NameSet.InOrder.ofList _) fun path => ?_,
    fun decided => List.eq_nil_iff_forall_not_mem.mpr fun path listed => decided ?_⟩
  · have glob := strongest.mp glob
    rw [summary.rivals path, Binding.mem_globPaths]
    constructor
    · rintro ⟨-, -, b, member, here⟩
      exact ⟨b, among b member, here⟩
    · rintro ⟨b, member, here⟩
      exact ⟨glob, (contested glob).mpr disagree, b, globs b member here.1, here⟩
  · obtain ⟨glob, disagree, -⟩ := (summary.rivals path).mp listed
    exact ⟨strongest.mpr glob, (contested glob).mp disagree⟩

/-- A path of one segment is looked up as a name. -/
theorem resolvePath_of_single {index : SymbolIndex} (single : (Path.segments name).length ≤ 1) :
    scope.resolvePath name index = match scope.names.get? name with
      | none => .error (.unresolved name)
      | some entry =>
        if entry.rivals.isEmpty then .ok entry.symbol else .error (.ambiguous name entry.rivals) := by
  unfold resolvePath
  split
  · rename_i several
    simp [several] at single
  · rfl

/-- A name that globs leave undecided is ambiguous between all their paths. -/
theorem Tells.resolvePath_undecided (tells : Tells (scope.names.get? name) bindings)
    (single : (Path.segments name).length ≤ 1) (undecided : Undecided bindings)
    (index : SymbolIndex) :
    scope.resolvePath name index = .error (.ambiguous name (globPaths bindings)) := by
  cases known : scope.names.get? name with
  | none =>
    have leader := tells.leader
    obtain ⟨⟨b, leads, -⟩, -⟩ := undecided
    rw [known] at leader
    cases leader.trans leads
  | some entry =>
    have rivals : entry.rivals = globPaths bindings := (known ▸ tells).rivals.1 undecided
    obtain ⟨-, b, member, -, -, glob, -⟩ := undecided
    have listed : b.symbol.path ∈ globPaths bindings :=
      Binding.mem_globPaths.mpr ⟨b, member, glob, rfl⟩
    rw [resolvePath_of_single single, known]
    dsimp only
    rw [rivals, if_neg (by simpa using List.ne_nil_of_mem listed)]

/-- A name that is bound and decided stands for what is looked up. -/
theorem Tells.resolvePath_decided (tells : Tells (scope.names.get? name) bindings)
    (single : (Path.segments name).length ≤ 1) (bound : bindings ≠ [])
    (decided : ¬ Undecided bindings) (index : SymbolIndex) :
    ∃ symbol, scope.lookup? name = some symbol ∧ scope.resolvePath name index = .ok symbol := by
  cases known : scope.names.get? name with
  | none =>
    have leader := tells.leader
    rw [known] at leader
    exact absurd (List.argmax_eq_none.mp leader.symm) bound
  | some entry =>
    have rivals : entry.rivals = [] := (known ▸ tells).rivals.2 decided
    refine ⟨entry.symbol, by rw [lookup?, known]; rfl, ?_⟩
    rw [resolvePath_of_single single, known]
    dsimp only
    rw [rivals]
    rfl

/-- **The strongest bindings decide.** After any calls a name is looked up as the first of the strongest
bindings. A name of one segment is ambiguous between all the paths that globs give it where the
strongest bindings are globs that disagree; it is unresolved where there are no bindings, and else it
is what is looked up. One more binding conflicts with a path exactly where that is the path looked up,
by a binding as strong that is no glob and means something else. -/
theorem names_decided (module document : String) (calls : List (String × Binding)) (name : String) :
    let scope := (empty module document).bindEach calls
    let bindings := bindingsOf calls name
    scope.lookup? name = (bindings.argmax rank).map (·.symbol) ∧
    ((Path.segments name).length ≤ 1 → ∀ index,
      (bindings = [] → scope.resolvePath name index = .error (.unresolved name)) ∧
      (Undecided bindings →
        scope.resolvePath name index = .error (.ambiguous name (globPaths bindings))) ∧
      (bindings ≠ [] → ¬ Undecided bindings →
        ∃ symbol, scope.lookup? name = some symbol ∧ scope.resolvePath name index = .ok symbol)) ∧
    ∀ symbol strength path, scope.bind name symbol strength = .error path ↔
      ∃ b ∈ bindings.argmax rank,
        b.strength = strength ∧ strength ≠ .glob ∧ b.symbol ≠ symbol ∧ path = b.symbol.path := by
  intro scope bindings
  have tells : Tells (scope.names.get? name) bindings := tells_bindEach module document calls name
  have leader := tells.leader
  refine ⟨?_, fun single index => ⟨fun none => ?_, fun undecided =>
    tells.resolvePath_undecided single undecided index, fun bound decided =>
    tells.resolvePath_decided single bound decided index⟩, fun symbol strength path => ?_⟩
  · rw [← leader, Option.map_map]
    rfl
  · rw [none, List.argmax_nil, Option.map_eq_none_iff] at leader
    rw [resolvePath_of_single single, leader]
  · rw [bind_eq_error, ← leader]
    cases scope.names.get? name with
    | none => simp
    | some entry => simp [rebind_eq_error_iff]

/-- A binding to a type. -/
private def toType (path : String) (strength : Strength) : Binding := ⟨⟨.type, path⟩, strength⟩

/-- Bindings of two names: by the prelude, by globs that disagree, and by one's own declaration. -/
private def shopCalls : List (String × Binding) :=
  [("Item", toType "std::Item" .prelude), ("Item", toType "shop::Item" .glob),
    ("Cash", toType "shop::Cash" .glob), ("Item", toType "bank::Item" .glob),
    ("Cash", toType "till::Cash" .explicit), ("Cash", toType "bank::Cash" .explicit)]

/-- Globs leave one name undecided; of the other the first declaration counts, and a second one
conflicts with it. -/
theorem names_decided_shop :
    let scope := (empty "app" "app.yaml").bindEach shopCalls
    scope.lookup? "Item" = some ⟨.type, "shop::Item"⟩ ∧
      scope.resolvePath "Item" default = .error (.ambiguous "Item" ["bank::Item", "shop::Item"]) ∧
      scope.resolvePath "Cash" default = .ok ⟨.type, "till::Cash"⟩ ∧
      scope.bind "Cash" ⟨.type, "bank::Cash"⟩ .explicit = .error "till::Cash" := by
  obtain ⟨found, resolved, -⟩ := names_decided "app" "app.yaml" shopCalls "Item"
  obtain ⟨cash, decided, conflicts⟩ := names_decided "app" "app.yaml" shopCalls "Cash"
  refine ⟨found, (resolved (by decide) default).2.1 ?_, ?_, (conflicts _ _ _).mpr ?_⟩
  · exact ⟨⟨_, rfl, rfl⟩, toType "shop::Item" .glob, by decide, toType "bank::Item" .glob, by decide,
      rfl, rfl, by decide⟩
  · obtain ⟨symbol, looked, resolves⟩ := (decided (by decide) default).2.2 (by decide) (by
      rintro ⟨⟨b, leads, glob⟩, -⟩
      cases leads
      cases glob)
    rw [cash] at looked
    cases looked
    exact resolves
  · exact ⟨toType "till::Cash" .explicit, rfl, rfl, by decide, by decide, rfl⟩

/-- A name of two segments can be bound, but it is not resolved as that name. -/
theorem bound_path_unresolved :
    let scope := (empty "app" "app.yaml").bindEach [("till::Cash", toType "shop::Cash" .explicit)]
    scope.lookup? "till::Cash" = some ⟨.type, "shop::Cash"⟩ ∧
      scope.resolvePath "till::Cash" default = .error (.unresolved "till::Cash") := by
  decide

end ModuleScope
end Pipeline
