import Pipeline.Proofs.Fault.Noted
import Pipeline.Proofs.Store.Expansion
import Pipeline.Store.Load

/-!
# How deep aliases nest

An alias may have aliases in its arguments and in what it stands for. Where these nest no deeper than
expansion goes, none is left over in the result. Nothing at load time bounds the nesting: an alias
that leads back to itself is loaded, and expanding it stops in the middle.
-/

set_option autoImplicit false
set_option relaxedAutoImplicit false

namespace Pipeline.Store

variable {store : Store} {n : Nat}

/-- True for the use of an alias unless its arguments and what it stands for have a property. -/
def isAliasUnless (store : Store) (p : Ty → Bool) : Ty → Bool
  | .named path args => (store.synonym? path).any fun (_, target) => !(p target && args.all p)
  | _ => false

/-- Aliases nest at most so deep, those counted that stand in arguments of an alias and those in what
it stands for. -/
def aliasesWithin (store : Store) : Nat → Ty → Bool
  | 0, t => !t.anyPart store.isAlias
  | depth + 1, t => !t.anyPart (store.isAliasUnless (store.aliasesWithin depth))

theorem aliasesWithin_zero {t : Ty} : store.aliasesWithin 0 t = true ↔ store.AliasFree t :=
  Bool.not_eq_true' _ |>.to_iff

theorem aliasesWithin_succ {t : Ty} : store.aliasesWithin (n + 1) t = true ↔
    t.Without (store.isAliasUnless (store.aliasesWithin n)) :=
  Bool.not_eq_true' _ |>.to_iff

theorem isAliasUnless_synonym {p : Ty → Bool} {path : String} {d : TypeDecl} {target : Ty}
    (synonym : store.synonym? path = some (d, target)) (args : List Ty) :
    store.isAliasUnless p (.named path args) = false ↔ p target = true ∧ ∀ t ∈ args, p t = true := by
  simp [isAliasUnless, synonym]

theorem isAliasUnless_plain {p : Ty → Bool} {path : String} (plain : store.synonym? path = none)
    (args : List Ty) : store.isAliasUnless p (.named path args) = false := by
  simp [isAliasUnless, plain]

theorem AliasFree.aliasesWithin {t : Ty} (free : store.AliasFree t) :
    store.aliasesWithin n t = true := by
  cases n with
  | zero => exact aliasesWithin_zero.mpr free
  | succ n =>
    refine aliasesWithin_succ.mpr (Ty.Without.mono free fun part holds => ?_)
    cases part with
    | named path args =>
      show (store.synonym? path).isSome = true
      cases found : store.synonym? path with
      | none => simp [isAliasUnless_plain found] at holds
      | some found => rfl
    | _ => cases holds

/-- Aliases nest no deeper when types without aliases are put in. -/
theorem aliasesWithin_substitute {s : Subst}
    (free : ∀ name u, s.get? name = some u → store.AliasFree u) {t : Ty}
    (within : store.aliasesWithin n t = true) : store.aliasesWithin n (t.substitute s) = true := by
  -- What an alias stands for stays the same, and its arguments nest one level less deep.
  induction n generalizing t with
  | zero =>
    rw [aliasesWithin_zero] at within
    have expands := (within.expands (n := 0)).substitute free
    exact aliasesWithin_zero.mpr expands.1.aliasFree
  | succ n deeper =>
    rw [aliasesWithin_succ] at within ⊢
    induction t using Ty.inductionOn with
    | param name =>
      rw [Ty.substitute_param]
      cases found : s.get? name with
      | none => exact within
      | some u => exact aliasesWithin_succ.mp (free name u found).aliasesWithin
    | named path args ih =>
      rw [Ty.without_named] at within
      rw [Ty.substitute_named, Ty.without_named]
      refine ⟨?_, List.forall_mem_map.mpr fun t member => ih t member (within.2 t member)⟩
      cases synonym : store.synonym? path with
      | none => exact isAliasUnless_plain synonym _
      | some found =>
        obtain ⟨target, inside⟩ := (isAliasUnless_synonym synonym args).mp within.1
        exact (isAliasUnless_synonym synonym _).mpr
          ⟨target, List.forall_mem_map.mpr fun t member => deeper (inside t member)⟩
    | fn params ret ihs ih =>
      rw [Ty.without_fn] at within
      rw [Ty.substitute_fn, Ty.without_fn]
      exact ⟨rfl, List.forall_mem_map.mpr fun t member => ihs t member (within.2.1 t member),
        ih within.2.2⟩
    | promise path args assoc ihs ihc =>
      rw [Ty.without_promise] at within
      rw [Ty.substitute_promise, Ty.without_promise]
      exact ⟨rfl, List.forall_mem_map.mpr fun t member => ihs t member (within.2.1 t member),
        List.forall_mem_map.mpr fun c member => ihc c member (within.2.2 c member)⟩
    | projection base name ih =>
      rw [Ty.without_projection] at within
      rw [Ty.substitute_projection, Ty.without_projection]
      exact ⟨rfl, ih within.2⟩
    | const | selfTy | infer | unit => exact within

/-- Expanding as deep as aliases nest leaves none over. -/
theorem aliasFree_of_aliasesWithin {t : Ty} (within : store.aliasesWithin n t = true) :
    store.AliasFree (store.normalizeTo n t) := by
  induction n generalizing t with
  | zero => exact aliasesWithin_zero.mp within
  | succ n deeper =>
    rw [aliasesWithin_succ] at within
    induction t using Ty.inductionOn with
    | named path args ih =>
      rw [Ty.without_named] at within
      cases synonym : store.synonym? path with
      | none =>
        rw [normalizeTo_named synonym, aliasFree_named]
        exact ⟨synonym, List.forall_mem_map.mpr fun t member => ih t member (within.2 t member)⟩
      | some found =>
        obtain ⟨d, target⟩ := found
        obtain ⟨inside, each⟩ := (isAliasUnless_synonym synonym args).mp within.1
        have expanded : ∀ t ∈ args.map (store.normalizeTo n), store.AliasFree t :=
          List.forall_mem_map.mpr fun t member => deeper (each t member)
        rw [normalizeTo_synonym synonym]
        refine deeper (aliasesWithin_substitute (fun name u assigned => ?_) inside)
        exact expanded u (List.of_mem_zip (NameMap.mem_of_get?_ofList assigned)).2
    | fn params ret ihs ih =>
      rw [Ty.without_fn] at within
      rw [normalizeTo_fn, aliasFree_fn]
      exact ⟨List.forall_mem_map.mpr fun t member => ihs t member (within.2.1 t member),
        ih within.2.2⟩
    | promise path args assoc ihs ihc =>
      rw [Ty.without_promise] at within
      rw [normalizeTo_promise, aliasFree_promise]
      exact ⟨List.forall_mem_map.mpr fun t member => ihs t member (within.2.1 t member),
        List.forall_mem_map.mpr fun c member => ihc c member (within.2.2 c member)⟩
    | projection base name ih =>
      rw [Ty.without_projection] at within
      rw [normalizeTo_projection, aliasFree_projection]
      exact ih within.2
    | param | const | selfTy | infer | unit =>
      rw [normalizeTo_leaf rfl]
      exact aliasFree_leaf rfl

/-- Where aliases nest no deeper than expansion goes, it is complete, and expanding once more changes
nothing. -/
theorem normalize_complete (store : Store) (t : Ty)
    (within : store.aliasesWithin (store.maxDepth + 1) t = true) :
    store.AliasFree (store.normalize t) ∧ store.normalize (store.normalize t) = store.normalize t := by
  have free : store.AliasFree (store.normalize t) := aliasFree_of_aliasesWithin within
  exact ⟨free, free.normalizeTo⟩

/-- A document with an alias of lists, one of lists of strings and one that leads back to itself. -/
def shapes : Document where
  module := "shapes"
  origin := "shapes"
  version := supportedVersion
  kind := .struct
  types := [("Ids", ⟨["T"], [], [], none, some "Vec<T>", none⟩),
    ("Names", ⟨[], [], [], none, some "Ids<String>", none⟩),
    ("Nest", ⟨[], [], [], none, some "Vec<Nest>", none⟩)]

/-- Lists of names. -/
def nameLists : Ty := .named "shapes::Ids" [.named "shapes::Names" []]

private theorem shapes_load : ∃ s, (load [shapes] 32).value = .ok s ∧
    (s.aliasesWithin (s.maxDepth + 1) nameLists = true ∧
      s.normalize nameLists = .named Builtin.vec [.named Builtin.vec [.named Builtin.string []]]) ∧
    ¬s.AliasFree (s.normalize (.named "shapes::Nest" [])) ∧
      s.normalize (s.normalize (.named "shapes::Nest" [])) ≠ s.normalize (.named "shapes::Nest" []) := by
  decide +kernel

theorem normalize_name_lists : ∃ s, (load [shapes] 32).value = .ok s ∧
    s.aliasesWithin (s.maxDepth + 1) nameLists = true ∧
    s.normalize nameLists = .named Builtin.vec [.named Builtin.vec [.named Builtin.string []]] ∧
    s.AliasFree (s.normalize nameLists) ∧
    s.normalize (s.normalize nameLists) = s.normalize nameLists := by
  obtain ⟨s, loaded, ⟨within, expanded⟩, -⟩ := shapes_load
  obtain ⟨free, again⟩ := normalize_complete s nameLists within
  exact ⟨s, loaded, within, expanded, free, again⟩

/-- An alias that leads back to itself is left over, and expands further. -/
theorem normalize_nest : ∃ s, (load [shapes] 32).value = .ok s ∧
    ¬s.AliasFree (s.normalize (.named "shapes::Nest" [])) ∧
    s.normalize (s.normalize (.named "shapes::Nest" [])) ≠
      s.normalize (.named "shapes::Nest" []) := by
  obtain ⟨s, loaded, -, left, further⟩ := shapes_load
  exact ⟨s, loaded, left, further⟩

end Pipeline.Store
