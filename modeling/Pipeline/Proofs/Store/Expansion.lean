import Pipeline.Proofs.Ty.Substitution
import Pipeline.Store.Basic

/-!
# Expanding aliases

Expansion stops at a depth, so that an alias of itself is left over in the result, and expanding the
result once more can change it. Where all aliases expand within the depth, none is left over, more
depth changes nothing, and aliases may be expanded before or after types are put in.
-/

set_option autoImplicit false
set_option relaxedAutoImplicit false

namespace Pipeline.Store

variable {store : Store} {n m : Nat}

/-! ### Expansion part by part -/

theorem normalizeTo_zero : store.normalizeTo 0 = id := rfl

theorem normalizeTo_named {path : String} (plain : store.synonym? path = none) (args : List Ty) :
    store.normalizeTo n (.named path args) = .named path (args.map (store.normalizeTo n)) := by
  cases n with
  | zero => rw [normalizeTo_zero, List.map_id]; rfl
  | succ n =>
    rw [normalizeTo, Ty.replace]
    simp only [plain, Option.map_none]
    exact congrArg _ (Ty.replaceList_eq_map _ args)

theorem normalizeTo_synonym {path : String} {d : TypeDecl} {target : Ty}
    (synonym : store.synonym? path = some (d, target)) (args : List Ty) :
    store.normalizeTo (n + 1) (.named path args) =
      store.normalizeTo n
        (target.substitute (Generic.assign d.generics (args.map (store.normalizeTo n)))) := by
  rw [normalizeTo]
  refine Ty.replace_of_some ?_
  simp only [synonym, Option.map_some]

theorem normalizeTo_leaf {t : Ty} (leaf : t.isLeaf = true) : store.normalizeTo n t = t := by
  cases n with
  | zero => rfl
  | succ n => cases t <;> first | rfl | cases leaf

theorem normalizeTo_fn (params : List Ty) (ret : Ty) : store.normalizeTo n (.fn params ret) =
    .fn (params.map (store.normalizeTo n)) (store.normalizeTo n ret) := by
  cases n with
  | zero => rw [normalizeTo_zero, List.map_id]; rfl
  | succ n =>
    rw [normalizeTo, Ty.replace]
    exact congrArg (Ty.fn · _) (Ty.replaceList_eq_map _ params)

theorem normalizeTo_promise (path : String) (args : List Ty) (assoc : List (String × Ty)) :
    store.normalizeTo n (.promise path args assoc) =
      .promise path (args.map (store.normalizeTo n))
        (assoc.map fun c => (c.1, store.normalizeTo n c.2)) := by
  cases n with
  | zero => rw [normalizeTo_zero, List.map_id]; simp
  | succ n =>
    rw [normalizeTo, Ty.replace]
    dsimp only
    rw [Ty.replaceList_eq_map, Ty.replaceAssoc_eq_map]
    rfl

theorem normalizeTo_projection (base : Ty) (name : String) :
    store.normalizeTo n (.projection base name) = .projection (store.normalizeTo n base) name := by
  cases n <;> rfl

/-! ### Types whose aliases expand -/

/-- True for the use of an alias. -/
def isAlias (store : Store) : Ty → Bool
  | .named path _ => (store.synonym? path).isSome
  | _ => false

/-- No part of the type is the use of an alias. -/
abbrev AliasFree (store : Store) (t : Ty) : Prop := t.Without store.isAlias

theorem aliasFree_named {path : String} {args : List Ty} : store.AliasFree (.named path args) ↔
    store.synonym? path = none ∧ ∀ t ∈ args, store.AliasFree t := by
  simp [Ty.without_named, isAlias]

theorem aliasFree_fn {params : List Ty} {ret : Ty} : store.AliasFree (.fn params ret) ↔
    (∀ t ∈ params, store.AliasFree t) ∧ store.AliasFree ret := by
  simp [Ty.without_fn, isAlias]

theorem aliasFree_promise {path : String} {args : List Ty} {assoc : List (String × Ty)} :
    store.AliasFree (.promise path args assoc) ↔
      (∀ t ∈ args, store.AliasFree t) ∧ ∀ c ∈ assoc, store.AliasFree c.2 := by
  simp [Ty.without_promise, isAlias]

theorem aliasFree_projection {base : Ty} {name : String} :
    store.AliasFree (.projection base name) ↔ store.AliasFree base := by
  simp [Ty.without_projection, isAlias]

theorem aliasFree_leaf {t : Ty} (leaf : t.isLeaf = true) : store.AliasFree t := by
  cases t <;> first | rfl | cases leaf

/-- All aliases in a type have the arguments that they mention, and they expand in so many
steps. -/
inductive Expands (store : Store) : Nat → Ty → Prop
  | named {n : Nat} {path : String} {args : List Ty} :
      store.synonym? path = none → (∀ t ∈ args, Expands store n t) →
      Expands store n (.named path args)
  | synonym {n : Nat} {path : String} {args : List Ty} {d : TypeDecl} {target : Ty} :
      store.synonym? path = some (d, target) → Generic.Covers d.generics args target →
      (∀ t ∈ args, Expands store n t) →
      Expands store n
        (target.substitute (Generic.assign d.generics (args.map (store.normalizeTo n)))) →
      Expands store (n + 1) (.named path args)
  | leaf {n : Nat} {t : Ty} : t.isLeaf = true → Expands store n t
  | fn {n : Nat} {params : List Ty} {ret : Ty} :
      (∀ t ∈ params, Expands store n t) → Expands store n ret → Expands store n (.fn params ret)
  | promise {n : Nat} {path : String} {args : List Ty} {assoc : List (String × Ty)} :
      (∀ t ∈ args, Expands store n t) → (∀ c ∈ assoc, Expands store n c.2) →
      Expands store n (.promise path args assoc)
  | projection {n : Nat} {base : Ty} {name : String} :
      Expands store n base → Expands store n (.projection base name)

theorem AliasFree.expands {t : Ty} (free : store.AliasFree t) : store.Expands n t := by
  induction t using Ty.inductionOn with
  | named path args ih =>
    rw [aliasFree_named] at free
    exact .named free.1 fun t member => ih t member (free.2 t member)
  | fn params ret ihs ih =>
    rw [aliasFree_fn] at free
    exact .fn (fun t member => ihs t member (free.1 t member)) (ih free.2)
  | promise path args assoc ihs ihc =>
    rw [aliasFree_promise] at free
    exact .promise (fun t member => ihs t member (free.1 t member))
      fun c member => ihc c member (free.2 c member)
  | projection base name ih => exact .projection (ih (aliasFree_projection.mp free))
  | param | const | selfTy | infer | unit => exact .leaf rfl

/-- Where there is no alias, nothing is expanded. -/
theorem AliasFree.normalizeTo {t : Ty} (free : store.AliasFree t) : store.normalizeTo n t = t := by
  induction t using Ty.inductionOn with
  | named path args ih =>
    rw [aliasFree_named] at free
    rw [normalizeTo_named free.1,
      List.map_congr_left fun t member => ih t member (free.2 t member), List.map_id']
  | fn params ret ihs ih =>
    rw [aliasFree_fn] at free
    rw [normalizeTo_fn, ih free.2,
      List.map_congr_left fun t member => ihs t member (free.1 t member), List.map_id']
  | promise path args assoc ihs ihc =>
    rw [aliasFree_promise] at free
    have constraints : (assoc.map fun c => (c.1, store.normalizeTo n c.2)) = assoc := by
      refine (List.map_congr_left fun c member => ?_).trans (List.map_id assoc)
      rw [ihc c member (free.2 c member), id_eq]
    rw [normalizeTo_promise, constraints,
      List.map_congr_left fun t member => ihs t member (free.1 t member), List.map_id']
  | projection base name ih => rw [normalizeTo_projection, ih (aliasFree_projection.mp free)]
  | param | const | selfTy | infer | unit => exact normalizeTo_leaf rfl

/-- No alias is left over. -/
theorem Expands.aliasFree {t : Ty} (expands : store.Expands n t) :
    store.AliasFree (store.normalizeTo n t) := by
  induction expands with
  | named plain _ ih =>
    rw [normalizeTo_named plain, aliasFree_named]
    exact ⟨plain, List.forall_mem_map.mpr ih⟩
  | synonym synonym _ _ _ _ ih =>
    rw [normalizeTo_synonym synonym]
    exact ih
  | leaf leaf =>
    rw [normalizeTo_leaf leaf]
    exact aliasFree_leaf leaf
  | fn _ _ ihs ih =>
    rw [normalizeTo_fn, aliasFree_fn]
    exact ⟨List.forall_mem_map.mpr ihs, ih⟩
  | promise _ _ ihs ihc =>
    rw [normalizeTo_promise, aliasFree_promise]
    exact ⟨List.forall_mem_map.mpr ihs, List.forall_mem_map.mpr ihc⟩
  | projection _ ih =>
    rw [normalizeTo_projection, aliasFree_projection]
    exact ih

/-- Expansion brings in no parameters. -/
theorem Expands.paramsIn {p : String → Bool} {t : Ty} (expands : store.Expands n t)
    (drawn : t.ParamsIn p) : (store.normalizeTo n t).ParamsIn p := by
  induction expands with
  | named plain _ ih =>
    have inside := (Ty.over_named.mp drawn).2
    rw [normalizeTo_named plain]
    exact Ty.over_named.mpr
      ⟨rfl, List.forall_mem_map.mpr fun t member => ih t member (inside t member)⟩
  | synonym synonym covers _ _ ihs ih =>
    have inside := (Ty.over_named.mp drawn).2
    rw [normalizeTo_synonym synonym]
    exact ih (((Generic.covers_map _).mpr covers).paramsIn
      (List.forall_mem_map.mpr fun t member => ihs t member (inside t member)))
  | leaf leaf =>
    rw [normalizeTo_leaf leaf]
    exact drawn
  | fn _ _ ihs ih =>
    obtain ⟨inside, result⟩ := Ty.over_fn.mp drawn
    rw [normalizeTo_fn]
    exact Ty.over_fn.mpr
      ⟨List.forall_mem_map.mpr fun t member => ihs t member (inside t member), ih result⟩
  | promise _ _ ihs ihc =>
    obtain ⟨-, inside, constraints⟩ := Ty.over_promise.mp drawn
    rw [normalizeTo_promise]
    exact Ty.over_promise.mpr
      ⟨rfl, List.forall_mem_map.mpr fun t member => ihs t member (inside t member),
        List.forall_mem_map.mpr fun c member => ihc c member (constraints c member)⟩
  | projection _ ih =>
    rw [normalizeTo_projection]
    exact Ty.over_projection.mpr (ih (Ty.over_projection.mp drawn))

/-- More depth changes nothing. -/
theorem Expands.mono {t : Ty} (expands : store.Expands n t) (le : n ≤ m) :
    store.Expands m t ∧ store.normalizeTo m t = store.normalizeTo n t := by
  induction expands generalizing m with
  | named plain _ ih =>
    rw [normalizeTo_named plain, normalizeTo_named plain]
    exact ⟨.named plain fun t member => (ih t member le).1,
      congrArg _ (List.map_congr_left fun t member => (ih t member le).2)⟩
  | @synonym n path args d target synonym covers _ _ ihs ih =>
    obtain ⟨k, rfl⟩ := Nat.exists_eq_add_of_lt (Nat.lt_of_succ_le le)
    have le : n ≤ n + k := Nat.le_add_right n k
    have same : args.map (store.normalizeTo (n + k)) = args.map (store.normalizeTo n) :=
      List.map_congr_left fun t member => (ihs t member le).2
    rw [normalizeTo_synonym synonym, normalizeTo_synonym synonym, same]
    exact ⟨.synonym synonym covers (fun t member => (ihs t member le).1) (same ▸ (ih le).1),
      (ih le).2⟩
  | leaf leaf => exact ⟨.leaf leaf, by rw [normalizeTo_leaf leaf, normalizeTo_leaf leaf]⟩
  | fn _ _ ihs ih =>
    rw [normalizeTo_fn, normalizeTo_fn, (ih le).2]
    exact ⟨.fn (fun t member => (ihs t member le).1) (ih le).1,
      congrArg (Ty.fn · _) (List.map_congr_left fun t member => (ihs t member le).2)⟩
  | promise _ _ ihs ihc =>
    rw [normalizeTo_promise, normalizeTo_promise,
      List.map_congr_left fun t member => (ihs t member le).2]
    refine ⟨.promise (fun t member => (ihs t member le).1) fun c member => (ihc c member le).1,
      congrArg _ (List.map_congr_left fun c member => ?_)⟩
    rw [(ihc c member le).2]
  | projection _ ih =>
    rw [normalizeTo_projection, normalizeTo_projection, (ih le).2]
    exact ⟨.projection (ih le).1, rfl⟩

/-- Expanding what is expanded changes nothing, at whatever depths. -/
theorem Expands.normalizeTo_again {t : Ty} (expands : store.Expands n t) :
    store.normalizeTo m (store.normalizeTo n t) = store.normalizeTo n t :=
  expands.aliasFree.normalizeTo

/-! ### Aliases and substitutions -/

/-- Aliases in the types put in may be expanded first. -/
private theorem expands_expanded {s s' : Subst} {t : Ty} (expands : store.Expands n (t.substitute s))
    (expanded : ∀ name, s'.get? name = (s.get? name).map (store.normalizeTo m)) (le : n ≤ m) :
    store.Expands n (t.substitute s') ∧
      store.normalizeTo n (t.substitute s') = store.normalizeTo n (t.substitute s) := by
  -- Arguments of an alias are expanded one step less deep, parts of other types as deep as these.
  induction n using Nat.strongRecOn generalizing t with
  | _ n deeper =>
    induction t using Ty.inductionOn with
    | param name =>
      rw [Ty.substitute_param] at expands ⊢
      rw [Ty.substitute_param, expanded]
      cases found : s.get? name with
      | none => exact ⟨.leaf rfl, rfl⟩
      | some u =>
        rw [found] at expands
        have same : store.normalizeTo m u = store.normalizeTo n u := (expands.mono le).2
        rw [Option.map_some, Option.getD_some, Option.getD_some, same]
        exact ⟨expands.aliasFree.expands, expands.normalizeTo_again⟩
    | named path args ih =>
      rw [Ty.substitute_named] at expands ⊢
      rw [Ty.substitute_named]
      cases expands with
      | named plain each =>
        rw [List.forall_mem_map] at each
        rw [normalizeTo_named plain, normalizeTo_named plain, List.map_map, List.map_map]
        exact ⟨.named plain (List.forall_mem_map.mpr fun t member => (ih t member (each t member)).1),
          congrArg _ (List.map_congr_left fun t member => (ih t member (each t member)).2)⟩
      | @synonym k _ _ _ _ synonym covers each inside =>
        rw [List.forall_mem_map] at each
        have before (t : Ty) (member : t ∈ args) :=
          deeper k k.lt_succ_self (each t member) (by omega)
        have same : (args.map (Ty.substitute s')).map (store.normalizeTo k) =
            (args.map (Ty.substitute s)).map (store.normalizeTo k) := by
          rw [List.map_map, List.map_map]
          exact List.map_congr_left fun t member => (before t member).2
        have covers := (Generic.covers_map (Ty.substitute s')).mpr ((Generic.covers_map _).mp covers)
        rw [normalizeTo_synonym synonym, normalizeTo_synonym synonym, same]
        exact ⟨.synonym synonym covers
          (List.forall_mem_map.mpr fun t member => (before t member).1) (same ▸ inside), rfl⟩
      | leaf leaf => cases leaf
    | fn params ret ihs ih =>
      rw [Ty.substitute_fn] at expands ⊢
      rw [Ty.substitute_fn]
      cases expands with
      | leaf leaf => cases leaf
      | fn each result =>
        rw [List.forall_mem_map] at each
        rw [normalizeTo_fn, normalizeTo_fn, List.map_map, List.map_map, (ih result).2]
        exact ⟨.fn (List.forall_mem_map.mpr fun t member => (ihs t member (each t member)).1)
          (ih result).1, congrArg (Ty.fn · _)
            (List.map_congr_left fun t member => (ihs t member (each t member)).2)⟩
    | promise path args assoc ihs ihc =>
      rw [Ty.substitute_promise] at expands ⊢
      rw [Ty.substitute_promise]
      cases expands with
      | leaf leaf => cases leaf
      | promise each constraints =>
        rw [List.forall_mem_map] at each constraints
        have same : (args.map (Ty.substitute s')).map (store.normalizeTo n) =
            (args.map (Ty.substitute s)).map (store.normalizeTo n) := by
          rw [List.map_map, List.map_map]
          exact List.map_congr_left fun t member => (ihs t member (each t member)).2
        rw [normalizeTo_promise, normalizeTo_promise, same, List.map_map (l := assoc),
          List.map_map (l := assoc)]
        refine ⟨.promise (List.forall_mem_map.mpr fun t member => (ihs t member (each t member)).1)
          (List.forall_mem_map.mpr fun c member => (ihc c member (constraints c member)).1),
          congrArg _ (List.map_congr_left fun c member => ?_)⟩
        rw [Function.comp_apply, (ihc c member (constraints c member)).2]
        rfl
    | projection base name ih =>
      rw [Ty.substitute_projection] at expands ⊢
      rw [Ty.substitute_projection]
      cases expands with
      | leaf leaf => cases leaf
      | projection inside =>
        rw [normalizeTo_projection, normalizeTo_projection, (ih inside).2]
        exact ⟨.projection (ih inside).1, rfl⟩
    | const | selfTy | infer | unit => exact ⟨.leaf rfl, rfl⟩

/-- Aliases in the arguments of a declaration may be expanded before they are put in. -/
theorem Expands.normalizeTo_args {generics : List Generic} {args : List Ty} {t : Ty}
    (expands : store.Expands n (t.substitute (Generic.assign generics args))) (le : n ≤ m) :
    store.Expands n (t.substitute (Generic.assign generics (args.map (store.normalizeTo m)))) ∧
      store.normalizeTo n
          (t.substitute (Generic.assign generics (args.map (store.normalizeTo m)))) =
        store.normalizeTo n (t.substitute (Generic.assign generics args)) :=
  expands_expanded expands (fun name => Generic.get?_assign_map _ name) le

/-- Types without aliases may be put in before aliases are expanded, or behind. -/
theorem Expands.substitute {s : Subst} {t : Ty} (expands : store.Expands n t)
    (free : ∀ name u, s.get? name = some u → store.AliasFree u) :
    store.Expands n (t.substitute s) ∧
      store.normalizeTo n (t.substitute s) = (store.normalizeTo n t).substitute s := by
  induction expands with
  | named plain _ ih =>
    rw [Ty.substitute_named, normalizeTo_named plain, normalizeTo_named plain, Ty.substitute_named,
      List.map_map, List.map_map]
    exact ⟨.named plain (List.forall_mem_map.mpr fun t member => (ih t member).1),
      congrArg _ (List.map_congr_left fun t member => (ih t member).2)⟩
  | @synonym k path args d target synonym covers _ _ ihs ih =>
    have same : (args.map (Ty.substitute s)).map (store.normalizeTo k) =
        (args.map (store.normalizeTo k)).map (Ty.substitute s) := by
      rw [List.map_map, List.map_map]
      exact List.map_congr_left fun t member => (ihs t member).2
    have inside := ((Generic.covers_map (store.normalizeTo k)).mpr covers).substitute s
    rw [Ty.substitute_named, normalizeTo_synonym synonym, normalizeTo_synonym synonym, same,
      ← inside]
    refine ⟨.synonym synonym ((Generic.covers_map _).mpr covers)
      (List.forall_mem_map.mpr fun t member => (ihs t member).1) ?_, ih.2⟩
    rw [same, ← inside]
    exact ih.1
  | leaf leaf =>
    rename_i t
    cases t with
    | param name =>
      rw [normalizeTo_leaf leaf, Ty.substitute_param]
      cases found : s.get? name with
      | none => exact ⟨.leaf rfl, normalizeTo_leaf rfl⟩
      | some u => exact ⟨(free name u found).expands, (free name u found).normalizeTo⟩
    | const | selfTy | infer | unit =>
      rw [normalizeTo_leaf leaf]
      exact ⟨.leaf leaf, normalizeTo_leaf leaf⟩
    | _ => cases leaf
  | fn _ _ ihs ih =>
    rw [Ty.substitute_fn, normalizeTo_fn, normalizeTo_fn, Ty.substitute_fn, List.map_map,
      List.map_map, ih.2]
    exact ⟨.fn (List.forall_mem_map.mpr fun t member => (ihs t member).1) ih.1,
      congrArg (Ty.fn · _) (List.map_congr_left fun t member => (ihs t member).2)⟩
  | @promise k path args assoc _ _ ihs ihc =>
    have same : (args.map (Ty.substitute s)).map (store.normalizeTo k) =
        (args.map (store.normalizeTo k)).map (Ty.substitute s) := by
      rw [List.map_map, List.map_map]
      exact List.map_congr_left fun t member => (ihs t member).2
    rw [Ty.substitute_promise, normalizeTo_promise, normalizeTo_promise, Ty.substitute_promise,
      same, List.map_map (l := assoc), List.map_map (l := assoc)]
    refine ⟨.promise (List.forall_mem_map.mpr fun t member => (ihs t member).1)
      (List.forall_mem_map.mpr fun c member => (ihc c member).1),
      congrArg _ (List.map_congr_left fun c member => ?_)⟩
    rw [Function.comp_apply, (ihc c member).2]
    rfl
  | projection _ ih =>
    rw [Ty.substitute_projection, normalizeTo_projection, normalizeTo_projection,
      Ty.substitute_projection, ih.2]
    exact ⟨.projection ih.1, rfl⟩

end Pipeline.Store
