import Mathlib.Logic.Equiv.Basic
import Pipeline.Proofs.Ty.Substitution
import Pipeline.Store.Completion

/-!
# Renaming generic parameters

Parameters are named anew all at once. Where different ones keep different names, the order in which
they appear first stays, and with it the names that they get by this order.
-/

set_option autoImplicit false
set_option relaxedAutoImplicit false

namespace Pipeline

/-! ### The order of first appearance -/

section

variable {f : String → String} {names : List String}

/-- Different names in a list keep different names. -/
def KeepsApart (f : String → String) (names : List String) : Prop :=
  ∀ a ∈ names, ∀ b ∈ names, f a = f b → a = b

theorem KeepsApart.mono {others : List String} (apart : KeepsApart f names)
    (among : ∀ a ∈ others, a ∈ names) : KeepsApart f others :=
  fun a inA b inB same => apart a (among a inA) b (among b inB) same

theorem eraseDups_map (apart : KeepsApart f names) :
    (names.map f).eraseDups = names.eraseDups.map f := by
  induction length : names.length using Nat.strongRecOn generalizing names with
  | _ n ih =>
    cases names with
    | nil => rfl
    | cons a rest =>
      have others : (rest.map f).filter (fun b => !b == f a) =
          (rest.filter fun b => !b == a).map f := by
        rw [List.filter_map]
        refine congrArg _ (List.filter_congr fun b member => ?_)
        have same : (f b == f a) = (b == a) := by
          rw [Bool.eq_iff_iff, beq_iff_eq, beq_iff_eq]
          exact ⟨apart b (List.mem_cons_of_mem a member) a List.mem_cons_self, congrArg f⟩
        simp [same]
      have fewer : (rest.filter fun b => !b == a).length < n := by
        have le := List.length_filter_le (fun b => !b == a) rest
        rw [List.length_cons] at length
        omega
      have among : ∀ b ∈ rest.filter (fun b => !b == a), b ∈ a :: rest := fun b member =>
        List.mem_cons_of_mem a (List.mem_filter.mp member).1
      rw [List.map_cons, List.eraseDups_cons, List.eraseDups_cons, List.map_cons, others,
        ih _ fewer (apart.mono among) rfl]

theorem idxOf_map (apart : KeepsApart f names) {name : String} (member : name ∈ names) :
    (names.map f).idxOf (f name) = names.idxOf name := by
  induction names with
  | nil => cases member
  | cons a rest ih =>
    rw [List.map_cons, List.idxOf_cons, List.idxOf_cons]
    by_cases here : a = name
    · simp [here]
    · have there : f a ≠ f name := fun same =>
        here (apart a List.mem_cons_self name member same)
      have behind : name ∈ rest := (List.mem_cons.mp member).resolve_left (Ne.symm here)
      have later := ih (apart.mono fun b => List.mem_cons_of_mem a) behind
      simp only [beq_eq_false_iff_ne.mpr here, beq_eq_false_iff_ne.mpr there, later]

/-- What keeps finitely many names apart agrees on them with a renaming of all names. -/
theorem KeepsApart.exists_perm (apart : KeepsApart f names) :
    ∃ σ : Equiv.Perm String, ∀ name ∈ names, σ name = f name := by
  induction names with
  | nil => exact ⟨Equiv.refl String, nofun⟩
  | cons a rest ih =>
    obtain ⟨σ, agrees⟩ := ih (apart.mono fun b => List.mem_cons_of_mem a)
    -- Only the values of `σ` at `a` and at what becomes `f a` change, and neither is in the rest
    -- unless `a` is there itself.
    refine ⟨σ.trans (Equiv.swap (σ a) (f a)), List.forall_mem_cons.mpr ⟨?_, fun b inRest => ?_⟩⟩
    · rw [Equiv.trans_apply, Equiv.swap_apply_left]
    · by_cases same : b = a
      · rw [same, Equiv.trans_apply, Equiv.swap_apply_left]
      · have left : σ b ≠ σ a := σ.injective.ne same
        have right : σ b ≠ f a := fun clash =>
          same (apart b (List.mem_cons_of_mem a inRest) a List.mem_cons_self
            ((agrees b inRest).symm.trans clash))
        rw [Equiv.trans_apply, Equiv.swap_apply_of_ne_of_ne left right, agrees b inRest]

end

/-! ### Types -/

namespace Ty

variable {f g : String → String}

/-- Names the parameters of a type anew. -/
def rename (f : String → String) (t : Ty) : Ty :=
  t.replace fun
    | param name => some (param (f name))
    | _ => none

@[simp] theorem rename_named (path : String) (args : List Ty) :
    (named path args).rename f = named path (args.map (rename f)) := by
  rw [rename, Ty.replace]
  exact congrArg (named path) (replaceList_eq_map _ args)

@[simp] theorem rename_param (name : String) : (param name).rename f = param (f name) :=
  replace_of_some rfl

@[simp] theorem rename_fn (params : List Ty) (ret : Ty) :
    (fn params ret).rename f = fn (params.map (rename f)) (ret.rename f) := by
  rw [rename, Ty.replace]
  exact congrArg (fn · (ret.rename f)) (replaceList_eq_map _ params)

@[simp] theorem rename_promise (path : String) (args : List Ty) (assoc : List (String × Ty)) :
    (promise path args assoc).rename f =
      promise path (args.map (rename f)) (assoc.map fun c => (c.1, c.2.rename f)) := by
  rw [rename, Ty.replace]
  dsimp only
  rw [replaceList_eq_map, replaceAssoc_eq_map]
  rfl

@[simp] theorem rename_projection (base : Ty) (name : String) :
    (projection base name).rename f = projection (base.rename f) name := by
  rw [rename, Ty.replace]
  rfl

theorem paramsList_eq_flatMap (ts : List Ty) : paramsList ts = ts.flatMap params := by
  induction ts with
  | nil => rfl
  | cons t rest ih => rw [paramsList, ih, List.flatMap_cons]

theorem paramsAssoc_eq_flatMap (assoc : List (String × Ty)) :
    paramsAssoc assoc = assoc.flatMap fun c => c.2.params := by
  induction assoc with
  | nil => rfl
  | cons c rest ih => rw [paramsAssoc, ih, List.flatMap_cons]

/-- The parameters of a renamed type are the renamed ones. -/
theorem params_rename (t : Ty) : (t.rename f).params = t.params.map f := by
  have inside {α : Type} {ts : List α} {p q : α → List String}
      (each : ∀ t ∈ ts, p t = (q t).map f) :
      ts.flatMap p = (ts.flatMap q).map f := by
    rw [List.map_flatMap]
    exact List.flatMap_congr each
  induction t using inductionOn with
  | named path args ih =>
    simp only [rename_named, params, paramsList_eq_flatMap, List.flatMap_map]
    exact inside ih
  | fn ps ret ihs ih =>
    simp only [rename_fn, params, paramsList_eq_flatMap, List.flatMap_map, List.map_append, ih]
    rw [inside ihs]
  | promise path args assoc ihs ihc =>
    simp only [rename_promise, params, paramsList_eq_flatMap, paramsAssoc_eq_flatMap,
      List.flatMap_map, List.map_append]
    rw [inside ihs, inside ihc]
  | projection base name ih => simpa only [rename_projection, params] using ih
  | param name => simp [params]
  | const | selfTy | infer | unit => rfl

theorem paramsList_rename (ts : List Ty) :
    paramsList (ts.map (rename f)) = (paramsList ts).map f := by
  rw [paramsList_eq_flatMap, paramsList_eq_flatMap, List.flatMap_map, List.map_flatMap]
  exact List.flatMap_congr fun t _ => params_rename t

/-- A type whose parameters keep their names stays. -/
theorem rename_id (t : Ty) : t.rename id = t := by
  induction t using inductionOn with
  | named path args ih => rw [rename_named, List.map_congr_left ih, List.map_id']
  | fn params ret ihs ih => rw [rename_fn, List.map_congr_left ihs, List.map_id', ih]
  | promise path args assoc ihs ihc =>
    have constraints : assoc.map (fun c => (c.1, c.2.rename id)) = assoc.map id :=
      List.map_congr_left fun c member => congrArg (Prod.mk c.1) (ihc c member)
    rw [rename_promise, List.map_congr_left ihs, List.map_id', constraints, List.map_id]
  | projection base name ih => rw [rename_projection, ih]
  | param name => exact rename_param name
  | const | selfTy | infer | unit => rfl

/-- Renaming twice is renaming once. -/
theorem rename_rename (t : Ty) : (t.rename f).rename g = t.rename (g ∘ f) := by
  induction t using inductionOn with
  | named path args ih =>
    rw [rename_named, rename_named, rename_named, List.map_map]
    exact congrArg _ (List.map_congr_left ih)
  | fn params ret ihs ih =>
    rw [rename_fn, rename_fn, rename_fn, List.map_map, ih]
    exact congrArg (fn · _) (List.map_congr_left ihs)
  | promise path args assoc ihs ihc =>
    rw [rename_promise, rename_promise, rename_promise, List.map_map, List.map_map]
    refine congr (congrArg _ (List.map_congr_left ihs)) (List.map_congr_left fun c member => ?_)
    exact congrArg (Prod.mk c.1) (ihc c member)
  | projection base name ih => rw [rename_projection, rename_projection, rename_projection, ih]
  | param name => rw [rename_param, rename_param, rename_param, Function.comp_apply]
  | const | selfTy | infer | unit => rfl

theorem map_rename_rename (ts : List Ty) :
    (ts.map (rename f)).map (rename g) = ts.map (rename (g ∘ f)) := by
  rw [List.map_map]
  exact List.map_congr_left fun t _ => rename_rename t

/-- Only the names of the parameters that a type has matter. -/
theorem rename_congr {t : Ty} (same : ∀ name ∈ t.params, f name = g name) :
    t.rename f = t.rename g := by
  induction t using inductionOn with
  | named path args ih =>
    have inArgs : args.map (rename f) = args.map (rename g) :=
      List.map_congr_left fun t member => ih t member fun name inside =>
        same name (mem_paramsList.mpr ⟨t, member, inside⟩)
    rw [rename_named, rename_named, inArgs]
  | fn params ret ihs ih =>
    have inParams : params.map (rename f) = params.map (rename g) :=
      List.map_congr_left fun t member => ihs t member fun name inside =>
        same name (List.mem_append_left _ (mem_paramsList.mpr ⟨t, member, inside⟩))
    have inRet := ih fun name inside => same name (List.mem_append_right _ inside)
    rw [rename_fn, rename_fn, inParams, inRet]
  | promise path args assoc ihs ihc =>
    have inArgs : args.map (rename f) = args.map (rename g) :=
      List.map_congr_left fun t member => ihs t member fun name inside =>
        same name (List.mem_append_left _ (mem_paramsList.mpr ⟨t, member, inside⟩))
    have inAssoc : assoc.map (fun c => (c.1, c.2.rename f)) =
        assoc.map fun c => (c.1, c.2.rename g) :=
      List.map_congr_left fun c member => congrArg (Prod.mk c.1) <| ihc c member fun name inside =>
        same name (List.mem_append_right _ (mem_paramsAssoc.mpr ⟨c, member, inside⟩))
    rw [rename_promise, rename_promise, inArgs, inAssoc]
  | projection base name ih =>
    rw [rename_projection, rename_projection, ih same]
  | param name => rw [rename_param, rename_param, same name (List.mem_singleton_self name)]
  | const | selfTy | infer | unit => rfl

/-- Types become others when their parameters get other names, different ones different names. -/
def Renames (ts us : List Ty) : Prop :=
  ∃ f : String → String, KeepsApart f (paramsList ts) ∧ ts.map (rename f) = us

mutual

/-- The second type is the first one with the name that `f` gives for every parameter in it, inside
function types, associated types and opaque types as well. -/
inductive RenamedBy (f : String → String) : Ty → Ty → Prop
  | named (path : String) {args args' : List Ty} (inside : RenamedListBy f args args') :
      RenamedBy f (named path args) (named path args')
  | param (name : String) : RenamedBy f (param name) (param (f name))
  | const (value : String) : RenamedBy f (const value) (const value)
  | fn {params params' : List Ty} {ret ret' : Ty} (taken : RenamedListBy f params params')
      (given : RenamedBy f ret ret') : RenamedBy f (fn params ret) (fn params' ret')
  | promise (path : String) {args args' : List Ty} {assoc assoc' : List (String × Ty)}
      (inside : RenamedListBy f args args') (constraints : RenamedAssocBy f assoc assoc') :
      RenamedBy f (promise path args assoc) (promise path args' assoc')
  | projection {base base' : Ty} (name : String) (inside : RenamedBy f base base') :
      RenamedBy f (projection base name) (projection base' name)
  | selfTy : RenamedBy f selfTy selfTy
  | infer : RenamedBy f infer infer
  | unit : RenamedBy f unit unit

/-- Every type of the second list is the renamed one of the first list. -/
inductive RenamedListBy (f : String → String) : List Ty → List Ty → Prop
  | nil : RenamedListBy f [] []
  | cons {t t' : Ty} {ts ts' : List Ty} (first : RenamedBy f t t')
      (rest : RenamedListBy f ts ts') : RenamedListBy f (t :: ts) (t' :: ts')

/-- Constraints keep the names of their associated types. -/
inductive RenamedAssocBy (f : String → String) : List (String × Ty) → List (String × Ty) → Prop
  | nil : RenamedAssocBy f [] []
  | cons (name : String) {t t' : Ty} {cs cs' : List (String × Ty)} (first : RenamedBy f t t')
      (rest : RenamedAssocBy f cs cs') : RenamedAssocBy f ((name, t) :: cs) ((name, t') :: cs')

end

mutual

theorem RenamedBy.rename_eq {t u : Ty} : RenamedBy f t u → t.rename f = u
  | .named path inside => by rw [rename_named, inside.map_eq]
  | .param name => rename_param name
  | .const _ | .selfTy | .infer | .unit => rfl
  | .fn taken given => by rw [rename_fn, taken.map_eq, given.rename_eq]
  | .promise path inside constraints => by
    rw [rename_promise, inside.map_eq, constraints.map_eq]
  | .projection name inside => by rw [rename_projection, inside.rename_eq]

theorem RenamedListBy.map_eq {ts us : List Ty} : RenamedListBy f ts us → ts.map (rename f) = us
  | .nil => rfl
  | .cons first rest => by rw [List.map_cons, first.rename_eq, rest.map_eq]

theorem RenamedAssocBy.map_eq {cs ds : List (String × Ty)} :
    RenamedAssocBy f cs ds → cs.map (fun c => (c.1, c.2.rename f)) = ds
  | .nil => rfl
  | .cons name first rest => by rw [List.map_cons, first.rename_eq, rest.map_eq]

end

theorem renamedListBy_map {ts : List Ty} (each : ∀ t ∈ ts, RenamedBy f t (t.rename f)) :
    RenamedListBy f ts (ts.map (rename f)) := by
  induction ts with
  | nil => exact .nil
  | cons t rest ih =>
    rw [List.forall_mem_cons] at each
    exact .cons each.1 (ih each.2)

theorem renamedAssocBy_map {cs : List (String × Ty)}
    (each : ∀ c ∈ cs, RenamedBy f c.2 (c.2.rename f)) :
    RenamedAssocBy f cs (cs.map fun c => (c.1, c.2.rename f)) := by
  induction cs with
  | nil => exact .nil
  | cons c rest ih =>
    rw [List.forall_mem_cons] at each
    exact .cons c.1 each.1 (ih each.2)

theorem renamedBy_rename (t : Ty) : RenamedBy f t (t.rename f) := by
  induction t using inductionOn with
  | named path args ih =>
    rw [rename_named]
    exact .named path (renamedListBy_map ih)
  | fn params ret ihs ih =>
    rw [rename_fn]
    exact .fn (renamedListBy_map ihs) ih
  | promise path args assoc ihs ihc =>
    rw [rename_promise]
    exact .promise path (renamedListBy_map ihs) (renamedAssocBy_map ihc)
  | projection base name ih =>
    rw [rename_projection]
    exact .projection name ih
  | param name =>
    rw [rename_param]
    exact .param name
  | const value => exact .const value
  | selfTy => exact .selfTy
  | infer => exact .infer
  | unit => exact .unit

theorem renamedListBy_iff {ts us : List Ty} :
    RenamedListBy f ts us ↔ ts.map (rename f) = us := by
  refine ⟨RenamedListBy.map_eq, ?_⟩
  rintro rfl
  exact renamedListBy_map fun t _ => renamedBy_rename t

/-- A renaming of all names can be undone. -/
theorem map_rename_perm {σ : Equiv.Perm String} {ts us : List Ty}
    (renamed : ts.map (rename σ) = us) : us.map (rename σ.symm) = ts := by
  rw [← renamed, map_rename_rename, Equiv.symm_comp_self]
  exact (List.map_congr_left fun t _ => rename_id t).trans (List.map_id ts)

/-- Where a renaming keeps apart the parameters of a list, one of all names does the same there. -/
theorem Renames.exists_perm {ts us : List Ty} (renames : Renames ts us) :
    ∃ σ : Equiv.Perm String, ts.map (rename σ) = us := by
  obtain ⟨f, apart, rfl⟩ := renames
  obtain ⟨σ, agrees⟩ := apart.exists_perm
  refine ⟨σ, List.map_congr_left fun t member => rename_congr fun name inside => ?_⟩
  exact agrees name (mem_paramsList.mpr ⟨t, member, inside⟩)

theorem renames_of_perm {σ : Equiv.Perm String} {ts us : List Ty}
    (renamed : ts.map (rename σ) = us) : Renames ts us :=
  ⟨σ, fun _ _ _ _ same => σ.injective same, renamed⟩

end Ty

/-! ### Names by the order of appearance -/

/-- Different numbers have different texts. -/
theorem Text.natText_injective : Function.Injective Text.natText := fun m n same => by
  have chars : Nat.toDigits 10 m = Nat.toDigits 10 n := String.ofList_injective same
  rw [← Nat.ofDigitChars_toDigits (b := 10) (n := m) (by decide) (by decide), chars,
    Nat.ofDigitChars_toDigits (by decide) (by decide)]

namespace ImplDecl

theorem canonical_eq_map (ts : List Ty) : canonical ts = ts.map (Ty.rename fun name =>
    "$" ++ Text.natText ((Ty.paramsList ts).eraseDups.idxOf name)) := by
  rw [canonical, Ty.replaceList_eq_map]
  rfl

/-- Types that differ in the names of their parameters alone have the same canonical form. -/
theorem canonical_eq_of_renames {ts us : List Ty} (renames : Ty.Renames ts us) :
    canonical ts = canonical us := by
  obtain ⟨f, apart, rfl⟩ := renames
  rw [canonical_eq_map, canonical_eq_map, Ty.map_rename_rename, Ty.paramsList_rename,
    eraseDups_map apart]
  refine List.map_congr_left fun t member => Ty.rename_congr fun name inside => ?_
  have listed : name ∈ (Ty.paramsList ts).eraseDups :=
    List.mem_eraseDups.mpr (Ty.mem_paramsList.mpr ⟨t, member, inside⟩)
  have order := idxOf_map (apart.mono fun a => List.mem_eraseDups.mp) listed
  rw [Function.comp_apply, order]

/-- Different parameters get different names by the order of appearance. -/
theorem renames_canonical (ts : List Ty) : Ty.Renames ts (canonical ts) := by
  refine ⟨_, fun a inA b inB same => ?_, (canonical_eq_map ts).symm⟩
  have places := Text.natText_injective (String.append_right_inj _ |>.mp same)
  exact (List.idxOf_inj (List.mem_eraseDups.mpr inA)).mp places

end ImplDecl
end Pipeline
