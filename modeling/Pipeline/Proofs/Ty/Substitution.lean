import Pipeline.Decl.Basic
import Pipeline.Proofs.Data.NameMap
import Pipeline.Proofs.Ty.Vocabulary

/-!
# Substitutions part by part

A substitution goes through a type part by part and changes nothing but parameters. Two of them
that agree on the parameters of a type do the same to it, and one that follows an assignment of
arguments can be made on the arguments instead.
-/

set_option autoImplicit false
set_option relaxedAutoImplicit false

namespace Pipeline

namespace Ty

/-! ### Parts that a type lacks -/

/-- Nothing of a kind is a part of the type. -/
def Without (kind : Ty → Bool) (t : Ty) : Prop := t.anyPart kind = false

instance (kind : Ty → Bool) (t : Ty) : Decidable (t.Without kind) :=
  inferInstanceAs (Decidable (_ = false))

variable {kind other : Ty → Bool}

theorem without_named {path : String} {args : List Ty} : (named path args).Without kind ↔
    kind (named path args) = false ∧ ∀ t ∈ args, t.Without kind := by
  simp [Without, anyPart, anyPartList_eq_false]

theorem without_fn {params : List Ty} {ret : Ty} : (fn params ret).Without kind ↔
    kind (fn params ret) = false ∧ (∀ t ∈ params, t.Without kind) ∧ ret.Without kind := by
  simp [Without, anyPart, anyPartList_eq_false]

theorem without_promise {path : String} {args : List Ty} {assoc : List (String × Ty)} :
    (promise path args assoc).Without kind ↔ kind (promise path args assoc) = false ∧
      (∀ t ∈ args, t.Without kind) ∧ ∀ c ∈ assoc, c.2.Without kind := by
  simp [Without, anyPart, anyPartList_eq_false, anyPartAssoc_eq_false]

theorem without_projection {base : Ty} {name : String} : (projection base name).Without kind ↔
    kind (projection base name) = false ∧ base.Without kind := by
  simp [Without, anyPart]

theorem without_leaf {t : Ty} (leaf : t.isLeaf = true) : t.Without kind ↔ kind t = false := by
  cases t <;> simp [Without, anyPart, isLeaf] at leaf ⊢

theorem Without.mono {t : Ty} (without : t.Without kind)
    (among : ∀ part, other part = true → kind part = true) : t.Without other := by
  have outermost {t : Ty} (lacks : kind t = false) : other t = false := by
    cases holds : other t with
    | false => rfl
    | true => exact absurd (among t holds) (by simp [lacks])
  induction t using inductionOn with
  | named path args ih =>
    rw [without_named] at without ⊢
    exact ⟨outermost without.1, fun t member => ih t member (without.2 t member)⟩
  | fn params ret ihs ih =>
    rw [without_fn] at without ⊢
    exact ⟨outermost without.1, fun t member => ihs t member (without.2.1 t member),
      ih without.2.2⟩
  | promise path args assoc ihs ihc =>
    rw [without_promise] at without ⊢
    exact ⟨outermost without.1, fun t member => ihs t member (without.2.1 t member),
      fun c member => ihc c member (without.2.2 c member)⟩
  | projection base name ih =>
    rw [without_projection] at without ⊢
    exact ⟨outermost without.1, ih without.2⟩
  | param | const | selfTy | infer | unit =>
    exact (without_leaf rfl).mpr (outermost ((without_leaf rfl).mp without))

/-! ### Part by part -/

theorem replaceList_eq_map (f : Ty → Option Ty) (ts : List Ty) :
    replaceList f ts = ts.map (Ty.replace f) := by
  induction ts with
  | nil => rfl
  | cons t rest ih => rw [replaceList, ih, List.map_cons]

theorem replaceAssoc_eq_map (f : Ty → Option Ty) (assoc : List (String × Ty)) :
    replaceAssoc f assoc = assoc.map fun c => (c.1, c.2.replace f) := by
  induction assoc with
  | nil => rfl
  | cons c rest ih => rw [replaceAssoc, ih, List.map_cons]

variable {s s' : Subst} {v : Vocabulary}

@[simp] theorem substitute_named (path : String) (args : List Ty) :
    (named path args).substitute s = named path (args.map (substitute s)) := by
  rw [substitute, Ty.replace]
  exact congrArg (named path) (replaceList_eq_map _ args)

theorem substitute_param (name : String) :
    (param name).substitute s = (s.get? name).getD (param name) := by
  cases found : s.get? name with
  | some t => exact replace_of_some found
  | none => exact replace_leaf rfl found

@[simp] theorem substitute_fn (params : List Ty) (ret : Ty) :
    (fn params ret).substitute s = fn (params.map (substitute s)) (ret.substitute s) := by
  rw [substitute, Ty.replace]
  exact congrArg (fn · (ret.substitute s)) (replaceList_eq_map _ params)

@[simp] theorem substitute_promise (path : String) (args : List Ty) (assoc : List (String × Ty)) :
    (promise path args assoc).substitute s =
      promise path (args.map (substitute s)) (assoc.map fun c => (c.1, c.2.substitute s)) := by
  rw [substitute, Ty.replace]
  dsimp only
  rw [replaceList_eq_map, replaceAssoc_eq_map]
  rfl

@[simp] theorem substitute_projection (base : Ty) (name : String) :
    (projection base name).substitute s = projection (base.substitute s) name := by
  rw [substitute, Ty.replace]
  rfl

@[simp] theorem substitute_const (value : String) : (const value).substitute s = const value := rfl

@[simp] theorem substitute_selfTy : selfTy.substitute s = selfTy := rfl

@[simp] theorem substitute_infer : infer.substitute s = infer := rfl

@[simp] theorem substitute_unit : unit.substitute s = unit := rfl

/-- Where nothing is replaced of what may be mentioned, the type stays. -/
theorem replace_of_over {f : Ty → Option Ty} {t : Ty} (drawn : t.Over v)
    (kept : ∀ part, v.admits part = true → f part = none) : t.replace f = t := by
  induction t using inductionOn with
  | named path args ih =>
    rw [Ty.replace, kept _ drawn.admits, replaceList_eq_map,
      List.map_congr_left fun t member => ih t member ((over_named.mp drawn).2 t member), List.map_id']
  | fn params ret ihs ih =>
    rw [Ty.replace, kept _ drawn.admits, replaceList_eq_map, ih (over_fn.mp drawn).2,
      List.map_congr_left fun t member => ihs t member ((over_fn.mp drawn).1 t member), List.map_id']
  | promise path args assoc ihs ihc =>
    obtain ⟨-, inside, constraints⟩ := over_promise.mp drawn
    have same : (assoc.map fun c => (c.1, c.2.replace f)) = assoc := by
      refine (List.map_congr_left fun c member => ?_).trans (List.map_id assoc)
      rw [ihc c member (constraints c member), id_eq]
    rw [Ty.replace, kept _ drawn.admits, replaceList_eq_map, replaceAssoc_eq_map, same,
      List.map_congr_left fun t member => ihs t member (inside t member), List.map_id']
  | projection base name ih =>
    rw [Ty.replace, kept _ drawn.admits, ih (over_projection.mp drawn)]
  | param | const | selfTy | infer | unit => exact replace_leaf rfl (kept _ drawn.admits)

/-- Only what becomes of the parameters of a type matters. -/
theorem substitute_congr {t : Ty} (drawn : t.Over v)
    (same : ∀ name, v.params name = true → (param name).substitute s = (param name).substitute s') :
    t.substitute s = t.substitute s' := by
  induction t using inductionOn with
  | named path args ih =>
    rw [substitute_named, substitute_named]
    exact congrArg _ (List.map_congr_left fun t member => ih t member ((over_named.mp drawn).2 t member))
  | param name => exact same name (over_param.mp drawn)
  | const value => rfl
  | fn params ret ihs ih =>
    rw [over_fn] at drawn
    rw [substitute_fn, substitute_fn, ih drawn.2]
    exact congrArg (fn · _) (List.map_congr_left fun t member => ihs t member (drawn.1 t member))
  | promise path args assoc ihs ihc =>
    rw [over_promise] at drawn
    rw [substitute_promise, substitute_promise,
      List.map_congr_left fun t member => ihs t member (drawn.2.1 t member)]
    refine congrArg _ (List.map_congr_left fun c member => ?_)
    rw [ihc c member (drawn.2.2 c member)]
  | projection base name ih =>
    rw [substitute_projection, substitute_projection, ih (over_projection.mp drawn)]
  | selfTy | infer | unit => rfl

/-- Types that fit are put in the places of parameters. -/
theorem fits_substitute {t : Ty} (once : t.Without repeatsConstraint)
    (put : ∀ name, Option.Rel (fun u u' => u.fits u' = true) (s.get? name) (s'.get? name)) :
    (t.substitute s).fits (t.substitute s') = true := by
  have each {ts : List Ty} (inside : ∀ t ∈ ts, (t.substitute s).fits (t.substitute s') = true) :
      List.Forall₂ (fun t u => t.fits u = true) (ts.map (substitute s)) (ts.map (substitute s')) :=
    List.forall₂_map_left_iff.mpr (List.forall₂_map_right_iff.mpr (List.forall₂_same.mpr inside))
  induction t using inductionOn with
  | named path args ih =>
    rw [substitute_named, substitute_named]
    exact fits_named (each fun t member => ih t member ((without_named.mp once).2 t member))
  | param name =>
    rw [substitute_param, substitute_param]
    have given := put name
    generalize s.get? name = x at given ⊢
    generalize s'.get? name = y at given ⊢
    cases given with
    | some here => exact here
    | none => exact fits_self rfl
  | fn params ret ihs ih =>
    rw [without_fn] at once
    rw [substitute_fn, substitute_fn]
    exact fits_fn (each fun t member => ihs t member (once.2.1 t member)) (ih once.2.2)
  | promise path args assoc ihs ihc =>
    rw [without_promise] at once
    rw [substitute_promise, substitute_promise]
    refine fits_promise (each fun t member => ihs t member (once.2.1 t member)) ?_
    have distinct : (assoc.map (·.1)).Nodup := by simpa [repeatsConstraint] using once.1
    refine List.forall_mem_map.mpr fun c member d found => ?_
    rw [List.find?_map] at found
    obtain ⟨other, here, rfl⟩ := Option.map_eq_some_iff.mp found
    cases (find?_name distinct member).symm.trans here
    exact ihc c member (once.2.2 c member)
  | projection base name ih =>
    rw [substitute_projection, substitute_projection]
    exact fits_projection (ih (without_projection.mp once).2)
  | const value => exact fits_self rfl
  | selfTy | infer | unit => rfl

/-! ### Parameters -/

theorem mem_paramsList {name : String} {ts : List Ty} :
    name ∈ paramsList ts ↔ ∃ t ∈ ts, name ∈ t.params := by
  induction ts with
  | nil => simp [paramsList]
  | cons t rest ih => simp [paramsList, ih]

theorem mem_paramsAssoc {name : String} {assoc : List (String × Ty)} :
    name ∈ paramsAssoc assoc ↔ ∃ c ∈ assoc, name ∈ c.2.params := by
  induction assoc with
  | nil => simp [paramsAssoc]
  | cons c rest ih => simp only [paramsAssoc, List.mem_append, ih, List.exists_mem_cons_iff]

/-- Only certain parameters are mentioned. -/
abbrev ParamsIn (p : String → Bool) (t : Ty) : Prop :=
  t.Over ⟨fun _ => true, fun _ => true, p, true⟩

theorem paramsIn_iff {p : String → Bool} {t : Ty} :
    t.ParamsIn p ↔ ∀ name ∈ t.params, p name = true := by
  induction t using inductionOn with
  | named path args ih =>
    simp only [over_named, true_and, params, mem_paramsList, forall_exists_index, and_imp]
    exact ⟨fun all name t member inside => (ih t member).mp (all t member) name inside,
      fun all t member => (ih t member).mpr fun name inside => all name t member inside⟩
  | param name => simp [over_param, params]
  | fn ps ret ihs ih =>
    simp only [over_fn, params, List.mem_append, mem_paramsList, or_imp, forall_and, ih,
      forall_exists_index, and_imp]
    exact and_congr_left fun _ =>
      ⟨fun all name t member inside => (ihs t member).mp (all t member) name inside,
        fun all t member => (ihs t member).mpr fun name inside => all name t member inside⟩
  | promise path args assoc ihs ihc =>
    simp only [over_promise, true_and, params, List.mem_append, mem_paramsList, mem_paramsAssoc,
      or_imp, forall_and, forall_exists_index, and_imp]
    exact and_congr
      ⟨fun all name t member inside => (ihs t member).mp (all t member) name inside,
        fun all t member => (ihs t member).mpr fun name inside => all name t member inside⟩
      ⟨fun all name c member inside => (ihc c member).mp (all c member) name inside,
        fun all c member => (ihc c member).mpr fun name inside => all name c member inside⟩
  | projection base name ih => simp only [over_projection, params, ih]
  | const | selfTy | infer | unit => exact iff_of_true rfl nofun

theorem substitute_congr_params {t : Ty}
    (same : ∀ name ∈ t.params, (param name).substitute s = (param name).substitute s') :
    t.substitute s = t.substitute s' := by
  have own : t.ParamsIn fun name => decide (name ∈ t.params) :=
    paramsIn_iff.mpr fun name inside => decide_eq_true inside
  exact substitute_congr own fun name inside => same name (of_decide_eq_true inside)

/-- A type that mentions no parameters stays as it is. -/
theorem substitute_of_params_eq_nil {t : Ty} (closed : t.params = []) : t.substitute s = t := by
  have same : t.substitute s = t.substitute [] :=
    substitute_congr_params fun name mentioned => by simp [closed] at mentioned
  rw [same, substitute_nil]

/-- Parameters that are bound to themselves stay. -/
theorem substitute_own {s : Subst} (own : ∀ name t, s.get? name = some t → t = .param name)
    (t : Ty) : t.substitute s = t := by
  induction t using inductionOn with
  | named path args ih =>
    rw [substitute_named, List.map_congr_left ih, List.map_id']
  | param name =>
    rw [substitute_param]
    cases found : s.get? name with
    | none => rfl
    | some u => exact own name u found
  | fn params ret ihs ih => rw [substitute_fn, List.map_congr_left ihs, List.map_id', ih]
  | promise path args assoc ihs ihc =>
    have constraints : (assoc.map fun c => (c.1, c.2.substitute s)) = assoc := by
      refine (List.map_congr_left fun c member => ?_).trans (List.map_id assoc)
      rw [ihc c member, id_eq]
    rw [substitute_promise, constraints, List.map_congr_left ihs, List.map_id']
  | projection base name ih => rw [substitute_projection, ih]
  | const | selfTy | infer | unit => rfl

end Ty

/-! ### Arguments of a declaration -/

namespace NameMap

variable {α β : Type}

theorem insert_map (f : α → β) (m : NameMap α) (name : String) (a : α) :
    NameMap.insert name (f a) (m.map fun p => (p.1, f p.2)) =
      (m.insert name a).map fun p => (p.1, f p.2) := by
  induction m with
  | nil => rfl
  | cons entry rest ih =>
    obtain ⟨n, b⟩ := entry
    simp only [List.map_cons, insert, ih]
    split
    · rfl
    · split <;> rfl

theorem get?_map (f : α → β) (m : NameMap α) (name : String) :
    NameMap.get? name (m.map fun p => (p.1, f p.2)) = (m.get? name).map f := by
  induction m with
  | nil => rfl
  | cons entry rest ih =>
    obtain ⟨n, b⟩ := entry
    simp only [List.map_cons, get?, ih]
    split <;> rfl

theorem ofList_map (f : α → β) (pairs : List (String × α)) :
    ofList (pairs.map fun p => (p.1, f p.2)) = (ofList pairs).map fun p => (p.1, f p.2) := by
  have from_any (m : NameMap α) :
      (pairs.map fun p => (p.1, f p.2)).foldl (fun (m : NameMap β) p => m.insert p.1 p.2)
          (m.map fun p => (p.1, f p.2)) =
        (pairs.foldl (fun m p => m.insert p.1 p.2) m).map fun p => (p.1, f p.2) := by
    induction pairs generalizing m with
    | nil => rfl
    | cons p rest ih =>
      rw [List.map_cons, List.foldl_cons]
      dsimp only
      rw [insert_map, ih, List.foldl_cons]
  exact from_any []

end NameMap

namespace Generic

variable {generics : List Generic} {args : List Ty}

/-- What is done to all arguments is done to each. -/
theorem get?_assign_map (f : Ty → Ty) (name : String) :
    (assign generics (args.map f)).get? name = ((assign generics args).get? name).map f := by
  have pairs : (names generics).zip (args.map f) =
      ((names generics).zip args).map fun p => (p.1, f p.2) := by
    rw [List.zip_map_right]
    rfl
  rw [assign, assign, pairs, NameMap.ofList_map, NameMap.get?_map]

private theorem foldl_rel {R : Ty → Ty → Prop} {names : List String} {args args' : List Ty}
    (each : List.Forall₂ R args args') {s s' : Subst}
    (before : ∀ name, Option.Rel R (s.get? name) (s'.get? name)) (name : String) :
    Option.Rel R (((names.zip args).foldl (fun m p => NameMap.insert p.1 p.2 m) s).get? name)
      (((names.zip args').foldl (fun m p => NameMap.insert p.1 p.2 m) s').get? name) := by
  induction each generalizing names s s' with
  | nil => simpa using before name
  | cons here _ ih =>
    cases names with
    | nil => exact before name
    | cons first names =>
      refine ih fun other => ?_
      dsimp only
      rw [NameMap.get?_insert, NameMap.get?_insert]
      split
      · exact .some here
      · exact before other

/-- Arguments that are related one by one are bindings that are. -/
theorem assign_rel {R : Ty → Ty → Prop} {args' : List Ty} (each : List.Forall₂ R args args')
    (name : String) :
    Option.Rel R ((assign generics args).get? name) ((assign generics args').get? name) :=
  foldl_rel each (fun _ => .none) name

/-- The parameters of a declaration are assigned to themselves. -/
theorem assign_own {generics : List Generic} {name : String} {t : Ty}
    (found : (assign generics (generics.map fun g => .param g.name)).get? name = some t) :
    t = .param name := by
  have member := NameMap.mem_of_get?_ofList found
  have pairs : (names generics).zip (generics.map fun g => Ty.param g.name) =
      (names generics).map fun name => (name, Ty.param name) := by
    rw [names, List.zip_map', List.map_map]
    rfl
  rw [pairs] at member
  obtain ⟨other, -, same⟩ := List.mem_map.mp member
  cases same
  rfl

/-- The parameters of a declaration that have arguments, with all types and traits. -/
def Covers (generics : List Generic) (args : List Ty) (t : Ty) : Prop :=
  t.ParamsIn fun name => ((assign generics args).get? name).isSome

instance (generics : List Generic) (args : List Ty) (t : Ty) : Decidable (Covers generics args t) :=
  inferInstanceAs (Decidable (t.Over _))

variable {t : Ty}

/-- Which parameters have arguments does not depend on what these are. -/
theorem covers_map (f : Ty → Ty) : Covers generics (args.map f) t ↔ Covers generics args t := by
  simp only [Covers, get?_assign_map, Option.isSome_map]

/-- Where every parameter has an argument, only those of the arguments are left. -/
theorem Covers.paramsIn {p : String → Bool} (covers : Covers generics args t)
    (inside : ∀ u ∈ args, u.ParamsIn p) : (t.substitute (assign generics args)).ParamsIn p := by
  refine Ty.Over.substitute covers (fun name u found =>
    inside u (List.of_mem_zip (NameMap.mem_of_get?_ofList found)).2) fun part admitted free => ?_
  cases part with
  | param name =>
    obtain ⟨u, found⟩ := Option.isSome_iff_exists.mp admitted
    cases (free name rfl).symm.trans found
  | _ => rfl

/-- Where every parameter has an argument, a substitution can be made on the arguments. -/
theorem Covers.substitute (covers : Covers generics args t) (s : Subst) :
    (t.substitute (assign generics args)).substitute s =
      t.substitute (assign generics (args.map (Ty.substitute s))) := by
  induction t using Ty.inductionOn with
  | named path inner ih =>
    rw [Ty.substitute_named, Ty.substitute_named, Ty.substitute_named, List.map_map]
    exact congrArg _ (List.map_congr_left fun t member =>
      ih t member ((Ty.over_named.mp covers).2 t member))
  | param name =>
    obtain ⟨u, found⟩ := Option.isSome_iff_exists.mp (Ty.over_param.mp covers)
    rw [Ty.substitute_param, Ty.substitute_param, get?_assign_map, found]
    rfl
  | const value => rfl
  | fn params ret ihs ih =>
    have inside := Ty.over_fn.mp covers
    rw [Ty.substitute_fn, Ty.substitute_fn, Ty.substitute_fn, List.map_map, ih inside.2]
    exact congrArg (Ty.fn · _) (List.map_congr_left fun t member => ihs t member (inside.1 t member))
  | promise path inner assoc ihs ihc =>
    have inside := Ty.over_promise.mp covers
    have each : (inner.map (Ty.substitute (assign generics args))).map (Ty.substitute s) =
        inner.map (Ty.substitute (assign generics (args.map (Ty.substitute s)))) := by
      rw [List.map_map]
      exact List.map_congr_left fun t member => ihs t member (inside.2.1 t member)
    rw [Ty.substitute_promise, Ty.substitute_promise, Ty.substitute_promise, each, List.map_map]
    refine congrArg _ (List.map_congr_left fun c member => ?_)
    rw [Function.comp_apply, ihc c member (inside.2.2 c member)]
  | projection base name ih =>
    rw [Ty.substitute_projection, Ty.substitute_projection, Ty.substitute_projection,
      ih (Ty.over_projection.mp covers)]
  | selfTy | infer | unit => rfl

end Generic
end Pipeline
