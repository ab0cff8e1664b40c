import Pipeline.Proofs.Ty.Fits
import Pipeline.Ty.Basic

/-!
# What types are written with

A vocabulary says which paths and parameters a type may mention, and whether it may mention
`Self`. Replacing parts of a type keeps it over a vocabulary if the parts put in are over it and
the parts left alone are admitted; putting in arguments, a substitution or a type for `Self` are
the cases of this that come up.
-/

set_option autoImplicit false
set_option relaxedAutoImplicit false

namespace Pipeline

/-- What may be mentioned in a type. -/
structure Vocabulary where
  /-- The paths of declared types. -/
  types : String → Bool
  /-- The paths of traits. -/
  traits : String → Bool
  /-- The names of generic parameters. -/
  params : String → Bool
  /-- True when `Self` may be mentioned. -/
  selfTy : Bool

/-- True for a type whose outermost part may be mentioned. -/
def Vocabulary.admits (v : Vocabulary) : Ty → Bool
  | .named path _ => v.types path
  | .promise path _ _ => v.traits path
  | .param name => v.params name
  | .selfTy => v.selfTy
  | _ => true

/-- A vocabulary in which everything of another one may be mentioned. -/
def Vocabulary.Within (v w : Vocabulary) : Prop := ∀ t, v.admits t = true → w.admits t = true

namespace Ty

/-- Every part of the type may be mentioned. -/
def Over (v : Vocabulary) (t : Ty) : Prop := t.anyPart (fun part => !v.admits part) = false

instance (v : Vocabulary) (t : Ty) : Decidable (t.Over v) :=
  inferInstanceAs (Decidable (_ = false))

variable {v w : Vocabulary}

section

attribute [local simp] Over anyPart Vocabulary.admits anyPartList_eq_false anyPartAssoc_eq_false

theorem over_named {path : String} {args : List Ty} :
    (named path args).Over v ↔ v.types path = true ∧ ∀ t ∈ args, t.Over v := by simp

theorem over_param {name : String} : (param name).Over v ↔ v.params name = true := by simp

theorem over_fn {params : List Ty} {ret : Ty} :
    (fn params ret).Over v ↔ (∀ t ∈ params, t.Over v) ∧ ret.Over v := by simp

theorem over_promise {path : String} {args : List Ty} {assoc : List (String × Ty)} :
    (promise path args assoc).Over v ↔
      v.traits path = true ∧ (∀ t ∈ args, t.Over v) ∧ ∀ c ∈ assoc, c.2.Over v := by simp

theorem over_projection {base : Ty} {name : String} :
    (projection base name).Over v ↔ base.Over v := by simp

theorem over_selfTy : selfTy.Over v ↔ v.selfTy = true := by simp

end

theorem over_const (value : String) : (const value).Over v := rfl

theorem over_infer : infer.Over v := rfl

theorem over_unit : unit.Over v := rfl

theorem Over.admits {t : Ty} (drawn : t.Over v) : v.admits t = true := by
  unfold Over anyPart at drawn
  simpa using (Bool.or_eq_false_iff.mp drawn).1

theorem Over.mono {t : Ty} (drawn : t.Over v) (within : v.Within w) : t.Over w := by
  induction t using inductionOn with
  | named path args ih =>
    rw [over_named] at drawn ⊢
    exact ⟨within (named path args) drawn.1, fun t member => ih t member (drawn.2 t member)⟩
  | param name => exact over_param.mpr (within (param name) (over_param.mp drawn))
  | const value => exact over_const value
  | fn params ret ihs ih =>
    rw [over_fn] at drawn ⊢
    exact ⟨fun t member => ihs t member (drawn.1 t member), ih drawn.2⟩
  | promise path args assoc ihs ihc =>
    rw [over_promise] at drawn ⊢
    exact ⟨within (promise path args assoc) drawn.1,
      fun t member => ihs t member (drawn.2.1 t member),
      fun c member => ihc c member (drawn.2.2 c member)⟩
  | projection base name ih => exact over_projection.mpr (ih (over_projection.mp drawn))
  | selfTy => exact over_selfTy.mpr (within selfTy (over_selfTy.mp drawn))
  | infer => exact over_infer
  | unit => exact over_unit

/-! ### Replacing parts -/

theorem mem_replaceList {f : Ty → Option Ty} {ts : List Ty} {t : Ty} :
    t ∈ replaceList f ts ↔ ∃ u ∈ ts, u.replace f = t := by
  induction ts with
  | nil => simp [replaceList]
  | cons u rest ih => simp [replaceList, ih, eq_comm]

theorem mem_replaceAssoc {f : Ty → Option Ty} {assoc : List (String × Ty)} {c : String × Ty} :
    c ∈ replaceAssoc f assoc ↔ ∃ b ∈ assoc, (b.1, b.2.replace f) = c := by
  induction assoc with
  | nil => simp [replaceAssoc]
  | cons b rest ih => simp [replaceAssoc, ih, eq_comm]

theorem replace_of_some {f : Ty → Option Ty} {t u : Ty} (found : f t = some u) :
    t.replace f = u := by
  cases t <;> simp [Ty.replace, found]

/-- True for a type without parts. -/
def isLeaf : Ty → Bool
  | named _ _ | fn _ _ | promise _ _ _ | projection _ _ => false
  | _ => true

theorem over_leaf {t : Ty} (leaf : t.isLeaf = true) : t.Over v ↔ v.admits t = true := by
  cases t <;> simp [Over, anyPart, isLeaf] at leaf ⊢

theorem replace_leaf {f : Ty → Option Ty} {t : Ty} (leaf : t.isLeaf = true) (kept : f t = none) :
    t.replace f = t := by
  cases t <;> simp [Ty.replace, kept, isLeaf] at leaf ⊢

/-- Nothing is replaced where there is nothing to put in. -/
theorem replace_none {f : Ty → Option Ty} (nothing : ∀ t, f t = none) (t : Ty) :
    t.replace f = t := by
  have list {ts : List Ty} (each : ∀ t ∈ ts, t.replace f = t) : replaceList f ts = ts := by
    induction ts with
    | nil => rfl
    | cons t rest ih =>
      rw [List.forall_mem_cons] at each
      rw [replaceList, each.1, ih each.2]
  have constraints {assoc : List (String × Ty)} (each : ∀ c ∈ assoc, c.2.replace f = c.2) :
      replaceAssoc f assoc = assoc := by
    induction assoc with
    | nil => rfl
    | cons c rest ih =>
      rw [List.forall_mem_cons] at each
      rw [replaceAssoc, each.1, ih each.2]
  induction t using inductionOn with
  | named path args ih => rw [Ty.replace, nothing, list ih]
  | fn params ret ihs ih => rw [Ty.replace, nothing, list ihs, ih]
  | promise path args assoc ihs ihc => rw [Ty.replace, nothing, list ihs, constraints ihc]
  | projection base name ih => rw [Ty.replace, nothing, ih]
  | param name => exact replace_leaf rfl (nothing _)
  | const value => exact replace_leaf rfl (nothing _)
  | selfTy => exact replace_leaf rfl (nothing _)
  | infer => exact replace_leaf rfl (nothing _)
  | unit => exact replace_leaf rfl (nothing _)

theorem substitute_nil (t : Ty) : t.substitute [] = t := by
  refine replace_none (fun t => ?_) t
  cases t <;> rfl

/-- Parts put in are over the new vocabulary, and parts left alone are admitted by it. -/
theorem Over.replace {f : Ty → Option Ty} {t : Ty} (drawn : t.Over v)
    (put : ∀ t u, t.Over v → f t = some u → u.Over w)
    (left : ∀ t, v.admits t = true → f t = none → w.admits t = true) : (t.replace f).Over w := by
  have changed {t u : Ty} (drawn : t.Over v) (found : f t = some u) : (t.replace f).Over w :=
    replace_of_some found ▸ put t u drawn found
  have unchanged {t : Ty} (leaf : t.isLeaf = true) (drawn : t.Over v) : (t.replace f).Over w := by
    cases found : f t with
    | some u => exact changed drawn found
    | none =>
      rw [replace_leaf leaf found]
      exact (over_leaf leaf).mpr (left t drawn.admits found)
  induction t using inductionOn with
  | named path args ih =>
    cases found : f (named path args) with
    | some u => exact changed drawn found
    | none =>
      rw [Ty.replace, found]
      refine over_named.mpr ⟨left _ drawn.admits found, fun t member => ?_⟩
      obtain ⟨u, inside, rfl⟩ := mem_replaceList.mp member
      exact ih u inside ((over_named.mp drawn).2 u inside)
  | fn params ret ihs ih =>
    cases found : f (fn params ret) with
    | some u => exact changed drawn found
    | none =>
      rw [Ty.replace, found]
      refine over_fn.mpr ⟨fun t member => ?_, ih (over_fn.mp drawn).2⟩
      obtain ⟨u, inside, rfl⟩ := mem_replaceList.mp member
      exact ihs u inside ((over_fn.mp drawn).1 u inside)
  | promise path args assoc ihs ihc =>
    cases found : f (promise path args assoc) with
    | some u => exact changed drawn found
    | none =>
      rw [Ty.replace, found]
      refine over_promise.mpr ⟨left _ drawn.admits found, fun t member => ?_, fun c member => ?_⟩
      · obtain ⟨u, inside, rfl⟩ := mem_replaceList.mp member
        exact ihs u inside ((over_promise.mp drawn).2.1 u inside)
      · obtain ⟨b, inside, rfl⟩ := mem_replaceAssoc.mp member
        exact ihc b inside ((over_promise.mp drawn).2.2 b inside)
  | projection base name ih =>
    cases found : f (projection base name) with
    | some u => exact changed drawn found
    | none =>
      rw [Ty.replace, found]
      exact over_projection.mpr (ih (over_projection.mp drawn))
  | param name => exact unchanged rfl drawn
  | const value => exact unchanged rfl drawn
  | selfTy => exact unchanged rfl drawn
  | infer => exact unchanged rfl drawn
  | unit => exact unchanged rfl drawn

/-- A type put in the place of `Self` is over the new vocabulary, and so is all the rest. -/
theorem Over.withSelf {t self : Ty} (drawn : t.Over v) (put : self.Over w)
    (left : ∀ t, v.admits t = true → t ≠ selfTy → w.admits t = true) :
    (t.withSelf self).Over w := by
  refine drawn.replace (fun part u _ found => ?_) fun part admitted kept => left part admitted ?_
  · split at found
    · cases found
      exact put
    · cases found
  · rintro rfl
    cases kept

/-- Types put in the places of parameters are over the new vocabulary, and so is all the rest. -/
theorem Over.substitute {t : Ty} {s : Subst} (drawn : t.Over v)
    (put : ∀ name u, s.get? name = some u → u.Over w)
    (left : ∀ t, v.admits t = true → (∀ name, t = param name → s.get? name = none) →
      w.admits t = true) : (t.substitute s).Over w := by
  refine drawn.replace (fun part u _ found => ?_) fun part admitted kept => left part admitted ?_
  · split at found
    · exact put _ u found
    · cases found
  · rintro name rfl
    exact kept

/-! ### Several types -/

/-- Every type of a list is over a vocabulary. -/
def AllOver (v : Vocabulary) (ts : List Ty) : Prop := ∀ t ∈ ts, t.Over v

instance (v : Vocabulary) (ts : List Ty) : Decidable (AllOver v ts) :=
  inferInstanceAs (Decidable (∀ t ∈ ts, t.Over v))

@[simp] theorem allOver_nil : AllOver v [] := nofun

@[simp] theorem allOver_cons {t : Ty} {ts : List Ty} :
    AllOver v (t :: ts) ↔ t.Over v ∧ AllOver v ts := List.forall_mem_cons

@[simp] theorem allOver_append {ts us : List Ty} :
    AllOver v (ts ++ us) ↔ AllOver v ts ∧ AllOver v us := List.forall_mem_append

@[simp] theorem allOver_map {α : Type} {f : α → Ty} {as : List α} :
    AllOver v (as.map f) ↔ ∀ a ∈ as, (f a).Over v := List.forall_mem_map

@[simp] theorem allOver_flatMap {α : Type} {f : α → List Ty} {as : List α} :
    AllOver v (as.flatMap f) ↔ ∀ a ∈ as, AllOver v (f a) := by
  simp only [AllOver, List.mem_flatMap, forall_exists_index, and_imp]
  exact ⟨fun all a among t inside => all t a among inside,
    fun all t a among inside => all a among t inside⟩

@[simp] theorem allOver_toList {t : Option Ty} : AllOver v t.toList ↔ ∀ u ∈ t, u.Over v := by
  simp [AllOver]

theorem AllOver.mono {ts : List Ty} (drawn : AllOver v ts) (within : v.Within w) :
    AllOver w ts := fun t member => (drawn t member).mono within

end Ty

/-- A trait reference as the type that is known by it alone. -/
def TraitRef.asTy (t : TraitRef) : Ty := .promise t.path t.args t.assoc

end Pipeline
