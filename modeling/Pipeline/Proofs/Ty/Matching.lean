import Pipeline.Proofs.Ty.Openness
import Pipeline.Ty.Unify

/-!
# Patterns laid over definite types

A definite type has no wildcard and no opaque type in it. Where a pattern is laid over one and
fits, the bindings made on the way turn the pattern into the type, up to wildcards in the pattern;
and where bindings to definite types turn a pattern into a type, the pattern fits this type and no
other bindings are made. What else is no part of the types is no part of what is bound either.
-/

set_option autoImplicit false
set_option relaxedAutoImplicit false

namespace Pipeline

namespace Ty

/-- True for a part that stands for types which are not known. -/
def isVague : Ty → Bool
  | infer => true
  | promise _ _ _ => true
  | _ => false

/-- The parts of a kind include all those that stand for types which are not known. -/
def CoversVague (kind : Ty → Bool) : Prop := ∀ t : Ty, t.isVague = true → kind t = true

variable {kind : Ty → Bool}

theorem CoversVague.not_infer (covers : CoversVague kind) : ¬ infer.Without kind := by
  rw [without_leaf rfl, covers infer rfl]
  decide

theorem CoversVague.not_promise (covers : CoversVague kind) {path : String} {args : List Ty}
    {assoc : List (String × Ty)} : ¬ (promise path args assoc).Without kind := by
  rw [without_promise, covers _ rfl]
  simp

theorem CoversVague.noWildcard (covers : CoversVague kind) {t : Ty} (definite : t.Without kind) :
    t.Without isInfer :=
  definite.mono fun part wildcard => covers part (by cases part <;> first | rfl | cases wildcard)

/-- A definite type fits itself. -/
theorem CoversVague.fits_self (covers : CoversVague kind) {t : Ty} (definite : t.Without kind) :
    t.fits t = true := by
  have once : t.Without repeatsConstraint := definite.mono fun part repeats =>
    covers part (by cases part <;> first | rfl | cases repeats)
  exact Ty.fits_self once

end Ty

/-! ### Bindings -/

namespace Subst

variable {kind : Ty → Bool} {vars : List String} {s s' s'' : Subst}

/-- All bindings of one substitution are bindings of the other. -/
def Within (s s' : Subst) : Prop := ∀ name t, s.get? name = some t → s'.get? name = some t

theorem Within.refl : s.Within s := fun _ _ found => found

theorem Within.trans (first : s.Within s') (second : s'.Within s'') : s.Within s'' :=
  fun name t found => second name t (first name t found)

/-- Only variables are bound, and only to types without parts of a kind. -/
def Binds (kind : Ty → Bool) (vars : List String) (s : Subst) : Prop :=
  ∀ name t, s.get? name = some t → name ∈ vars ∧ t.Without kind

theorem binds_nil : Binds kind vars [] := nofun

theorem Binds.get?_eq_none {name : String} (binds : s.Binds kind vars) (outside : name ∉ vars) :
    s.get? name = none := by
  cases found : s.get? name with
  | none => rfl
  | some t => exact absurd (binds name t found).1 outside

theorem get?_insert_self (name : String) (t : Ty) (s : Subst) :
    (NameMap.insert name t s).get? name = some t := by
  simp [NameMap.get?_insert]

theorem within_insert {name : String} {t : Ty} (fresh : s.get? name = none) :
    s.Within (NameMap.insert name t s) := by
  intro n u before
  rw [NameMap.get?_insert, if_neg]
  · exact before
  · rintro rfl
    cases fresh.symm.trans before

theorem Within.insert {name : String} {t : Ty} (within : s.Within s')
    (found : s'.get? name = some t) : Subst.Within (NameMap.insert name t s) s' := by
  intro n u after
  rw [NameMap.get?_insert] at after
  split at after
  · rename_i same
    cases after
    exact same ▸ found
  · exact within n u after

theorem Binds.insert {name : String} {t : Ty} (binds : s.Binds kind vars) (listed : name ∈ vars)
    (definite : t.Without kind) : Subst.Binds kind vars (NameMap.insert name t s) := by
  intro n u after
  rw [NameMap.get?_insert] at after
  split at after
  · rename_i same
    cases after
    exact ⟨same ▸ listed, definite⟩
  · exact binds n u after

/-- Every variable of the pattern is bound. -/
def Decides (vars : List String) (s : Subst) (p : Ty) : Prop :=
  p.ParamsIn fun name => !vars.contains name || (s.get? name).isSome

theorem Decides.mono {p : Ty} (decides : s.Decides vars p) (within : s.Within s') :
    s'.Decides vars p := by
  refine Ty.Over.mono decides fun part admitted => ?_
  cases part with
  | param name =>
    simp only [Vocabulary.admits, Bool.or_eq_true] at admitted ⊢
    refine admitted.imp_right fun bound => ?_
    obtain ⟨t, found⟩ := Option.isSome_iff_exists.mp bound
    exact Option.isSome_iff_exists.mpr ⟨t, within name t found⟩
  | _ => exact admitted

theorem decides_param {name : String} :
    s.Decides vars (.param name) ↔ (name ∈ vars → ∃ t, s.get? name = some t) := by
  rw [Decides, Ty.ParamsIn, Ty.over_param]
  simp [Option.isSome_iff_exists, imp_iff_not_or]

end Subst

namespace Ty

variable {kind : Ty → Bool} {vars : List String} {s s' : Subst}

/-! ### A pattern that fits -/

/-- What it means for bindings that they come from laying a pattern over a definite type. -/
structure Solves (kind : Ty → Bool) (vars : List String) (p t : Ty) (s s' : Subst) : Prop where
  keeps : s.Within s'
  binds : s'.Binds kind vars
  decides : s'.Decides vars p
  /-- The pattern becomes the type, up to wildcards in it. -/
  becomes : ∀ τ : Subst, s'.Within τ → τ.Binds kind vars → (p.substitute τ).Below t

/-- The same of several patterns laid over as many types. -/
structure SolvesAll (kind : Ty → Bool) (vars : List String) (ps ts : List Ty) (s s' : Subst) :
    Prop where
  keeps : s.Within s'
  binds : s'.Binds kind vars
  decides : ∀ p ∈ ps, s'.Decides vars p
  becomes : ∀ τ : Subst, s'.Within τ → τ.Binds kind vars →
    List.Forall₂ Below (ps.map (substitute τ)) ts

/-- Parameters are laid over definite types as variables are, or fit themselves. -/
def OnParam.Sound (onParam : OnParam) (kind : Ty → Bool) (vars : List String) : Prop :=
  ∀ {name t s s'}, s.Binds kind vars → t.Without kind →
    (onParam name t s).getD (rigid name t, s) = (true, s') → Solves kind vars (param name) t s s'

variable {onParam : OnParam}

private theorem alignList_solves {ps ts : List Ty} (same : ps.length = ts.length)
    (each : ∀ p ∈ ps, ∀ {t s s'}, s.Binds kind vars → t.Without kind →
      align onParam p t s = (true, s') → Solves kind vars p t s s')
    (binds : s.Binds kind vars) (definite : ∀ t ∈ ts, t.Without kind)
    (fits : alignList onParam ps ts s = (true, s')) : SolvesAll kind vars ps ts s s' := by
  induction ps generalizing ts s with
  | nil =>
    obtain rfl := List.length_eq_zero_iff.mp same.symm
    cases fits
    exact ⟨.refl, binds, nofun, fun _ _ _ => .nil⟩
  | cons p rest ih =>
    cases ts with
    | nil => cases same
    | cons t ts =>
      rw [List.forall_mem_cons] at each definite
      obtain ⟨s₁, first, fits⟩ := alignList_cons_iff.mp fits
      have here := each.1 binds definite.1 first
      have there := ih (Nat.succ.inj same) each.2 here.binds definite.2 fits
      refine ⟨here.keeps.trans there.keeps, there.binds, ?_, fun τ within binds => ?_⟩
      · exact List.forall_mem_cons.mpr ⟨here.decides.mono there.keeps, there.decides⟩
      · exact .cons (here.becomes τ (there.keeps.trans within) binds)
          (there.becomes τ within binds)

private theorem align_solves (covers : CoversVague kind) (sound : onParam.Sound kind vars)
    {p t : Ty} (binds : s.Binds kind vars) (definite : t.Without kind)
    (fits : align onParam p t s = (true, s')) : Solves kind vars p t s s' := by
  induction p using inductionOn generalizing t s s' with
  | param name => exact sound binds definite fits
  | infer =>
    cases fits
    exact ⟨.refl, binds, rfl, fun _ _ _ => trivial⟩
  | named path args ih =>
    rw [align_named_iff] at fits
    obtain ⟨rfl, -⟩ | ⟨args', rfl, length, fits⟩ := fits
    · exact absurd definite covers.not_infer
    · have all := alignList_solves length (fun p member => ih p member) binds
        (without_named.mp definite).2 fits
      refine ⟨all.keeps, all.binds, over_named.mpr ⟨rfl, all.decides⟩, fun τ within binds => ?_⟩
      rw [substitute_named]
      exact ⟨_, rfl, belowList_iff.mpr (all.becomes τ within binds)⟩
  | fn params ret ihs ih =>
    rw [align_fn_iff] at fits
    obtain ⟨rfl, -⟩ | ⟨params', ret', s₁, rfl, length, first, fits⟩ := fits
    · exact absurd definite covers.not_infer
    · rw [without_fn] at definite
      have all := alignList_solves length (fun p member => ihs p member) binds definite.2.1 first
      have result := ih all.binds definite.2.2 fits
      refine ⟨all.keeps.trans result.keeps, result.binds, over_fn.mpr
        ⟨fun p member => (all.decides p member).mono result.keeps, result.decides⟩,
        fun τ within binds => ?_⟩
      rw [substitute_fn]
      exact ⟨_, _, rfl, belowList_iff.mpr (all.becomes τ (result.keeps.trans within) binds),
        result.becomes τ within binds⟩
  | promise path args assoc =>
    rw [align_promise_iff] at fits
    obtain ⟨rfl, -⟩ | ⟨args', assoc', -, rfl, -⟩ := fits
    · exact absurd definite covers.not_infer
    · exact absurd definite covers.not_promise
  | projection base name ih =>
    rw [align_projection_iff] at fits
    obtain ⟨rfl, -⟩ | ⟨base', rfl, fits⟩ := fits
    · exact absurd definite covers.not_infer
    · have inside := ih binds (without_projection.mp definite).2 fits
      refine ⟨inside.keeps, inside.binds, over_projection.mpr inside.decides,
        fun τ within binds => ?_⟩
      rw [substitute_projection]
      exact ⟨_, rfl, inside.becomes τ within binds⟩
  | const value =>
    simp only [align] at fits
    split at fits
    · exact absurd definite covers.not_infer
    · rename_i value'
      obtain ⟨same, rfl⟩ := Prod.mk.inj fits
      obtain rfl := eq_of_beq same
      exact ⟨.refl, binds, rfl, fun _ _ _ => rfl⟩
    · cases fits
  | selfTy | unit =>
    simp only [align] at fits
    split at fits
    · exact absurd definite covers.not_infer
    · cases fits
      exact ⟨.refl, binds, rfl, fun _ _ _ => rfl⟩
    · cases fits

private theorem rigid_solves (covers : CoversVague kind) {name : String} {t : Ty}
    (outside : name ∉ vars) (binds : s.Binds kind vars) (definite : t.Without kind)
    (fits : rigid name t = true) : Solves kind vars (param name) t s s := by
  unfold rigid at fits
  split at fits
  · obtain rfl := eq_of_beq fits
    refine ⟨.refl, binds, Subst.decides_param.mpr fun inside => absurd inside outside,
      fun τ _ binds => ?_⟩
    rw [substitute_param, binds.get?_eq_none outside]
    rfl
  · exact absurd definite covers.not_infer
  · cases fits

/-- What fits a definite type is that type, up to wildcards. -/
theorem CoversVague.below_of_fits (covers : CoversVague kind) {t u : Ty} (definite : u.Without kind)
    (fits : t.fits u = true) : t.Below u := by
  have sound : OnParam.Sound (fun _ _ _ => none) kind [] := by
    intro name t s s' binds definite fits
    obtain ⟨own, rfl⟩ := Prod.mk.inj (show (rigid name t, s) = (true, s') from fits)
    exact rigid_solves covers List.not_mem_nil binds definite own
  have solved := align_solves covers sound Subst.binds_nil definite (Prod.ext fits rfl)
  have becomes := solved.becomes []
    (fun name t found => absurd (solved.binds name t found).1 List.not_mem_nil) Subst.binds_nil
  rwa [substitute_nil] at becomes

/-- Definite types that fit are the same. -/
theorem CoversVague.eq_of_fits (covers : CoversVague kind) {t u : Ty} (definite : t.Without kind)
    (other : u.Without kind) (fits : t.fits u = true) : t = u :=
  (covers.below_of_fits other fits).eq (covers.noWildcard definite)

private theorem bindVar_sound (covers : CoversVague kind) : (bindVar vars).Sound kind vars := by
  intro name t s s' binds definite fits
  unfold bindVar at fits
  split at fits
  · rename_i listed
    have listed := List.contains_iff_mem.mp listed
    cases found : s.get? name with
    | some bound =>
      rw [found] at fits
      obtain ⟨again, rfl⟩ := Prod.mk.inj fits
      have same := covers.eq_of_fits (binds name bound found).2 definite again
      subst same
      refine ⟨.refl, binds, Subst.decides_param.mpr fun _ => ⟨bound, found⟩, fun τ within _ => ?_⟩
      rw [substitute_param, within name bound found]
      exact below_refl bound
    | none =>
      rw [found] at fits
      obtain ⟨-, rfl⟩ := Prod.mk.inj fits
      have other : t ≠ infer := by
        rintro rfl
        exact covers.not_infer definite
      rw [if_neg other]
      have here := Subst.get?_insert_self name t s
      refine ⟨Subst.within_insert found, binds.insert listed definite,
        Subst.decides_param.mpr fun _ => ⟨t, here⟩, fun τ within _ => ?_⟩
      rw [substitute_param, within name t here]
      exact below_refl t
  · rename_i rest
    obtain ⟨own, rfl⟩ := Prod.mk.inj fits
    exact rigid_solves covers (fun inside => rest (List.contains_iff_mem.mpr inside)) binds
      definite own

/-- The bindings by which a pattern fits a definite type turn it into this type, up to wildcards. -/
theorem CoversVague.solves (covers : CoversVague kind) {p t : Ty} (binds : s.Binds kind vars)
    (definite : t.Without kind) (fits : unify vars p t s = (true, s')) :
    Solves kind vars p t s s' :=
  align_solves covers (bindVar_sound covers) binds definite fits

theorem CoversVague.solvesAll (covers : CoversVague kind) {ps ts : List Ty}
    (same : ps.length = ts.length) (binds : s.Binds kind vars)
    (definite : ∀ t ∈ ts, t.Without kind) (fits : unifyAll vars ps ts s = (true, s')) :
    SolvesAll kind vars ps ts s s' :=
  alignList_solves same (fun _ _ => align_solves covers (bindVar_sound covers)) binds definite fits

/-! ### A pattern that is made to fit -/

variable {τ : Subst}

private theorem map_fst_of_forall₂ {ts us : List (String × Ty)}
    (all : List.Forall₂ (fun c d => c.1 = d.1 ∧ c.2.Below d.2) ts us) :
    ts.map (·.1) = us.map (·.1) := by
  induction all with
  | nil => rfl
  | cons here _ ih => rw [List.map_cons, List.map_cons, here.1, ih]

private theorem exists_of_forall₂_left {ts us : List (String × Ty)}
    (all : List.Forall₂ (fun c d => c.1 = d.1 ∧ c.2.Below d.2) ts us) {c : String × Ty}
    (member : c ∈ ts) : ∃ d ∈ us, c.1 = d.1 ∧ c.2.Below d.2 := by
  induction all with
  | nil => cases member
  | cons here _ ih =>
    rcases List.mem_cons.mp member with rfl | behind
    · exact ⟨_, List.mem_cons_self, here⟩
    · obtain ⟨d, inside, below⟩ := ih behind
      exact ⟨d, List.mem_cons_of_mem _ inside, below⟩

/-- Bindings are made on the way to a substitution, by which all variables of patterns are bound. -/
structure Grows (vars : List String) (τ : Subst) (ps : List Ty) (s s' : Subst) : Prop where
  keeps : s.Within s'
  within : s'.Within τ
  decides : ∀ p ∈ ps, s'.Decides vars p

/-- Patterns fit, and the bindings made belong to a substitution. -/
def Reaches (vars : List String) (τ : Subst) (ps : List Ty) (s : Subst) (r : Bool × Subst) : Prop :=
  ∃ s', r = (true, s') ∧ Grows vars τ ps s s'

theorem Grows.trans {ps qs : List Ty} {s₁ s₂ : Subst} (first : Grows vars τ ps s s₁)
    (second : Grows vars τ qs s₁ s₂) : Grows vars τ (ps ++ qs) s s₂ where
  keeps := first.keeps.trans second.keeps
  within := second.within
  decides p member := by
    rcases List.mem_append.mp member with before | behind
    · exact (first.decides p before).mono second.keeps
    · exact second.decides p behind

/-- What is made on the way through its parts is made on the way through a pattern. -/
theorem Grows.single {ps : List Ty} {p : Ty} (grows : Grows vars τ ps s s')
    (decides : s'.Decides vars p) : Grows vars τ [p] s s' :=
  ⟨grows.keeps, grows.within, List.forall_mem_singleton.mpr decides⟩

private theorem unifyAll_reaches {ps ts : List Ty}
    (each : ∀ p ∈ ps, ∀ {t : Ty} {s : Subst}, (p.substitute τ).Below t → s.Within τ →
      Reaches vars τ [p] s (unify vars p t s))
    (become : List.Forall₂ Below (ps.map (substitute τ)) ts) (within : s.Within τ) :
    Reaches vars τ ps s (unifyAll vars ps ts s) := by
  induction ps generalizing ts s with
  | nil => exact ⟨s, rfl, .refl, within, nofun⟩
  | cons p rest ih =>
    rw [List.forall_mem_cons] at each
    cases become with
    | cons here there =>
      obtain ⟨s₁, first, grows⟩ := each.1 here within
      obtain ⟨s₂, more, further⟩ := ih each.2 there grows.within
      refine ⟨s₂, ?_, grows.trans further⟩
      rw [unifyAll, alignList]
      rw [unify] at first
      rw [first]
      exact more

private theorem alignAssoc_reaches {ps ts : List (String × Ty)}
    (each : ∀ c ∈ ps, ∀ {t : Ty} {s : Subst}, (c.2.substitute τ).Below t → s.Within τ →
      Reaches vars τ [c.2] s (unify vars c.2 t s))
    (found : ∀ c ∈ ps, ∃ t, ts.find? (·.1 == c.1) = some (c.1, t) ∧ (c.2.substitute τ).Below t)
    (within : s.Within τ) : Reaches vars τ (ps.map (·.2)) s (alignAssoc (bindVar vars) ps ts s) := by
  induction ps generalizing s with
  | nil => exact ⟨s, rfl, .refl, within, nofun⟩
  | cons c rest ih =>
    rw [List.forall_mem_cons] at each found
    obtain ⟨t, given, become⟩ := found.1
    obtain ⟨s₁, first, grows⟩ := each.1 become within
    obtain ⟨s₂, more, further⟩ := ih each.2 found.2 grows.within
    refine ⟨s₂, ?_, grows.trans further⟩
    rw [alignAssoc, given]
    rw [unify] at first
    dsimp only
    rw [first]
    exact more

/-- Where names are not repeated, each constraint is found under its name. -/
private theorem find?_below {ps ts : List (String × Ty)} (distinct : (ps.map (·.1)).Nodup)
    (below : List.Forall₂ (fun c d => c.1 = d.1 ∧ c.2.Below d.2)
      (ps.map fun c => (c.1, c.2.substitute τ)) ts) :
    ∀ c ∈ ps, ∃ t, ts.find? (·.1 == c.1) = some (c.1, t) ∧ (c.2.substitute τ).Below t := by
  have names : ts.map (·.1) = ps.map (·.1) := by
    rw [← map_fst_of_forall₂ below, List.map_map]
    rfl
  intro c member
  obtain ⟨d, member', same, here⟩ := exists_of_forall₂_left below (List.mem_map_of_mem member)
  have same : c.1 = d.1 := same
  refine ⟨d.2, ?_, here⟩
  rw [same]
  exact find?_name (names ▸ distinct) member'

private theorem reaches_closed {p : Ty} {r : Bool × Subst} (within : s.Within τ)
    (fits : r = (true, s)) (decides : s.Decides vars p) : Reaches vars τ [p] s r :=
  ⟨s, fits, .refl, within, List.forall_mem_singleton.mpr decides⟩

/-- A parameter fits what it is bound to; one that is no variable fits itself. -/
private theorem param_reaches (covers : CoversVague kind) {name : String} {t : Ty}
    (binds : τ.Binds kind vars) (decides : τ.Decides vars (param name))
    (become : ((param name).substitute τ).Below t) (within : s.Within τ) :
    Reaches vars τ [param name] s (unify vars (param name) t s) := by
  rw [unify, align, bindVar]
  split
  · rename_i listed
    obtain ⟨u, found⟩ := Subst.decides_param.mp decides (List.contains_iff_mem.mp listed)
    have definite := (binds name u found).2
    rw [substitute_param, found] at become
    obtain rfl : u = t := become.eq (covers.noWildcard definite)
    cases bound : s.get? name with
    | some v =>
      cases found.symm.trans (within name v bound)
      exact reaches_closed within (by rw [Option.getD_some, covers.fits_self definite])
        (Subst.decides_param.mpr fun _ => ⟨u, bound⟩)
    | none =>
      have other : u ≠ infer := by
        rintro rfl
        exact covers.not_infer definite
      exact ⟨s.insert name u, by rw [Option.getD_some, if_neg other], Subst.within_insert bound,
        within.insert found, List.forall_mem_singleton.mpr
          (Subst.decides_param.mpr fun _ => ⟨u, Subst.get?_insert_self name u s⟩)⟩
  · rename_i rest
    have outside : name ∉ vars := fun inside => rest (List.contains_iff_mem.mpr inside)
    rw [substitute_param, binds.get?_eq_none outside] at become
    cases (show param name = t from become)
    exact reaches_closed within (by simp [rigid])
      (Subst.decides_param.mpr fun inside => absurd inside outside)

/-- A pattern fits a type that bindings to definite types turn it into, if no opaque type in it
repeats a constraint. -/
theorem CoversVague.reaches (covers : CoversVague kind) {p t : Ty} (binds : τ.Binds kind vars)
    (decides : τ.Decides vars p) (once : p.Without repeatsConstraint)
    (become : (p.substitute τ).Below t) (within : s.Within τ) :
    Reaches vars τ [p] s (unify vars p t s) := by
  induction p using inductionOn generalizing t s with
  | param name => exact param_reaches covers binds decides become within
  | infer => exact reaches_closed within rfl rfl
  | named path args ih =>
    rw [substitute_named] at become
    obtain ⟨args', rfl, inside⟩ := become
    have inside := belowList_iff.mp inside
    have length := inside.length_eq
    rw [List.length_map] at length
    obtain ⟨s₁, fits, grows⟩ := unifyAll_reaches (fun p member => ih p member
      ((over_named.mp decides).2 p member) ((without_named.mp once).2 p member)) inside within
    rw [unify, align, if_pos ⟨rfl, length⟩]
    exact ⟨s₁, fits, grows.single (over_named.mpr ⟨rfl, grows.decides⟩)⟩
  | fn params ret ihs ih =>
    rw [substitute_fn] at become
    obtain ⟨params', ret', rfl, inside, result⟩ := become
    rw [without_fn] at once
    have inside := belowList_iff.mp inside
    have length := inside.length_eq
    rw [List.length_map] at length
    obtain ⟨s₁, first, grows⟩ := unifyAll_reaches (fun p member =>
      ihs p member ((over_fn.mp decides).1 p member) (once.2.1 p member)) inside within
    obtain ⟨s₂, more, further⟩ := ih (over_fn.mp decides).2 once.2.2 result grows.within
    rw [unifyAll] at first
    rw [unify, align, if_pos length, first]
    have both := grows.trans further
    obtain ⟨decidesParams, decidesRet⟩ := List.forall_mem_append.mp both.decides
    exact ⟨s₂, more, both.single
      (over_fn.mpr ⟨decidesParams, decidesRet ret List.mem_cons_self⟩)⟩
  | promise path args assoc ihs ihc =>
    rw [substitute_promise] at become
    obtain ⟨args', assoc', rfl, inside, constraints⟩ := become
    rw [without_promise] at once
    obtain ⟨-, decidesArgs, decidesAssoc⟩ := over_promise.mp decides
    have inside := belowList_iff.mp inside
    have length := inside.length_eq
    rw [List.length_map] at length
    have distinct : (assoc.map (·.1)).Nodup := by simpa [repeatsConstraint] using once.1
    obtain ⟨s₁, first, grows⟩ := unifyAll_reaches (fun p member =>
      ihs p member (decidesArgs p member) (once.2.1 p member)) inside within
    obtain ⟨s₂, more, further⟩ := alignAssoc_reaches (fun c member =>
      ihc c member (decidesAssoc c member) (once.2.2 c member))
      (find?_below distinct (belowAssoc_iff.mp constraints)) grows.within
    rw [unifyAll] at first
    rw [unify, align, if_pos ⟨rfl, length⟩, first]
    have both := grows.trans further
    obtain ⟨decidesArgs, decidesAssoc⟩ := List.forall_mem_append.mp both.decides
    exact ⟨s₂, more, both.single
      (over_promise.mpr ⟨rfl, decidesArgs, List.forall_mem_map.mp decidesAssoc⟩)⟩
  | projection base name ih =>
    rw [substitute_projection] at become
    obtain ⟨base', rfl, inside⟩ := become
    obtain ⟨s₁, fits, grows⟩ :=
      ih (over_projection.mp decides) (without_projection.mp once).2 inside within
    rw [unify, align, if_pos rfl]
    exact ⟨s₁, fits, grows.single (over_projection.mpr (grows.decides base List.mem_cons_self))⟩
  | const value =>
    cases (show const value = t from become)
    exact reaches_closed within (by simp [unify, align]) rfl
  | selfTy | unit =>
    obtain rfl := become
    exact reaches_closed within rfl rfl

theorem CoversVague.reachesAll (covers : CoversVague kind) {ps ts : List Ty}
    (binds : τ.Binds kind vars) (decides : ∀ p ∈ ps, τ.Decides vars p)
    (once : ∀ p ∈ ps, p.Without repeatsConstraint)
    (become : List.Forall₂ Below (ps.map (substitute τ)) ts) (within : s.Within τ) :
    Reaches vars τ ps s (unifyAll vars ps ts s) :=
  unifyAll_reaches (fun p member => covers.reaches binds (decides p member) (once p member)) become
    within

/-- Variables that are not bound yet fit any types but the wildcard, and become them. -/
theorem unifyAll_params {names : List String} (distinct : names.Nodup)
    (listed : ∀ name ∈ names, name ∈ vars) {ts : List Ty} (same : names.length = ts.length)
    (known : ∀ t ∈ ts, t ≠ infer) (fresh : ∀ name ∈ names, s.get? name = none) :
    ∃ s', unifyAll vars (names.map param) ts s = (true, s') ∧ s.Within s' ∧
      (names.map param).map (substitute s') = ts := by
  induction names generalizing ts s with
  | nil =>
    obtain rfl := List.length_eq_zero_iff.mp same.symm
    exact ⟨s, rfl, .refl, rfl⟩
  | cons name rest ih =>
    cases ts with
    | nil => cases same
    | cons t ts =>
      rw [List.forall_mem_cons] at listed known fresh
      rw [List.nodup_cons] at distinct
      have unbound : ∀ n ∈ rest, (NameMap.insert name t s).get? n = none := by
        intro n member
        have other : name ≠ n := by
          rintro rfl
          exact distinct.1 member
        rw [NameMap.get?_insert, if_neg other, fresh.2 n member]
      obtain ⟨s', more, within, become⟩ :=
        ih distinct.2 listed.2 (Nat.succ.inj same) known.2 unbound
      refine ⟨s', ?_, (Subst.within_insert fresh.1).trans within, ?_⟩
      · rw [unifyAll, List.map_cons, alignList, align, bindVar,
          if_pos (List.contains_iff_mem.mpr listed.1), fresh.1]
        dsimp only
        rw [Option.getD_some, if_neg known.1]
        exact more
      · rw [List.map_cons, List.map_cons, become, substitute_param,
          within name t (Subst.get?_insert_self name t s)]
        rfl

end Ty

/-! ### Types without aliases -/

namespace Store

variable {store : Store}

/-- True for a part that stands for other types: for those not known, or for those of an alias. -/
def standsForOthers (store : Store) (t : Ty) : Bool := t.isVague || store.isAlias t

theorem coversVague_standsForOthers : Ty.CoversVague store.standsForOthers :=
  fun _ vague => Bool.or_eq_true_iff.mpr (Or.inl vague)

theorem aliasFree_of_settled {t : Ty} (settled : t.Without store.standsForOthers) :
    store.AliasFree t :=
  settled.mono fun _ synonym => Bool.or_eq_true_iff.mpr (Or.inr synonym)

end Store
end Pipeline
