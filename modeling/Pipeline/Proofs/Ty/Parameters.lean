import Pipeline.Proofs.Ty.Substitution
import Pipeline.Ty.Unify

/-!
# The parameters that types mention

A substitution leaves the parameters alone that it has no types for. To lay a pattern over a type
binds variables to parts of this type, whether it fits or not; so no bound type mentions a parameter
that the type does not mention.
-/

set_option autoImplicit false
set_option relaxedAutoImplicit false

namespace Pipeline.Ty

variable {s : Subst} {name : String}

private theorem exists_substituted {α : Type} {f : α → Ty} {as : List α}
    (each : ∀ a ∈ as, (name ∈ ((f a).substitute s).params ↔
      ∃ n ∈ (f a).params, name ∈ ((param n).substitute s).params)) :
    (∃ a ∈ as, name ∈ ((f a).substitute s).params) ↔
      ∃ n, (∃ a ∈ as, n ∈ (f a).params) ∧ name ∈ ((param n).substitute s).params := by
  constructor
  · rintro ⟨a, member, inside⟩
    obtain ⟨n, within, put⟩ := (each a member).mp inside
    exact ⟨n, ⟨a, member, within⟩, put⟩
  · rintro ⟨n, ⟨a, member, within⟩, put⟩
    exact ⟨a, member, (each a member).mpr ⟨n, within, put⟩⟩

/-- A substitution puts its types in the places of parameters, and leaves the others alone. -/
theorem mem_params_substitute {t : Ty} : name ∈ (t.substitute s).params ↔
    ∃ n ∈ t.params, name ∈ ((param n).substitute s).params := by
  induction t using inductionOn with
  | named path args ih =>
    simp only [substitute_named, params, mem_paramsList, List.mem_map, exists_exists_and_eq_and]
    exact exists_substituted ih
  | param n => simp [params]
  | fn ps ret ihs ih =>
    simp only [substitute_fn, params, List.mem_append, mem_paramsList, List.mem_map,
      exists_exists_and_eq_and, or_and_right, exists_or, ih]
    exact or_congr_left (exists_substituted ihs)
  | promise path args assoc ihs ihc =>
    simp only [substitute_promise, params, List.mem_append, mem_paramsList, mem_paramsAssoc,
      List.mem_map, exists_exists_and_eq_and, or_and_right, exists_or]
    exact or_congr (exists_substituted ihs) (exists_substituted ihc)
  | projection base n ih => simp only [substitute_projection, params, ih]
  | const | selfTy | infer | unit => simp [params]

/-! ### Bindings -/

variable {p : String → Bool} {vars : List String}

/-- The types of a substitution mention certain parameters only. -/
def BindsIn (p : String → Bool) (s : Subst) : Prop :=
  ∀ name t, s.get? name = some t → t.ParamsIn p

/-- What follows a pattern that fits begins with the bindings of this pattern. -/
private theorem BindsIn.next {laid : Bool × Subst} {k : Subst → Bool × Subst}
    (first : BindsIn p laid.2) (following : ∀ s, BindsIn p s → BindsIn p (k s).2) :
    BindsIn p (match laid with
      | (true, s) => k s
      | (false, s) => (false, s)).2 := by
  obtain ⟨_ | _, s⟩ := laid
  · exact first
  · exact following s first

private theorem alignList_bindsIn {ps ts : List Ty}
    (each : ∀ q ∈ ps, ∀ t s, t.ParamsIn p → BindsIn p s → BindsIn p (align (bindVar vars) q t s).2)
    (inside : ∀ t ∈ ts, t.ParamsIn p) (binds : BindsIn p s) :
    BindsIn p (alignList (bindVar vars) ps ts s).2 := by
  induction ps generalizing ts s with
  | nil => exact binds
  | cons q rest ih =>
    cases ts with
    | nil => exact binds
    | cons t ts =>
      rw [List.forall_mem_cons] at each inside
      rw [alignList]
      exact (each.1 t s inside.1 binds).next fun _ => ih each.2 inside.2

private theorem alignAssoc_bindsIn {ps ts : List (String × Ty)}
    (each : ∀ c ∈ ps, ∀ t s, t.ParamsIn p → BindsIn p s →
      BindsIn p (align (bindVar vars) c.2 t s).2)
    (inside : ∀ c ∈ ts, c.2.ParamsIn p) (binds : BindsIn p s) :
    BindsIn p (alignAssoc (bindVar vars) ps ts s).2 := by
  induction ps generalizing s with
  | nil => exact binds
  | cons c rest ih =>
    rw [List.forall_mem_cons] at each
    rw [alignAssoc]
    split
    · exact ih each.2 binds
    · rename_i d t found
      have within := inside _ (List.mem_of_find?_eq_some found)
      exact (each.1 t s within binds).next fun _ => ih each.2

/-- Variables are bound to parts of the type that a pattern is laid over. -/
theorem unify_bindsIn {q t : Ty} (inside : t.ParamsIn p) (binds : BindsIn p s) :
    BindsIn p (unify vars q t s).2 := by
  unfold unify
  induction q using inductionOn generalizing t s with
  | named path args ih =>
    unfold align
    split
    · exact binds
    · split
      · exact alignList_bindsIn (fun q member t s => ih q member) (over_named.mp inside).2 binds
      · exact binds
    · exact binds
  | param name =>
    unfold align bindVar
    split
    · split
      · exact binds
      · split
        · exact binds
        · intro other u found
          rw [Option.getD_some, NameMap.get?_insert] at found
          split at found
          · cases found
            exact inside
          · exact binds other u found
    · exact binds
  | fn params ret ihs ih =>
    unfold align
    split
    · exact binds
    · rename_i params' ret'
      have parts := over_fn.mp inside
      split
      · have first := alignList_bindsIn (fun q member t s => ihs q member) parts.1 binds
        exact first.next fun _ => ih parts.2
      · exact binds
    · exact binds
  | promise path args assoc ihs ihc =>
    unfold align
    split
    · exact binds
    · have parts := over_promise.mp inside
      split
      · have first := alignList_bindsIn (fun q member t s => ihs q member) parts.2.1 binds
        exact first.next fun _ =>
          alignAssoc_bindsIn (fun c member t s => ihc c member) parts.2.2
      · exact binds
    · exact binds
  | projection base name ih =>
    unfold align
    split
    · exact binds
    · split
      · exact ih (over_projection.mp inside) binds
      · exact binds
    · exact binds
  | const | selfTy | infer | unit => cases t <;> exact binds

end Pipeline.Ty
