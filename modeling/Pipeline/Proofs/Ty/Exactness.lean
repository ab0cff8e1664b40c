import Pipeline.Proofs.Ty.Matching

/-!
# Exact matching

Where nothing in a pattern, in a type and in the bindings at hand stands for types that are not
known, a pattern fits a type exactly when its variables can be given types that turn it into this
type. Then the bindings end as these types, for the variables of the pattern and those that were
bound before. Bindings of names that are no variables are neither read nor changed on the way.
-/

set_option autoImplicit false
set_option relaxedAutoImplicit false

namespace Pipeline

/-! ### Parts of substitutions -/

namespace Subst

variable {s : Subst}

/-- What some names stand for; a name without an entry stands for itself. -/
def valuesOf (names : List String) (s : Subst) : Subst :=
  names.map fun name => (name, (Ty.param name).substitute s)

theorem get?_valuesOf (names : List String) (s : Subst) (name : String) :
    (s.valuesOf names).get? name =
      if name ∈ names then some ((Ty.param name).substitute s) else none :=
  NameMap.get?_map_names names _ name

/-- The bindings of variables. -/
def ofVars (vars : List String) (s : Subst) : Subst := s.filter fun entry => vars.contains entry.1

theorem get?_ofVars (vars : List String) (s : Subst) (name : String) :
    (s.ofVars vars).get? name = if name ∈ vars then s.get? name else none := by
  unfold ofVars
  induction s with
  | nil => simp [NameMap.get?]
  | cons entry rest ih =>
    obtain ⟨first, t⟩ := entry
    rw [List.filter_cons]
    by_cases listed : first ∈ vars
    · rw [if_pos (List.contains_iff_mem.mpr listed), NameMap.get?, NameMap.get?, ih]
      by_cases here : first = name
      · simp [here, here ▸ listed]
      · simp [here]
    · rw [if_neg fun inside => listed (List.contains_iff_mem.mp inside), NameMap.get?, ih]
      by_cases here : first = name
      · simp [here ▸ listed]
      · simp [here]

theorem mem_names_of_get? {name : String} {t : Ty} (found : s.get? name = some t) :
    name ∈ s.names :=
  List.mem_map.mpr ⟨(name, t), NameMap.mem_of_get? found, rfl⟩

end Subst

namespace Ty

variable {vars : List String} {p t : Ty} {s τ : Subst}

/-! ### Definite types -/

theorem coversVague_isVague : CoversVague isVague := fun _ vague => vague

theorem Without.once (definite : p.Without isVague) : p.Without repeatsConstraint :=
  definite.mono fun part repeats => by cases part <;> first | rfl | cases repeats

/-- A definite pattern becomes a definite type when its parameters do. -/
theorem without_substitute_iff (definite : p.Without isVague) :
    (p.substitute τ).Without isVague ↔
      ∀ name ∈ p.params, ((param name).substitute τ).Without isVague := by
  induction p using inductionOn with
  | named path args ih =>
    have each := (without_named.mp definite).2
    rw [substitute_named, without_named, List.forall_mem_map]
    simp only [params, mem_paramsList, forall_exists_index, and_imp]
    constructor
    · rintro ⟨-, inside⟩ name arg member mentioned
      exact (ih arg member (each arg member)).mp (inside arg member) name mentioned
    · intro inside
      refine ⟨rfl, fun arg member => (ih arg member (each arg member)).mpr fun name mentioned => ?_⟩
      exact inside name arg member mentioned
  | param name => simp [params]
  | fn ps ret ihs ih =>
    obtain ⟨-, each, result⟩ := without_fn.mp definite
    rw [substitute_fn, without_fn, List.forall_mem_map, ih result]
    simp only [params, List.mem_append, mem_paramsList, or_imp, forall_and, forall_exists_index,
      and_imp]
    constructor
    · rintro ⟨-, inside, ret⟩
      refine ⟨fun name arg member mentioned => ?_, ret⟩
      exact (ihs arg member (each arg member)).mp (inside arg member) name mentioned
    · rintro ⟨inside, ret⟩
      refine ⟨rfl, fun arg member => ?_, ret⟩
      exact (ihs arg member (each arg member)).mpr fun name => inside name arg member
  | promise path args assoc => exact absurd definite coversVague_isVague.not_promise
  | projection base name ih =>
    rw [substitute_projection, without_projection, ih (without_projection.mp definite).2]
    exact and_iff_right rfl
  | infer => exact absurd definite coversVague_isVague.not_infer
  | const | selfTy | unit => exact iff_of_true rfl (List.forall_mem_nil _)

/-! ### Solutions -/

/-- Types for variables, among them those that are bound already, that turn a pattern into a type.
-/
structure Solution (vars : List String) (s : Subst) (p t : Ty) (τ : Subst) : Prop where
  ofVars : ∀ name u, τ.get? name = some u → name ∈ vars
  keeps : ∀ name ∈ vars, ∀ u, s.get? name = some u → τ.get? name = some u
  becomes : p.substitute τ = t

/-- Only the bindings of variables are read, and no others change. -/
theorem unify_ofVars (vars : List String) (p t : Ty) (s : Subst) :
    (unify vars p t s).1 = (unify vars p t (s.ofVars vars)).1 ∧
      ∀ name, (unify vars p t s).2.get? name =
        if name ∈ vars then (unify vars p t (s.ofVars vars)).2.get? name else s.get? name := by
  let Same (s₁ s₂ : Subst) : Prop :=
    ∀ name, s₁.get? name = if name ∈ vars then s₂.get? name else s.get? name
  have alike : Alike Same (unify vars p t s) (unify vars p t (s.ofVars vars)) := by
    apply align_alike
    case related =>
      intro name
      rw [Subst.get?_ofVars]
      split <;> rfl
    case params =>
      intro name u s₁ s₂ same
      unfold bindVar
      by_cases listed : vars.contains name = true
      · have found := same name
        rw [if_pos (List.contains_iff_mem.mp listed)] at found
        rw [if_pos listed, if_pos listed, found]
        cases s₂.get? name with
        | some bound => exact ⟨rfl, same⟩
        | none =>
          refine ⟨rfl, fun other => ?_⟩
          dsimp only [Option.getD_some]
          split
          · exact same other
          · rw [NameMap.get?_insert, NameMap.get?_insert]
            by_cases here : name = other
            · rw [if_pos here, if_pos here, if_pos (here ▸ List.contains_iff_mem.mp listed)]
            · rw [if_neg here, if_neg here, same other]
      · rw [if_neg listed, if_neg listed]
        exact ⟨rfl, same⟩
  exact alike

theorem binds_ofVars (bound : ∀ name u, s.get? name = some u → u.Without isVague) :
    (s.ofVars vars).Binds isVague vars := by
  intro name u found
  rw [Subst.get?_ofVars] at found
  split at found
  · rename_i listed
    exact ⟨listed, bound name u found⟩
  · cases found

/-- The bindings by which a pattern fits are a solution. -/
theorem exists_solution_of_unify (pattern : p.Without isVague) (target : t.Without isVague)
    (bound : ∀ name u, s.get? name = some u → u.Without isVague)
    (fits : (unify vars p t s).1 = true) : ∃ τ, Solution vars s p t τ := by
  rw [(unify_ofVars vars p t s).1] at fits
  have solved := coversVague_isVague.solves (binds_ofVars bound) target (Prod.ext fits rfl)
  have definite : (p.substitute (unify vars p t (s.ofVars vars)).2).Without isVague := by
    refine (without_substitute_iff pattern).mpr fun name _ => ?_
    rw [substitute_param]
    cases found : (unify vars p t (s.ofVars vars)).2.get? name with
    | none => rfl
    | some u => exact (solved.binds name u found).2
  refine ⟨_, fun name u found => (solved.binds name u found).1, fun name listed u found => ?_,
    (solved.becomes _ .refl solved.binds).eq (coversVague_isVague.noWildcard definite)⟩
  apply solved.keeps name u
  rw [Subst.get?_ofVars, if_pos listed, found]

/-- The variables that are bound before or occur in the pattern. -/
def bindable (vars : List String) (s : Subst) (p : Ty) : List String :=
  (s.names ++ p.params).filter fun name =>
    vars.contains name && ((s.get? name).isSome || p.params.contains name)

theorem mem_bindable {name : String} :
    name ∈ bindable vars s p ↔ name ∈ vars ∧ ((s.get? name).isSome = true ∨ name ∈ p.params) := by
  simp only [bindable, List.mem_filter, List.mem_append, Bool.and_eq_true, Bool.or_eq_true,
    List.contains_iff_mem]
  refine and_iff_right_of_imp fun ⟨_, either⟩ => either.imp_left fun some => ?_
  obtain ⟨u, found⟩ := Option.isSome_iff_exists.mp some
  exact Subst.mem_names_of_get? found

namespace Solution

/-- A solution, as far as the variables go that are bound in the end. -/
theorem valuesOf_becomes (solution : Solution vars s p t τ) :
    p.substitute (τ.valuesOf (bindable vars s p)) = t := by
  refine (substitute_congr_params fun name mentioned => ?_).trans solution.becomes
  rw [substitute_param, Subst.get?_valuesOf]
  split
  · rfl
  · rename_i outside
    cases found : τ.get? name with
    | none => rw [substitute_param, found]
    | some u =>
      have listed := solution.ofVars name u found
      exact absurd (mem_bindable.mpr ⟨listed, Or.inr mentioned⟩) outside

theorem valuesOf_binds (solution : Solution vars s p t τ) (pattern : p.Without isVague)
    (target : t.Without isVague) (bound : ∀ name u, s.get? name = some u → u.Without isVague) :
    (τ.valuesOf (bindable vars s p)).Binds isVague vars := by
  intro name u found
  rw [Subst.get?_valuesOf] at found
  split at found
  · rename_i member
    cases found
    obtain ⟨listed, before | mentioned⟩ := mem_bindable.mp member
    · obtain ⟨u, found⟩ := Option.isSome_iff_exists.mp before
      rw [substitute_param, solution.keeps name listed u found]
      exact ⟨listed, bound name u found⟩
    · have definite : (p.substitute τ).Without isVague := solution.becomes ▸ target
      exact ⟨listed, (without_substitute_iff pattern).mp definite name mentioned⟩
  · cases found

theorem valuesOf_decides (τ : Subst) : (τ.valuesOf (bindable vars s p)).Decides vars p := by
  refine paramsIn_iff.mpr fun name mentioned => ?_
  by_cases listed : name ∈ vars
  · rw [Subst.get?_valuesOf, if_pos (mem_bindable.mpr ⟨listed, Or.inr mentioned⟩)]
    exact Bool.or_true _
  · simp [listed]

theorem within_over (solution : Solution vars s p t τ) :
    (s.ofVars vars).Within (τ.valuesOf (bindable vars s p)) := by
  intro name u found
  rw [Subst.get?_ofVars] at found
  split at found
  · rename_i listed
    have before : (s.get? name).isSome = true := Option.isSome_iff_exists.mpr ⟨u, found⟩
    rw [Subst.get?_valuesOf, if_pos (mem_bindable.mpr ⟨listed, Or.inl before⟩), substitute_param,
      solution.keeps name listed u found]
    rfl
  · cases found

end Solution

/-- Where there is a solution, the pattern fits, and the bindings end as the solution has them. -/
theorem Solution.unifies (solution : Solution vars s p t τ) (pattern : p.Without isVague)
    (target : t.Without isVague) (bound : ∀ name u, s.get? name = some u → u.Without isVague) :
    (unify vars p t s).1 = true ∧ ∀ name, (unify vars p t s).2.get? name =
      if name ∈ vars then (τ.valuesOf (bindable vars s p)).get? name else s.get? name := by
  have become : (p.substitute (τ.valuesOf (bindable vars s p))).Below t := by
    rw [solution.valuesOf_becomes]
    exact below_refl t
  obtain ⟨s', fits, grows⟩ := coversVague_isVague.reaches
    (solution.valuesOf_binds pattern target bound) (Solution.valuesOf_decides τ) pattern.once become
    solution.within_over
  obtain ⟨success, result⟩ := unify_ofVars vars p t s
  rw [fits] at success result
  refine ⟨success, fun name => (result name).trans ?_⟩
  by_cases listed : name ∈ vars
  · rw [if_pos listed, if_pos listed]
    cases found : s'.get? name with
    | some u => exact (grows.within name u found).symm
    | none =>
      -- A variable that was bound before stays bound, and one of the pattern is bound on the way.
      rw [Subst.get?_valuesOf, if_neg]
      intro member
      obtain ⟨-, before | mentioned⟩ := mem_bindable.mp member
      · obtain ⟨u, earlier⟩ := Option.isSome_iff_exists.mp before
        have kept := grows.keeps name u (by rw [Subst.get?_ofVars, if_pos listed, earlier])
        cases found.symm.trans kept
      · have decided := paramsIn_iff.mp (grows.decides p List.mem_cons_self) name mentioned
        simp [listed, found] at decided
  · rw [if_neg listed, if_neg listed]

/-- **Matching is exact on definite types.** A pattern fits a type if and only if some types for the
variables, among them those that are bound already, turn it into this type. Then they are
determined: the bindings end with what every solution has for the variables bound before and those
of the pattern, and with nothing else for variables. A variable that a solution leaves alone stands
for itself. -/
theorem unify_exact (pattern : p.Without isVague) (target : t.Without isVague)
    (bound : ∀ name u, s.get? name = some u → u.Without isVague) :
    ((unify vars p t s).1 = true ↔ ∃ τ, Solution vars s p t τ) ∧
      ((unify vars p t s).1 = true → ∀ τ, Solution vars s p t τ →
        ∀ name, (unify vars p t s).2.get? name =
          if name ∈ vars then
            if (s.get? name).isSome = true ∨ name ∈ p.params then some ((param name).substitute τ)
            else none
          else s.get? name) := by
  refine ⟨⟨exists_solution_of_unify pattern target bound, ?_⟩, fun _ τ solution name => ?_⟩
  · rintro ⟨τ, solution⟩
    exact (solution.unifies pattern target bound).1
  · have result := (solution.unifies pattern target bound).2 name
    rw [Subst.get?_valuesOf] at result
    by_cases listed : name ∈ vars
    · simpa only [mem_bindable, listed, true_and, if_true] using result
    · rw [if_neg listed] at result ⊢
      exact result

/-- A variable that occurs twice, one that is bound before, and a parameter that is no variable,
though it is bound. -/
def pairPattern : Ty :=
  named "m::Pair" [param "T", fn [param "T", param "S"] (projection (param "U") "Item")]

def pairType : Ty :=
  named "m::Pair" [named "std::String" [],
    fn [named "std::String" [], param "S"] (projection (named "std::u8" []) "Item")]

def pairBindings : Subst := [("S", unit), ("U", named "std::u8" []), ("V", const "3")]

theorem unify_exact_pair :
    pairPattern.Without isVague ∧ pairType.Without isVague ∧
      (∀ name u, pairBindings.get? name = some u → u.Without isVague) ∧
      (unify ["T", "U", "V"] pairPattern pairType pairBindings).1 = true ∧
      (∃ τ, Solution ["T", "U", "V"] pairBindings pairPattern pairType τ) ∧
      ∀ τ, Solution ["T", "U", "V"] pairBindings pairPattern pairType τ → ∀ name,
        (unify ["T", "U", "V"] pairPattern pairType pairBindings).2.get? name =
          if name ∈ ["T", "U", "V"] then
            if (pairBindings.get? name).isSome = true ∨ name ∈ pairPattern.params then
              some ((param name).substitute τ)
            else none
          else pairBindings.get? name := by
  have pattern : pairPattern.Without isVague := by decide
  have target : pairType.Without isVague := by decide
  have entries : ∀ entry ∈ pairBindings, entry.2.Without isVague := by decide
  have bound : ∀ name u, pairBindings.get? name = some u → u.Without isVague :=
    fun name u found => entries (name, u) (NameMap.mem_of_get? found)
  have fits : (unify ["T", "U", "V"] pairPattern pairType pairBindings).1 = true := by
    decide +kernel
  have both :=
    @unify_exact ["T", "U", "V"] pairPattern pairType pairBindings pattern target bound
  exact ⟨pattern, target, bound, fits, both.1.mp fits, both.2 fits⟩

/-- A parameter of the type may have the name of the variable that it is laid over. -/
example : unify ["T"] (named "m::Pair" [param "T", param "T"])
    (named "m::Pair" [param "T", param "T"]) [] = (true, [("T", param "T")]) := by
  decide +kernel

end Ty
end Pipeline
