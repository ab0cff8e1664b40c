import Pipeline.Proofs.Ty.Merging
import Pipeline.Proofs.Ty.Occurrences

/-!
# Consistent bindings

Where the first type that a variable is laid over has wildcards, later ones may differ in their places
and fit it all the same. Then no types for variables and wildcards make the pattern the target. They
exist exactly if any two types that a variable is laid over fit each other, up to constraints on
associated types: a type that fits them all pairwise lies above all of them.
-/

set_option autoImplicit false
set_option relaxedAutoImplicit false

namespace Pipeline.Ty

variable {vars : List String}

/-! ### Equality up to constraints -/

mutual

/-- The types are the same up to constraints on associated types that only one of them has. The
first constraint of the second type on a name counts. -/
def Agrees : Ty → Ty → Prop
  | named path args, u => ∃ args', u = named path args' ∧ AgreesList args args'
  | fn params ret, u => ∃ params' ret', u = fn params' ret' ∧ AgreesList params params' ∧
      Agrees ret ret'
  | promise path args assoc, u => ∃ args' assoc', u = promise path args' assoc' ∧
      AgreesList args args' ∧ AgreesAssoc assoc assoc'
  | projection base name, u => ∃ base', u = projection base' name ∧ Agrees base base'
  | t, u => t = u

/-- The types of two lists agree, member by member. -/
def AgreesList : List Ty → List Ty → Prop
  | [], [] => True
  | t :: ts, u :: us => Agrees t u ∧ AgreesList ts us
  | _, _ => False

/-- Constraints agree with those on the same names. -/
def AgreesAssoc : List (String × Ty) → List (String × Ty) → Prop
  | [], _ => True
  | (name, t) :: ts, us =>
    (∀ d, us.find? (·.1 == name) = some d → Agrees t d.2) ∧ AgreesAssoc ts us

end

theorem agreesList_iff {ts us : List Ty} : AgreesList ts us ↔ List.Forall₂ Agrees ts us := by
  induction ts generalizing us with
  | nil => cases us <;> simp [AgreesList]
  | cons t ts ih => cases us <;> simp [AgreesList, ih]

theorem agreesAssoc_iff {ts us : List (String × Ty)} : AgreesAssoc ts us ↔
    ∀ c ∈ ts, ∀ d, us.find? (·.1 == c.1) = some d → c.2.Agrees d.2 := by
  induction ts with
  | nil => simp [AgreesAssoc]
  | cons c ts ih => rw [AgreesAssoc, ih, List.forall_mem_cons]

private theorem map_eq_map_of_forall₂ {α β : Type} {R : α → α → Prop} {f : α → β} {xs ys : List α}
    (each : List.Forall₂ R xs ys) (same : ∀ x ∈ xs, ∀ y, R x y → f x = f y) :
    xs.map f = ys.map f := by
  induction each with
  | nil => rfl
  | cons here _ ih =>
    rw [List.forall_mem_cons] at same
    rw [List.map_cons, List.map_cons, same.1 _ here, ih same.2]

/-- Types that agree are the same without constraints. -/
theorem Agrees.bare_eq {t u : Ty} (agrees : t.Agrees u) : t.bare = u.bare := by
  induction t using inductionOn generalizing u with
  | named path args ih =>
    obtain ⟨args', rfl, inside⟩ := agrees
    rw [bare_named, bare_named,
      map_eq_map_of_forall₂ (agreesList_iff.mp inside) fun t member _ => ih t member]
  | fn params ret ihs ih =>
    obtain ⟨params', ret', rfl, inside, result⟩ := agrees
    rw [bare_fn, bare_fn, ih result,
      map_eq_map_of_forall₂ (agreesList_iff.mp inside) fun t member _ => ihs t member]
  | promise path args assoc ihs =>
    obtain ⟨args', assoc', rfl, inside, -⟩ := agrees
    rw [bare_promise, bare_promise,
      map_eq_map_of_forall₂ (agreesList_iff.mp inside) fun t member _ => ihs t member]
  | projection base name ih =>
    obtain ⟨base', rfl, inside⟩ := agrees
    rw [bare_projection, bare_projection, ih inside]
  | param | const | selfTy | infer | unit => rw [show _ = u from agrees]

private theorem agreesList_map {f : Ty → Ty} {ts : List Ty} (each : ∀ t ∈ ts, t.Agrees (f t)) :
    AgreesList ts (ts.map f) :=
  agreesList_iff.mpr (List.forall₂_map_right_iff.mpr (List.forall₂_same.mpr each))

theorem agrees_bare (t : Ty) : t.Agrees t.bare := by
  induction t using inductionOn with
  | named path args ih =>
    rw [bare_named]
    exact ⟨_, rfl, agreesList_map ih⟩
  | fn params ret ihs ih =>
    rw [bare_fn]
    exact ⟨_, _, rfl, agreesList_map ihs, ih⟩
  | promise path args assoc ihs =>
    rw [bare_promise]
    exact ⟨_, [], rfl, agreesList_map ihs, agreesAssoc_iff.mpr nofun⟩
  | projection base name ih =>
    rw [bare_projection]
    exact ⟨_, rfl, ih⟩
  | param | const | selfTy | infer | unit => rfl

private theorem exists_forall₂ {R S T : Ty → Ty → Prop} {K : Ty → Prop} {ts us : List Ty}
    (each : List.Forall₂ R ts us)
    (inside : ∀ t ∈ ts, ∀ u ∈ us, R t u → ∃ w, S t w ∧ K w ∧ T u w) :
    ∃ ws : List Ty, List.Forall₂ S ts ws ∧ (∀ w ∈ ws, K w) ∧ List.Forall₂ T us ws := by
  induction each with
  | nil => exact ⟨[], .nil, nofun, .nil⟩
  | cons here _ ih =>
    obtain ⟨w, left, middle, right⟩ := inside _ List.mem_cons_self _ List.mem_cons_self here
    obtain ⟨ws, lefts, middles, rights⟩ := ih fun t member u member' =>
      inside t (List.mem_cons_of_mem _ member) u (List.mem_cons_of_mem _ member')
    exact ⟨w :: ws, .cons left lefts, List.forall_mem_cons.mpr ⟨middle, middles⟩,
      .cons right rights⟩

/-- A type whose wildcards lie in the places of parts of another one can be filled so that the two
agree. -/
theorem exists_filled {v m : Ty} (below : v.bare.Below m) (free : m.Without isConstrained)
    (known : m.Without isInfer) : ∃ w : Ty, v.Below w ∧ w.Without isInfer ∧ m.Agrees w := by
  induction v using inductionOn generalizing m with
  | named path args ih =>
    rw [bare_named] at below
    obtain ⟨ms, rfl, inside⟩ := below
    rw [without_named] at free known
    obtain ⟨ws, below, closed, agree⟩ := exists_forall₂
      (List.forall₂_map_left_iff.mp (belowList_iff.mp inside)) fun t member m member' below =>
        ih t member below (free.2 m member') (known.2 m member')
    exact ⟨named path ws, ⟨ws, rfl, belowList_iff.mpr below⟩, without_named.mpr ⟨rfl, closed⟩,
      ws, rfl, agreesList_iff.mpr agree⟩
  | fn params ret ihs ih =>
    rw [bare_fn] at below
    obtain ⟨ms, m, rfl, inside, result⟩ := below
    rw [without_fn] at free known
    obtain ⟨ws, below, closed, agree⟩ := exists_forall₂
      (List.forall₂_map_left_iff.mp (belowList_iff.mp inside)) fun t member m member' below =>
        ihs t member below (free.2.1 m member') (known.2.1 m member')
    obtain ⟨w, below', closed', agree'⟩ := ih result free.2.2 known.2.2
    exact ⟨fn ws w, ⟨ws, w, rfl, belowList_iff.mpr below, below'⟩,
      without_fn.mpr ⟨rfl, closed, closed'⟩, ws, w, rfl, agreesList_iff.mpr agree, agree'⟩
  | promise path args assoc ihs =>
    rw [bare_promise] at below
    obtain ⟨ms, assoc', rfl, inside, none⟩ := below
    obtain rfl : assoc' = [] := by simpa [BelowAssoc] using (belowAssoc_iff.mp none)
    rw [without_promise] at free known
    obtain ⟨ws, below, closed, agree⟩ := exists_forall₂
      (List.forall₂_map_left_iff.mp (belowList_iff.mp inside)) fun t member m member' below =>
        ihs t member below (free.2.1 m member') (known.2.1 m member')
    refine ⟨promise path ws (assoc.map fun c => (c.1, c.2.closed)), ⟨ws, _, rfl,
      belowList_iff.mpr below, ?_⟩, without_promise.mpr ⟨rfl, closed, ?_⟩, ws, _, rfl,
      agreesList_iff.mpr agree, trivial⟩
    · exact belowAssoc_iff.mpr (List.forall₂_map_right_iff.mpr
        (List.forall₂_same.mpr fun c _ => ⟨rfl, below_closed c.2⟩))
    · exact List.forall_mem_map.mpr fun c _ => without_isInfer_closed c.2
  | projection base name ih =>
    rw [bare_projection] at below
    obtain ⟨m, rfl, inside⟩ := below
    rw [without_projection] at free known
    obtain ⟨w, below, closed, agree⟩ := ih inside free.2 known.2
    exact ⟨projection w name, ⟨w, rfl, below⟩, without_projection.mpr ⟨rfl, closed⟩, w, rfl, agree⟩
  | infer =>
    have agree := agrees_bare m
    rw [bare_eq_self free] at agree
    exact ⟨m, trivial, known, agree⟩
  | param | const | selfTy | unit =>
    obtain rfl := below
    exact ⟨_, rfl, known, rfl⟩

/-! ### Types for variables and wildcards -/

/-- Types for wildcards and for variables that make a pattern the target, up to constraints that only
one of the two has. -/
structure Completes (vars : List String) (p t u : Ty) (σ : Subst) : Prop where
  fills : t.Below u
  known : u.Without isInfer
  binds : σ.Binds isInfer vars
  agrees : (p.substitute σ).Agrees u

variable {σ : Subst}

private theorem find?_of_forall₂ {ts us : List (String × Ty)} {name : String} {d : String × Ty}
    (each : List.Forall₂ (fun c d => c.1 = d.1 ∧ c.2.Below d.2) ts us)
    (found : ts.find? (·.1 == name) = some d) :
    ∃ e, us.find? (·.1 == name) = some e ∧ d.2.Below e.2 := by
  induction each with
  | nil => cases found
  | @cons c e ts us here _ ih =>
    by_cases named : c.1 = name
    · rw [List.find?_cons_of_pos (by simpa using named)] at found
      cases found
      exact ⟨e, List.find?_cons_of_pos (by simpa using here.1.symm.trans named), here.2⟩
    · rw [List.find?_cons_of_neg (by simpa using named)] at found
      obtain ⟨e', found', below⟩ := ih found
      have other : e.1 ≠ name := fun same => named (here.1.trans same)
      exact ⟨e', by rw [List.find?_cons_of_neg (by simpa using other), found'], below⟩

private theorem completes_of_mem {ps ts us : List Ty} {o : String × Ty}
    (each : ∀ p ∈ ps, ∀ {t u : Ty}, Completes vars p t u σ → o ∈ overlays vars p t →
      ∃ w, Completes vars (param o.1) o.2 w σ)
    (fill : BelowList ts us) (known : ∀ u ∈ us, u.Without isInfer) (binds : σ.Binds isInfer vars)
    (agree : AgreesList (ps.map (substitute σ)) us) (member : o ∈ overlaysList vars ps ts) :
    ∃ w, Completes vars (param o.1) o.2 w σ := by
  induction ps generalizing ts us with
  | nil => cases ts <;> cases member
  | cons p rest ih =>
    rw [List.forall_mem_cons] at each
    cases ts with
    | nil => cases member
    | cons t ts =>
      cases us with
      | nil => cases fill
      | cons u us =>
        rw [List.forall_mem_cons] at known
        rw [overlaysList, List.mem_append] at member
        rcases member with here | there
        · exact each.1 ⟨fill.1, known.1, binds, agree.1⟩ here
        · exact ih each.2 fill.2 known.2 agree.2 there

/-- What completes a pattern completes each variable where it is laid over a type. -/
theorem Completes.overlay {p t u : Ty} {o : String × Ty} (completes : Completes vars p t u σ)
    (member : o ∈ overlays vars p t) : ∃ w, Completes vars (param o.1) o.2 w σ := by
  induction p using inductionOn generalizing t u with
  | param name =>
    rw [overlays] at member
    split at member
    · obtain rfl := List.mem_singleton.mp member
      exact ⟨u, completes⟩
    · cases member
  | named path args ih =>
    cases t with
    | named path' args' =>
      obtain ⟨fills, known, binds, agrees⟩ := completes
      rw [substitute_named] at agrees
      obtain ⟨us, rfl, inside⟩ := agrees
      obtain ⟨us', same, fill⟩ := fills
      cases same
      exact completes_of_mem (fun p member' _ _ completes => ih p member' completes) fill
        (without_named.mp known).2 binds inside (show o ∈ overlaysList vars _ _ from member)
    | _ => cases member
  | fn params ret ihs ih =>
    cases t with
    | fn params' ret' =>
      obtain ⟨fills, known, binds, agrees⟩ := completes
      rw [substitute_fn] at agrees
      obtain ⟨us, u, rfl, inside, result⟩ := agrees
      obtain ⟨us', u', same, fill, fill'⟩ := fills
      cases same
      rw [without_fn] at known
      rw [overlays, List.mem_append] at member
      rcases member with member | member
      · exact completes_of_mem (fun p member' _ _ completes => ihs p member' completes) fill
          known.2.1 binds inside member
      · exact ih ⟨fill', known.2.2, binds, result⟩ member
    | _ => cases member
  | promise path args assoc ihs ihc =>
    cases t with
    | promise path' args' assoc' =>
      obtain ⟨fills, known, binds, agrees⟩ := completes
      rw [substitute_promise] at agrees
      obtain ⟨us, constraints, rfl, inside, agrees⟩ := agrees
      obtain ⟨us', constraints', same, fill, fill'⟩ := fills
      cases same
      rw [without_promise] at known
      rw [overlays, List.mem_append, mem_overlaysAssoc] at member
      rcases member with member | ⟨c, among, d, found, member⟩
      · exact completes_of_mem (fun p member' _ _ completes => ihs p member' completes) fill
          known.2.1 binds inside member
      · obtain ⟨e, there, below⟩ := find?_of_forall₂ (belowAssoc_iff.mp fill') found
        have constraint := agreesAssoc_iff.mp agrees (c.1, c.2.substitute σ)
          (List.mem_map_of_mem among) e there
        exact ihc c among ⟨below, known.2.2 e (List.mem_of_find?_eq_some there), binds, constraint⟩
          member
    | _ => cases member
  | projection base name ih =>
    cases t with
    | projection base' name' =>
      obtain ⟨fills, known, binds, agrees⟩ := completes
      rw [substitute_projection] at agrees
      obtain ⟨u, rfl, inside⟩ := agrees
      obtain ⟨u', same, fill⟩ := fills
      cases same
      exact ih ⟨fill, (without_projection.mp known).2, binds, inside⟩ member
    | _ => cases member
  | const | selfTy | infer | unit => cases member

theorem Without.substitute {p : Ty} (closed : p.Without isInfer) (binds : σ.Binds isInfer vars) :
    (p.substitute σ).Without isInfer := by
  induction p using inductionOn with
  | named path args ih =>
    rw [without_named] at closed
    rw [substitute_named, without_named]
    exact ⟨rfl, List.forall_mem_map.mpr fun t member => ih t member (closed.2 t member)⟩
  | param name =>
    rw [substitute_param]
    cases found : σ.get? name with
    | none => rfl
    | some t => exact (binds name t found).2
  | fn params ret ihs ih =>
    rw [without_fn] at closed
    rw [substitute_fn, without_fn]
    exact ⟨rfl, List.forall_mem_map.mpr fun t member => ihs t member (closed.2.1 t member),
      ih closed.2.2⟩
  | promise path args assoc ihs ihc =>
    rw [without_promise] at closed
    rw [substitute_promise, without_promise]
    exact ⟨rfl, List.forall_mem_map.mpr fun t member => ihs t member (closed.2.1 t member),
      List.forall_mem_map.mpr fun c member => ihc c member (closed.2.2 c member)⟩
  | projection base name ih =>
    rw [without_projection] at closed
    rw [substitute_projection, without_projection]
    exact ⟨rfl, ih closed.2⟩
  | const | selfTy | infer | unit => exact closed

/-- Where the type is not known, it may be what the pattern becomes. -/
private theorem completes_infer {p : Ty} (pattern : p.Without isInfer)
    (binds : σ.Binds isInfer vars) : Completes vars p infer (p.substitute σ).bare σ :=
  ⟨trivial, (pattern.substitute binds).bare, binds, agrees_bare _⟩

private theorem exists_completesList {ps ts : List Ty}
    (fit : List.Forall₂ (fun p t => ∃ s s', unify vars p t s = (true, s')) ps ts)
    (each : ∀ p ∈ ps, ∀ {t : Ty}, (∃ s s', unify vars p t s = (true, s')) →
      (∀ o ∈ overlays vars p t, ∃ w, Completes vars (param o.1) o.2 w σ) →
      ∃ u, Completes vars p t u σ)
    (occurrences : ∀ o ∈ overlaysList vars ps ts, ∃ w, Completes vars (param o.1) o.2 w σ) :
    ∃ us : List Ty, BelowList ts us ∧ (∀ u ∈ us, u.Without isInfer) ∧
      AgreesList (ps.map (substitute σ)) us := by
  induction fit with
  | nil => exact ⟨[], trivial, nofun, trivial⟩
  | cons here _ ih =>
    rw [List.forall_mem_cons] at each
    rw [overlaysList, List.forall_mem_append] at occurrences
    obtain ⟨u, completes⟩ := each.1 here occurrences.1
    obtain ⟨us, fill, known, agree⟩ := ih each.2 occurrences.2
    exact ⟨u :: us, ⟨completes.fills, fill⟩, List.forall_mem_cons.mpr ⟨completes.known, known⟩,
      completes.agrees, agree⟩

/-- Each constraint of a target is looked up for one constraint of a pattern at most. What it does
not constrain is closed. -/
private theorem exists_completesAssoc {ps ts : List (String × Ty)} (distinct : (ps.map (·.1)).Nodup)
    (each : ∀ c ∈ ps, ∀ d, ts.find? (·.1 == c.1) = some d → ∃ u, Completes vars c.2 d.2 u σ) :
    ∃ us : List (String × Ty), BelowAssoc ts us ∧ (∀ d ∈ us, d.2.Without isInfer) ∧
      AgreesAssoc (ps.map fun c => (c.1, c.2.substitute σ)) us := by
  have choice (d : String × Ty) : ∃ u : Ty, d.2.Below u ∧ u.Without isInfer ∧
      ∀ c ∈ ps, ts.find? (·.1 == c.1) = some d → (c.2.substitute σ).Agrees u := by
    by_cases asked : ∃ c ∈ ps, ts.find? (·.1 == c.1) = some d
    · obtain ⟨c, member, found⟩ := asked
      obtain ⟨u, completes⟩ := each c member d found
      refine ⟨u, completes.fills, completes.known, fun c' member' found' => ?_⟩
      have named : d.1 = c.1 := by simpa using List.find?_some found
      have named' : d.1 = c'.1 := by simpa using List.find?_some found'
      have here := find?_name distinct member'
      rw [← named', named, find?_name distinct member] at here
      exact Option.some.inj here ▸ completes.agrees
    · exact ⟨d.2.closed, below_closed d.2, without_isInfer_closed d.2, fun c member found =>
        absurd ⟨c, member, found⟩ asked⟩
  choose f fill known agree using choice
  refine ⟨ts.map fun d => (d.1, f d), ?_, List.forall_mem_map.mpr fun d _ => known d, ?_⟩
  · exact belowAssoc_iff.mpr (List.forall₂_map_right_iff.mpr
      (List.forall₂_same.mpr fun d _ => ⟨rfl, fill d⟩))
  · refine agreesAssoc_iff.mpr (List.forall_mem_map.mpr fun c member e found => ?_)
    rw [List.find?_map] at found
    obtain ⟨d, there, rfl⟩ := Option.map_eq_some_iff.mp found
    exact agree d c member there

/-- A pattern that fits is completed if its variables are, wherever they are laid over a type. -/
theorem exists_completes {p t : Ty} (pattern : p.Without isInfer)
    (once : p.Without repeatsConstraint) (binds : σ.Binds isInfer vars)
    (fits : ∃ s s', unify vars p t s = (true, s'))
    (occurrences : ∀ o ∈ overlays vars p t, ∃ w, Completes vars (param o.1) o.2 w σ) :
    ∃ u, Completes vars p t u σ := by
  induction p using inductionOn generalizing t with
  | param name =>
    by_cases listed : vars.contains name = true
    · exact occurrences (name, t) (by rw [overlays, if_pos listed]; exact List.mem_singleton_self _)
    · obtain ⟨s, s', fits⟩ := fits
      rw [unify, align, bindVar, if_neg listed] at fits
      have unbound := binds.get?_eq_none fun inside => listed (List.contains_iff_mem.mpr inside)
      have itself : (param name).substitute σ = param name := by
        rw [substitute_param, unbound]
        rfl
      refine ⟨param name, ?_, rfl, binds, itself.symm ▸ rfl⟩
      have own : rigid name t = true := congrArg Prod.fst fits
      cases t <;> simp_all [rigid, Below]
  | named path args ih =>
    obtain ⟨s, s', fits⟩ := fits
    rw [unify, align_named_iff] at fits
    obtain ⟨rfl, -⟩ | ⟨args', rfl, length, fits⟩ := fits
    · exact ⟨_, completes_infer pattern binds⟩
    · rw [without_named] at pattern once
      obtain ⟨us, fill, known, agree⟩ := exists_completesList (alignList_each length fits)
        (fun p member => ih p member (pattern.2 p member) (once.2 p member)) occurrences
      refine ⟨named path us, ⟨us, rfl, fill⟩, without_named.mpr ⟨rfl, known⟩, binds, ?_⟩
      rw [substitute_named]
      exact ⟨us, rfl, agree⟩
  | fn params ret ihs ih =>
    obtain ⟨s, s', fits⟩ := fits
    rw [unify, align_fn_iff] at fits
    obtain ⟨rfl, -⟩ | ⟨params', ret', s₁, rfl, length, first, fits⟩ := fits
    · exact ⟨_, completes_infer pattern binds⟩
    · rw [without_fn] at pattern once
      rw [overlays, List.forall_mem_append] at occurrences
      obtain ⟨us, fill, known, agree⟩ := exists_completesList (alignList_each length first)
        (fun p member => ihs p member (pattern.2.1 p member) (once.2.1 p member)) occurrences.1
      obtain ⟨u, completes⟩ := ih pattern.2.2 once.2.2 ⟨s₁, s', fits⟩ occurrences.2
      refine ⟨fn us u, ⟨us, u, rfl, fill, completes.fills⟩,
        without_fn.mpr ⟨rfl, known, completes.known⟩, binds, ?_⟩
      rw [substitute_fn]
      exact ⟨us, u, rfl, agree, completes.agrees⟩
  | promise path args assoc ihs ihc =>
    obtain ⟨s, s', fits⟩ := fits
    rw [unify, align_promise_iff] at fits
    obtain ⟨rfl, -⟩ | ⟨args', assoc', s₁, rfl, length, first, fits⟩ := fits
    · exact ⟨_, completes_infer pattern binds⟩
    · rw [without_promise] at pattern once
      rw [overlays, List.forall_mem_append] at occurrences
      obtain ⟨us, fill, known, agree⟩ := exists_completesList (alignList_each length first)
        (fun p member => ihs p member (pattern.2.1 p member) (once.2.1 p member)) occurrences.1
      have distinct : (assoc.map (·.1)).Nodup := by simpa [repeatsConstraint] using once.1
      have each : ∀ c ∈ assoc, ∀ d, assoc'.find? (·.1 == c.1) = some d →
          ∃ u, Completes vars c.2 d.2 u σ := fun c member d found =>
        ihc c member (pattern.2.2 c member) (once.2.2 c member)
          (alignAssoc_each fits c member d found) fun o inside =>
            occurrences.2 o (mem_overlaysAssoc.mpr ⟨c, member, d, found, inside⟩)
      obtain ⟨cs, fill', known', agree'⟩ := exists_completesAssoc distinct each
      refine ⟨promise path us cs, ⟨us, cs, rfl, fill, fill'⟩,
        without_promise.mpr ⟨rfl, known, known'⟩, binds, ?_⟩
      rw [substitute_promise]
      exact ⟨us, cs, rfl, agree, agree'⟩
  | projection base name ih =>
    obtain ⟨s, s', fits⟩ := fits
    rw [unify, align_projection_iff] at fits
    obtain ⟨rfl, -⟩ | ⟨base', rfl, fits⟩ := fits
    · exact ⟨_, completes_infer pattern binds⟩
    · rw [without_projection] at pattern once
      obtain ⟨u, completes⟩ := ih pattern.2 once.2 ⟨s, s', fits⟩ occurrences
      refine ⟨projection u name, ⟨u, rfl, completes.fills⟩,
        without_projection.mpr ⟨rfl, completes.known⟩, binds, ?_⟩
      rw [substitute_projection]
      exact ⟨u, rfl, completes.agrees⟩
  | infer => exact absurd pattern (by decide)
  | const value =>
    obtain ⟨s, s', fits⟩ := fits
    refine ⟨const value, ?_, rfl, binds, rfl⟩
    cases t <;> simp_all [unify, align, Below]
  | selfTy | unit =>
    obtain ⟨s, s', fits⟩ := fits
    refine ⟨_, ?_, pattern, binds, rfl⟩
    cases t <;> simp_all [unify, align, Below]

/-! ### Types that a variable is laid over -/

/-- Where there are types for variables and wildcards, any two types that a variable is laid over fit
each other, up to constraints. -/
theorem Completes.pairwise {p t u : Ty} (completes : Completes vars p t u σ) :
    (overlays vars p t).Pairwise fun a b => a.1 = b.1 → a.2.bare.fits b.2.bare = true := by
  have above {o : String × Ty} (member : o ∈ overlays vars p t) :
      o.2.bare.Below ((param o.1).substitute σ).bare := by
    obtain ⟨w, laid⟩ := completes.overlay member
    rw [laid.agrees.bare_eq]
    exact laid.fills.bare
  refine List.pairwise_of_forall_mem_list fun a member b member' same => ?_
  refine fits_of_below (without_isConstrained_bare _) (above member) ?_
  rw [same]
  exact above member'

/-- Where any two types that a variable is laid over fit each other, there are types for variables and
wildcards. -/
theorem exists_completes_of_pairwise {p t : Ty} (pattern : p.Without isInfer)
    (once : p.Without repeatsConstraint) (fits : ∃ s, (unify vars p t s).1 = true)
    (each : (overlays vars p t).Pairwise fun a b => a.1 = b.1 → a.2.bare.fits b.2.bare = true) :
    ∃ u σ, Completes vars p t u σ := by
  have together (name : String) :
      ∃ m : Ty, ∀ o ∈ overlays vars p t, o.1 = name → o.2.bare.Below m := by
    have pairwise : (((overlays vars p t).filter (·.1 == name)).map (·.2.bare)).Pairwise
        fun t u => t.fits u = true :=
      List.pairwise_map.mpr (List.pairwise_filter.mpr (each.imp fun fit here there =>
        fit ((eq_of_beq here).trans (eq_of_beq there).symm)))
    obtain ⟨m, above⟩ := exists_above
      (List.forall_mem_map.mpr fun o _ => without_isConstrained_bare o.2) pairwise
    refine ⟨m, fun o member named => above _ (List.mem_map_of_mem ?_)⟩
    exact List.mem_filter.mpr ⟨member, beq_iff_eq.mpr named⟩
  choose m above using together
  obtain ⟨σ, value⟩ : ∃ σ : Subst, ∀ name, σ.get? name =
      if name ∈ vars then some (m name).closed.bare else none :=
    ⟨vars.map fun name => (name, (m name).closed.bare), NameMap.get?_map_names vars _⟩
  have binds : σ.Binds isInfer vars := by
    intro name t found
    rw [value] at found
    split at found
    · rename_i listed
      exact ⟨listed, Option.some.inj found ▸ (without_isInfer_closed _).bare⟩
    · cases found
  obtain ⟨s, fits⟩ := fits
  obtain ⟨u, completes⟩ := exists_completes pattern once binds ⟨s, _, Prod.ext fits rfl⟩
    fun o member => by
      have below : o.2.bare.bare.Below (m o.1).closed.bare :=
        ((above o.1 o member rfl).trans (below_closed _)).bare
      rw [bare_eq_self (without_isConstrained_bare _)] at below
      obtain ⟨w, fills, known, agrees⟩ :=
        exists_filled below (without_isConstrained_bare _) (without_isInfer_closed _).bare
      have bound : (param o.1).substitute σ = (m o.1).closed.bare := by
        rw [substitute_param, value, if_pos (mem_vars_of_mem_overlays member)]
        rfl
      exact ⟨w, fills, known, binds, bound.symm ▸ agrees⟩
  exact ⟨u, σ, completes⟩

/-- A pattern without wildcards that fits a type can be completed, by types for its variables and for
the wildcards of the type, exactly if any two types that one variable is laid over fit each other, up
to constraints. Its variables have been laid over these types one after another; and they may be in
any other order exactly if any two of the types fit each other both ways. -/
theorem unify_consistent {p t : Ty} (pattern : p.Without isInfer)
    (once : p.Without repeatsConstraint) (fits : (unify vars p t []).1 = true) :
    ((∃ u σ, Completes vars p t u σ) ↔
      (overlays vars p t).Pairwise fun a b => a.1 = b.1 → a.2.bare.fits b.2.bare = true) ∧
    unify vars p t [] = visit vars (overlays vars p t) [] ∧
    ((∀ order, order.Perm (overlays vars p t) → (visit vars order []).1 = true) ↔
      (overlays vars p t).Pairwise fun a b =>
        a.1 = b.1 → a.2.fits b.2 = true ∧ b.2.fits a.2 = true) := by
  refine ⟨⟨?_, exists_completes_of_pairwise pattern once ⟨[], fits⟩⟩, unify_eq_visit fits,
    visit_perm_iff fun o => mem_vars_of_mem_overlays⟩
  rintro ⟨u, σ, completes⟩
  exact completes.pairwise

/-- A variable in three places. -/
def thrice : Ty := fn [param "T", param "T", param "T"] unit

/-- Vectors in the same places. -/
def vecs (first second third : Ty) : Ty :=
  fn [std "Vec" [first], std "Vec" [second], std "Vec" [third]] unit

theorem unify_open_vecs :
    thrice.Without isInfer ∧ thrice.Without repeatsConstraint ∧
      (unify ["T"] thrice (vecs infer (std "u8" []) infer) []).1 = true ∧
      (∃ u σ, Completes ["T"] thrice (vecs infer (std "u8" []) infer) u σ) ∧
      unify ["T"] thrice (vecs infer (std "u8" []) infer) [] =
        visit ["T"] (overlays ["T"] thrice (vecs infer (std "u8" []) infer)) [] ∧
      ∀ order, order.Perm (overlays ["T"] thrice (vecs infer (std "u8" []) infer)) →
        (visit ["T"] order []).1 = true := by
  have pattern : thrice.Without isInfer := by decide
  have once : thrice.Without repeatsConstraint := by decide
  have fits : (unify ["T"] thrice (vecs infer (std "u8" []) infer) []).1 = true := by
    decide +kernel
  have all := unify_consistent pattern once fits
  exact ⟨pattern, once, fits, all.1.mpr (by decide +kernel), all.2.1, all.2.2.mpr (by decide +kernel)⟩

/-- Types with an item that is constrained. -/
def source (items : List Ty) : Ty := promise "m::Source" [] (items.map fun t => ("Item", t))

/-- What a variable is laid over first may fit types that do not fit each other; then no types
complete the pattern, though it fits, and in another order it does not fit. Likewise a wildcard may
be compared with two constraints on one item. -/
theorem open_vec_fits_both :
    (unify ["T"] thrice (vecs infer (std "u8" []) (std "String" [])) []).1 = true ∧
      (¬ ∃ u σ, Completes ["T"] thrice (vecs infer (std "u8" []) (std "String" [])) u σ) ∧
      (unify ["T"] thrice (vecs (std "u8" []) infer (std "String" [])) []).1 = false ∧
      (unify [] (source [std "u8" [], std "String" []]) (source [infer]) []).1 = true ∧
      ¬ ∃ u σ, Completes [] (source [std "u8" [], std "String" []]) (source [infer]) u σ := by
  refine ⟨by decide +kernel, ?_, by decide +kernel, by decide +kernel, ?_⟩
  · rintro ⟨u, σ, completes⟩
    exact absurd completes.pairwise (by decide +kernel)
  · rintro ⟨_, σ, ⟨_, constraints, rfl, -, fill⟩, -, -, agrees⟩
    obtain ⟨_, _, same, -, agree⟩ := agrees
    cases same
    cases constraints with
    | nil => exact fill
    | cons c rest =>
      obtain ⟨name, t⟩ := c
      obtain ⟨rfl, -⟩ := fill
      have both := agreesAssoc_iff.mp agree
      obtain ⟨_, here, -⟩ := both ("Item", std "u8" []) (.head _) ("Item", t) (by simp)
      obtain ⟨_, there, -⟩ := both ("Item", std "String" []) (.tail _ (.head _)) ("Item", t) (by simp)
      exact absurd (named.inj (here.symm.trans there)).1 (by decide)

end Pipeline.Ty
