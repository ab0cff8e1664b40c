import Pipeline.Proofs.Plan.Respelling
import Pipeline.Proofs.Store.Load
import Pipeline.Proofs.Store.Registration

/-!
# Bindings under an alias

The component or the struct that fields are for is looked up by the path that is written. Where this
is the path of an alias, there is none, so that only code of the host is bound under an alias.
-/

set_option autoImplicit false
set_option relaxedAutoImplicit false

namespace Pipeline

namespace Store

variable {store : Store}

/-! ### Fields under an alias -/

/-- Without a fault, whatever has fields is constructed of them. -/
theorem bindEach_constructs {env : Env} (outside : env.self = none) {types : NameMap Ty}
    {lets : Location} {bindings : List (String × BindingEntry)} {p : Progress}
    (clean : (store.bindEach env types lets p bindings).value.Clean) {name : String}
    {b : BindingEntry} (member : (name, b) ∈ bindings) {raws : List (String × RawValue)}
    (fields : b.body = .fields raws) {t : Ty} (typed : types.get? name = some t) :
    ∃ supplied c, (store.construct name t supplied (lets.child name)).value = .ok c := by
  induction bindings generalizing p with
  | nil => cases member
  | cons first rest ih =>
    have running : ¬ p.aborted = true := by
      rw [(clean_of_bindEach outside clean).2]
      exact Bool.false_ne_true
    unfold bindEach at clean
    rw [if_neg running] at clean
    rcases List.mem_cons.mp member with rfl | behind
    · simp only [typed, Logged.value_bind] at clean
      have here := clean_of_bindEach outside clean
      simp only [bindOne, fields, Logged.value_bind] at here
      split at here
      · rename_i faulty
        exact absurd (Progress.clean_of_fail here).2 (by simpa using faulty)
      · simp only [Logged.value_bind] at here
        split at here
        · rename_i c made
          exact ⟨_, c, made⟩
        · rename_i refused
          exact absurd (Progress.clean_of_fail here).2 (construct_eq_error refused)
    · split at clean
      · exact ih clean behind
      · exact ih clean behind

end Store

/-- The type of a component is no alias. -/
theorem Site.component_ne_synonym {site : Site} {d : Document} {kind : ComponentKind}
    {c : ComponentDecl} (read : (site.component d kind).value = some c) (target : Ty) :
    c.decl.kind ≠ .synonym target := by
  obtain ⟨generics, -, read⟩ := Noted.value_bind_eq_some.mp read
  obtain ⟨input, -, read⟩ := Noted.value_bind_eq_some.mp read
  obtain ⟨output, -, read⟩ := Noted.value_bind_eq_some.mp read
  obtain ⟨item, -, read⟩ := Noted.value_bind_eq_some.mp read
  obtain ⟨columns, -, read⟩ := Noted.value_bind_eq_some.mp read
  obtain ⟨columnChecks, -, read⟩ := Noted.value_bind_eq_some.mp read
  obtain ⟨params, -, read⟩ := Noted.value_bind_eq_some.mp read
  obtain ⟨checks, -, read⟩ := Noted.value_bind_eq_some.mp read
  cases read
  unfold componentShape
  dsimp only
  split <;> nofun

namespace Store

/-- Nothing is made of fields whose type is an alias. -/
theorem construct_synonym {ds : List Document} {maxDepth : Nat} {s : Store}
    (loaded : (load ds maxDepth).value = .ok s) {path : String}
    (synonym : (s.synonym? path).isSome = true) (name : String) (args : List Ty)
    (supplied : List (String × Value)) (place : Location) :
    (s.construct name (.named path args) supplied place).value =
      .error [⟨place.child "type", .invalidDeclaration (.noParameters (.named path args))⟩] := by
  obtain ⟨sound, rfl⟩ := sound_of_load loaded
  obtain ⟨⟨decl, target⟩, found⟩ := Option.isSome_iff_exists.mp synonym
  obtain ⟨decl', declared, found⟩ := Option.bind_eq_some_iff.mp found
  have kind : decl'.kind = .synonym target := by
    split at found
    · rename_i same
      cases found
      exact same
    · cases found
  have schema : (ofDocuments (Prelude.document :: ds) maxDepth).schema? path = none := by
    refine Option.eq_none_iff_forall_ne_some.mpr fun schema listed => ?_
    obtain ⟨d, -, role, c, read, type⟩ := sound.schema_read listed
    cases declared.symm.trans type
    exact Site.component_ne_synonym read target kind
  have struct : (ofDocuments (Prelude.document :: ds) maxDepth).structOf? (.named path args) =
      none := by
    refine Option.filter_eq_none_iff.mpr fun d type => ?_
    cases declared.symm.trans type
    simp [TypeDecl.isStruct, kind]
  unfold construct
  simp only [Ty.path?, Option.bind_some, schema, struct]
  rfl

end Store

/-- The same document with the type of a binding spelled in another way. -/
def Document.withType (d : Document) (name written : String) : Document :=
  { d with
    bindings := d.bindings.map fun b =>
      (b.1, if b.1 = name then ⟨written, b.2.body⟩ else b.2) }

namespace Store

theorem Respells.withType {store : Store} {scope : ModuleScope} (d : Document) {x written : String}
    {t : Ty} (read : store.bindingTy scope written = .ok t)
    (hosts : ∀ b, (x, b) ∈ d.bindings → (∃ code, b.body = .host code) ∧
      ∃ u, store.bindingTy scope b.ty = .ok u ∧ store.normalize u = store.normalize t) :
    List.Forall₂ (store.Respells scope x) d.bindings (d.withType x written).bindings := by
  refine List.forall₂_map_right_iff.mpr (List.forall₂_same.mpr fun b member => ?_)
  obtain ⟨name, entry⟩ := b
  by_cases own : name = x
  · subst own
    obtain ⟨⟨code, host⟩, u, direct, expands⟩ := hosts entry member
    obtain ⟨ty, body⟩ := entry
    cases host
    rw [if_pos rfl]
    exact .host code direct read expands
  · rw [if_neg own]
    exact .other own

/-- What is bound in a known scope is a pipeline that has a plan. -/
theorem bind_eq_ok {store : Store} {d : Document} {scope : ModuleScope}
    (inScope : store.scope? d.module = some scope) {g : Plan} :
    (store.bind d).value = .ok g ↔ d.kind = .main ∧ (store.planIn d scope).value = .ok g := by
  have planned : (store.bind d).value = (store.plan d).value := by
    unfold bind
    simp only [Logged.value_bind]
    cases (store.plan d).value <;> rfl
  rw [planned]
  by_cases main : d.kind = .main
  · rw [plan_eq_planIn main inScope, and_iff_right main]
  · unfold plan
    rw [if_pos main]
    exact iff_of_false nofun fun both => main both.1

private theorem toOption_map_congr {ε α β : Type} {r r' : Except ε α} {f : α → β}
    (forth : ∀ a, r = .ok a → ∃ a', r' = .ok a' ∧ f a' = f a)
    (back : ∀ a, r' = .ok a → ∃ a', r = .ok a' ∧ f a' = f a) :
    r.toOption.map f = r'.toOption.map f := by
  cases r with
  | ok a =>
    obtain ⟨a', rfl, same⟩ := forth a rfl
    exact congrArg some same.symm
  | error e =>
    cases r' with
    | ok a =>
      obtain ⟨a', never, -⟩ := back a rfl
      cases never
    | error e' => rfl

/-- **A binding under an alias.** With fields it is never bound, whatever the alias stands for. With
code of the host it is bound exactly when it is under a type with the same expansion, and the plans
are the same up to aliases in the types of the steps, unless the binding stands by itself in some
field. -/
theorem bind_alias (ds : List Document) (maxDepth : Nat) (s : Store)
    (loaded : (load ds maxDepth).value = .ok s) (d : Document) (scope : ModuleScope)
    (inScope : s.scope? d.module = some scope) (x written path : String) (args : List Ty)
    (read : s.bindingTy scope written = .ok (.named path args))
    (synonym : (s.synonym? path).isSome = true) :
    ((∃ b raws, (x, b) ∈ d.bindings ∧ b.body = .fields raws) →
      ∀ g, (s.bind (d.withType x written)).value ≠ .ok g) ∧
    ((∀ b, (x, b) ∈ d.bindings → (∃ code, b.body = .host code) ∧
        ∃ t, s.bindingTy scope b.ty = .ok t ∧ s.normalize t = s.normalize (.named path args)) →
      (∀ b ∈ d.bindings, x ∉ b.2.body.bare) →
      (s.bind d).value.toOption.map s.expandPlan =
        (s.bind (d.withType x written)).value.toOption.map s.expandPlan) := by
  have inScope' : s.scope? (d.withType x written).module = some scope := inScope
  constructor
  · rintro ⟨b, raws, member, fields⟩ g found
    obtain ⟨-, planned⟩ := (bind_eq_ok inScope').mp found
    have clean := clean_of_planIn planned
    have member' : (x, ⟨written, b.body⟩) ∈ (d.withType x written).bindings :=
      List.mem_map.mpr ⟨(x, b), member, by rw [if_pos rfl]⟩
    have entered : (s.enteredIn scope (d.withType x written)).faults = [] :=
      (clean_of_bindEach rfl clean).1
    obtain ⟨t, typed⟩ := Option.isSome_iff_exists.mp (bindingTypes_isSome entered _ member')
    -- Whichever binding of the name gives its type, it is written as the alias.
    obtain ⟨b', inside, read'⟩ := get?_bindingTypes typed
    obtain ⟨first, -, same⟩ := List.mem_map.mp inside
    obtain ⟨rfl, rfl⟩ := Prod.mk.inj same
    rw [if_pos rfl] at read'
    cases read.symm.trans read'
    obtain ⟨supplied, c, made⟩ := bindEach_constructs rfl clean member' fields typed
    rw [construct_synonym loaded synonym] at made
    cases made
  · intro hosts hidden
    -- The documents are related in both directions, so that one lemma serves both.
    have all := Respells.withType d read hosts
    have back : List.Forall₂ (s.Respells scope x) (d.withType x written).bindings d.bindings :=
      all.flip.imp fun _ _ respells => respells.symm
    have hidden' : ∀ b ∈ (d.withType x written).bindings, x ∉ b.2.body.bare := by
      intro b member
      obtain ⟨b', inside, rfl⟩ := List.mem_map.mp member
      dsimp only
      split
      · exact hidden b' inside
      · exact hidden b' inside
    refine toOption_map_congr (fun g found => ?_) fun g found => ?_
    · obtain ⟨main, planned⟩ := (bind_eq_ok inScope).mp found
      obtain ⟨g', planned', same⟩ := planIn_respells all hidden planned
      exact ⟨g', (bind_eq_ok inScope').mpr ⟨main, planned'⟩, same⟩
    · obtain ⟨main, planned⟩ := (bind_eq_ok inScope').mp found
      obtain ⟨g', planned', same⟩ :=
        planIn_respells (d := d.withType x written) back hidden' planned
      exact ⟨g', (bind_eq_ok inScope).mpr ⟨main, planned'⟩, same⟩

/-- A document with a struct and an alias of it. -/
def panes : Document where
  module := "app"
  origin := "app"
  version := supportedVersion
  kind := .struct
  types := [("Window", ⟨[], [("width", .short "u32")], [], none, none, none⟩),
    ("Pane", ⟨[], [], [], none, some "Window", none⟩)]

/-- A pipeline in which the field of a struct is taken from another one. -/
def panePipeline (body : BindingBody) : Document where
  module := "app"
  origin := "main"
  version := supportedVersion
  kind := .main
  bindings := [("first", ⟨"Window", body⟩),
    ("second", ⟨"Window", .fields [("width", .str "first.width")]⟩)]

private theorem panes_load : ∃ s scope, (load [panes] 4).value = .ok s ∧
    s.scope? "app" = some scope ∧
    s.bindingTy scope "Window" = .ok (.named "app::Window" []) ∧
    s.bindingTy scope "Pane" = .ok (.named "app::Pane" []) ∧
    (s.synonym? "app::Pane").isSome = true ∧
    s.normalize (.named "app::Window" []) = s.normalize (.named "app::Pane" []) ∧
    (s.bind (panePipeline (.host "open()"))).value.toOption.isSome = true ∧
    (s.bind (panePipeline (.fields [("width", .int 2)]))).value.toOption.isSome = true ∧
    (s.bind ((panePipeline (.fields [("width", .int 2)])).withType "first"
      "Pane")).value.toOption.isNone = true := by
  have made : ((load [panes] 4).value.toOption.bind fun s => (s.scope? "app").map fun scope =>
      decide ((s.bindingTy scope "Window").toOption = some (.named "app::Window" []) ∧
        (s.bindingTy scope "Pane").toOption = some (.named "app::Pane" []) ∧
        (s.synonym? "app::Pane").isSome = true ∧
        s.normalize (.named "app::Window" []) = s.normalize (.named "app::Pane" []) ∧
        (s.bind (panePipeline (.host "open()"))).value.toOption.isSome = true ∧
        (s.bind (panePipeline (.fields [("width", .int 2)]))).value.toOption.isSome = true ∧
        (s.bind ((panePipeline (.fields [("width", .int 2)])).withType "first"
          "Pane")).value.toOption.isNone = true)) = some true := by
    decide +kernel
  obtain ⟨s, loaded, found⟩ := Option.bind_eq_some_iff.mp made
  obtain ⟨scope, inScope, facts⟩ := Option.map_eq_some_iff.mp found
  have facts := of_decide_eq_true facts
  exact ⟨s, scope, ok_of_toOption loaded, inScope, ok_of_toOption facts.1,
    ok_of_toOption facts.2.1, facts.2.2⟩

/-- The struct that the host opens has the same plan under the alias, and the one that is written
has none. -/
theorem bind_alias_pane : ∃ s scope, (load [panes] 4).value = .ok s ∧
    s.scope? "app" = some scope ∧ s.bindingTy scope "Pane" = .ok (.named "app::Pane" []) ∧
    (s.synonym? "app::Pane").isSome = true ∧
    (∀ g, (s.bind ((panePipeline (.fields [("width", .int 2)])).withType "first"
      "Pane")).value ≠ .ok g) ∧
    (s.bind (panePipeline (.host "open()"))).value.toOption.isSome = true ∧
    (s.bind (panePipeline (.host "open()"))).value.toOption.map s.expandPlan =
      (s.bind ((panePipeline (.host "open()")).withType "first" "Pane")).value.toOption.map
        s.expandPlan := by
  obtain ⟨s, scope, loaded, inScope, window, pane, synonym, expands, bound, -⟩ := panes_load
  have written := (bind_alias [panes] 4 s loaded (panePipeline (.fields [("width", .int 2)])) scope
    inScope "first" "Pane" "app::Pane" [] pane synonym).1
  have opened := (bind_alias [panes] 4 s loaded (panePipeline (.host "open()")) scope
    inScope "first" "Pane" "app::Pane" [] pane synonym).2
  refine ⟨s, scope, loaded, inScope, pane, synonym,
    written ⟨_, _, List.mem_cons_self, rfl⟩, bound, opened (fun b member => ?_) ?_⟩
  · have own : b = ⟨"Window", .host "open()"⟩ := by
      simpa [panePipeline] using member
    subst own
    exact ⟨⟨_, rfl⟩, _, window, expands⟩
  · decide +kernel

/-- What is bound as a struct is not bound under an alias of it. -/
theorem alias_unbound : ∃ s scope t u, (load [panes] 4).value = .ok s ∧
    s.scope? "app" = some scope ∧ s.bindingTy scope "Window" = .ok t ∧
    s.bindingTy scope "Pane" = .ok u ∧ s.normalize t = s.normalize u ∧
    (∃ g, (s.bind (panePipeline (.fields [("width", .int 2)]))).value = .ok g) ∧
    ∀ g, (s.bind ((panePipeline (.fields [("width", .int 2)])).withType "first"
      "Pane")).value ≠ .ok g := by
  obtain ⟨s, scope, loaded, inScope, window, pane, -, expands, -, bound, unbound⟩ := panes_load
  obtain ⟨g, bound⟩ := Option.isSome_iff_exists.mp bound
  refine ⟨s, scope, _, _, loaded, inScope, window, pane, expands, ⟨g, ok_of_toOption bound⟩,
    fun g' found => ?_⟩
  rw [found] at unbound
  cases unbound

end Store
end Pipeline
