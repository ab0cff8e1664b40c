import Mathlib.Data.List.Nodup
import Pipeline.Proofs.Eval.Renumbering
import Pipeline.Proofs.Schema.Conformance

/-!
# Conversions and defaults where impls stand in another order

A value is accepted, and converted, in the same way in a store with the same impls in another
order: the conversions that are found first do not decide. The defaults of all parameters are in
order in one of the stores if they are in the other.
-/

set_option autoImplicit false
set_option relaxedAutoImplicit false

namespace Pipeline.Store

open Eval (outcome)

variable {store : Store} {σ : Equiv.Perm Nat} {impls : List ImplDecl}

/-! ### Accepting values -/

theorem candidate?_agree (reorders : store.Reorders σ impls) (ty : Ty) (t : TraitRef) :
    ((store.withImpls impls).resolve ty t).value.candidate? =
      (store.resolve ty t).value.candidate?.map (·.renumber σ) := by
  have same := resolve_agree reorders ty t
  generalize (store.resolve ty t).value = r at same ⊢
  generalize ((store.withImpls impls).resolve ty t).value = r' at same ⊢
  cases same <;> rfl

theorem implements_agree (reorders : store.Reorders σ impls) (ty : Ty) (t : TraitRef) :
    ((store.withImpls impls).implements ty t).value = (store.implements ty t).value := by
  simp only [implements, Logged.value_map, candidate?_agree reorders, Option.isSome_map]

theorem project_agree (reorders : store.Reorders σ impls) (ty : Ty) (trait name : String) :
    ((store.withImpls impls).project ty trait name).value =
      (store.project ty trait name).value := by
  simp only [project, Logged.value_map, candidate?_agree reorders, Option.bind_map]
  rfl

theorem acceptBy_agree (reorders : store.Reorders σ impls) (v : Value) (expected : Ty)
    {otherwise otherwise' : Ty → Logged (Option Value)}
    (same : ∀ t, (otherwise' t).value = (otherwise t).value) :
    ((store.withImpls impls).acceptBy v expected otherwise').value =
      (store.acceptBy v expected otherwise).value := by
  unfold acceptBy
  rw [normalize_withImpls]
  split
  · rfl
  · rfl
  · simp only [Logged.value_bind, implements_agree reorders]
  · exact same _

private theorem acceptAll_agree {items : List Value} {t : Ty}
    (each : ∀ v ∈ items, ∀ t,
      ((store.withImpls impls).accept v t).value = (store.accept v t).value) :
    ((store.withImpls impls).acceptAll items t).value = (store.acceptAll items t).value := by
  induction items with
  | nil => rfl
  | cons v rest ih =>
    rw [List.forall_mem_cons] at each
    simp only [acceptAll, Logged.value_bind, each.1]
    cases (store.accept v t).value with
    | none => rfl
    | some w => simp only [Logged.value_bind, ih each.2]

theorem accept_agree (reorders : store.Reorders σ impls) (v : Value) (t : Ty) :
    ((store.withImpls impls).accept v t).value = (store.accept v t).value := by
  induction v using Value.inductionOn generalizing t with
  | leaf v leaf =>
    cases v <;> first
      | exact acceptBy_agree reorders _ t fun _ => rfl
      | cases leaf
  | list items ihs =>
    refine acceptBy_agree reorders _ t fun t => ?_
    split
    · simp only [Logged.value_bind, acceptAll_agree ihs]
    · rfl
  | some v ih =>
    refine acceptBy_agree reorders _ t fun t => ?_
    split
    · simp only [Logged.value_bind, ih]
    · rfl
  | record u fields ihs => exact acceptBy_agree reorders _ t fun _ => rfl
  | wrapped u v ih => exact acceptBy_agree reorders _ t fun _ => rfl

/-! ### Conversions -/

theorem wrap_agree (reorders : store.Reorders σ impls) (v : Value) (expected : Ty) :
    ((store.withImpls impls).wrap v expected).value = (store.wrap v expected).value := by
  unfold wrap
  simp only [Logged.value_bind, project_agree reorders]
  cases (store.project expected Builtin.transparent Builtin.inner).value with
  | none => rfl
  | some inner => simp only [Logged.value_bind, accept_agree reorders]

/-- The type from which an impl converts a value, with the value as one of it. -/
def conversion? (store : Store) (v : Value) (expected : Ty) (d : ImplDecl) : Option (Ty × Value) :=
  d.traitArgs.head?.bind fun written =>
    let unified := Ty.unify (Generic.names d.generics) d.target expected []
    let source := written.substitute unified.2
    if unified.1 = true ∧
        (store.implements expected (.plain Builtin.from_ [source])).value = true then
      (store.accept v source).value.map fun inner => (source, inner)
    else none

theorem accept_of_conversion? {v : Value} {expected : Ty} {d : ImplDecl} {c : Ty × Value}
    (found : store.conversion? v expected d = some c) : (store.accept v c.1).value = some c.2 := by
  unfold conversion? at found
  obtain ⟨written, -, found⟩ := Option.bind_eq_some_iff.mp found
  dsimp only at found
  split at found
  · obtain ⟨inner, accepted, rfl⟩ := Option.map_eq_some_iff.mp found
    exact accepted
  · cases found

/-- Adds a conversion, unless there is one from its type. -/
def addConversion (found : List (Ty × Value)) (c : Ty × Value) : List (Ty × Value) :=
  if found.any (·.1 == c.1) then found else found ++ [c]

private theorem conversions_cons (v : Value) (expected : Ty) (d : ImplDecl) (rest : List ImplDecl)
    (found : List (Ty × Value)) :
    (store.conversions v expected (d :: rest) found).value =
      (store.conversions v expected rest
        ((store.conversion? v expected d).elim found (addConversion found))).value := by
  rw [conversions]
  unfold conversion?
  cases d.traitArgs.head? with
  | none => rfl
  | some written =>
    simp only [Option.bind_some]
    cases Ty.unify (Generic.names d.generics) d.target expected [] with
    | mk fits subst =>
      cases fits with
      | false => rfl
      | true =>
        simp only [Logged.value_bind, true_and]
        cases (store.accept v (written.substitute subst)).value with
        | none => simp
        | some inner =>
          simp only [Logged.value_bind]
          cases (store.implements expected
            (.plain Builtin.from_ [written.substitute subst])).value with
          | false => rfl
          | true =>
            simp only [Bool.true_and, if_true, Option.map_some, Option.elim_some]
            unfold addConversion
            cases found.any (·.1 == written.substitute subst) <;> rfl

theorem conversions_value (v : Value) (expected : Ty) (ds : List ImplDecl)
    (found : List (Ty × Value)) :
    (store.conversions v expected ds found).value =
      (ds.filterMap (store.conversion? v expected)).foldl addConversion found := by
  induction ds generalizing found with
  | nil => rfl
  | cons d rest ih =>
    rw [conversions_cons, ih, List.filterMap_cons]
    cases store.conversion? v expected d <;> rfl

theorem conversion?_agree (reorders : store.Reorders σ impls) (v : Value) (expected : Ty)
    (d : ImplDecl) :
    (store.withImpls impls).conversion? v expected (d.renumber σ) =
      store.conversion? v expected d := by
  simp only [conversion?, implements_agree reorders, accept_agree reorders]
  rfl

/-- Conversions that are each told by the type converted from. -/
def Determined (store : Store) (v : Value) (cs : List (Ty × Value)) : Prop :=
  ∀ c ∈ cs, (store.accept v c.1).value = some c.2

/-- A conversion from a type from which there is one already is that one. -/
theorem Determined.mem_of_same {v : Value} {found : List (Ty × Value)} {c : Ty × Value}
    (determined : store.Determined v (found ++ [c]))
    (present : found.any (·.1 == c.1) = true) : c ∈ found := by
  obtain ⟨other, member, same⟩ := List.any_eq_true.mp present
  have here := determined c (List.mem_append_right _ (List.mem_singleton_self c))
  have first := determined other (List.mem_append_left _ member)
  rw [eq_of_beq same, here] at first
  have equal : other = c := Prod.ext (eq_of_beq same) (Option.some.inj first).symm
  exact equal ▸ member

/-- Adding a conversion keeps those found, one from each type. -/
theorem addConversion_spec {v : Value} {found : List (Ty × Value)} {c : Ty × Value}
    (determined : store.Determined v (found ++ [c])) (once : (found.map (·.1)).Nodup) :
    ((addConversion found c).map (·.1)).Nodup ∧
      ∀ d, d ∈ addConversion found c ↔ d ∈ found ∨ d = c := by
  unfold addConversion
  split
  · rename_i present
    have there := determined.mem_of_same present
    refine ⟨once, fun d => (or_iff_left_of_imp ?_).symm⟩
    rintro rfl
    exact there
  · rename_i absent
    have fresh : c.1 ∉ found.map (·.1) := fun member => by
      obtain ⟨other, inside, same⟩ := List.mem_map.mp member
      exact absent (List.any_eq_true.mpr ⟨other, inside, beq_iff_eq.mpr same⟩)
    rw [List.map_append]
    refine ⟨List.Nodup.append once (List.nodup_singleton _) (List.disjoint_singleton.mpr fresh),
      fun d => ?_⟩
    rw [List.mem_append, List.mem_singleton]

theorem foldl_addConversion {v : Value} {cs : List (Ty × Value)} (found : List (Ty × Value))
    (determined : store.Determined v (found ++ cs)) (once : (found.map (·.1)).Nodup) :
    ((cs.foldl addConversion found).map (·.1)).Nodup ∧
      ∀ d, d ∈ cs.foldl addConversion found ↔ d ∈ found ++ cs := by
  induction cs generalizing found with
  | nil => exact ⟨once, fun d => by rw [List.append_nil]; rfl⟩
  | cons c rest ih =>
    obtain ⟨again, members⟩ := addConversion_spec (c := c) (fun d inside => determined d (by
      rw [List.append_cons]
      exact List.mem_append_left _ inside)) once
    obtain ⟨nodup, all⟩ := ih (addConversion found c) (fun d inside => determined d (by
      rw [List.mem_append, members] at inside
      rw [List.append_cons, List.mem_append, List.mem_append, List.mem_singleton]
      exact inside)) again
    refine ⟨nodup, fun d => (all d).trans ?_⟩
    rw [List.append_cons, List.mem_append, members, List.mem_append, List.mem_append,
      List.mem_singleton]

/-- The conversions of a value are the same ones, found in another order. -/
theorem conversions_agree (reorders : store.Reorders σ impls) (v : Value) (expected : Ty) :
    (store.conversions v expected (store.implsOf Builtin.from_) []).value.Perm
      ((store.withImpls impls).conversions v expected
        ((store.withImpls impls).implsOf Builtin.from_) []).value := by
  have items := (implsOf_agree reorders Builtin.from_).filterMap
    ((store.withImpls impls).conversion? v expected)
  rw [List.filterMap_map] at items
  have same : (store.withImpls impls).conversion? v expected ∘ (·.renumber σ) =
      store.conversion? v expected := funext fun d => conversion?_agree reorders v expected d
  rw [same] at items
  rw [conversions_value, conversions_value]
  have determined : store.Determined v
      ((store.implsOf Builtin.from_).filterMap (store.conversion? v expected)) := fun c member => by
    obtain ⟨d, -, found⟩ := List.mem_filterMap.mp member
    exact accept_of_conversion? found
  have first := foldl_addConversion [] determined List.nodup_nil
  have second := foldl_addConversion []
    (fun c member => determined c (items.mem_iff.mpr member)) List.nodup_nil
  refine (List.perm_ext_iff_of_nodup (List.Nodup.of_map _ first.1)
    (List.Nodup.of_map _ second.1)).mpr fun c => ?_
  rw [first.2, second.2]
  exact items.mem_iff

/-! ### Values given the type expected -/

/-- A conversion comes to the same, but for the fault where there are several ones. -/
theorem convert_agree (reorders : store.Reorders σ impls)
    {inOption inOption' : Ty → Logged (Option Value)}
    (same : ∀ t, (inOption' t).value = (inOption t).value) (v : Value) (expected : Ty)
    (place : Location) :
    ((store.withImpls impls).convert inOption' v expected place).value.toOption =
      (store.convert inOption v expected place).value.toOption := by
  have present : presentIn inOption' expected = presentIn inOption expected := by
    unfold presentIn
    simp only [same]
  have perm := conversions_agree reorders v expected
  rw [convert_value, convert_value, present, wrap_agree reorders]
  -- One conversion is the same one in both stores; several are a fault in both, with other texts.
  generalize (store.conversions v expected (store.implsOf Builtin.from_) []).value = cs at perm ⊢
  generalize ((store.withImpls impls).conversions v expected
    ((store.withImpls impls).implsOf Builtin.from_) []).value = cs' at perm ⊢
  cases presentIn inOption expected with
  | some inner => rfl
  | none =>
    cases (store.wrap v expected).value with
    | some w => rfl
    | none =>
      match cs, cs' with
      | [], cs' =>
        obtain rfl := perm.nil_eq
        rfl
      | [c], cs' =>
        obtain rfl := perm.singleton_eq
        rfl
      | _ :: _ :: _, [] => cases perm.length_eq
      | _ :: _ :: _, [_] => cases perm.length_eq
      | _ :: _ :: _, _ :: _ :: _ => rfl

theorem conformBy_agree (reorders : store.Reorders σ impls)
    {inOption inOption' : Location → Ty → Logged (Option Value)}
    (same : ∀ place t, (inOption' place t).value = (inOption place t).value) (v : Value)
    (expected : Ty) (place : Location) :
    ((store.withImpls impls).conformBy inOption' v expected place).value.toOption =
      (store.conformBy inOption v expected place).value.toOption := by
  have converted := convert_agree reorders (same place) v (store.normalize expected) place
  simp only [conformBy, normalize_withImpls, Logged.value_bind, accept_agree reorders]
  cases (store.accept v (store.normalize expected)).value with
  | some w => rfl
  | none =>
    simp only [Logged.value_bind]
    generalize (store.convert (inOption place) v (store.normalize expected) place).value = r
      at converted ⊢
    generalize ((store.withImpls impls).convert (inOption' place) v (store.normalize expected)
      place).value = r' at converted ⊢
    cases r with
    | error faults =>
      cases r' with
      | error faults' => rfl
      | ok made => cases converted
    | ok made =>
      cases r' with
      | error faults' => cases converted
      | ok made' =>
        cases converted
        cases made with
        | none => rfl
        | some made => rfl

theorem conformTo_agree (reorders : store.Reorders σ impls) (depth : Nat) (v : Value)
    (expected : Ty) (place : Location) :
    ((store.withImpls impls).conformTo depth v expected place).value.toOption =
      (store.conformTo depth v expected place).value.toOption := by
  induction depth generalizing expected place with
  | zero => exact conformBy_agree reorders (fun _ _ => rfl) v expected place
  | succ depth ih =>
    refine conformBy_agree reorders (fun place t => ?_) v expected place
    simp only [Logged.value_bind, Logged.value_pure, ih]

theorem conformPlain_agree (reorders : store.Reorders σ impls) (v : Value) (expected : Ty)
    (place : Location) :
    ((store.withImpls impls).conformPlain v expected place).value.toOption =
      (store.conformPlain v expected place).value.toOption :=
  conformTo_agree reorders (store.expandedHeight expected) v expected place

/-! ### Defaults -/

/-- A default is at fault in both stores or in neither. -/
theorem defaultFault?_agree (reorders : store.Reorders σ impls) (schema : Schema) (p : Param)
    (default : Snippet) :
    ((store.withImpls impls).defaultFault? schema p default).value.isSome =
      (store.defaultFault? schema p default).value.isSome := by
  have evaluated := eval_agree reorders { module := schema.module } default.expr
  have typed (v : Value)
      (found : outcome (store.eval { module := schema.module } default.expr) = .ok v) :
      v.isUntyped = false := default_isTyped found
  unfold Eval.SameValue at evaluated
  unfold outcome at evaluated typed
  simp only [defaultFault?, Logged.value_bind]
  generalize (store.eval { module := schema.module } default.expr).run.value = r
    at evaluated typed ⊢
  generalize ((store.withImpls impls).eval { module := schema.module } default.expr).run.value = r'
    at evaluated ⊢
  cases r with
  | error e =>
    cases r' with
    | error e' => rfl
    | ok v => cases evaluated
  | ok v =>
    cases r' with
    | error e' => cases evaluated
    | ok w =>
      cases evaluated
      dsimp only
      split
      · rfl
      · simp only [Logged.value_bind, conform_of_typed (typed v rfl)]
        have conformed := conformPlain_agree reorders v p.ty
          (((Location.ofDocument schema.document).child "params").child p.name |>.child "default")
        generalize (store.conformPlain v p.ty _).value = q at conformed ⊢
        generalize ((store.withImpls impls).conformPlain v p.ty _).value = q' at conformed ⊢
        cases q <;> cases q' <;> first
          | rfl
          | cases conformed

private theorem defaultFaults_agree (reorders : store.Reorders σ impls)
    (params : List (Schema × Param)) :
    ((store.withImpls impls).defaultFaults params).value = [] ↔
      (store.defaultFaults params).value = [] := by
  induction params with
  | nil => exact Iff.rfl
  | cons entry rest ih =>
    obtain ⟨schema, p⟩ := entry
    simp only [defaultFaults]
    cases p.default with
    | none => exact ih
    | some default =>
      have same := defaultFault?_agree reorders schema p default
      rw [Bool.eq_iff_iff, Option.isSome_iff_ne_none, Option.isSome_iff_ne_none,
        not_iff_not] at same
      simp only [Logged.value_bind, Logged.value_pure, List.append_eq_nil_iff, ih,
        Option.toList_eq_nil_iff, same]

/-- The defaults are in order in both stores or in neither. -/
theorem verifyDefaults_agree (reorders : store.Reorders σ impls) :
    (store.withImpls impls).verifyDefaults.value = [] ↔ store.verifyDefaults.value = [] :=
  defaultFaults_agree reorders _

end Pipeline.Store
