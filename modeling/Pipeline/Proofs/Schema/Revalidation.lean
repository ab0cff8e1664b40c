import Pipeline.Proofs.Schema.Accept
import Pipeline.Proofs.Schema.Conformance
import Pipeline.Proofs.Ty.Fits

/-!
# Validating again

What a validation has accepted is accepted again unchanged. What it has made, a wrapper or a struct,
carries a type, and the next validation compares that type with the one declared.
-/

set_option autoImplicit false
set_option relaxedAutoImplicit false

namespace Pipeline

/-- The parameter as one whose value was supplied. -/
def ValidParam.asSupplied (q : ValidParam) : ValidParam := { q with origin := .supplied }

/-- The findings of a validation to which the values found were supplied. -/
def Findings.asSupplied (f : Findings) : Findings :=
  { f with params := f.params.map ValidParam.asSupplied }

private theorem Findings.asSupplied_of_params {f : Findings} (none : f.params = []) :
    f.asSupplied = f := by
  cases f
  simp_all [Findings.asSupplied]

namespace Store

variable {store : Store}

/-! ### Accepting again -/

theorem acceptBy_of_named {v : Value} {t : Ty} {otherwise : Ty → Logged (Option Value)}
    {path : String} (declared : (store.normalize t).path? = some path) :
    (store.acceptBy v t otherwise) = otherwise (store.normalize t) := by
  unfold acceptBy
  cases form : store.normalize t with
  | named => rfl
  | _ => simp [form, Ty.path?] at declared

private theorem acceptAll_again {items ws : List Value} {t : Ty}
    (each : ∀ v ∈ items, ∀ w, (store.accept v t).value = some w →
      (store.accept w t).value = some w)
    (found : (store.acceptAll items t).value = some ws) :
    (store.acceptAll ws t).value = some ws := by
  induction items generalizing ws with
  | nil =>
    cases found
    rfl
  | cons v rest ih =>
    rw [List.forall_mem_cons] at each
    obtain ⟨w, ws', rfl, here, there⟩ := acceptAll_cons found
    simp only [acceptAll, Logged.value_bind, each.1 w here, ih each.2 there]
    rfl

/-- A value accepted is accepted again as it is. -/
theorem accept_again {v w : Value} {t : Ty} (found : (store.accept v t).value = some w) :
    (store.accept w t).value = some w := by
  induction v using Value.inductionOn generalizing t w with
  | list items ih =>
    rcases acceptBy_cases found with ⟨rfl, -⟩ | listed
    · exact found
    · split at listed
      · rename_i path
        simp only [Logged.value_bind, Logged.value_pure, Option.map_eq_some_iff] at listed
        obtain ⟨ws, accepted, rfl⟩ := listed
        have again := acceptAll_again (fun v member w => ih v member) accepted
        simp only [accept, acceptItems, acceptBy_of_named path, path, if_pos, Logged.value_bind,
          again]
        rfl
      · cases listed
  | some v ih =>
    rcases acceptBy_cases found with ⟨rfl, -⟩ | present
    · exact found
    · split at present
      · rename_i path
        simp only [Logged.value_bind, Logged.value_pure, Option.map_eq_some_iff] at present
        obtain ⟨w, accepted, rfl⟩ := present
        simp only [accept, acceptItems, acceptBy_of_named path, path, if_pos, Logged.value_bind,
          ih accepted]
        rfl
      · cases present
  | record | wrapped =>
    cases accept_accepted found
    exact found
  | leaf v leaf =>
    cases accept_accepted found with
    | kept => exact found
    | float n =>
      rcases acceptBy_cases found with ⟨same, -⟩ | formed
      · cases same
      · obtain ⟨path, named, formed⟩ := Option.bind_eq_some_iff.mp formed
        split at formed
        · cases (keepIf_eq_some formed).1
        · obtain ⟨-, float⟩ := keepIf_eq_some formed
          simp only [accept, acceptNamed, acceptBy_of_named named, Logged.value_pure, named,
            Option.bind_some, float]
          rfl
    | list | some => cases leaf

/-! ### Values made -/

/-- The number of options and wrappers around a value. -/
def layers : Value → Nat
  | .some v => layers v + 1
  | .wrapped _ v => layers v + 1
  | _ => 0

private theorem accept_layers {v w : Value} {t : Ty} (found : (store.accept v t).value = some w) :
    layers w = layers v := by
  induction v using Value.inductionOn generalizing t w with
  | some v ih =>
    cases accept_accepted found with
    | kept => rfl
    | some accepted => simp [layers, ih accepted]
  | list | record | wrapped => cases accept_accepted found <;> rfl
  | leaf v leaf =>
    cases accept_accepted found with
    | kept | float => rfl
    | list | some => cases leaf

/-- A value that a validation has made is no longer a record without a type. -/
theorem Conforms.typed {v w : Value} {t : Ty} (made : store.Conforms v t w) :
    w.isUntyped = false := by
  cases made with
  | accepted typed accepted =>
    cases accept_accepted accepted with
    | kept => exact typed
    | _ => rfl
  | present | transparent | «from» => rfl
  | @record fields t inferred d parts struct known types given conforms component =>
    have declared : (store.normalize t).path?.isSome = true := by
      obtain ⟨here, -⟩ := Option.filter_eq_some_iff.mp struct
      obtain ⟨path, named, -⟩ := Option.bind_eq_some_iff.mp here
      rw [named]
      rfl
    have carried : (recordTy d (store.normalize t) inferred).path?.isSome = true := by
      unfold recordTy
      split
      · exact declared
      · rw [component]
        rfl
    cases form : recordTy d (store.normalize t) inferred <;> simp_all [Value.isUntyped, Ty.path?]

/-- A value that is not accepted gets layers when it is converted. -/
private theorem Conforms.layers {v w : Value} {t : Ty} (made : store.Conforms v t w)
    (typed : v.isUntyped = false) : Store.layers v ≤ Store.layers w ∧
      ((store.accept v (store.normalize t)).value = none → Store.layers v < Store.layers w) := by
  induction made with
  | accepted _ accepted =>
    have same := accept_layers accepted
    exact ⟨by omega, fun refused => by rw [refused] at accepted; cases accepted⟩
  | present _ _ _ _ inside ih =>
    have grown := (ih typed).1
    exact ⟨by simp only [Store.layers]; omega, fun _ => by simp only [Store.layers]; omega⟩
  | transparent _ _ _ accepted | «from» _ _ _ accepted =>
    have same := accept_layers accepted
    exact ⟨by simp only [Store.layers]; omega, fun _ => by simp only [Store.layers]; omega⟩
  | record => cases typed

private theorem Conforms.accepted_or_refused {v w : Value} {t : Ty}
    (made : store.Conforms v t w) (typed : v.isUntyped = false) :
    (store.accept v (store.normalize t)).value = some w ∨
      (store.accept v (store.normalize t)).value = none := by
  cases made with
  | accepted _ accepted => exact Or.inl accepted
  | present _ refused | transparent _ refused | «from» _ refused => exact Or.inr refused
  | record => cases typed

/-- A value that is accepted as it is where its parameter is declared. -/
def Lasting (store : Store) (t : Ty) (w : Value) : Prop :=
  (store.accept w (store.normalize t)).value = some w

/-- A value that conforms to a type as itself is accepted there as it is. -/
theorem Conforms.lasting {w : Value} {t : Ty} (same : store.Conforms w t w) :
    store.Lasting t w := by
  rcases same.accepted_or_refused same.typed with accepted | refused
  · exact accepted
  · exact absurd ((same.layers same.typed).2 refused) (Nat.lt_irrefl _)

/-- A declared type that is written in full: no alias, parameter or wildcard is left in it, it has
all its arguments, and no opaque type in it repeats a constraint. What an option holds is such a
type as well. -/
inductive WrittenOut (store : Store) : Ty → Prop
  | intro {t : Ty} {path : String} {args : List Ty} : store.normalize t = .named path args →
      store.normalize (.named path args) = .named path args →
      (Ty.named path args).isConcrete = true →
      (Ty.named path args).anyPart Ty.repeatsConstraint = false →
      (∀ d, store.type? path = some d → args.length = d.generics.length) →
      (path = Builtin.option → ∀ elem ∈ args.head?, store.normalize elem = elem) →
      (path = Builtin.option → ∀ elem ∈ args.head?, WrittenOut store elem) → WrittenOut store t

private theorem lasting_of_carried {w : Value} {t : Ty} {path : String} {args : List Ty}
    (written : store.normalize t = .named path args)
    (stable : store.normalize (.named path args) = .named path args)
    (distinct : (Ty.named path args).anyPart Ty.repeatsConstraint = false)
    (carried : w.ty = .named path args)
    (declared : store.accept w = store.acceptDeclared w) : store.Lasting t w := by
  have named : (store.normalize (.named path args)).path? = some path := by rw [stable]; rfl
  unfold Lasting
  rw [written, declared, acceptDeclared, acceptBy_of_named named, stable, carried]
  simp [keepIf, Ty.path?, Ty.fits_self distinct]

/-- Where a type is written in full, every value made for it is accepted as it is. -/
theorem WrittenOut.lasting {v w : Value} {t : Ty} (full : store.WrittenOut t)
    (made : store.Conforms v t w) : store.Lasting t w := by
  induction made with
  | @accepted v w t _ accepted => exact accept_again accepted
  | @present v w t elem _ _ path head _ ih =>
    cases full with
    | @intro _ _ args written stable _ _ _ plain element =>
      rw [written] at path head
      cases path
      have inside : (store.accept w elem).value = some w := by
        have lasting := ih (element rfl elem head)
        rwa [Lasting, plain rfl elem head] at lasting
      have named : (store.normalize (.named Builtin.option args)).path? = some Builtin.option := by
        rw [stable]
        rfl
      have elem_eq : (Ty.named Builtin.option args).args.head?.getD .infer = elem := by
        rw [head]
        rfl
      rw [Lasting, written]
      simp only [accept, acceptItems, acceptBy_of_named named]
      simp only [stable, Ty.path?, if_pos, elem_eq, Logged.value_bind, inside]
      rfl
  | transparent =>
    cases full with
    | intro written stable _ distinct =>
      exact lasting_of_carried written stable distinct written rfl
  | «from» =>
    cases full with
    | intro written stable _ distinct =>
      exact lasting_of_carried written stable distinct written rfl
  | @record fields t inferred d parts struct =>
    cases full with
    | @intro _ path args written stable concrete distinct complete =>
      have known : store.type? path = some d := by
        obtain ⟨here, -⟩ := Option.filter_eq_some_iff.mp struct
        rw [written] at here
        exact here
      have carried : recordTy d (store.normalize t) inferred = .named path args := by
        rw [written]
        exact if_pos ⟨complete d known, concrete⟩
      exact lasting_of_carried written stable distinct carried rfl

/-! ### The second validation -/

variable {schema : Schema} {base : Location}

/-- A value that lasts is given to its parameter as it is. -/
private theorem conform_of_lasting {t : Ty} {w : Value} {place : Location}
    (typed : w.isUntyped = false) (lasting : store.Lasting t w) :
    (store.conform w t place).value = .ok (w, none) := by
  have plain (inOption : Location → Ty → Logged (Option Value)) :
      (store.conformBy inOption w t place).value = .ok (w, none) := by
    unfold conformBy
    simp only [Logged.value_bind]
    rw [show (store.accept w (store.normalize t)).value = some w from lasting]
    rfl
  rw [conform_of_typed typed, conformPlain]
  cases store.expandedHeight t <;> exact plain _

/-- A parameter whose value lasts has the same findings when the value is supplied. -/
private theorem runParam_again {p : Param} {given given' : Option Conformer} {place : Location}
    {q : ValidParam} (found : (store.valueOf schema p given place).value = .ok q)
    (again : (store.valueOf schema p given' place).value = .ok q.asSupplied) :
    (store.runParam schema p given' place).value =
      (store.runParam schema p given place).value.asSupplied := by
  have params : (store.runChecks schema.component
      ((Env.withSelf { module := schema.module } q.value).withVar p.name q.value) place
      (.checkViolation p.name) p.checks).value.params = [] := store.runChecks_params _ _ _ _ _
  unfold runParam
  simp only [Logged.value_bind, found, again]
  simp [Findings.asSupplied, ValidParam.asSupplied]

private theorem andThen_asSupplied {a : Findings} {next next' : Logged Findings}
    (same : next'.value = next.value.asSupplied) :
    (a.asSupplied.andThen next').value = (a.andThen next).value.asSupplied := by
  unfold Findings.andThen
  cases running : a.aborted with
  | true => simp [Findings.asSupplied, running]
  | false => simp [Findings.asSupplied, running, same]

/-- What is given for a parameter is the value found for it before, and that value lasts. -/
private def Returned (store : Store) (given' : List (String × Conformer)) (p : Param)
    (q : ValidParam) : Prop :=
  givenFor given' p = some (store.conform q.value) ∧ q.value.isUntyped = false ∧
    store.Lasting p.ty q.value

private theorem valueOf_returned {given' : List (String × Conformer)} {p : Param}
    {q : ValidParam} {place : Location} (named : q.name = p.name)
    (returned : store.Returned given' p q) :
    (store.valueOf schema p (givenFor given' p) place).value = .ok q.asSupplied := by
  obtain ⟨given, typed, lasting⟩ := returned
  rw [given]
  unfold valueOf
  simp only [Logged.value_bind, conform_of_lasting typed lasting]
  simp [ValidParam.asSupplied, named]

private theorem valueOf_of_runParam {p : Param} {given : List (String × Conformer)}
    {place : Location} (grave : ∀ c ∈ givenFor given p, c.Grave)
    (clean : (store.runParam schema p (givenFor given p) place).value.faults = []) :
    ∃ q, (store.valueOf schema p (givenFor given p) place).value = .ok q ∧ q.name = p.name ∧
      (store.runParam schema p (givenFor given p) place).value.params = [q] := by
  unfold runParam at clean ⊢
  simp only [Logged.value_bind] at clean ⊢
  rcases valueOf_cases schema p (givenFor given p) place with
    ⟨f, failed, -, faults⟩ | ⟨conform, supplies, ⟨faults, refused, failed⟩ |
      ⟨w, via, q, conformed, found, name, rfl⟩⟩
  · rw [failed] at clean
    exact absurd clean faults
  · rw [failed] at clean
    exact absurd clean (supplies.grave grave _ _ _ refused)
  · rw [found]
    exact ⟨q, rfl, name, rfl⟩

private theorem runParams_again {given given' : List (String × Conformer)} {params : List Param}
    (grave : ∀ g ∈ given, g.2.Grave)
    (clean : (store.runParams schema given base params).value.faults = [])
    (returned : List.Forall₂ (store.Returned given') params
      (store.runParams schema given base params).value.params) :
    (store.runParams schema given' base params).value =
      (store.runParams schema given base params).value.asSupplied := by
  induction params with
  | nil => rfl
  | cons p rest ih =>
    rw [runParams_cons] at clean returned
    obtain ⟨here, there, params⟩ := Findings.andThen_of_faults_eq_nil runParam_grave clean
    obtain ⟨q, found, named, only⟩ := valueOf_of_runParam (grave_givenFor grave) here
    rw [params, only] at returned
    cases returned with
    | cons first others =>
      have again := runParam_again found (valueOf_returned named first)
      rw [runParams_cons, runParams_cons, again]
      exact andThen_asSupplied (ih there others)

private theorem runCross_again (params : List ValidParam) :
    store.runCross schema (params.map ValidParam.asSupplied) base =
      store.runCross schema params base := by
  simp [runCross, ValidParam.asSupplied, Function.comp_def]

private theorem inferTy_again (params : List ValidParam) :
    inferTy schema (params.map ValidParam.asSupplied) = inferTy schema params := by
  simp [inferTy, List.foldl_map, ValidParam.asSupplied]

/-- The findings of a validation in which no name is unknown. -/
private def findings (store : Store) (schema : Schema) (given : List (String × Conformer))
    (base : Location) : Findings :=
  let own := (store.runParams schema given base schema.params).value
  (own.andThen (store.runCross schema own.params base)).value

private theorem validateWith_of_known {given : List (String × Conformer)}
    (known : ∀ g ∈ given, (schema.param? g.1).isSome = true) :
    (store.validateWith schema given base).value =
      let found := store.findings schema given base
      if found.faults.isEmpty then
        .ok ⟨schema.component, inferTy schema found.params, found.params, found.deferred⟩
      else .error found.faults := by
  have unknown : (given.filter fun g => (schema.param? g.1).isNone) = [] := by
    rw [List.filter_eq_nil_iff]
    intro g member
    simpa [Option.isSome_iff_ne_none] using known g member
  have begun (next : Logged Findings) : (({} : Findings).andThen next).value = next.value := by
    simp [Findings.andThen]
  unfold validateWith findings
  simp only [unknown, List.map_nil, Logged.value_bind, begun]
  split <;> rfl

/-- A validation succeeds if all names supplied are known and no fault is found. -/
private theorem validateWith_eq_ok_iff {given : List (String × Conformer)} {p : ValidParams}
    (grave : ∀ g ∈ given, g.2.Grave) :
    (store.validateWith schema given base).value = .ok p ↔
      (∀ g ∈ given, (schema.param? g.1).isSome = true) ∧
      (store.findings schema given base).faults = [] ∧
      p = ⟨schema.component, inferTy schema (store.findings schema given base).params,
        (store.findings schema given base).params,
        (store.findings schema given base).deferred⟩ := by
  constructor
  · intro found
    have known := (validateWith_eq_ok grave found).1
    rw [validateWith_of_known known] at found
    dsimp only at found
    split at found
    · rename_i clean
      cases found
      exact ⟨known, List.isEmpty_iff.mp clean, rfl⟩
    · cases found
  · rintro ⟨known, clean, rfl⟩
    rw [validateWith_of_known known]
    simp [clean]

private theorem findings_again {given given' : List (String × Conformer)}
    (grave : ∀ g ∈ given, g.2.Grave) (clean : (store.findings schema given base).faults = [])
    (returned : List.Forall₂ (store.Returned given') schema.params
      (store.findings schema given base).params) :
    store.findings schema given' base = (store.findings schema given base).asSupplied := by
  obtain ⟨own, -, params⟩ := Findings.andThen_of_faults_eq_nil runParams_grave clean
  have kept : (store.findings schema given base).params =
      (store.runParams schema given base schema.params).value.params := by
    rw [findings, params, runCross_params, List.append_nil]
  rw [kept] at returned
  have again := runParams_again grave own returned
  unfold findings
  simp only [again]
  refine andThen_asSupplied ?_
  have none : (store.runCross schema (store.runParams schema given base schema.params).value.params
      base).value.params = [] := runCross_params _ _ _
  rw [show (store.runParams schema given base schema.params).value.asSupplied.params =
    (store.runParams schema given base schema.params).value.params.map ValidParam.asSupplied
    from rfl, runCross_again, Findings.asSupplied_of_params none]

/-- The value found for a parameter is what is supplied for it the second time. -/
private theorem find?_toSupplied {params : List Param} {found : List ValidParam}
    (distinct : (params.map (·.name)).Nodup)
    (named : List.Forall₂ (fun p q => q.name = p.name) params found) :
    List.Forall₂ (fun p q => (found.map fun v => (v.name, v.value)).find? (·.1 == p.name) =
      some (q.name, q.value)) params found := by
  induction named with
  | nil => exact .nil
  | @cons p q params found here there ih =>
    rw [List.map_cons, List.nodup_cons] at distinct
    have apart : ∀ p' ∈ params, p'.name ≠ p.name := by
      intro p' member same
      exact distinct.1 (same ▸ List.mem_map_of_mem member)
    refine .cons (by simp [here]) ?_
    refine ((List.forall₂_and_left _ _).mpr ⟨apart, ih distinct.2⟩).imp fun p' q' both => ?_
    rw [List.map_cons, List.find?_cons_of_neg (by simpa [here] using Ne.symm both.1)]
    exact both.2

private theorem mem_toSupplied {params : List Param} {found : List ValidParam}
    (named : List.Forall₂ (fun d q => q.name = d.name) params found) :
    ∀ g ∈ found.map (fun v => (v.name, v.value)), ∃ d ∈ params, d.name = g.1 := by
  induction named with
  | nil => simp
  | @cons d q params found here _ ih =>
    rw [List.map_cons, List.forall_mem_cons]
    refine ⟨⟨d, List.mem_cons_self, here.symm⟩, fun g member => ?_⟩
    obtain ⟨d', inside, same⟩ := ih g member
    exact ⟨d', List.mem_cons_of_mem _ inside, same⟩

/-- Values each of which is accepted as it is are found again. -/
private theorem validate_of_lasting {supplied : List (String × Value)} {p : ValidParams}
    (distinct : (schema.params.map (·.name)).Nodup)
    (found : (store.validate schema supplied base).value = .ok p)
    (lasting : List.Forall₂ (fun d q => store.Lasting d.ty q.value) schema.params p.params) :
    (store.validate schema p.toSupplied base).value =
      .ok { p with params := p.params.map ValidParam.asSupplied } := by
  obtain ⟨-, each⟩ := validate_eq_ok found
  have named : List.Forall₂ (fun d q => q.name = d.name) schema.params p.params :=
    each.imp fun _ _ validated => validated.1
  have typed : List.Forall₂ (fun (_ : Param) q => q.value.isUntyped = false)
      schema.params p.params := by
    refine each.imp fun _ _ validated => ?_
    obtain ⟨-, v, -, made⟩ := validated
    exact made.typed
  have returned : List.Forall₂ (store.Returned (store.conformFields p.toSupplied))
      schema.params p.params := by
    refine (find?_toSupplied distinct named).mp (fun d q given rest => ⟨?_, rest⟩)
      (typed.mp (fun _ _ typed lasting => ⟨typed, lasting⟩) lasting)
    rw [givenFor_conformFields, ValidParams.toSupplied, given]
    rfl
  obtain ⟨-, clean, shape⟩ := (validateWith_eq_ok_iff conformFields_grave).mp found
  have params : (store.findings schema (store.conformFields supplied) base).params = p.params := by
    rw [shape]
  have again := findings_again conformFields_grave clean (params.symm ▸ returned)
  refine (validateWith_eq_ok_iff conformFields_grave).mpr ⟨fun g member => ?_, ?_, ?_⟩
  · rw [conformFields_eq_map] at member
    obtain ⟨f, inside, rfl⟩ := List.mem_map.mp member
    obtain ⟨d, declared, same⟩ := mem_toSupplied named f inside
    exact List.find?_isSome.mpr ⟨d, declared, by simpa using same⟩
  · rw [again]
    exact clean
  · rw [again]
    conv_lhs => rw [shape]
    simp [Findings.asSupplied, inferTy_again]

/-- What a validation has found can be supplied to the schema again. The second validation finds
the same values, type and checks exactly if each value is accepted as it is where its parameter is
declared, and this is so for every parameter whose declared type is written in full. -/
theorem validate_toSupplied {supplied : List (String × Value)} {p : ValidParams}
    (distinct : (schema.params.map (·.name)).Nodup)
    (found : (store.validate schema supplied base).value = .ok p) :
    ((∃ again, (store.validate schema p.toSupplied base).value = .ok again ∧
        again.toSupplied = p.toSupplied ∧ again.ty = p.ty ∧
        again.runtimeChecks = p.runtimeChecks) ↔
      List.Forall₂ (fun d q => store.Lasting d.ty q.value) schema.params p.params) ∧
    List.Forall₂ (fun d q => store.WrittenOut d.ty → store.Lasting d.ty q.value)
      schema.params p.params := by
  obtain ⟨-, each⟩ := validate_eq_ok found
  have named : List.Forall₂ (fun d q => q.name = d.name) schema.params p.params :=
    each.imp fun _ _ validated => validated.1
  refine ⟨⟨?_, fun lasting => ?_⟩, ?_⟩
  · rintro ⟨again, found', same, -, -⟩
    obtain ⟨-, each'⟩ := validate_eq_ok found'
    -- the values found again, taken from the list that is the same both times
    have conforms : List.Forall₂ (fun d (g : String × Value) =>
        ∃ v, store.Given schema p.toSupplied d v ∧ store.Conforms v d.ty g.2)
        schema.params again.toSupplied :=
      List.forall₂_map_right_iff.mpr (each'.imp fun _ _ validated => validated.2)
    rw [same] at conforms
    refine (find?_toSupplied distinct named).mp (fun d q given conforming => ?_)
      (List.forall₂_map_right_iff.mp conforms)
    obtain ⟨v, origin, made⟩ := conforming
    have itself : v = q.value := by
      cases origin with
      | supplied there => cases there.symm.trans given; rfl
      | default missing => cases missing.symm.trans given
    exact (itself ▸ made).lasting
  · refine ⟨_, validate_of_lasting distinct found lasting, ?_, rfl, rfl⟩
    simp [ValidParams.toSupplied, ValidParam.asSupplied, Function.comp_def]
  · refine each.imp fun d q validated full => ?_
    obtain ⟨-, v, -, made⟩ := validated
    exact full.lasting made

/-- A struct of two fields of any types. -/
def pairDecl : TypeDecl where
  path := "geo::Pair"
  name := "Pair"
  module := "geo"
  generics := [⟨"A", .type, none⟩, ⟨"B", .type, none⟩]
  kind := .struct [⟨"a", .param "A", true, none⟩, ⟨"b", .param "B", true, none⟩]
  component := none
  explain := none

/-- A store that declares pairs alone. -/
def pairStore : Store :=
  { (default : Store) with types := [("geo::Pair", pairDecl)], maxDepth := 4 }

/-- Pairs of an integer and a text. -/
def wholePair : Ty := .named "geo::Pair" [.std "i64" [], .std "String" []]

/-- The schema of a component that takes two pairs, one of them of a type without arguments. -/
def pairSchema : Schema where
  component := "out::Plot"
  kind := some .sink
  module := "out::Plot"
  document := "out::Plot"
  generics := []
  params := [⟨"whole", wholePair, none, [], none⟩,
    ⟨"open", .named "geo::Pair" [], none, [], none⟩]
  checks := []
  runtimeChecks := []

/-- A pair as it is supplied. -/
def suppliedPair : Value := .record .infer [("a", .int 1), ("b", .str "x")]

/-- The pair that is made of it. -/
def madePair : Value := .record wholePair [("a", .int 1), ("b", .str "x")]

/-- What the pairs supplied are made. -/
def madePairs : ValidParams :=
  ⟨"out::Plot", .named "out::Plot" [], [⟨"whole", madePair, .supplied⟩,
    ⟨"open", madePair, .supplied⟩], []⟩

/-- The pair made for the type written in full can be supplied again, but not the two pairs. -/
theorem pairSchema_validated_again :
    pairStore.Lasting wholePair madePair ∧
      ¬ ∃ again, (pairStore.validate pairSchema madePairs.toSupplied (.ofDocument "main")).value =
        .ok again ∧ again.toSupplied = madePairs.toSupplied ∧ again.ty = madePairs.ty ∧
        again.runtimeChecks = madePairs.runtimeChecks := by
  have distinct : (pairSchema.params.map (·.name)).Nodup := by decide
  have found : (pairStore.validate pairSchema [("whole", suppliedPair), ("open", suppliedPair)]
      (.ofDocument "main")).value = .ok madePairs := rfl
  have full : pairStore.WrittenOut wholePair :=
    .intro rfl rfl rfl rfl (fun d known => by cases known; rfl) nofun nofun
  obtain ⟨exactly, lasting⟩ := validate_toSupplied distinct found
  refine ⟨?_, fun again => ?_⟩
  · cases lasting with
    | cons whole _ => exact whole full
  · cases exactly.mp again with
    | cons _ others =>
      cases others with
      | cons lasting _ => cases lasting

/-- A pair made for a type without arguments is refused for that type. -/
theorem open_pair_refused :
    (pairStore.validate pairSchema [("whole", suppliedPair), ("open", suppliedPair)]
      (.ofDocument "main")).value = .ok madePairs ∧
    (pairStore.validate pairSchema madePairs.toSupplied (.ofDocument "main")).value =
      .error [mismatch ((Location.ofDocument "main").child "open") (.named "geo::Pair" [])
        "geo::Pair<i64, String>"] :=
  ⟨rfl, rfl⟩

end Store
end Pipeline
