import Pipeline.Method.Resolve
import Pipeline.Proofs.Fault.Noted
import Pipeline.Proofs.Schema.Accept
import Pipeline.Proofs.Schema.Conformance
import Pipeline.Proofs.Ty.Matching
import Pipeline.Store.Load

/-!
# The types that values report

A method is looked up for the type that a value reports. A struct, a variant or a wrapper carries
the type it was made for; the type of any other value is read off what it is, and so a number
reports the widest type of numbers, an empty list a list of anything and a closure a function of
anything, whatever was declared. Where a declared type can be read off its values, they report that
type up to wildcards, and without wildcards they have the methods of that type.
-/

set_option autoImplicit false
set_option relaxedAutoImplicit false

namespace Pipeline

namespace Builtin

/-- The types without arguments that are read off their values. -/
def scalars : List String := [bool, string, path "i64", path "f64"]

/-- The types that are read off what their values hold. -/
def collections : List String := [vec, option]

/-- The types of values that carry no type. -/
def untold : List String := integers ++ floats ++ [bool, string] ++ collections

theorem scalar_integer : ∀ p ∈ integers, p ∈ scalars → p = path "i64" := by decide

theorem scalar_float : ∀ p ∈ floats, p ∈ scalars → p = path "f64" := by decide

theorem untold_number : ∀ p ∈ integers ++ floats, p ∈ untold ∧ p ∉ collections := by decide

theorem collection_untold : ∀ p ∈ collections, p ∈ untold ∧ p ∉ scalars := by decide

end Builtin

namespace Store

variable {store : Store}

/-- A type has an argument for every parameter of its declaration. -/
def Complete (store : Store) (path : String) (args : List Ty) : Prop :=
  ∀ d, store.type? path = some d → args.length = d.generics.length

/-- A type that can be read off its values, or that they carry. -/
inductive Shown (store : Store) : Ty → Prop
  | unit : Shown store .unit
  | scalar {path : String} : path ∈ Builtin.scalars → store.Complete path [] →
      Shown store (.named path [])
  | collection {path : String} {t : Ty} : path ∈ Builtin.collections → store.Complete path [t] →
      Shown store t → Shown store (.named path [t])
  | carried {path : String} {args : List Ty} : path ∉ Builtin.untold → store.Complete path args →
      Shown store (.named path args)

/-- A type that values report: it is shown by them, it is known completely, and no alias is left
over in it. -/
structure Reported (store : Store) (t : Ty) : Prop where
  shown : store.Shown t
  concrete : t.isConcrete = true
  settled : t.Without store.standsForOthers

theorem Shown.complete {path : String} {args : List Ty} (shown : store.Shown (.named path args)) :
    store.Complete path args := by
  cases shown <;> assumption

/-- A type that is read off its values is a scalar, unless it holds others. -/
theorem Shown.scalar_of_untold {path : String} {args : List Ty}
    (shown : store.Shown (.named path args)) (untold : path ∈ Builtin.untold)
    (single : path ∉ Builtin.collections) : path ∈ Builtin.scalars ∧ args = [] := by
  cases shown with
  | scalar scalar => exact ⟨scalar, rfl⟩
  | collection collection => exact absurd collection single
  | carried outside => exact absurd untold outside

theorem Shown.elem {path : String} {args : List Ty} (shown : store.Shown (.named path args))
    (collection : path ∈ Builtin.collections) : ∃ t, args = [t] ∧ store.Shown t := by
  cases shown with
  | scalar scalar => exact absurd scalar (Builtin.collection_untold path collection).2
  | collection _ _ inside => exact ⟨_, rfl, inside⟩
  | carried outside => exact absurd (Builtin.collection_untold path collection).1 outside

theorem Reported.normalize {t : Ty} (reported : store.Reported t) : store.normalize t = t :=
  (aliasFree_of_settled reported.settled).normalizeTo

theorem Reported.elem {path : String} {args : List Ty} (reported : store.Reported (.named path args))
    (collection : path ∈ Builtin.collections) : ∃ t, args = [t] ∧ store.Reported t := by
  obtain ⟨t, rfl, shown⟩ := reported.shown.elem collection
  refine ⟨t, rfl, shown, ?_, (Ty.without_named.mp reported.settled).2 t List.mem_cons_self⟩
  have concrete := reported.concrete
  simp only [Ty.isConcrete, Bool.not_eq_true'] at concrete ⊢
  exact (Ty.without_named.mp concrete).2 t List.mem_cons_self

theorem Reported.acceptBy {t : Ty} {v : Value} {otherwise : Ty → Logged (Option Value)}
    (reported : store.Reported t) : store.acceptBy v t otherwise = otherwise t := by
  unfold Store.acceptBy
  rw [reported.normalize]
  cases reported.shown <;> rfl

/-! ### Values accepted -/

/-- What is accepted by the path of a type reports it where the path is that of a scalar. -/
private theorem acceptNamed_below {v w : Value} {t : Ty} {accepted : String → Option Value}
    (reported : store.Reported t) (found : (store.acceptNamed v t accepted).value = some w)
    (untold : ∀ path, accepted path = some w → (path ∈ Builtin.untold ∧ path ∉ Builtin.collections) ∧
      (path ∈ Builtin.scalars → w.ty = .named path [])) : w.ty.Below t := by
  rw [acceptNamed, reported.acceptBy] at found
  obtain ⟨path, named, kept⟩ := Option.bind_eq_some_iff.mp found
  obtain ⟨⟨outside, single⟩, reports⟩ := untold path kept
  cases t with
  | named own args =>
    cases named
    obtain ⟨scalar, rfl⟩ := reported.shown.scalar_of_untold outside single
    rw [reports scalar]
    exact Ty.below_refl _
  | _ => cases named

/-- What is accepted by what it holds reports the type of that. -/
private theorem acceptItems_below {v w : Value} {t : Ty} {path : String}
    {items : Ty → Logged (Option Value)} (collection : path ∈ Builtin.collections)
    (reported : store.Reported t) (found : (store.acceptItems v t path items).value = some w)
    (inside : ∀ elem, store.Reported elem → (items elem).value = some w →
      ∃ r, w.ty = .named path [r] ∧ r.Below elem) : w.ty.Below t := by
  rw [acceptItems, reported.acceptBy] at found
  split at found
  · rename_i named
    cases t with
    | named own args =>
      cases named
      obtain ⟨elem, rfl, shown⟩ := reported.elem collection
      obtain ⟨r, reports, below⟩ := inside elem shown found
      rw [reports]
      exact ⟨[elem], rfl, below, trivial⟩
    | _ => cases named
  · cases found

/-- What carries a type is accepted by that. -/
private theorem acceptDeclared_below {v w : Value} {t : Ty} (reported : store.Reported t)
    (found : (store.acceptDeclared v t).value = some w) : w.ty.Below t := by
  rw [acceptDeclared, reported.acceptBy] at found
  obtain ⟨rfl, fits⟩ := keepIf_eq_some found
  exact coversVague_standsForOthers.below_of_fits reported.settled (Bool.and_eq_true_iff.mp fits).2

private theorem acceptTyped_below {v w : Value} {t : Ty} (reported : store.Reported t)
    (found : (store.acceptTyped v t).value = some w) : w.ty.Below t := by
  rw [acceptTyped, reported.acceptBy] at found
  obtain ⟨rfl, fits⟩ := keepIf_eq_some found
  exact coversVague_standsForOthers.below_of_fits reported.settled fits

private theorem leaf_below {v w : Value} {t : Ty} (leaf : v.isLeaf = true)
    (reported : store.Reported t) (found : (store.accept v t).value = some w) : w.ty.Below t := by
  cases v with
  | unit =>
    rw [accept, reported.acceptBy] at found
    obtain ⟨rfl, same⟩ := keepIf_eq_some found
    rw [eq_of_beq same]
    exact Ty.below_refl _
  | bool | str =>
    refine acceptNamed_below reported found fun path kept => ?_
    obtain ⟨rfl, same⟩ := keepIf_eq_some kept
    obtain rfl := eq_of_beq same
    exact ⟨by decide, fun _ => rfl⟩
  | int n =>
    refine acceptNamed_below reported found fun path kept => ?_
    split at kept
    · rename_i integer
      obtain ⟨rfl, -⟩ := keepIf_eq_some kept
      have integer := List.contains_iff_mem.mp integer
      refine ⟨Builtin.untold_number path (List.mem_append_left _ integer), fun scalar => ?_⟩
      rw [Builtin.scalar_integer path integer scalar]
      rfl
    · obtain ⟨rfl, float⟩ := keepIf_eq_some kept
      have float := List.contains_iff_mem.mp float
      refine ⟨Builtin.untold_number path (List.mem_append_right _ float), fun scalar => ?_⟩
      rw [Builtin.scalar_float path float scalar]
      rfl
  | float x =>
    refine acceptNamed_below reported found fun path kept => ?_
    obtain ⟨rfl, float⟩ := keepIf_eq_some kept
    have float := List.contains_iff_mem.mp float
    refine ⟨Builtin.untold_number path (List.mem_append_right _ float), fun scalar => ?_⟩
    rw [Builtin.scalar_float path float scalar]
    rfl
  | none =>
    refine acceptItems_below (by decide) reported found fun elem _ kept => ?_
    cases kept
    exact ⟨.infer, rfl, trivial⟩
  | closure params source =>
    rw [accept, reported.acceptBy] at found
    cases reported.shown <;> cases found
  | variant => exact acceptDeclared_below reported found
  | ref | deferred => exact acceptTyped_below reported found
  | _ => cases leaf

/-- The type that a value accepted reports is the one expected, up to wildcards. -/
theorem accept_below {v w : Value} {t : Ty} (reported : store.Reported t)
    (found : (store.accept v t).value = some w) : w.ty.Below t := by
  induction v using Value.inductionOn generalizing t w with
  | list items ih =>
    refine acceptItems_below (by decide) reported found fun elem inside accepted => ?_
    simp only [Logged.value_bind, Logged.value_pure, Option.map_eq_some_iff] at accepted
    obtain ⟨ws, accepted, rfl⟩ := accepted
    refine ⟨Value.headTy ws, rfl, ?_⟩
    -- The type of a list is that of its first item; of an empty one nothing is known.
    cases ws with
    | nil => trivial
    | cons w rest =>
      obtain ⟨v, member, here⟩ := (mem_of_acceptAll accepted).1 w List.mem_cons_self
      exact ih v member inside here
  | some v ih =>
    refine acceptItems_below (by decide) reported found fun elem inside accepted => ?_
    simp only [Logged.value_bind, Logged.value_pure, Option.map_eq_some_iff] at accepted
    obtain ⟨w, accepted, rfl⟩ := accepted
    exact ⟨w.ty, rfl, ih inside accepted⟩
  | record | wrapped => exact acceptDeclared_below reported found
  | leaf v leaf => exact leaf_below leaf reported found

/-- The type that a value made for a parameter reports is the one declared, up to wildcards. -/
theorem Conforms.ty_below {v w : Value} {t : Ty} (made : store.Conforms v t w)
    (reported : store.Reported (store.normalize t)) : w.ty.Below (store.normalize t) := by
  induction made with
  | accepted _ accepted => exact accept_below reported accepted
  | @present v w t elem _ _ option head _ ih =>
    generalize store.normalize t = expected at option head reported ⊢
    cases expected with
    | named path args =>
      cases option
      obtain ⟨_, rfl, inside⟩ := reported.elem (by decide)
      cases head
      rw [inside.normalize] at ih
      exact ⟨[elem], rfl, ih inside, trivial⟩
    | _ => cases option
  | transparent | «from» => exact Ty.below_refl _
  | @record fields t inferred d parts struct =>
    have carried : recordTy d (store.normalize t) inferred = store.normalize t := by
      obtain ⟨found, -⟩ := Option.filter_eq_some_iff.mp struct
      obtain ⟨path, named, declared⟩ := Option.bind_eq_some_iff.mp found
      refine if_pos ⟨?_, reported.concrete⟩
      generalize store.normalize t = expected at named reported
      cases expected with
      | named own args =>
        cases named
        exact reported.shown.complete d declared
      | _ => cases named
    rw [show (Value.record (recordTy d (store.normalize t) inferred) _).ty =
      recordTy d (store.normalize t) inferred from rfl, carried]
    exact Ty.below_refl _

/-! ### Methods of values -/

/-- A call means the same for all types that become one when aliases are expanded. -/
theorem resolveCall_congr {t u : Ty} (same : store.normalize t = store.normalize u) (name : String)
    (visible : List String) :
    store.resolveCall t name visible = store.resolveCall u name visible := by
  unfold resolveCall
  rw [same]

/-- A value that a validation has made for a parameter has the methods of the type declared, if it
reports a type without wildcards and that type can be read off its values. -/
theorem resolveCall_validated (store : Store) (schema : Schema) (supplied : List (String × Value))
    (base : Location) (valid : ValidParams)
    (found : (store.validate schema supplied base).value = .ok valid) :
    List.Forall₂ (fun p q => store.Reported (store.normalize p.ty) →
      q.value.ty.Without Ty.isInfer → ∀ name visible,
        store.resolveCall q.value.ty name visible = store.resolveCall p.ty name visible)
      schema.params valid.params := by
  refine (validate_eq_ok found).2.imp fun p q validated reported closed name visible => ?_
  obtain ⟨-, v, -, made⟩ := validated
  have same : q.value.ty = store.normalize p.ty := (made.ty_below reported).eq closed
  rw [same]
  exact resolveCall_congr reported.normalize name visible

/-- A sink with a number and a list of gauges as parameters, and methods for the types of both. -/
def meter : Document where
  module := "meter"
  origin := "meter"
  version := supportedVersion
  kind := .sink
  input := some "String"
  params := [("n", ⟨"u8", none, [], none⟩), ("gauges", ⟨"Gauges", none, [], none⟩)]
  types := [("Gauge", ⟨["T"], [("level", .short "T")], [], none, none, none⟩),
    ("Gauges", ⟨[], [], [], none, some "Vec<Gauge<u8>>", none⟩)]
  impls := [
    ⟨"u8", none, [], [], [], [("const fn half(self) -> u8", "self / 2")], false, none⟩,
    ⟨"Gauges", none, [], [], [], [("const fn full(self) -> bool", "true")], false, none⟩]

/-- A gauge of small numbers. -/
def smallGauge : Ty := .named "meter::Gauge" [.named (Builtin.path "u8") []]

/-- What is supplied to the sink. -/
def readings : List (String × Value) :=
  [("n", .int 4), ("gauges", .list [.record smallGauge [("level", .int 1)]])]

/-- What provides the method that a call on a type means. -/
def provider? (store : Store) (t : Ty) (name : String) : Option MethodProvider :=
  match (store.resolveCall t name []).value with
  | .found m => some m.provider
  | _ => none

/-- The gauges are shown, and their type has a method. -/
private def GaugesShown (s : Store) (p : Param) (q : ValidParam) : Prop :=
  q.name = "gauges" ∧ s.normalize p.ty = .named Builtin.vec [smallGauge] ∧
    (Ty.named Builtin.vec [smallGauge]).Without s.standsForOthers ∧
    (∀ d ∈ s.type? Builtin.vec, d.generics.length = 1) ∧
    (∀ d ∈ s.type? "meter::Gauge", d.generics.length = 1) ∧
    q.value.ty.Without Ty.isInfer ∧ (s.provider? p.ty "full").isSome = true

private instance (s : Store) (p : Param) (q : ValidParam) : Decidable (GaugesShown s p q) :=
  inferInstanceAs (Decidable (_ ∧ _))

/-- The number is known, and has lost the method of its type. -/
private def NumberUntold (s : Store) (p : Param) (q : ValidParam) : Prop :=
  q.name = "n" ∧ p.ty.isConcrete = true ∧ q.value.isKnown = true ∧
    (s.provider? p.ty "half").isSome = true ∧ s.provider? q.value.ty "half" = none

private instance (s : Store) (p : Param) (q : ValidParam) : Decidable (NumberUntold s p q) :=
  inferInstanceAs (Decidable (_ ∧ _))

private theorem meter_load : ∃ s, (load [meter] 4).value = .ok s ∧
    ∃ schema ∈ s.schema? "meter", ∃ valid,
      (s.validate schema readings (.ofDocument "main")).value = .ok valid ∧
      (∃ c ∈ schema.params.zip valid.params, GaugesShown s c.1 c.2) ∧
      ∃ c ∈ schema.params.zip valid.params, NumberUntold s c.1 c.2 := by
  decide +kernel

/-- The gauges keep the method of the type that is declared for them. -/
theorem resolveCall_validated_gauges : ∃ s, (load [meter] 4).value = .ok s ∧
    ∃ schema ∈ s.schema? "meter", ∃ valid,
      (s.validate schema readings (.ofDocument "main")).value = .ok valid ∧
      ∃ c ∈ schema.params.zip valid.params, c.2.name = "gauges" ∧
        (s.provider? c.1.ty "full").isSome = true ∧
        s.provider? c.2.value.ty "full" = s.provider? c.1.ty "full" := by
  obtain ⟨s, loaded, schema, declared, valid, found, ⟨c, member, shown⟩, -⟩ := meter_load
  obtain ⟨named, expanded, settled, lists, gauges, closed, provided⟩ := shown
  have reported : s.Reported (s.normalize c.1.ty) := by
    rw [expanded]
    refine ⟨.collection (by decide) (fun d known => (lists d known).symm) ?_, by decide, settled⟩
    exact .carried (by decide) fun d known => (gauges d known).symm
  have each := resolveCall_validated s schema readings (.ofDocument "main") valid found
  have same := (List.forall₂_iff_zip.mp each).2 member reported closed "full" []
  refine ⟨s, loaded, schema, declared, valid, found, c, member, named, provided, ?_⟩
  rw [provider?, same]
  rfl

/-- A number for a type of small numbers is known and has not the method of the type. -/
theorem number_without_half : ∃ s, (load [meter] 4).value = .ok s ∧
    ∃ schema ∈ s.schema? "meter", ∃ valid,
      (s.validate schema readings (.ofDocument "main")).value = .ok valid ∧
      ∃ c ∈ schema.params.zip valid.params, c.2.name = "n" ∧ c.1.ty.isConcrete = true ∧
        c.2.value.isKnown = true ∧ (s.provider? c.1.ty "half").isSome = true ∧
        s.provider? c.2.value.ty "half" = none := by
  obtain ⟨s, loaded, schema, declared, valid, found, -, untold⟩ := meter_load
  exact ⟨s, loaded, schema, declared, valid, found, untold⟩

end Store
end Pipeline
