import Pipeline.Proofs.Schema.Accept
import Pipeline.Proofs.Schema.Conformance
import Pipeline.Proofs.Store.Expansion

/-!
# Inhabitants of types

Which values belong to a type is said here apart from validation. Validation comes to such values as
long as the values that carry a declared type are what they claim to be: it compares the type carried
with the one declared, and looks into records without a type alone, where they stand for a parameter
or for a field of another such record. In a list or an option a record without a type is taken for
one of any type.
-/

set_option autoImplicit false
set_option relaxedAutoImplicit false

namespace Pipeline

/-- True for a value of a declared struct, enum or wrapper, and for a record without a type. -/
def Value.isDeclared : Value → Bool
  | record _ _ => true
  | variant _ _ => true
  | wrapped _ _ => true
  | _ => false

/-- The type of the items of a list or of what an option holds. -/
def Ty.elem (t : Ty) : Ty := t.args.head?.getD .infer

/-- The type that a value carries is the one declared, up to wildcards; one that is not complete is
replaced by what the values of the fields make of it. -/
def TypeDecl.Carries (d : TypeDecl) (carried declared : Ty) : Prop :=
  carried = declared ∨ (carried ≠ .infer ∧ carried.fits declared = true) ∨
    ¬ (declared.args.length = d.generics.length ∧ declared.isConcrete = true) ∧
      carried.path? = some d.path

namespace Store

/-- The values that belong to a type. -/
inductive Inhabits (store : Store) : Value → Ty → Prop
  | expanded {v : Value} {t : Ty} : Inhabits store v (store.normalize t) → Inhabits store v t
  | anything {v : Value} {t : Ty} :
      (store.normalize t = .infer ∨ ∃ name, store.normalize t = .param name) → Inhabits store v t
  | promised {v : Value} {t : Ty} {path : String} {args : List Ty} {assoc : List (String × Ty)} :
      store.normalize t = .promise path args assoc →
      (store.implements v.ty ⟨path, args, assoc⟩).value = true → Inhabits store v t
  | unit {t : Ty} : store.normalize t = .unit → Inhabits store .unit t
  | bool {b : Bool} {t : Ty} : (store.normalize t).path? = some Builtin.bool →
      Inhabits store (.bool b) t
  | int {n : Int} {t : Ty} {path : String} : (store.normalize t).path? = some path →
      Builtin.integers.contains path = true → Builtin.intFits path n = true →
      Inhabits store (.int n) t
  | float {x : Float} {t : Ty} {path : String} : (store.normalize t).path? = some path →
      Builtin.floats.contains path = true → Inhabits store (.float x) t
  | str {s : String} {t : Ty} : (store.normalize t).path? = some Builtin.string →
      Inhabits store (.str s) t
  | list {items : List Value} {t : Ty} : (store.normalize t).path? = some Builtin.vec →
      (∀ v ∈ items, Inhabits store v (store.normalize t).elem) → Inhabits store (.list items) t
  | none {t : Ty} : (store.normalize t).path? = some Builtin.option → Inhabits store .none t
  | some {v : Value} {t : Ty} : (store.normalize t).path? = some Builtin.option →
      Inhabits store v (store.normalize t).elem → Inhabits store (.some v) t
  | closure {names : List String} {source : String} {t ret : Ty} {params : List Ty} :
      store.normalize t = .fn params ret → params.length = names.length →
      Inhabits store (.closure names source) t
  | ref {binding : String} {u t : Ty} : u.fits (store.normalize t) = true →
      Inhabits store (.ref binding u) t
  | deferred {u t : Ty} {call : String} : u.fits (store.normalize t) = true →
      Inhabits store (.deferred u call) t
  | record {u t : Ty} {d : TypeDecl} {members : List (FieldDecl × Value)} :
      store.structOf? (store.normalize t) = some d → d.Carries u (store.normalize t) →
      (∀ m ∈ members, m.1 ∈ d.fields) →
      (∀ m ∈ members, Inhabits store m.2 (m.1.ty.substitute (d.substFor (store.normalize t)))) →
      (∀ f ∈ d.fields, f.isPublic = true → f ∈ members.map (·.1)) →
      Inhabits store (.record u (members.map fun m => (m.1.name, m.2))) t
  | variant {u t : Ty} {name : String} {d : TypeDecl} {variants : List String} :
      (store.normalize t).path?.bind store.type? = some d → d.kind = .enum variants →
      d.Carries u (store.normalize t) → name ∈ variants → Inhabits store (.variant u name) t
  | transparent {u t inner : Ty} {v : Value} :
      u = store.normalize t ∨ (u ≠ .infer ∧ u.fits (store.normalize t) = true) →
      (store.project (store.normalize t) Builtin.transparent Builtin.inner).value = some inner →
      Inhabits store v inner → Inhabits store (.wrapped u v) t
  | from {u t source : Ty} {v : Value} :
      u = store.normalize t ∨ (u ≠ .infer ∧ u.fits (store.normalize t) = true) →
      store.ConvertsFrom (store.normalize t) source → Inhabits store v source →
      Inhabits store (.wrapped u v) t

/-- A part of a value is taken for one of a type because the type that it carries fits. -/
inductive Taken (store : Store) : Value → Ty → Value → Ty → Prop
  | here {v : Value} {t : Ty} : v.isDeclared = true → (store.normalize t).path?.isSome = true →
      v.ty.fits (store.normalize t) = true → Taken store v t v t
  | item {items : List Value} {v x : Value} {t u : Ty} :
      (store.normalize t).path? = some Builtin.vec → v ∈ items →
      Taken store v (store.normalize t).elem x u → Taken store (.list items) t x u
  | inside {v x : Value} {t u : Ty} : (store.normalize t).path? = some Builtin.option →
      Taken store v (store.normalize t).elem x u → Taken store (.some v) t x u

/-- A part of a value supplied is taken for one of a type when the value is made one of the type
declared. Records without a type are looked into, but not below lists and options. -/
inductive Trusts (store : Store) : Value → Ty → Value → Ty → Prop
  | accepted {v x : Value} {t u : Ty} : v.isUntyped = false →
      (store.accept v (store.normalize t)).value.isSome = true →
      Taken store v (store.normalize t) x u → Trusts store v t x u
  | present {v w x : Value} {t elem u : Ty} : v.isUntyped = false →
      (store.accept v (store.normalize t)).value = none →
      (store.normalize t).path? = some Builtin.option →
      (store.normalize t).args.head? = some elem → store.Conforms v elem w →
      Trusts store v elem x u → Trusts store v t x u
  | transparent {v x : Value} {t inner u : Ty} : v.isUntyped = false →
      (store.accept v (store.normalize t)).value = none →
      (store.project (store.normalize t) Builtin.transparent Builtin.inner).value = some inner →
      (store.accept v inner).value.isSome = true → Taken store v inner x u → Trusts store v t x u
  | from {v x : Value} {t source u : Ty} : v.isUntyped = false →
      (store.accept v (store.normalize t)).value = none →
      store.ConvertsFrom (store.normalize t) source →
      (store.accept v source).value.isSome = true → Taken store v source x u → Trusts store v t x u
  | field {fields : List (String × Value)} {d : TypeDecl} {f : String × Value} {t declared u : Ty}
      {x : Value} : store.structOf? (store.normalize t) = some d → f ∈ fields →
      (f.1, declared) ∈ d.publicFields (store.normalize t) → Trusts store f.2 declared x u →
      Trusts store (.record .infer fields) t x u

variable {store : Store}

/-! ### Values accepted as they are -/

/-- A value accepted belongs to an open type, or it is accepted by its own form. -/
private theorem acceptBy_inhabits {v w : Value} {t : Ty} {otherwise : Ty → Logged (Option Value)}
    (found : (store.acceptBy v t otherwise).value = some w)
    (formed : (otherwise (store.normalize t)).value = some w → store.Inhabits w t) :
    store.Inhabits w t := by
  rcases acceptBy_cases found with ⟨rfl, anything | ⟨path, args, assoc, form, applies⟩⟩ | other
  · exact .anything anything
  · exact .promised form applies
  · exact formed other

/-- A value that carries a declared type is accepted where it belongs to an open type, or where the
type that it carries fits. -/
private theorem acceptDeclared_inhabits {v w : Value} {t : Ty} (declared : v.isDeclared = true)
    (found : (store.acceptDeclared v t).value = some w)
    (sound : ∀ x u, store.Taken v t x u → store.Inhabits x u) : store.Inhabits w t := by
  refine acceptBy_inhabits found fun kept => ?_
  obtain ⟨rfl, fits⟩ := keepIf_eq_some kept
  rw [Bool.and_eq_true] at fits
  exact sound _ t (.here declared fits.1 fits.2)

/-- What is accepted belongs to the type, if what is taken for one of a type belongs to it. -/
theorem accept_inhabits {v w : Value} {t : Ty} (found : (store.accept v t).value = some w)
    (sound : ∀ x u, store.Taken v t x u → store.Inhabits x u) : store.Inhabits w t := by
  induction v using Value.inductionOn generalizing t w with
  | list items ih =>
    refine acceptBy_inhabits found fun listed => ?_
    split at listed
    · rename_i path
      simp only [Logged.value_bind, Logged.value_pure, Option.map_eq_some_iff] at listed
      obtain ⟨ws, accepted, rfl⟩ := listed
      refine .list path fun w member => ?_
      obtain ⟨v, inside, here⟩ := (mem_of_acceptAll accepted).1 w member
      exact ih v inside here fun x u taken => sound x u (.item path inside taken)
    · cases listed
  | some v ih =>
    refine acceptBy_inhabits found fun present => ?_
    split at present
    · rename_i path
      simp only [Logged.value_bind, Logged.value_pure, Option.map_eq_some_iff] at present
      obtain ⟨w, accepted, rfl⟩ := present
      exact .some path (ih accepted fun x u taken => sound x u (.inside path taken))
    · cases present
  | record u fields ih => exact acceptDeclared_inhabits rfl found sound
  | wrapped u v ih => exact acceptDeclared_inhabits rfl found sound
  | leaf v leaf =>
    cases v with
    | variant u name => exact acceptDeclared_inhabits rfl found sound
    | unit =>
      refine acceptBy_inhabits found fun formed => ?_
      obtain ⟨rfl, same⟩ := keepIf_eq_some formed
      exact .unit (beq_iff_eq.mp same)
    | bool b =>
      refine acceptBy_inhabits found fun formed => ?_
      obtain ⟨path, form, kept⟩ := Option.bind_eq_some_iff.mp formed
      obtain ⟨rfl, same⟩ := keepIf_eq_some kept
      exact .bool (form.trans (congrArg some (beq_iff_eq.mp same)))
    | int n =>
      refine acceptBy_inhabits found fun formed => ?_
      obtain ⟨path, form, kept⟩ := Option.bind_eq_some_iff.mp formed
      split at kept
      · rename_i integer
        obtain ⟨rfl, fits⟩ := keepIf_eq_some kept
        exact .int form integer fits
      · obtain ⟨rfl, isFloat⟩ := keepIf_eq_some kept
        exact .float form isFloat
    | float x =>
      refine acceptBy_inhabits found fun formed => ?_
      obtain ⟨path, form, kept⟩ := Option.bind_eq_some_iff.mp formed
      obtain ⟨rfl, isFloat⟩ := keepIf_eq_some kept
      exact .float form isFloat
    | str s =>
      refine acceptBy_inhabits found fun formed => ?_
      obtain ⟨path, form, kept⟩ := Option.bind_eq_some_iff.mp formed
      obtain ⟨rfl, same⟩ := keepIf_eq_some kept
      exact .str (form.trans (congrArg some (beq_iff_eq.mp same)))
    | none =>
      refine acceptBy_inhabits found fun formed => ?_
      split at formed
      · cases formed
        exact .none (by assumption)
      · cases formed
    | closure names source =>
      refine acceptBy_inhabits found fun formed => ?_
      split at formed
      · rename_i params ret form
        obtain ⟨rfl, same⟩ := keepIf_eq_some formed
        exact .closure form (beq_iff_eq.mp same)
      · cases formed
    | ref binding u =>
      refine acceptBy_inhabits found fun formed => ?_
      obtain ⟨rfl, fits⟩ := keepIf_eq_some formed
      exact .ref fits
    | deferred u call =>
      refine acceptBy_inhabits found fun formed => ?_
      obtain ⟨rfl, fits⟩ := keepIf_eq_some formed
      exact .deferred fits
    | list | some | record | wrapped => cases leaf

/-! ### Values made -/

private theorem carries_recordTy {d : TypeDecl} {t inferred : Ty}
    (made : inferred.path? = some d.path) : d.Carries (recordTy d t inferred) t := by
  unfold recordTy
  split
  · exact Or.inl rfl
  · rename_i incomplete
    exact Or.inr (Or.inr ⟨incomplete, made⟩)

/-- The parts made of a record are the fields of a struct with their values. -/
private theorem exists_members {fields : List FieldDecl} {parts : List MadeField} {s : Subst}
    (types : parts.map (fun p => (p.name, p.ty)) =
      fields.map fun f => (f.name, f.ty.substitute s))
    (each : ∀ p ∈ parts, store.Inhabits p.made p.ty) :
    ∃ members : List (FieldDecl × Value), members.map (·.1) = fields ∧
      members.map (fun m => (m.1.name, m.2)) = parts.map (fun p => (p.name, p.made)) ∧
      ∀ m ∈ members, store.Inhabits m.2 (m.1.ty.substitute s) := by
  induction parts generalizing fields with
  | nil =>
    obtain rfl : fields = [] := by simpa using types
    exact ⟨[], rfl, rfl, nofun⟩
  | cons p rest ih =>
    cases fields with
    | nil => simp at types
    | cons f others =>
      simp only [List.map_cons, List.cons.injEq, Prod.mk.injEq] at types
      obtain ⟨⟨name, ty⟩, types⟩ := types
      rw [List.forall_mem_cons] at each
      obtain ⟨members, declared, values, inside⟩ := ih types each.2
      refine ⟨(f, p.made) :: members, by simp [declared], by simp [values, name], ?_⟩
      rw [List.forall_mem_cons]
      exact ⟨ty ▸ each.1, inside⟩

/-- What is made of a value belongs to the type declared, if what is taken for one of a type belongs
to it. -/
theorem Conforms.inhabits {v w : Value} {t : Ty} (made : store.Conforms v t w)
    (sound : ∀ x u, store.Trusts v t x u → store.Inhabits x u) : store.Inhabits w t := by
  induction made with
  | accepted typed accepted =>
    refine .expanded (accept_inhabits accepted fun x u taken => sound x u ?_)
    exact .accepted typed (Option.isSome_of_eq_some accepted) taken
  | present typed refused path head inside ih =>
    refine .some path ?_
    rw [Ty.elem, head]
    exact ih fun x u trusts => sound x u (.present typed refused path head inside trusts)
  | transparent typed refused projected accepted =>
    refine .transparent (Or.inl rfl) projected (accept_inhabits accepted fun x u taken => sound x u ?_)
    exact .transparent typed refused projected (Option.isSome_of_eq_some accepted) taken
  | «from» typed refused converts accepted =>
    refine .from (Or.inl rfl) converts (accept_inhabits accepted fun x u taken => sound x u ?_)
    exact .from typed refused converts (Option.isSome_of_eq_some accepted) taken
  | @record fields t inferred d parts struct known types given each made ih =>
    have inside : ∀ p ∈ parts, store.Inhabits p.made p.ty := by
      intro p member
      have declared : (p.name, p.ty) ∈ d.publicFields (store.normalize t) :=
        types ▸ List.mem_map.mpr ⟨p, member, rfl⟩
      exact ih p member fun x u trusts => sound x u (.field struct (given p member) declared trusts)
    obtain ⟨members, declared, values, inhabited⟩ := exists_members types inside
    rw [← values]
    refine .record struct (carries_recordTy made) (fun m member => ?_) inhabited ?_
    · have visible : m.1 ∈ d.fields.filter (·.isPublic) :=
        declared ▸ List.mem_map.mpr ⟨m, member, rfl⟩
      exact (List.mem_filter.mp visible).1
    · intro f member visible
      rw [declared]
      exact List.mem_filter.mpr ⟨member, visible⟩

/-! ### Inhabitants of lists and options

Aliases in the arguments of a type may be expanded before or after the arguments are taken. -/

/-- Lists and options are no aliases. -/
structure PlainCollections (store : Store) : Prop where
  vec : store.synonym? Builtin.vec = none
  option : store.synonym? Builtin.option = none

/-- The items of a collection belong to the argument of its type, whether this is expanded or not. -/
private theorem elem_normalize {path : String} (plain : store.synonym? path = none)
    {t : Ty} (named : t.path? = some path) :
    (store.normalize t).path? = some path ∧ (store.normalize t).elem = store.normalize t.elem := by
  cases t with
  | named other args =>
    obtain rfl : other = path := by simpa [Ty.path?] using named
    have expanded : store.normalize (.named other args) = .named other (args.map store.normalize) :=
      normalizeTo_named plain args
    rw [expanded]
    refine ⟨rfl, ?_⟩
    cases args with
    | nil => exact (normalizeTo_leaf rfl).symm
    | cons t rest => rfl
  | _ => cases named

/-- The values that a list or an option holds. -/
def contents : Value → List Value
  | .list items => items
  | .some v => [v]
  | _ => []

/-- The path of lists or that of options, for a value that is one. -/
def collection? : Value → Option String
  | .list _ => some Builtin.vec
  | .some _ => some Builtin.option
  | _ => none

/-- The values that an inhabitant of a collection holds belong to the argument of its type. -/
theorem contents_inhabit {v : Value} {t : Ty} {path : String} (inhabits : store.Inhabits v t)
    (plain : store.synonym? path = none) (form : collection? v = some path)
    (named : (store.normalize t).path? = some path) :
    ∀ x ∈ contents v, store.Inhabits x (store.normalize t).elem := by
  induction inhabits with
  | expanded inner ih =>
    obtain ⟨named', elem⟩ := elem_normalize plain named
    intro x member
    exact .expanded (elem ▸ ih form named' x member)
  | anything anything =>
    rcases anything with same | ⟨name, same⟩ <;> rw [same] at named <;> cases named
  | promised same applies =>
    rw [same] at named
    cases named
  | list _ each => exact each
  | some _ here => exact List.forall_mem_singleton.mpr here
  | _ => cases form

/-! ### What decides -/

private theorem accept_of_isDeclared {v w : Value} {t : Ty} (declared : v.isDeclared = true)
    (found : (store.accept v t).value = some w) : w = v := by
  cases accept_accepted found with
  | kept => rfl
  | float | list | some => cases declared

private theorem accept_of_named {v w : Value} {t : Ty} {path : String}
    {otherwise : Ty → Logged (Option Value)} (named : (store.normalize t).path? = some path)
    (found : (store.acceptBy v t otherwise).value = some w) :
    (otherwise (store.normalize t)).value = some w := by
  rcases acceptBy_cases found with ⟨-, (same | ⟨name, same⟩) | ⟨p, args, assoc, same, -⟩⟩ | other
  · rw [same] at named
    cases named
  · rw [same] at named
    cases named
  · rw [same] at named
    cases named
  · exact other

private theorem accept_list {items : List Value} {w : Value} {t : Ty}
    (named : (store.normalize t).path? = some Builtin.vec)
    (found : (store.accept (.list items) t).value = some w) :
    ∃ ws, w = .list ws ∧ (store.acceptAll items (store.normalize t).elem).value = some ws := by
  have listed := accept_of_named named found
  rw [if_pos named] at listed
  simp only [Logged.value_bind, Logged.value_pure, Option.map_eq_some_iff] at listed
  obtain ⟨ws, accepted, rfl⟩ := listed
  exact ⟨ws, rfl, accepted⟩

private theorem accept_some {v w : Value} {t : Ty}
    (named : (store.normalize t).path? = some Builtin.option)
    (found : (store.accept (.some v) t).value = some w) :
    ∃ w', w = .some w' ∧ (store.accept v (store.normalize t).elem).value = some w' := by
  have present := accept_of_named named found
  rw [if_pos named] at present
  simp only [Logged.value_bind, Logged.value_pure, Option.map_eq_some_iff] at present
  obtain ⟨w', accepted, rfl⟩ := present
  exact ⟨w', rfl, accepted⟩

/-- Whether a value accepted belongs to the type depends on what is taken for one of a type, and on
nothing else. -/
theorem accept_inhabits_iff (plain : store.PlainCollections) {v w : Value} {t : Ty}
    (found : (store.accept v t).value = some w) :
    store.Inhabits w t ↔ ∀ x u, store.Taken v t x u → store.Inhabits x u := by
  refine ⟨fun inhabits x u taken => ?_, accept_inhabits found⟩
  induction taken generalizing w with
  | here declared path fits => exact accept_of_isDeclared declared found ▸ inhabits
  | item named member _ ih =>
    obtain ⟨ws, rfl, accepted⟩ := accept_list named found
    obtain ⟨w', inside, accepted'⟩ := (mem_of_acceptAll accepted).2 _ member
    exact ih accepted' (contents_inhabit inhabits plain.vec rfl named w' inside)
  | inside named _ ih =>
    obtain ⟨w', rfl, accepted⟩ := accept_some named found
    exact ih accepted (contents_inhabit inhabits plain.option rfl named w' (List.mem_singleton.mpr rfl))

/-- A record without a type is accepted for every declared type, and belongs to none. -/
theorem untyped_accepted_not_inhabits {fields : List (String × Value)} {t : Ty} {path : String}
    (plain : store.synonym? path = none) (named : (store.normalize t).path? = some path) :
    (store.accept (.record .infer fields) t).value = some (.record .infer fields) ∧
      ¬ store.Inhabits (.record .infer fields) t := by
  obtain ⟨p, args, form⟩ : ∃ p args, store.normalize t = .named p args := by
    cases form : store.normalize t with
    | named p args => exact ⟨p, args, rfl⟩
    | _ => rw [form] at named; cases named
  refine ⟨by simp [accept, acceptDeclared, acceptBy, form, keepIf, Ty.path?, Value.ty, Ty.fits,
    Ty.align], fun inhabits => ?_⟩
  generalize same : Value.record .infer fields = v at inhabits
  clear form
  induction inhabits with
  | expanded inner ih => exact ih (elem_normalize plain named).1 same
  | anything anything =>
    rcases anything with open_ | ⟨name, open_⟩ <;> rw [open_] at named <;> cases named
  | promised open_ applies =>
    rw [open_] at named
    cases named
  | record struct carries =>
    cases same
    rcases carries with same | ⟨typed, -⟩ | ⟨-, path⟩
    · rw [← same] at named
      cases named
    · exact typed rfl
    · cases path
  | _ => cases same

/-! ### Private fields -/

/-- A record supplied gives values to public fields, and only these are set. -/
theorem Conforms.public {fields : List (String × Value)} {t : Ty} {w : Value}
    (made : store.Conforms (.record .infer fields) t w) :
    ∃ d u set, store.structOf? (store.normalize t) = some d ∧ w = .record u set ∧
      set.map (·.1) = (d.fields.filter (·.isPublic)).map (·.name) ∧
      ∀ g ∈ fields, ∃ f ∈ d.fields, f.isPublic = true ∧ f.name = g.1 := by
  cases made with
  | accepted typed | present typed | transparent typed | «from» typed => cases typed
  | @record _ _ _ d parts struct known types =>
    refine ⟨d, _, _, struct, rfl, ?_, known⟩
    have names := congrArg (List.map Prod.fst) types
    simpa [TypeDecl.publicFields, Function.comp_def] using names

/-- **Validation is sound for what is not taken on trust.** Every parameter of a validation that
succeeds has a value, made of what is supplied or of the default, and it belongs to the type declared
if the parts do that were taken for one of a type because of the type they carry. That is all that it
depends on where a value is accepted as it is. A record without a type is among these parts below
lists and options, and belongs to no declared type; elsewhere, only its public fields are set. -/
theorem validation_sound (store : Store) :
    (∀ (schema : Schema) (supplied : List (String × Value)) (base : Location) (valid : ValidParams),
      (store.validate schema supplied base).value = .ok valid →
      (∀ g ∈ supplied, (schema.param? g.1).isSome = true) ∧
      List.Forall₂
        (fun p q => q.name = p.name ∧ ∃ v, store.Given schema supplied p v ∧
          store.Conforms v p.ty q.value ∧
          ((∀ x u, store.Trusts v p.ty x u → store.Inhabits x u) → store.Inhabits q.value p.ty))
        schema.params valid.params) ∧
    (∀ (v w : Value) (t : Ty), store.PlainCollections → (store.accept v t).value = some w →
      (store.Inhabits w t ↔ ∀ x u, store.Taken v t x u → store.Inhabits x u)) ∧
    (∀ (fields : List (String × Value)) (t : Ty) (path : String), store.synonym? path = none →
      (store.normalize t).path? = some path →
      (store.accept (.record .infer fields) t).value = some (.record .infer fields) ∧
        ¬ store.Inhabits (.record .infer fields) t) ∧
    ∀ (fields : List (String × Value)) (t : Ty) (w : Value),
      store.Conforms (.record .infer fields) t w →
      ∃ d u set, store.structOf? (store.normalize t) = some d ∧ w = .record u set ∧
        set.map (·.1) = (d.fields.filter (·.isPublic)).map (·.name) ∧
        ∀ g ∈ fields, ∃ f ∈ d.fields, f.isPublic = true ∧ f.name = g.1 := by
  refine ⟨fun schema supplied base valid found => ?_, fun v w t plain found => ?_,
    fun fields t path plain named => ?_, fun fields t w made => made.public⟩
  · obtain ⟨known, each⟩ := validate_eq_ok found
    refine ⟨known, each.imp fun p q validated => ?_⟩
    obtain ⟨named, v, given, made⟩ := validated
    exact ⟨named, v, given, made, made.inhabits⟩
  · exact accept_inhabits_iff plain found
  · exact untyped_accepted_not_inhabits plain named

/-- A struct with a private field. -/
def pointDecl : TypeDecl where
  path := "geo::Point"
  name := "Point"
  module := "geo"
  generics := []
  kind := .struct [⟨"x", .std "u8" [], true, none⟩, ⟨"_tag", .std "String" [], false, none⟩]
  component := none
  explain := none

/-- A store that declares points alone. -/
def pointStore : Store :=
  { (default : Store) with types := [("geo::Point", pointDecl)], maxDepth := 4 }

/-- The schema of a component that takes a point and a list of points. -/
def plotSchema : Schema where
  component := "out::Plot"
  kind := some .sink
  module := "out::Plot"
  document := "out::Plot"
  generics := []
  params := [⟨"origin", .named "geo::Point" [], none, [], none⟩,
    ⟨"points", .std "Vec" [.named "geo::Point" []], none, [], none⟩]
  checks := []
  runtimeChecks := []

/-- A point as it is supplied. -/
def suppliedPoint : Value := .record .infer [("x", .int 1)]

/-- The point that is made of it. -/
def madePoint : Value := .record (.named "geo::Point" []) [("x", .int 1)]

/-- A list of something that is no point. -/
def suppliedPoints : Value := .list [.record .infer [("_tag", .str "left")]]

private theorem suppliedPoint_trusts_nothing (x : Value) (u : Ty) :
    ¬ pointStore.Trusts suppliedPoint (.named "geo::Point" []) x u := by
  intro trusts
  cases trusts with
  | accepted typed | present typed | transparent typed | «from» typed => cases typed
  | field struct member declared inside =>
    cases struct
    obtain rfl := List.mem_singleton.mp member
    have same := List.mem_singleton.mp declared
    cases same
    cases inside with
    | accepted typed accepted taken =>
      cases taken with
      | here declared => cases declared
    | present typed refused | transparent typed refused | «from» typed refused => cases refused

/-- The same validation makes a point of what is one, and lets through a list of what is none. -/
theorem plotSchema_validated :
    pointStore.Inhabits madePoint (.named "geo::Point" []) ∧
      ¬ pointStore.Inhabits suppliedPoints (.std "Vec" [.named "geo::Point" []]) ∧
      (∃ d u set, pointStore.structOf? (pointStore.normalize (.named "geo::Point" [])) = some d ∧
        madePoint = .record u set ∧
        set.map (·.1) = (d.fields.filter (·.isPublic)).map (·.name) ∧
        ∀ g ∈ [("x", Value.int 1)], ∃ f ∈ d.fields, f.isPublic = true ∧ f.name = g.1) := by
  obtain ⟨validated, decides, untyped, visible⟩ := validation_sound pointStore
  obtain ⟨-, each⟩ := validated plotSchema [("origin", suppliedPoint), ("points", suppliedPoints)]
    (.ofDocument "main") ⟨"out::Plot", .named "out::Plot" [], [⟨"origin", madePoint, .supplied⟩,
      ⟨"points", suppliedPoints, .supplied⟩], []⟩ rfl
  cases each with
  | cons here _ =>
    obtain ⟨-, v, given, made, inhabits⟩ := here
    cases given with
    | default missing => cases missing
    | supplied found =>
      cases found
      refine ⟨inhabits fun x u trusts => absurd trusts (suppliedPoint_trusts_nothing x u), ?_,
        visible _ _ _ made⟩
      intro points
      have plain : pointStore.PlainCollections := ⟨rfl, rfl⟩
      have parts := (decides suppliedPoints suppliedPoints _ plain rfl).mp points
      exact (untyped _ _ "geo::Point" rfl rfl).2
        (parts _ _ (.item rfl List.mem_cons_self (.here rfl rfl rfl)))

end Store
end Pipeline
