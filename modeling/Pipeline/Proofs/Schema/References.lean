import Pipeline.Proofs.Schema.Accept
import Pipeline.Proofs.Schema.Conformance

/-!
# References in validated values

What a validation makes refers to no binding that the values supplied do not refer to.
-/

set_option autoImplicit false
set_option relaxedAutoImplicit false

namespace Pipeline

namespace Value

/-- A reference is one of those known. -/
def RefersTo (known : String → Prop) : Value → Prop
  | ref binding _ => known binding
  | _ => True

variable {known : String → Prop}

theorem refersTo_lenient : Lenient (RefersTo known) := by
  intro v form _
  cases v with
  | ref => cases form
  | _ => trivial

private theorem mem_mentionsList {items : List Value} {n : String} :
    n ∈ mentionsList items ↔ ∃ v ∈ items, n ∈ v.mentions := by
  induction items with
  | nil => simp [mentionsList]
  | cons v rest ih => simp [mentionsList, ih]

private theorem mem_mentionsFields {fields : List (String × Value)} {n : String} :
    n ∈ mentionsFields fields ↔ ∃ f ∈ fields, n ∈ f.2.mentions := by
  induction fields with
  | nil => simp [mentionsFields]
  | cons f rest ih => simp [mentionsFields, ih]

theorem all_refersTo_iff {v : Value} : All (RefersTo known) v ↔ ∀ n ∈ v.mentions, known n := by
  induction v using Value.inductionOn with
  | list items ih =>
    simp only [All, RefersTo, mentions, true_and, allItems_iff, mem_mentionsList]
    constructor
    · rintro all n ⟨v, inside, mention⟩
      exact (ih v inside).mp (all v inside) n mention
    · intro each v inside
      exact (ih v inside).mpr fun n mention => each n ⟨v, inside, mention⟩
  | some v ih => simpa [All, RefersTo, mentions] using ih
  | record t fields ih =>
    simp only [All, RefersTo, mentions, true_and, allFields_iff, mem_mentionsFields]
    constructor
    · rintro all n ⟨f, inside, mention⟩
      exact (ih f inside).mp (all f inside) n mention
    · intro each f inside
      exact (ih f inside).mpr fun n mention => each n ⟨f, inside, mention⟩
  | wrapped t v ih => simpa [All, RefersTo, mentions] using ih
  | leaf v leaf =>
    cases v with
    | list | some | record | wrapped => cases leaf
    | _ => simp [All, RefersTo, mentions]

theorem all_refersTo_imp {known' : String → Prop} {v : Value} (all : All (RefersTo known) v)
    (more : ∀ n, known n → known' n) : All (RefersTo known') v :=
  all_refersTo_iff.mpr fun n member => more n (all_refersTo_iff.mp all n member)

end Value

namespace Store

open Value

variable {store : Store} {known : String → Prop}

theorem Conforms.refersTo {v w : Value} {t : Ty} (made : store.Conforms v t w)
    (all : All (RefersTo known) v) : All (RefersTo known) w := by
  induction made with
  | accepted _ accepted => exact accept_all refersTo_lenient accepted all
  | present _ _ _ _ _ ih => exact all_some refersTo_lenient (ih all)
  | transparent _ _ _ accepted =>
    exact all_wrapped refersTo_lenient (accept_all refersTo_lenient accepted all)
  | «from» _ _ _ accepted =>
    exact all_wrapped refersTo_lenient (accept_all refersTo_lenient accepted all)
  | record _ _ _ given _ _ ih =>
    refine ⟨trivial, allFields_iff.mpr fun f member => ?_⟩
    obtain ⟨p, inside, rfl⟩ := List.mem_map.mp member
    exact ih p inside (allFields_iff.mp all.2 _ (given p inside))

theorem Given.refersTo {schema : Schema} {supplied : List (String × Value)} {p : Param} {v : Value}
    (given : store.Given schema supplied p v)
    (all : ∀ g ∈ supplied, All (RefersTo known) g.2) : All (RefersTo known) v := by
  cases given with
  | supplied found => exact all _ (List.mem_of_find?_eq_some found)
  | default _ _ result => exact default_all refersTo_lenient result

theorem validate_refersTo {schema : Schema} {supplied : List (String × Value)} {base : Location}
    {valid : ValidParams} (found : (store.validate schema supplied base).value = .ok valid)
    (all : ∀ g ∈ supplied, All (RefersTo known) g.2) :
    ∀ p ∈ valid.params, All (RefersTo known) p.value := by
  have each := (validate_eq_ok found).2
  generalize schema.params = params, valid.params = made at each ⊢
  induction each with
  | nil => simp
  | cons validated _ ih =>
    obtain ⟨-, v, given, made⟩ := validated
    exact List.forall_mem_cons.mpr ⟨made.refersTo (given.refersTo all), ih⟩

theorem validateRecord_refersTo {fields : List (String × Value)} {t : Ty} {base : Location}
    {w : Value} (found : (store.validateRecord fields t base).value = .ok w)
    (all : ∀ f ∈ fields, All (RefersTo known) f.2) : All (RefersTo known) w :=
  (validateRecord_eq_ok found).refersTo ⟨trivial, allFields_iff.mpr all⟩

end Store
end Pipeline
