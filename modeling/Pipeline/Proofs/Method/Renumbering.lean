import Mathlib.Data.List.Forall2
import Pipeline.Proofs.Method.Tiers
import Pipeline.Proofs.Obligation.Renumbering

/-!
# Calls where impls stand in another order

A call means the same method in a store with the same impls in another order, up to the numbers of
impls; where several methods are meant, the same ones are listed.
-/

set_option autoImplicit false
set_option relaxedAutoImplicit false

namespace Pipeline

/-- A provider with other numbers of impls. -/
def MethodProvider.renumber (σ : Nat → Nat) : MethodProvider → MethodProvider
  | inherent implId => inherent (σ implId)
  | extension path => extension path
  | trait path c => trait path (c.renumber σ)

/-- A method with other numbers of impls. -/
def Method.renumber (σ : Nat → Nat) (m : Method) : Method :=
  { m with provider := m.provider.renumber σ }

/-- Resolutions of calls that are the same but for the numbers of impls and the order of
candidates. -/
inductive MethodResolution.Renumbered (σ : Nat → Nat) : MethodResolution → MethodResolution → Prop
  | found (m : Method) : Renumbered σ (.found m) (.found (m.renumber σ))
  | ambiguous {candidates candidates' : List String} (perm : candidates.Perm candidates')
      (requiresQualification : Bool) :
      Renumbered σ (.ambiguous candidates requiresQualification)
        (.ambiguous candidates' requiresQualification)
  | notFound : Renumbered σ .notFound .notFound

namespace Store

variable {store : Store} {σ : Equiv.Perm Nat} {impls : List ImplDecl}

/-! ### Descriptions -/

theorem describe_candidate (reorders : store.Reorders σ impls) (c : Candidate) :
    (c.renumber σ).describe (store.withImpls impls) = c.describe store := by
  obtain ⟨implId, traitPath, origin, subst, isConst, assoc⟩ := c
  cases implId with
  | none => cases origin <;> rfl
  | some i =>
    simp only [Candidate.describe, Candidate.renumber, Option.map_some, Option.bind_some,
      reorders.impl]
    cases origin <;> cases store.impl? i <;> rfl

theorem describe_method (reorders : store.Reorders σ impls) (m : Method) :
    (m.renumber σ).describe (store.withImpls impls) = m.describe store := by
  obtain ⟨name, provider, sig, body, module, constCapable⟩ := m
  cases provider with
  | inherent i =>
    simp only [Method.describe, Method.renumber, MethodProvider.renumber, reorders.impl]
    cases store.impl? i <;> rfl
  | extension path => rfl
  | trait path c => rfl

/-! ### Methods of types themselves and of extensions -/

theorem boundsAllow_agree (reorders : store.Reorders σ impls) (s : Subst) (bounds : List Bound) :
    (store.boundsAllow s bounds).value = ((store.withImpls impls).boundsAllow s bounds).value := by
  induction bounds with
  | nil => rfl
  | cons b rest ih =>
    simp only [boundsAllow]
    split
    · exact ih
    · have same := resolve_agree reorders (b.ty.substitute s) (b.traitRef.substitute s)
      simp only [Logged.value_bind]
      generalize (store.resolve (b.ty.substitute s) (b.traitRef.substitute s)).value = r at same ⊢
      generalize ((store.withImpls impls).resolve (b.ty.substitute s)
        (b.traitRef.substitute s)).value = r' at same ⊢
      cases same with
      | met c =>
        by_cases holds : (!b.constRequired || c.isConst) = true
        · simpa only [Candidate.renumber, holds, if_true] using ih
        · simp only [Candidate.renumber, holds]
          rfl
      | ambiguous perm => rfl
      | notImplemented => rfl

theorem instantiate_agree (reorders : store.Reorders σ impls) (generics : List Generic)
    (target : Ty) (bounds : List Bound) (receiver : Ty) :
    (store.instantiate generics target bounds receiver).value =
      ((store.withImpls impls).instantiate generics target bounds receiver).value := by
  simp only [instantiate, normalize_withImpls]
  split
  · rfl
  · simp only [Logged.value_bind, boundsAllow_agree reorders]

theorem inherentMethod?_agree (reorders : store.Reorders σ impls) (receiver : Ty) (name : String)
    (d : ImplDecl) :
    (store.withImpls impls).inherentMethod? receiver name (d.renumber σ) =
      (store.inherentMethod? receiver name d).map (·.renumber σ) := by
  simp only [inherentMethod?, ImplDecl.renumber, instantiate_agree reorders]
  rw [Option.map_bind]
  refine Option.bind_congr fun m _ => ?_
  rw [Function.comp_apply, Option.map_map]
  rfl

theorem inherentMethods_agree (reorders : store.Reorders σ impls) (receiver : Ty) (name : String) :
    ((store.inherentMethods receiver name store.inherentImpls).value.map (·.renumber σ)).Perm
      ((store.withImpls impls).inherentMethods receiver name
        (store.withImpls impls).inherentImpls).value := by
  have own : (store.inherentImpls.map (·.renumber σ)).Perm
      (store.withImpls impls).inherentImpls := by
    have filtered := reorders.perm.filter fun d => d.traitRef.isNone
    rw [List.filter_map] at filtered
    exact filtered
  rw [inherentMethods_value, inherentMethods_value, List.map_filterMap]
  refine List.Perm.trans (List.Perm.of_eq ?_)
    (own.filterMap ((store.withImpls impls).inherentMethod? receiver name))
  rw [List.filterMap_map]
  exact List.filterMap_congr fun d _ => (inherentMethod?_agree reorders receiver name d).symm

theorem extensionMethod?_agree (reorders : store.Reorders σ impls) (receiver : Ty)
    (path name : String) :
    ((store.withImpls impls).extensionMethod? receiver path name).value =
      (store.extensionMethod? receiver path name).value.map (·.renumber σ) := by
  have declared : (store.withImpls impls).extension? path = store.extension? path := rfl
  unfold extensionMethod?
  rw [declared]
  cases store.extension? path with
  | none => rfl
  | some d =>
    cases found : d.method? name with
    | none => simp only [found]; rfl
    | some m =>
      simp only [found, Logged.value_bind, instantiate_agree reorders]
      cases ((store.withImpls impls).instantiate d.generics d.target d.bounds receiver).value <;>
        rfl

theorem extensionMethods_agree (reorders : store.Reorders σ impls) (receiver : Ty) (name : String)
    (visible : List String) :
    ((store.withImpls impls).extensionMethods receiver name visible).value =
      (store.extensionMethods receiver name visible).value.map (·.renumber σ) := by
  induction visible with
  | nil => rfl
  | cons path rest ih =>
    simp only [extensionMethods, Logged.value_bind, Logged.value_pure, ih,
      extensionMethod?_agree reorders, Option.toList_map, List.map_append]

theorem ofTier_methods_agree (reorders : store.Reorders σ impls) {ms ms' : List Method}
    (perm : (ms.map (·.renumber σ)).Perm ms') :
    Option.Rel (MethodResolution.Renumbered σ) (MethodResolution.ofTier store ms)
      (MethodResolution.ofTier (store.withImpls impls) ms') := by
  match ms with
  | [] =>
    obtain rfl := perm.nil_eq
    exact .none
  | [m] =>
    obtain rfl := perm.singleton_eq
    exact .some (.found m)
  | m :: n :: rest =>
    have described := perm.map (·.describe (store.withImpls impls))
    simp only [List.map_map, Function.comp_def, describe_method reorders] at described
    match ms' with
    | [] => cases perm.length_eq
    | [_] => cases perm.length_eq
    | _ :: _ :: _ => exact .some (.ambiguous described true)

/-! ### Methods of traits -/

/-- Offers that are the same but for the numbers of impls and the order of impls that are tied. -/
inductive Offer.Renumbered (σ : Nat → Nat) : Offer → Offer → Prop
  | method (m : Method) : Renumbered σ (.method m) (.method (m.renumber σ))
  | tied {impls impls' : List String} (perm : impls.Perm impls') :
      Renumbered σ (.tied impls) (.tied impls')
  | nothing : Renumbered σ .nothing .nothing

/-- Offers of one trait that are the same but for numbers and order. -/
def Offer.SameTrait (σ : Nat → Nat) (o o' : TraitDecl × Offer) : Prop :=
  o.1 = o'.1 ∧ Offer.Renumbered σ o.2 o'.2

theorem methodOf_agree (reorders : store.Reorders σ impls) (receiver : Ty) (trait : TraitDecl)
    (declared : TraitMethod) (args : List Ty) (c : Candidate) :
    (store.withImpls impls).methodOf receiver trait declared args (c.renumber σ) =
      (store.methodOf receiver trait declared args c).renumber σ := by
  have found : (c.renumber σ).implId.bind (store.withImpls impls).impl? =
      (c.implId.bind store.impl?).map (·.renumber σ) := by
    cases given : c.implId with
    | none => simp [Candidate.renumber, given]
    | some i => simpa [Candidate.renumber, given] using reorders.impl i
  have body : (store.withImpls impls).specializedBody? (c.renumber σ) declared.sig.name =
      store.specializedBody? c declared.sig.name := rfl
  unfold methodOf
  simp only [found, body]
  cases c.implId.bind store.impl? with
  | none => cases store.specializedBody? c declared.sig.name <;> rfl
  | some d =>
    have same : (d.renumber σ).method? declared.sig.name = d.method? declared.sig.name := rfl
    simp only [Option.map_some, Option.bind_eq_bind, Option.bind_some, same]
    cases d.method? declared.sig.name with
    | none => cases store.specializedBody? c declared.sig.name <;> rfl
    | some m => rfl

theorem offer_agree (reorders : store.Reorders σ impls) (receiver : Ty) (trait : TraitDecl)
    (name : String) :
    Offer.Renumbered σ (store.offer receiver trait name).value
      ((store.withImpls impls).offer receiver trait name).value := by
  unfold offer
  cases trait.method? name with
  | none => exact .nothing
  | some declared =>
    have same := resolve_agree reorders receiver
      (.plain trait.path (trait.completeArgs receiver []))
    simp only [Logged.value_bind]
    generalize (store.resolve receiver (.plain trait.path (trait.completeArgs receiver []))).value =
      r at same ⊢
    generalize ((store.withImpls impls).resolve receiver
      (.plain trait.path (trait.completeArgs receiver []))).value = r' at same ⊢
    cases same with
    | met c =>
      simp only [methodOf_agree reorders]
      exact .method _
    | ambiguous perm =>
      have described := perm.map (·.describe (store.withImpls impls))
      simp only [List.map_map, Function.comp_def, describe_candidate reorders] at described
      exact .tied described
    | notImplemented => exact .nothing

theorem offers_agree (reorders : store.Reorders σ impls) (receiver : Ty) (name : String)
    (traits : List TraitDecl) :
    List.Forall₂ (Offer.SameTrait σ) (store.offers receiver name traits).value
      ((store.withImpls impls).offers receiver name traits).value := by
  induction traits with
  | nil => exact .nil
  | cons trait rest ih => exact .cons ⟨rfl, offer_agree reorders receiver trait name⟩ ih

private theorem tiedImpls_perm {o o' : Offer} (same : Offer.Renumbered σ o o') :
    o.tiedImpls.Perm o'.tiedImpls := by
  cases same with
  | method m => exact List.Perm.refl []
  | tied perm => exact perm
  | nothing => exact List.Perm.refl []

private theorem methodOf?_renumber {o o' : TraitDecl × Offer} (trait : o.1 = o'.1)
    (same : Offer.Renumbered σ o.2 o'.2) :
    Offer.methodOf? o' = (Offer.methodOf? o).map fun f => (f.1, f.2.renumber σ) := by
  obtain ⟨decl, offer⟩ := o
  obtain ⟨decl', offer'⟩ := o'
  obtain rfl : decl = decl' := trait
  cases same <;> rfl

private theorem unhidden_renumber (found : List (TraitDecl × Method)) :
    unhidden (found.map fun f => (f.1, f.2.renumber σ)) = (unhidden found).map (·.renumber σ) := by
  simp only [unhidden, List.filterMap_map, List.filter_map, List.map_map]
  rfl

private theorem methodsOf_agree {all all' : List (TraitDecl × Offer)}
    (same : List.Forall₂ (Offer.SameTrait σ) all all') :
    all'.filterMap Offer.methodOf? =
      (all.filterMap Offer.methodOf?).map fun f => (f.1, f.2.renumber σ) := by
  induction same with
  | nil => rfl
  | @cons o o' _ _ here _ ih =>
    rw [List.filterMap_cons, List.filterMap_cons, methodOf?_renumber here.1 here.2, ih]
    cases Offer.methodOf? o <;> rfl

private theorem tiedBetween_agree {all all' : List (TraitDecl × Offer)}
    (same : List.Forall₂ (Offer.SameTrait σ) all all') :
    (all.flatMap (·.2.tiedImpls)).Perm (all'.flatMap (·.2.tiedImpls)) := by
  induction same with
  | nil => exact List.Perm.refl []
  | cons here _ ih => exact List.Perm.append (tiedImpls_perm here.2) ih

theorem ofOffers_agree (reorders : store.Reorders σ impls) {all all' : List (TraitDecl × Offer)}
    (same : List.Forall₂ (Offer.SameTrait σ) all all') :
    MethodResolution.Renumbered σ (store.ofOffers all) ((store.withImpls impls).ofOffers all') := by
  have tied := tiedBetween_agree same
  have visible : ((unhidden (all.filterMap Offer.methodOf?)).map (·.renumber σ)).Perm
      (unhidden (all'.filterMap Offer.methodOf?)) := by
    rw [methodsOf_agree same, unhidden_renumber]
  unfold ofOffers
  rw [tied.isEmpty_eq]
  split
  · exact rel_getD (ofTier_methods_agree reorders visible) .notFound
  · exact .ambiguous tied false

theorem traitTier_agree (reorders : store.Reorders σ impls) (receiver : Ty) (name : String) :
    MethodResolution.Renumbered σ (store.traitTier receiver name).value
      ((store.withImpls impls).traitTier receiver name).value := by
  rw [traitTier_value, traitTier_value]
  exact ofOffers_agree reorders (offers_agree reorders receiver name store.traits.values)

/-! ### Calls -/

theorem callTarget_agree (reorders : store.Reorders σ impls) (receiver : Ty) (name : String)
    (visible : List String) :
    MethodResolution.Renumbered σ (store.callTarget receiver name visible).value
      ((store.withImpls impls).callTarget receiver name visible).value := by
  have methods := (inherentMethods_agree reorders receiver name).append_right
    ((store.withImpls impls).extensionMethods receiver name visible).value
  rw [extensionMethods_agree reorders, ← List.map_append, ← extensionMethods_agree reorders]
    at methods
  rw [callTarget_value, callTarget_value]
  exact rel_getD (ofTier_methods_agree reorders methods) (traitTier_agree reorders receiver name)

/-- A call on a receiver means the same method but for numbers and order. -/
theorem resolveCall_agree (reorders : store.Reorders σ impls) (receiver : Ty) (name : String)
    (visible : List String) :
    MethodResolution.Renumbered σ (store.resolveCall receiver name visible).value
      ((store.withImpls impls).resolveCall receiver name visible).value := by
  rw [resolveCall_value, resolveCall_value, normalize_withImpls]
  exact callTarget_agree reorders _ name visible

theorem resolveQualified_agree (reorders : store.Reorders σ impls) (receiver : Option Ty)
    (qualifier name : String) :
    MethodResolution.Renumbered σ (store.resolveQualified receiver qualifier name).value
      ((store.withImpls impls).resolveQualified receiver qualifier name).value := by
  have extension : (store.withImpls impls).extension? = store.extension? := rfl
  have symbol : (store.withImpls impls).index = store.index := rfl
  have trait : (store.withImpls impls).trait? = store.trait? := rfl
  have type : (store.withImpls impls).type? = store.type? := rfl
  unfold resolveQualified
  simp only [normalize_withImpls, extension, symbol, trait, type]
  split
  · cases receiver with
    | none => exact .notFound
    | some t =>
      simp only [Option.map_some, Logged.value_bind, extensionMethod?_agree reorders]
      cases (store.extensionMethod? (store.normalize t) qualifier name).value with
      | none => exact .notFound
      | some m => exact .found m
  · split
    · split
      · rename_i t trait _ _
        have offered := offer_agree reorders t trait name
        simp only [Logged.value_bind]
        generalize (store.offer t trait name).value = o at offered ⊢
        generalize ((store.withImpls impls).offer t trait name).value = o' at offered ⊢
        cases offered with
        | method m => exact .found m
        | tied perm => exact .ambiguous perm false
        | nothing => exact .notFound
      · exact .notFound
    · split
      · exact .notFound
      · rename_i d _
        have own := ofTier_methods_agree reorders (inherentMethods_agree reorders d.openTy name)
        simp only [Logged.value_bind]
        generalize MethodResolution.ofTier store _ = r at own ⊢
        generalize MethodResolution.ofTier (store.withImpls impls) _ = r' at own ⊢
        cases own with
        | some same => exact same
        | none => exact traitTier_agree reorders d.openTy name
    · exact .notFound

end Store
end Pipeline
