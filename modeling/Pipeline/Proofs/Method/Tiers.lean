import Pipeline.Method.Resolve

/-!
# The ranks of methods

A call is answered by the first rank that has a method: the methods of types themselves and of
extensions, and then those of traits. Each rank is told here as the list of its methods, without
the order in which they are looked for.
-/

set_option autoImplicit false
set_option relaxedAutoImplicit false

namespace Pipeline.Store

variable {store : Store}

/-- A method that is found under a name is one of those looked at, and has the name. -/
theorem named_of_find? {α : Type} {sig : α → MethodSig} {methods : List α} {name : String} {m : α}
    (found : methods.find? (fun m => (sig m).name == name) = some m) :
    m ∈ methods ∧ (sig m).name = name :=
  ⟨List.mem_of_find?_eq_some found, by simpa using List.find?_some found⟩

/-! ### Methods of types themselves -/

/-- The method of a name that an impl gives to a type itself. -/
def inherentMethod? (store : Store) (receiver : Ty) (name : String) (d : ImplDecl) :
    Option Method :=
  (d.method? name).bind fun m =>
    (store.instantiate d.generics d.target d.bounds receiver).value.map fun s =>
      ⟨name, .inherent d.id, m.sig.substitute s, some m.body, d.module,
        m.sig.tag == .const || d.isConst⟩

theorem inherentMethods_value (store : Store) (receiver : Ty) (name : String)
    (ds : List ImplDecl) :
    (store.inherentMethods receiver name ds).value =
      ds.filterMap (store.inherentMethod? receiver name) := by
  induction ds with
  | nil => rfl
  | cons d rest ih =>
    cases found : d.method? name with
    | none =>
      simp only [inherentMethods, found, List.filterMap_cons, inherentMethod?, Option.bind_none]
      exact ih
    | some m =>
      simp only [inherentMethods, found, List.filterMap_cons, inherentMethod?, Option.bind_some,
        Logged.value_bind]
      cases (store.instantiate d.generics d.target d.bounds receiver).value with
      | none => exact ih
      | some s => exact congrArg (_ :: ·) ih

/-- What an impl gives to a type itself is provided by that impl. -/
theorem inherentMethod?_provider {receiver : Ty} {name : String} {d : ImplDecl} {m : Method}
    (given : store.inherentMethod? receiver name d = some m) :
    m.provider = .inherent d.id ∧ m.name = name := by
  obtain ⟨declared, -, given⟩ := Option.bind_eq_some_iff.mp given
  obtain ⟨s, -, rfl⟩ := Option.map_eq_some_iff.mp given
  exact ⟨rfl, rfl⟩

/-! ### Methods of extensions -/

/-- What an extension gives is what it writes, with types put for its parameters. -/
theorem extensionMethod?_written {receiver : Ty} {path name : String} {m : Method}
    (given : (store.extensionMethod? receiver path name).value = some m) :
    ∃ d written subst, store.extension? path = some d ∧ d.method? name = some written ∧
      m = ⟨name, .extension path, written.sig.substitute subst, some written.body, d.module,
        written.sig.tag == .const⟩ := by
  unfold extensionMethod? at given
  cases found : store.extension? path with
  | none =>
    rw [found] at given
    cases given
  | some d =>
    cases own : d.method? name with
    | none =>
      simp only [found, own] at given
      cases given
    | some written =>
      simp only [found, own, Logged.value_bind] at given
      cases fits : (store.instantiate d.generics d.target d.bounds receiver).value with
      | none =>
        rw [fits] at given
        cases given
      | some subst =>
        rw [fits] at given
        cases given
        exact ⟨d, written, subst, rfl, own, rfl⟩

theorem extensionMethod?_provider {receiver : Ty} {path name : String} {m : Method}
    (given : (store.extensionMethod? receiver path name).value = some m) :
    m.provider = .extension path ∧ m.name = name ∧ (store.extension? path).isSome = true := by
  obtain ⟨d, written, subst, found, -, rfl⟩ := extensionMethod?_written given
  exact ⟨rfl, rfl, found ▸ rfl⟩

theorem mem_extensionMethods {receiver : Ty} {name : String} {visible : List String} {m : Method} :
    m ∈ (store.extensionMethods receiver name visible).value ↔
      ∃ path ∈ visible, (store.extensionMethod? receiver path name).value = some m := by
  induction visible with
  | nil => simp [extensionMethods]
  | cons path rest ih =>
    simp only [extensionMethods, Logged.value_bind, Logged.value_pure, List.mem_append,
      Option.mem_toList, ih, List.mem_cons, exists_eq_or_imp]

/-! ### Methods of traits -/

/-- What a trait offers is provided by that trait. -/
theorem offer_provider {receiver : Ty} {trait : TraitDecl} {name : String} {m : Method}
    (offered : (store.offer receiver trait name).value = .method m) :
    (∃ c, m.provider = .trait trait.path c) ∧ m.name = name := by
  unfold offer at offered
  cases declares : trait.method? name with
  | none =>
    rw [declares] at offered
    cases offered
  | some declared =>
    have named : declared.sig.name = name := (named_of_find? declares).2
    simp only [declares, Logged.value_bind] at offered
    generalize (store.resolve receiver _).value = r at offered
    cases r with
    | met c =>
      cases offered
      exact ⟨⟨c, rfl⟩, named⟩
    | ambiguous cs => cases offered
    | notImplemented => cases offered

theorem offers_value (receiver : Ty) (name : String) (traits : List TraitDecl) :
    (store.offers receiver name traits).value =
      traits.map fun trait => (trait, (store.offer receiver trait name).value) := by
  induction traits with
  | nil => rfl
  | cons trait rest ih =>
    simp only [offers, Logged.value_bind, ih, List.map_cons, Logged.value_pure]

/-- The impls that are tied for a trait. -/
def Offer.tiedImpls : Offer → List String
  | .tied impls => impls
  | _ => []

/-- The method that a trait offers. -/
def Offer.methodOf? (o : TraitDecl × Offer) : Option (TraitDecl × Method) :=
  match o.2 with
  | .method m => some (o.1, m)
  | _ => none

theorem Offer.methodOf?_eq_some {o : TraitDecl × Offer} {trait : TraitDecl} {m : Method} :
    Offer.methodOf? o = some (trait, m) ↔ o.1 = trait ∧ o.2 = .method m := by
  obtain ⟨decl, o⟩ := o
  cases o <;> simp [Offer.methodOf?]

/-- The methods of traits that no other one of them specializes. -/
def unhidden (found : List (TraitDecl × Method)) : List Method :=
  (found.filter fun f =>
    !(found.filterMap fun f => f.1.specialization.map (·.target.path)).contains f.1.path).map (·.2)

theorem mem_unhidden {found : List (TraitDecl × Method)} {m : Method} :
    m ∈ unhidden found ↔ ∃ trait, (trait, m) ∈ found ∧
      ∀ other ∈ found, other.1.specialization.map (·.target.path) ≠ some trait.path := by
  simp [unhidden]

/-- The methods of a name that traits give to a receiver, those of a trait left out that another
one specializes. -/
def traitRank (store : Store) (receiver : Ty) (name : String) : List Method :=
  unhidden ((store.offers receiver name store.traits.values).value.filterMap Offer.methodOf?)

/-- A method of the rank of traits is offered by a trait that none with a method specializes. -/
theorem mem_traitRank {receiver : Ty} {name : String} {m : Method} :
    m ∈ store.traitRank receiver name ↔ ∃ trait ∈ store.traits.values,
      (store.offer receiver trait name).value = .method m ∧
      ∀ other ∈ store.traits.values, ∀ n, (store.offer receiver other name).value = .method n →
        other.specialization.map (·.target.path) ≠ some trait.path := by
  have offered (trait : TraitDecl) (n : Method) :
      (trait, n) ∈ (store.offers receiver name store.traits.values).value.filterMap
          Offer.methodOf? ↔
        trait ∈ store.traits.values ∧ (store.offer receiver trait name).value = .method n := by
    simp only [offers_value, List.mem_filterMap, List.mem_map, Offer.methodOf?_eq_some]
    constructor
    · rintro ⟨_, ⟨decl, among, rfl⟩, rfl, found⟩
      exact ⟨among, found⟩
    · rintro ⟨among, found⟩
      exact ⟨_, ⟨trait, among, rfl⟩, rfl, found⟩
  rw [traitRank, mem_unhidden]
  constructor
  · rintro ⟨trait, found, visible⟩
    obtain ⟨among, gives⟩ := (offered trait m).mp found
    exact ⟨trait, among, gives, fun other member n there =>
      visible (other, n) ((offered other n).mpr ⟨member, there⟩)⟩
  · rintro ⟨trait, among, gives, visible⟩
    refine ⟨trait, (offered trait m).mpr ⟨among, gives⟩, ?_⟩
    rintro ⟨other, n⟩ found
    obtain ⟨member, there⟩ := (offered other n).mp found
    exact visible other member n there

/-- The resolution by what traits offer. -/
def ofOffers (store : Store) (all : List (TraitDecl × Offer)) : MethodResolution :=
  if (all.flatMap (·.2.tiedImpls)).isEmpty then
    (MethodResolution.ofTier store (unhidden (all.filterMap Offer.methodOf?))).getD .notFound
  else .ambiguous (all.flatMap (·.2.tiedImpls)) false

theorem traitTier_value (receiver : Ty) (name : String) :
    (store.traitTier receiver name).value =
      store.ofOffers (store.offers receiver name store.traits.values).value := by
  unfold traitTier ofOffers
  simp only [Logged.value_bind]
  generalize (store.offers receiver name store.traits.values).value = all
  change (if !(all.flatMap (·.2.tiedImpls)).isEmpty then _ else _ :
    Logged MethodResolution).value = _
  cases (all.flatMap (·.2.tiedImpls)).isEmpty <;> rfl

/-! ### Calls -/

theorem callTarget_value (receiver : Ty) (name : String) (visible : List String) :
    (store.callTarget receiver name visible).value =
      (MethodResolution.ofTier store
        ((store.inherentMethods receiver name store.inherentImpls).value ++
          (store.extensionMethods receiver name visible).value)).getD
        (store.traitTier receiver name).value := by
  unfold callTarget
  simp only [Logged.value_bind]
  cases MethodResolution.ofTier store _ <;> rfl

/-- The methods of a name that impls and extensions give to a receiver. -/
def firstRank (store : Store) (receiver : Ty) (name : String) (visible : List String) :
    List Method :=
  (store.inherentMethods receiver name store.inherentImpls).value ++
    (store.extensionMethods receiver name visible).value

/-- The methods of the rank that answers a call. -/
def rivals (store : Store) (receiver : Ty) (name : String) (visible : List String) : List Method :=
  if (store.firstRank (store.normalize receiver) name visible).isEmpty then
    store.traitRank (store.normalize receiver) name
  else store.firstRank (store.normalize receiver) name visible

theorem resolveCall_value (store : Store) (receiver : Ty) (name : String)
    (visible : List String) :
    (store.resolveCall receiver name visible).value =
      (store.callTarget (store.normalize receiver) name visible).value := by
  unfold resolveCall
  simp only [Logged.value_bind]
  cases (store.callTarget (store.normalize receiver) name visible).value <;> rfl

/-- A rank is ambiguous if it has several methods. -/
theorem ofTier_ambiguous {ms : List Method} {candidates : List String} {qualify : Bool}
    (tied : MethodResolution.ofTier store ms = some (.ambiguous candidates qualify)) :
    2 ≤ ms.length ∧ candidates = ms.map (·.describe store) := by
  match ms with
  | [] => cases tied
  | [_] => cases tied
  | _ :: _ :: _ =>
    cases tied
    exact ⟨by simp, rfl⟩

theorem ofTier_found {ms : List Method} {m : Method}
    (found : MethodResolution.ofTier store ms = some (.found m)) : ms = [m] := by
  match ms with
  | [] => cases found
  | [_] =>
    cases found
    rfl
  | _ :: _ :: _ => cases found

/-- What traits answer, where no impls are tied, is the resolution by their rank. -/
theorem ofTier_of_traitTier {receiver : Ty} {name : String} {r : MethodResolution}
    (answer : (store.traitTier receiver name).value = r) (some : r ≠ .notFound)
    (untied : ∀ impls, r ≠ .ambiguous impls false) :
    MethodResolution.ofTier store (store.traitRank receiver name) = .some r := by
  rw [traitTier_value, ofOffers] at answer
  split at answer
  · rw [← traitRank] at answer
    cases rank : MethodResolution.ofTier store (store.traitRank receiver name) with
    | none =>
      rw [rank] at answer
      exact absurd answer.symm some
    | some r' =>
      rw [rank] at answer
      rw [← answer, Option.getD_some]
  · exact absurd answer.symm (untied _)

/-- The method that traits give to a call is the only one of their rank. -/
theorem traitTier_found {receiver : Ty} {name : String} {m : Method}
    (found : (store.traitTier receiver name).value = .found m) :
    store.traitRank receiver name = [m] :=
  ofTier_found (ofTier_of_traitTier found nofun nofun)

/-- The method that a call means is the only one of the first rank, or the one that traits give
where that rank is empty. -/
theorem resolveCall_found {receiver : Ty} {name : String} {visible : List String} {m : Method}
    (found : (store.resolveCall receiver name visible).value = .found m) :
    store.firstRank (store.normalize receiver) name visible = [m] ∨
      store.firstRank (store.normalize receiver) name visible = [] ∧
        (store.traitTier (store.normalize receiver) name).value = .found m := by
  rw [resolveCall_value, callTarget_value, ← firstRank] at found
  cases rank : store.firstRank (store.normalize receiver) name visible with
  | nil =>
    rw [rank] at found
    exact Or.inr ⟨rfl, found⟩
  | cons n rest =>
    rw [rank] at found
    cases rest with
    | nil =>
      cases found
      exact Or.inl rfl
    | cons _ _ => cases found

/-- A call that needs a qualifier has rivals, and tells all of them. -/
theorem resolveCall_tied {receiver : Ty} {name : String} {visible candidates : List String}
    (tied : (store.resolveCall receiver name visible).value = .ambiguous candidates true) :
    2 ≤ (store.rivals receiver name visible).length ∧
      candidates = (store.rivals receiver name visible).map (·.describe store) := by
  rw [resolveCall_value, callTarget_value, ← firstRank] at tied
  unfold rivals
  cases rank : store.firstRank (store.normalize receiver) name visible with
  | cons m rest =>
    rw [rank] at tied
    cases rest with
    | nil => cases tied
    | cons n rest => exact ofTier_ambiguous (congrArg some tied)
  | nil =>
    rw [rank, MethodResolution.ofTier, Option.getD_none] at tied
    exact ofTier_ambiguous (ofTier_of_traitTier tied nofun (by simp))

end Pipeline.Store
