import Pipeline.Proofs.Method.Tiers
import Pipeline.Proofs.Obligation.Origin
import Pipeline.Proofs.Obligation.Reach
import Pipeline.Proofs.Store.Impls

/-!
# Bounds of impls of traits and of impls for types themselves

The bounds of an impl are checked where an obligation is matched with the impl, inside the search for
that obligation, and again where a method of a type itself or of an extension is looked for, each by
itself. Both checks find the same, and both kinds of impl apply to the same types, unless the guard
against endless searches comes between: an obligation that is met again inside itself, or the depth
limit.
-/

set_option autoImplicit false
set_option relaxedAutoImplicit false

namespace Pipeline

namespace Store

/-- The search for an obligation matches an impl of the trait that is asked for. -/
def Matches (store : Store) (o : Obligation) (d : ImplDecl) : Prop :=
  0 < store.maxDepth ∧
    (store.matchImpl (store.resolveInside (store.maxDepth - 1) [o]) d d.traitArgs o.ty
      o.traitRef).value.isSome = true

instance (store : Store) (o : Obligation) (d : ImplDecl) : Decidable (store.Matches o d) :=
  inferInstanceAs (Decidable (_ ∧ _))

/-- The search for a method of a type offers the one of an impl for the type itself. -/
def Offers (store : Store) (receiver : Ty) (i : ImplDecl) (name : String) : Prop :=
  ∃ m ∈ (store.inherentMethods receiver name store.inherentImpls).value,
    m.provider = .inherent i.id

instance (store : Store) (receiver : Ty) (i : ImplDecl) (name : String) :
    Decidable (store.Offers receiver i name) :=
  inferInstanceAs (Decidable (∃ _ ∈ _, _))

/-- Types for the parameters of an impl make its target fit a type. -/
def TargetFits (store : Store) (d : ImplDecl) (ty : Ty) (s : Subst) : Prop :=
  Ty.unify (Generic.names d.generics) (store.normalize d.target) ty [] = (true, s)

/-- Where the target of an impl fits the type of an obligation, the impl gives the arguments and the
associated types that are asked for, and these say no more of its parameters. -/
def Answers (store : Store) (d : ImplDecl) (o : Obligation) : Prop :=
  ∀ s, store.TargetFits d o.ty s → store.Applies d d.traitArgs o s

/-- The guard against endless searches cuts nothing where a bound is checked for an obligation: the
search does not come back to the obligation, and it ends above the limit. -/
structure Unguarded (store : Store) (o : Obligation) (ty : Ty) (t : TraitRef) : Prop where
  apart : ∀ o', store.Asks ty t o' → ¬ Relation.ReflTransGen store.GivesRise o' o
  ends : ∀ o', store.Asks ty t o' → ∃ n < store.maxDepth, store.EndsWithin n [] o'

variable {store : Store} {o : Obligation} {d : ImplDecl} {s : Subst}

/-! ### One bound -/

/-- Where the guard cuts nothing, a bound is resolved alike inside an obligation and by itself. -/
theorem Unguarded.resolve_eq {ty : Ty} {t : TraitRef} (unguarded : store.Unguarded o ty t) :
    (store.resolveInside (store.maxDepth - 1) [o] ty t).value = (store.resolve ty t).value := by
  have alone : (store.resolve ty t).value = (store.resolveInside store.maxDepth [] ty t).value := rfl
  rw [alone]
  cases declared : store.trait? t.path with
  | none =>
    have unknown (depth : Nat) (stack : List Obligation) :
        (store.resolveInside depth stack ty t).value = .notImplemented := by
      cases depth <;> simp [resolveInside, declared]
    rw [unknown, unknown]
  | some trait =>
    have asks : store.Asks ty t (store.obligation trait ty t) := ⟨trait, declared, rfl⟩
    obtain ⟨n, above, ends⟩ := unguarded.ends _ asks
    rw [← ends.resolveInside_eq asks (Nat.le_sub_one_of_lt above) (Nat.le_of_lt above)]
    refine resolveInside_congr fun o' asks' o'' below => ?_
    rw [List.mem_singleton]
    refine ⟨?_, fun inside => by cases inside⟩
    rintro rfl
    exact absurd below (unguarded.apart o' asks')

/-- Two ways to check a bound that holds in one way or not at all. -/
theorem boundsAllow_eq {bounds : List Pipeline.Bound}
    (concrete : ∀ b ∈ bounds, (b.ty.substitute s).isConcrete = true)
    (untied : ∀ b ∈ bounds, ∀ cs,
      (store.resolve (b.ty.substitute s) (b.traitRef.substitute s)).value ≠ .ambiguous cs)
    (unguarded : ∀ b ∈ bounds,
      store.Unguarded o (b.ty.substitute s) (b.traitRef.substitute s)) :
    (store.boundsAllow s bounds).value =
      (boundsHold (store.resolveInside (store.maxDepth - 1) [o]) s bounds).value := by
  induction bounds with
  | nil => rfl
  | cons b rest ih =>
    rw [List.forall_mem_cons] at concrete untied unguarded
    have later := ih concrete.2 untied.2 unguarded.2
    have here := untied.1
    simp only [boundsAllow, concrete.1, Bool.not_true, Bool.false_eq_true, if_false, boundsHold,
      Logged.value_bind, unguarded.1.resolve_eq]
    generalize (store.resolve (b.ty.substitute s) (b.traitRef.substitute s)).value = r at here ⊢
    cases r with
    | met c =>
      by_cases allowed : (!b.constRequired || c.isConst) = true
      · simpa only [Resolution.satisfies, allowed, if_true] using later
      · simp only [Resolution.satisfies, allowed, Bool.false_eq_true, if_false, Logged.value_pure]
    | ambiguous cs => exact absurd rfl (here cs)
    | notImplemented => simp [Resolution.satisfies]

/-! ### All bounds of an impl -/

theorem Answers.applies_iff (answers : store.Answers d o) :
    store.Applies d d.traitArgs o s ↔ store.TargetFits d o.ty s := by
  refine ⟨fun applies => ?_, answers s⟩
  obtain ⟨s₀, fits, -, args⟩ := applies.form
  obtain ⟨s₁, fits₁, -, args₁⟩ := (answers s₀ fits).form
  obtain ⟨-, rfl⟩ := Prod.mk.inj (fits.symm.trans fits₁)
  obtain ⟨-, rfl⟩ := Prod.mk.inj (args.symm.trans args₁)
  exact fits

theorem instantiate_isSome_iff {generics : List Generic} {target : Ty} {bounds : List Pipeline.Bound}
    {receiver : Ty} :
    (store.instantiate generics target bounds receiver).value.isSome = true ↔
      ∃ s, Ty.unify (Generic.names generics) (store.normalize target) receiver [] = (true, s) ∧
        (store.boundsAllow s bounds).value = true := by
  unfold instantiate
  obtain ⟨fits, s⟩ := Ty.unify (Generic.names generics) (store.normalize target) receiver []
  cases fits with
  | false => simp
  | true => cases allowed : (store.boundsAllow s bounds).value <;> simp [allowed]

/-- The bounds of an impl mean the same to the search for an obligation and to the search for a
method. -/
theorem matches_iff_instantiates (answers : store.Answers d o) (limit : 0 < store.maxDepth)
    (concrete : ∀ s, store.TargetFits d o.ty s →
      ∀ b ∈ d.bounds, (b.ty.substitute s).isConcrete = true)
    (untied : ∀ s, store.TargetFits d o.ty s →
      ∀ b ∈ d.bounds, ∀ cs,
        (store.resolve (b.ty.substitute s) (b.traitRef.substitute s)).value ≠ .ambiguous cs)
    (unguarded : ∀ s, store.TargetFits d o.ty s →
      ∀ b ∈ d.bounds, store.Unguarded o (b.ty.substitute s) (b.traitRef.substitute s)) :
    store.Matches o d ↔
      (store.instantiate d.generics d.target d.bounds o.ty).value.isSome = true := by
  rw [instantiate_isSome_iff]
  constructor
  · rintro ⟨-, found⟩
    obtain ⟨⟨s, assoc⟩, found⟩ := Option.isSome_iff_exists.mp found
    obtain ⟨applies, holds, -⟩ := matchImpl_eq_some.mp found
    have fits := answers.applies_iff.mp applies
    exact ⟨s, fits, (boundsAllow_eq (concrete s fits) (untied s fits) (unguarded s fits)).trans holds⟩
  · rintro ⟨s, fits, allowed⟩
    have same := boundsAllow_eq (concrete s fits) (untied s fits) (unguarded s fits)
    exact ⟨limit, Option.isSome_iff_exists.mpr ⟨_, matchImpl_eq_some.mpr
      ⟨answers.applies_iff.mpr fits, same.symm.trans allowed, rfl⟩⟩⟩

/-! ### What is found -/

/-- Impls of a store that loads have numbers of their own. -/
theorem eq_of_id {ds : List Document} {maxDepth : Nat}
    (loaded : (load ds maxDepth).value = .ok store) {d d' : ImplDecl} (member : d ∈ store.impls)
    (member' : d' ∈ store.impls) (same : d.id = d'.id) : d = d' := by
  obtain ⟨sound, rfl⟩ := sound_of_load loaded
  have found := sound.impl_id member
  rw [same, sound.impl_id member'] at found
  exact (Option.some.inj found).symm

theorem answers_plain {ds : List Document} {maxDepth : Nat}
    (loaded : (load ds maxDepth).value = .ok store) {path : String} {trait : TraitDecl}
    (declared : store.trait? path = some trait) (none : trait.generics = [])
    (member : d ∈ store.implsOf path) (ty : Ty) :
    store.Answers d (store.obligation trait ty (.plain path [])) := by
  have asked : (store.obligation trait ty (.plain path [])).traitRef.args = [] := by
    rw [obligation, TraitDecl.completeArgs, none]
    rfl
  obtain ⟨inside, t, implements, named⟩ := mem_implsOf.mp member
  have given : d.traitArgs = [] := by
    obtain ⟨sound, rfl⟩ := sound_of_load loaded
    have length := sound.length_traitArgs inside implements (named ▸ declared)
    rw [ImplDecl.traitArgs, implements]
    exact List.eq_nil_of_length_eq_zero (length.trans (congrArg _ none))
  intro s fits
  exact ⟨⟨s, fits, by rw [given, asked], by rw [given, asked]; rfl⟩, rfl⟩

private theorem exists_ownCandidate_iff {ds : List Document} {maxDepth : Nat}
    (loaded : (load ds maxDepth).value = .ok store) {holds : Resolver} {trait : TraitDecl}
    {origin : CandidateOrigin} {kept : ImplDecl → Bool} (inside : d ∈ store.impls) :
    (∃ c ∈ store.ownCandidates holds trait o.ty o.traitRef origin kept, c.implId = some d.id) ↔
      (d ∈ store.implsOf o.traitRef.path ∧ kept d = true) ∧
        (store.matchImpl holds d d.traitArgs o.ty o.traitRef).value.isSome = true := by
  rw [ownCandidates, candidates_value]
  constructor
  · rintro ⟨c, member, id⟩
    obtain ⟨p, among, found⟩ := List.mem_filterMap.mp member
    obtain ⟨d', own, rfl⟩ := List.mem_map.mp among
    obtain ⟨m, matched, rfl⟩ := Option.map_eq_some_iff.mp found
    obtain ⟨own, keeps⟩ := List.mem_filter.mp own
    obtain rfl := eq_of_id loaded (mem_implsOf.mp own).1 inside (Option.some.inj id)
    exact ⟨⟨own, keeps⟩, Option.isSome_iff_exists.mpr ⟨m, matched⟩⟩
  · rintro ⟨own, matched⟩
    obtain ⟨m, matched⟩ := Option.isSome_iff_exists.mp matched
    refine ⟨⟨some d.id, o.traitRef.path, origin, m.1, d.isConst || trait.specialization.isSome, m.2⟩,
      List.mem_filterMap.mpr ⟨(d, d.traitArgs), List.mem_map_of_mem (List.mem_filter.mpr own), ?_⟩,
      rfl⟩
    rw [candidate?, matched]
    rfl

/-- Unless a promise or a specializing trait goes first, the impls for types that an obligation is
matched with are the ones that its resolution names. -/
theorem matches_iff_named {ds : List Document} {maxDepth : Nat}
    (loaded : (load ds maxDepth).value = .ok store) (limit : 0 < store.maxDepth) {trait : TraitDecl}
    {t : TraitRef} (declared : store.trait? t.path = some trait) {ty : Ty}
    (first : ∀ c ∈ (store.resolve ty t).value.candidates, c.origin = .direct ∨ c.origin = .blanket)
    (member : d ∈ store.implsOf t.path) (direct : d.isBlanket = false) :
    store.Matches (store.obligation trait ty t) d ↔
      ∃ c ∈ (store.resolve ty t).value.candidates, c.implId = some d.id := by
  have inside := (mem_implsOf.mp member).1
  let o := store.obligation trait ty t
  let holds := store.resolveInside (store.maxDepth - 1) [o]
  have matches_iff : store.Matches o d ↔
      ∃ c ∈ store.ownCandidates holds trait o.ty o.traitRef .direct (fun d => !d.isBlanket),
        c.implId = some d.id := by
    rw [exists_ownCandidate_iff loaded inside]
    exact ⟨fun found => ⟨⟨member, by rw [direct]; rfl⟩, found.2⟩, fun found => ⟨limit, found.2⟩⟩
  rw [resolve_value declared (Nat.sub_add_cancel limit).symm, select_value] at first ⊢
  rw [matches_iff]
  cases promised : store.promisedBy? (store.normalize ty) o.traitRef with
  | some c =>
    rw [promised] at first
    have opaqueType := (promisedBy?_origin promised).2
    rcases first c (List.mem_singleton_self c) with origin | origin <;>
      cases opaqueType.symm.trans origin
  | none =>
    rw [promised] at first
    simp only [Option.map_none, Option.getD_none, candidates_firstTier] at first ⊢
    split at first
    · rename_i none
      rw [if_pos none]
      split
      · rename_i empty
        -- No impl for a type is a candidate, and those for all types are others.
        rw [show store.ownCandidates holds trait o.ty o.traitRef .direct (fun d => !d.isBlanket) = []
          from empty]
        refine ⟨nofun, fun named => ?_⟩
        have blanket := (exists_ownCandidate_iff (o := o) loaded inside).mp named
        cases direct.symm.trans blanket.1.2
      · rfl
    · rename_i some_derived
      obtain ⟨c, named⟩ := List.exists_mem_of_ne_nil _ some_derived
      obtain ⟨special, -, specialized, -⟩ := mem_specialized named
      rcases first c named with origin | origin <;> cases specialized.symm.trans origin

theorem offers_iff {ds : List Document} {maxDepth : Nat}
    (loaded : (load ds maxDepth).value = .ok store) {i : ImplDecl} (member : i ∈ store.inherentImpls)
    {name : String} (named : (i.method? name).isSome = true) {receiver : Ty} :
    store.Offers receiver i name ↔
      (store.instantiate i.generics i.target i.bounds receiver).value.isSome = true := by
  rw [Offers, inherentMethods_value]
  obtain ⟨declared, named⟩ := Option.isSome_iff_exists.mp named
  constructor
  · rintro ⟨m, offered, provider⟩
    obtain ⟨i', member', given⟩ := List.mem_filterMap.mp offered
    have same := MethodProvider.inherent.inj ((inherentMethod?_provider given).1.symm.trans provider)
    obtain rfl := eq_of_id loaded (List.mem_filter.mp member').1 (List.mem_filter.mp member).1 same
    obtain ⟨m', -, given⟩ := Option.bind_eq_some_iff.mp given
    obtain ⟨s, instantiated, -⟩ := Option.map_eq_some_iff.mp given
    exact Option.isSome_iff_exists.mpr ⟨s, instantiated⟩
  · intro instantiated
    obtain ⟨s, instantiated⟩ := Option.isSome_iff_exists.mp instantiated
    have given : store.inherentMethod? receiver name i = some ⟨name, .inherent i.id,
        declared.sig.substitute s, some declared.body, i.module,
        declared.sig.tag == .const || i.isConst⟩ := by
      rw [inherentMethod?, named, Option.bind_some, instantiated, Option.map_some]
    exact ⟨_, List.mem_filterMap.mpr ⟨i, member, given⟩, rfl⟩

theorem isSome_extensionMethod?_iff {path name : String} {x : ExtensionDecl}
    (found : store.extension? path = some x) (named : (x.method? name).isSome = true)
    {receiver : Ty} :
    (store.extensionMethod? receiver path name).value.isSome = true ↔
      (store.instantiate x.generics x.target x.bounds receiver).value.isSome = true := by
  obtain ⟨declared, named⟩ := Option.isSome_iff_exists.mp named
  simp only [extensionMethod?, found, named, Logged.value_bind]
  cases (store.instantiate x.generics x.target x.bounds receiver).value <;> simp

/-- Bounds mean the same on impls of traits and on impls for types themselves or extensions: an
obligation is matched with the one exactly if the methods of the other are offered. This is so for
bounds about types that are known completely and that hold in one way or not at all, where the guard
against endless searches cuts nothing. -/
theorem matches_iff_offered (ds : List Document) (maxDepth : Nat) (s : Store)
    (loaded : (load ds maxDepth).value = .ok s) (trait : TraitDecl) (receiver : Ty) (t : TraitRef)
    (d : ImplDecl) (answers : s.Answers d (s.obligation trait receiver t)) (limit : 0 < s.maxDepth)
    (concrete : ∀ σ, s.TargetFits d (s.normalize receiver) σ → ∀ b ∈ d.bounds,
      (b.ty.substitute σ).isConcrete = true)
    (untied : ∀ σ, s.TargetFits d (s.normalize receiver) σ → ∀ b ∈ d.bounds, ∀ cs,
      (s.resolve (b.ty.substitute σ) (b.traitRef.substitute σ)).value ≠ .ambiguous cs)
    (unguarded : ∀ σ, s.TargetFits d (s.normalize receiver) σ → ∀ b ∈ d.bounds,
      s.Unguarded (s.obligation trait receiver t) (b.ty.substitute σ) (b.traitRef.substitute σ))
    (name : String) :
    (∀ i ∈ s.inherentImpls, i.generics = d.generics → i.target = d.target → i.bounds = d.bounds →
      (i.method? name).isSome = true →
        (s.Matches (s.obligation trait receiver t) d ↔
          s.Offers (s.normalize receiver) i name)) ∧
    ∀ path x, s.extension? path = some x → x.generics = d.generics → x.target = d.target →
      x.bounds = d.bounds → (x.method? name).isSome = true →
        (s.Matches (s.obligation trait receiver t) d ↔
          (s.extensionMethod? (s.normalize receiver) path name).value.isSome = true) := by
  have alike := matches_iff_instantiates answers limit concrete untied unguarded
  constructor
  · intro i member generics target bounds named
    rw [offers_iff loaded member named, generics, target, bounds]
    exact alike
  · intro path x found generics target bounds named
    rw [isSome_extensionMethod?_iff found named, generics, target, bounds]
    exact alike

private theorem not_givesRise (special : store.specializationsOf o.traitRef.path = [])
    (own : ∀ d ∈ store.implsOf o.traitRef.path,
      (store.alignImpl? d d.traitArgs o.ty o.traitRef).isSome = true → d.bounds = []) (o' : Obligation) :
    ¬ store.GivesRise o o' := by
  rintro ⟨d, args, s, presents, applies, b, member, -⟩
  cases presents with
  | own inside =>
    have none := own d inside (Option.isSome_iff_exists.mpr ⟨s, alignImpl_iff.mpr applies.form⟩)
    rw [none] at member
    cases member
  | specialized inside =>
    rw [special] at inside
    cases inside

/-- An impl under bounds. -/
def boundedImpl (target : String) (trait : Option String) (generics bounds : List String)
    (methods : List (String × String)) : ImplEntry where
  target := target
  traitRef := trait
  generics := generics
  bounds := bounds
  assoc := []
  methods := methods
  isConst := false
  explain := none

/-- A document of structs without fields, of traits without methods and of impls under bounds. -/
def boundsDocument (traits : List String) (impls : List ImplEntry)
    (extensions : List (String × ExtensionEntry)) : Document where
  module := "shop"
  origin := "shop"
  version := supportedVersion
  kind := .struct
  types := [("Coin", ⟨[], [], [], none, none, none⟩),
    ("Box", ⟨["T"], [("item", .short "T")], [], none, none, none⟩)]
  traits := traits.map fun name => (name, ⟨[], [], [], none, none⟩)
  impls := impls
  extensions := extensions

/-- Boxes of what is loud can be shown, and shout. -/
def loudBoxes : Document :=
  boundsDocument ["Loud", "Show"]
    [boundedImpl "Coin" (some "Loud") [] [] [],
      boundedImpl "Box<T>" (some "Loud") ["T"] ["T: Loud"] [],
      boundedImpl "Box<T>" (some "Show") ["T"] ["T: Loud"] [],
      boundedImpl "Box<T>" none ["T"] ["T: Loud"] [("const fn shout(self) -> u8", "1")]]
    [("Aloud", ⟨"Box<T>", ["T"], ["T: Loud"], [("const fn shout(self) -> u8", "2")], none⟩)]

/-- A type of the document. -/
def coin : Ty := .named "shop::Coin" []

/-- A type of the document. -/
def boxOfCoin : Ty := .named "shop::Box" [coin]

/-- The parts of the store for boxes that a method of one is looked for in. -/
private def BoxesFit (s : Store) (trait loud : TraitDecl) (d : ImplDecl) : Prop :=
  s.Matches (s.obligation trait boxOfCoin (.plain "shop::Show" [])) d ∧
    s.normalize boxOfCoin = boxOfCoin ∧
    (∀ b ∈ d.bounds,
      let σ := (Ty.unify (Generic.names d.generics) (s.normalize d.target) boxOfCoin []).2
      b.ty.substitute σ = coin ∧ b.traitRef.substitute σ = .plain "shop::Loud" []) ∧
    (s.resolve coin (.plain "shop::Loud" [])).value.candidate?.isSome = true ∧
    s.obligation loud coin (.plain "shop::Loud" []) = ⟨coin, .plain "shop::Loud" []⟩ ∧
    s.specializationsOf "shop::Loud" = [] ∧
    (∀ d ∈ s.implsOf "shop::Loud", (s.alignImpl? d d.traitArgs coin (.plain "shop::Loud" [])).isSome =
      true → d.bounds = [])

private instance (s : Store) (trait loud : TraitDecl) (d : ImplDecl) :
    Decidable (BoxesFit s trait loud d) :=
  inferInstanceAs (Decidable (_ ∧ _))

/-- The same bounds on impls for the type itself and on an extension. -/
private def BoxesAlike (s : Store) (d : ImplDecl) : Prop :=
  (∃ i ∈ s.inherentImpls, i.generics = d.generics ∧ i.target = d.target ∧ i.bounds = d.bounds ∧
    (i.method? "shout").isSome = true) ∧
  ∃ x ∈ s.extension? "shop::Aloud", x.generics = d.generics ∧ x.target = d.target ∧
    x.bounds = d.bounds ∧ (x.method? "shout").isSome = true

private instance (s : Store) (d : ImplDecl) : Decidable (BoxesAlike s d) :=
  inferInstanceAs (Decidable (_ ∧ _))

private theorem loudBoxes_load : ∃ s, (load [loudBoxes] 4).value = .ok s ∧ s.maxDepth = 4 ∧
    ∃ trait ∈ s.trait? "shop::Show", trait.generics = [] ∧ ∃ loud ∈ s.trait? "shop::Loud",
      ∃ d ∈ s.implsOf "shop::Show", BoxesFit s trait loud d ∧ BoxesAlike s d := by
  decide +kernel

/-- Boxes of coins can be shown, and shout in both ways. -/
theorem matches_iff_offered_boxes : ∃ s, (load [loudBoxes] 4).value = .ok s ∧
    ∃ trait ∈ s.trait? "shop::Show", ∃ d ∈ s.implsOf "shop::Show",
      s.Matches (s.obligation trait boxOfCoin (.plain "shop::Show" [])) d ∧
      (∃ i ∈ s.inherentImpls, s.Offers boxOfCoin i "shout") ∧
      (s.extensionMethod? boxOfCoin "shop::Aloud" "shout").value.isSome = true := by
  obtain ⟨s, loaded, limit, trait, declared, plain, loud, loud_declared, d, member, fit, alike⟩ :=
    loudBoxes_load
  obtain ⟨matched, normal, bounds, met, obligation, special, silent⟩ := fit
  obtain ⟨⟨i, inherent, generics, target, same, named⟩, x, found, generics', target', same', named'⟩ :=
    alike
  -- The bound of the impl is that coins are loud, of which nothing more is asked.
  have bound {σ : Subst} (fits : s.TargetFits d (s.normalize boxOfCoin) σ) {b : Pipeline.Bound}
      (inside : b ∈ d.bounds) :
      b.ty.substitute σ = coin ∧ b.traitRef.substitute σ = .plain "shop::Loud" [] := by
    rw [TargetFits, normal] at fits
    have asked := bounds b inside
    rw [fits] at asked
    exact asked
  have last := not_givesRise (o := ⟨coin, .plain "shop::Loud" []⟩) special silent
  have untied (cs : List Candidate) :
      (s.resolve coin (.plain "shop::Loud" [])).value ≠ .ambiguous cs := by
    intro tied
    rw [tied] at met
    cases met
  have unguarded : s.Unguarded (s.obligation trait boxOfCoin (.plain "shop::Show" [])) coin
      (.plain "shop::Loud" []) := by
    have asked {o : Obligation} (asks : s.Asks coin (.plain "shop::Loud" []) o) :
        o = ⟨coin, .plain "shop::Loud" []⟩ := (asks.unique ⟨loud, loud_declared, rfl⟩).trans obligation
    refine ⟨fun o asks below => ?_, fun o asks => ⟨1, by rw [limit]; decide, ?_⟩⟩
    · obtain rfl := asked asks
      rcases Relation.ReflTransGen.cases_head below with same | ⟨o, step, -⟩
      · exact absurd (show "shop::Loud" = "shop::Show" from congrArg (·.traitRef.path) same) (by decide)
      · exact last o step
    · obtain rfl := asked asks
      exact .deeper fun o step => absurd step (last o)
  have alike := matches_iff_offered _ 4 s loaded trait boxOfCoin (.plain "shop::Show" []) d
    (answers_plain loaded declared plain member boxOfCoin) (by rw [limit]; decide)
    (fun σ fits b inside => by rw [(bound fits inside).1]; decide)
    (fun σ fits b inside => by rw [(bound fits inside).1, (bound fits inside).2]; exact untied)
    (fun σ fits b inside => by rw [(bound fits inside).1, (bound fits inside).2]; exact unguarded)
    "shout"
  rw [normal] at alike
  exact ⟨s, loaded, trait, declared, d, member, matched,
    ⟨i, inherent, (alike.1 i inherent generics target same named).mp matched⟩,
    (alike.2 _ x found generics' target' same' named').mp matched⟩

/-- Impls that can be shown and impls for the type itself, under three pairs of equal bounds: one
that leads back to where it comes from, one that holds in two ways, and one about a type that nothing
determines. -/
def guardedCoins : Document :=
  boundsDocument ["Loud", "Base", "Twice", "Show", "Tell", "Open"]
    [boundedImpl "T" (some "Show") ["T"] ["T: Base"] [],
      boundedImpl "T" (some "Loud") ["T"] ["T: Show"] [],
      boundedImpl "Coin" (some "Base") [] [] [],
      boundedImpl "T" (some "Twice") ["T"] [] [],
      boundedImpl "T" (some "Twice") ["T"] ["T: Base"] [],
      boundedImpl "Coin" (some "Show") [] ["Coin: Loud"] [],
      boundedImpl "Coin" none [] ["Coin: Loud"] [("const fn shout(self) -> u8", "1")],
      boundedImpl "Coin" (some "Tell") [] ["Coin: Twice"] [],
      boundedImpl "Coin" none [] ["Coin: Twice"] [("const fn tell(self) -> u8", "2")],
      boundedImpl "Coin" (some "Open") ["U"] ["U: Base"] [],
      boundedImpl "Coin" none ["U"] ["U: Base"] [("const fn open(self) -> u8", "3")]] []

/-- An impl of a trait for a type and an impl for a type itself, which has a method of a name, have
the same parameters, target and bounds. -/
def Twins (d i : ImplDecl) (name : String) : Prop :=
  d.isBlanket = false ∧ (i.method? name).isSome = true ∧ i.generics = d.generics ∧
    i.target = d.target ∧ i.bounds = d.bounds

private instance (d i : ImplDecl) (name : String) : Decidable (Twins d i name) :=
  inferInstanceAs (Decidable (_ ∧ _))

/-- Of two such impls the guard leaves coins only the one for the type itself, and so does a type that
nothing determines; a tie leaves them only the one of the trait. -/
theorem guardedCoins_differ : ∃ s, (load [guardedCoins] 8).value = .ok s ∧
    (∃ trait ∈ s.trait? "shop::Show", ∃ d ∈ s.implsOf "shop::Show", ∃ i ∈ s.inherentImpls,
      Twins d i "shout" ∧ ¬ s.Matches (s.obligation trait coin (.plain "shop::Show" [])) d ∧
        s.Offers coin i "shout") ∧
    (∃ trait ∈ s.trait? "shop::Tell", ∃ d ∈ s.implsOf "shop::Tell", ∃ i ∈ s.inherentImpls,
      Twins d i "tell" ∧ s.Matches (s.obligation trait coin (.plain "shop::Tell" [])) d ∧
        ¬ s.Offers coin i "tell") ∧
    ∃ trait ∈ s.trait? "shop::Open", ∃ d ∈ s.implsOf "shop::Open", ∃ i ∈ s.inherentImpls,
      Twins d i "open" ∧ ¬ s.Matches (s.obligation trait coin (.plain "shop::Open" [])) d ∧
        s.Offers coin i "open" := by
  decide +kernel

end Store
end Pipeline
