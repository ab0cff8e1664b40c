import Pipeline.Proofs.Method.Tiers
import Pipeline.Proofs.Store.WellFormed

/-!
# Telling rivals apart

Where a call is ambiguous, a qualifier tells which of the rivals is meant: the path of the
extension or of the trait that provides it, or the path of the type for a method of the type itself.
An extension takes the path of a trait or a type away from it; and a type is asked for its own
methods with nothing known of its arguments, so that it may have several where the receiver has
one.
-/

set_option autoImplicit false
set_option relaxedAutoImplicit false

namespace Pipeline.Store

variable {s : Store} {receiver : Ty} {path name : String} {m : Method}

/-! ### Qualified calls -/

theorem resolveQualified_extension (declared : (s.extension? path).isSome = true) :
    (s.resolveQualified (some receiver) path name).value =
      ((s.extensionMethod? (s.normalize receiver) path name).value.map .found).getD .notFound := by
  unfold resolveQualified
  simp only [declared, if_true, Option.map_some, Logged.value_bind]
  cases (s.extensionMethod? (s.normalize receiver) path name).value <;> rfl

theorem resolveQualified_trait (free : s.extension? path = none) {trait : TraitDecl}
    (symbol : s.index.symbol? path = some ⟨.trait, path⟩) (found : s.trait? path = some trait) :
    (s.resolveQualified (some receiver) path name).value =
      match (s.offer (s.normalize receiver) trait name).value with
      | .method m => .found m
      | .tied impls => .ambiguous impls false
      | .nothing => .notFound := by
  unfold resolveQualified
  simp only [free, Option.isSome_none, Bool.false_eq_true, if_false, symbol, found,
    Option.map_some, Logged.value_bind]
  cases (s.offer (s.normalize receiver) trait name).value <;> rfl

theorem resolveQualified_type (free : s.extension? path = none) {decl : TypeDecl}
    (symbol : s.index.symbol? path = some ⟨.type, path⟩) (found : s.type? path = some decl) :
    (s.resolveQualified (some receiver) path name).value =
      (MethodResolution.ofTier s (s.inherentMethods decl.openTy name s.inherentImpls).value).getD
        (s.traitTier decl.openTy name).value := by
  unfold resolveQualified
  simp only [free, Option.isSome_none, Bool.false_eq_true, if_false, symbol, found,
    Logged.value_bind]
  cases MethodResolution.ofTier s _ <;> rfl

/-- What the traits of a receiver answer with is provided by one of them. -/
theorem traitTier_provider (found : (s.traitTier receiver name).value = .found m) :
    ∃ path c, m.provider = .trait path c := by
  have member : m ∈ s.traitRank receiver name := traitTier_found found ▸ List.mem_singleton_self m
  obtain ⟨trait, -, offered, -⟩ := mem_traitRank.mp member
  exact ⟨trait.path, (offer_provider offered).1⟩

/-- An impl of a type itself answers for the type where it is the only one. -/
theorem resolveQualified_inherent (free : s.extension? path = none) {id : Nat}
    (answer : (s.resolveQualified (some receiver) path name).value = .found m)
    (provider : m.provider = .inherent id) : ∃ decl, s.type? path = some decl ∧
      (s.inherentMethods decl.openTy name s.inherentImpls).value = [m] := by
  unfold resolveQualified at answer
  simp only [free, Option.isSome_none, Bool.false_eq_true, if_false, Option.map_some] at answer
  split at answer
  · split at answer
    · rename_i t trait _ _
      simp only [Logged.value_bind] at answer
      cases offered : (s.offer t trait name).value with
      | method n =>
        rw [offered] at answer
        cases answer
        obtain ⟨c, other⟩ := (offer_provider offered).1
        cases provider.symm.trans other
      | tied impls =>
        rw [offered] at answer
        cases answer
      | nothing =>
        rw [offered] at answer
        cases answer
    · cases answer
  · split at answer
    · cases answer
    · rename_i decl found
      refine ⟨decl, found, ?_⟩
      simp only [Logged.value_bind] at answer
      cases rank : MethodResolution.ofTier s
          (s.inherentMethods decl.openTy name s.inherentImpls).value with
      | none =>
        rw [rank] at answer
        obtain ⟨path, c, other⟩ := traitTier_provider answer
        cases provider.symm.trans other
      | some r =>
        rw [rank] at answer
        cases answer
        exact ofTier_found rank
  · cases answer

/-! ### Qualifiers -/

/-- The path that tells a method from its rivals. -/
def ownPath? (s : Store) (receiver : Ty) (m : Method) : Option String :=
  match m.provider with
  | .extension path => some path
  | .trait path _ => some path
  | .inherent _ => (s.normalize receiver).path?

/-- A call with the qualifier of a method means what provides the method. -/
def Qualifies (s : Store) (receiver : Ty) (name : String) (m : Method) : Prop :=
  ∃ path ∈ s.ownPath? receiver m, ∃ m',
    (s.resolveQualified (some receiver) path name).value = .found m' ∧ m'.provider = m.provider

/-- The qualifier of a method is its own: no extension takes the path of its trait or its type, and
the type itself has no other method of the name where nothing is known of its arguments. -/
def SetApart (s : Store) (receiver : Ty) (name : String) (m : Method) : Prop :=
  match m.provider with
  | .extension _ => True
  | .trait path _ => s.extension? path = none
  | .inherent id => ∃ decl ∈ (s.normalize receiver).path?.bind s.type?,
      s.extension? decl.path = none ∧
        (s.inherentMethods decl.openTy name s.inherentImpls).value.map (·.provider) = [.inherent id]

instance (s : Store) (receiver : Ty) (name : String) (m : Method) :
    Decidable (s.SetApart receiver name m) :=
  match m with
  | ⟨_, .extension _, _, _, _, _⟩ => inferInstanceAs (Decidable True)
  | ⟨_, .trait path _, _, _, _, _⟩ => inferInstanceAs (Decidable (s.extension? path = none))
  | ⟨_, .inherent id, _, _, _, _⟩ =>
    inferInstanceAs (Decidable (∃ decl ∈ (s.normalize receiver).path?.bind s.type?,
      s.extension? decl.path = none ∧ (s.inherentMethods decl.openTy name
        s.inherentImpls).value.map (·.provider) = [.inherent id]))

/-- Declarations stand under their own paths, and the names know them. -/
structure Indexed (s : Store) : Prop where
  type : ∀ path decl, s.type? path = some decl →
    decl.path = path ∧ s.index.symbol? path = some ⟨.type, path⟩
  trait : ∀ decl ∈ s.traits.values,
    s.trait? decl.path = some decl ∧ s.index.symbol? decl.path = some ⟨.trait, decl.path⟩

theorem load_indexed {ds : List Document} {maxDepth : Nat}
    (loaded : (load ds maxDepth).value = .ok s) : s.Indexed := by
  obtain ⟨sound, rfl⟩ := sound_of_load loaded
  refine ⟨fun path decl found => ?_, fun decl member => ?_⟩
  · obtain rfl := Declarations.types_path found
    exact ⟨rfl, SymbolIndex.symbol?_of_get? (sound.symbol_type (NameMap.mem_values found))⟩
  · exact ⟨get?_trait member, SymbolIndex.symbol?_of_get? (sound.symbol_trait member)⟩

/-! ### Rivals -/

/-- What provides a method of an extension. -/
theorem mem_firstRank {visible : List String} (member : m ∈ s.firstRank receiver name visible) :
    (∃ d ∈ s.inherentImpls, s.inherentMethod? receiver name d = some m) ∨
      ∃ path ∈ visible, (s.extensionMethod? receiver path name).value = some m := by
  rcases List.mem_append.mp member with own | extension
  · rw [inherentMethods_value] at own
    obtain ⟨d, among, given⟩ := List.mem_filterMap.mp own
    exact Or.inl ⟨d, among, given⟩
  · exact Or.inr (mem_extensionMethods.mp extension)

theorem extension_qualifies
    (given : (s.extensionMethod? (s.normalize receiver) path name).value = some m) :
    s.Qualifies receiver name m ↔ s.SetApart receiver name m := by
  obtain ⟨provider, -, declared⟩ := extensionMethod?_provider given
  refine iff_of_true ⟨path, ?_, m, ?_, rfl⟩ ?_
  · simp [ownPath?, provider]
  · rw [resolveQualified_extension declared, given]
    rfl
  · simp [SetApart, provider]

/-- An extension answers for itself. -/
theorem provider_of_extension {m' : Method} (declared : (s.extension? path).isSome = true)
    (found : (s.resolveQualified (some receiver) path name).value = .found m') :
    m'.provider = .extension path := by
  rw [resolveQualified_extension declared] at found
  cases given : (s.extensionMethod? (s.normalize receiver) path name).value with
  | none =>
    rw [given] at found
    cases found
  | some n =>
    rw [given] at found
    cases found
    exact (extensionMethod?_provider given).1

theorem trait_qualifies (indexed : s.Indexed) {trait : TraitDecl}
    (member : trait ∈ s.traits.values)
    (offered : (s.offer (s.normalize receiver) trait name).value = .method m) :
    s.Qualifies receiver name m ↔ s.SetApart receiver name m := by
  obtain ⟨⟨c, provider⟩, -⟩ := offer_provider offered
  obtain ⟨found, symbol⟩ := indexed.trait trait member
  have own : s.ownPath? receiver m = some trait.path := by simp [ownPath?, provider]
  have apart : s.SetApart receiver name m ↔ s.extension? trait.path = none := by
    simp [SetApart, provider]
  rw [apart]
  constructor
  · rintro ⟨path, asked, m', answer, same⟩
    cases asked.symm.trans own
    cases taken : s.extension? trait.path with
    | none => rfl
    | some d =>
      have extension := provider_of_extension (by simp [taken]) answer
      rw [same, provider] at extension
      cases extension
  · intro free
    refine ⟨trait.path, own, m, ?_, rfl⟩
    rw [resolveQualified_trait free symbol found, offered]

theorem inherent_qualifies (indexed : s.Indexed) {d : ImplDecl}
    (given : s.inherentMethod? (s.normalize receiver) name d = some m) :
    s.Qualifies receiver name m ↔ s.SetApart receiver name m := by
  obtain ⟨provider, -⟩ := inherentMethod?_provider given
  have own : s.ownPath? receiver m = (s.normalize receiver).path? := by
    simp [ownPath?, provider]
  have apart : s.SetApart receiver name m ↔ ∃ decl ∈ (s.normalize receiver).path?.bind s.type?,
      s.extension? decl.path = none ∧ (s.inherentMethods decl.openTy name
        s.inherentImpls).value.map (·.provider) = [.inherent d.id] := by
    simp only [SetApart, provider]
  rw [apart]
  constructor
  · rintro ⟨path, asked, m', answer, same⟩
    rw [provider] at same
    cases taken : s.extension? path with
    | some d =>
      have extension := provider_of_extension (by simp [taken]) answer
      cases same.symm.trans extension
    | none =>
      obtain ⟨decl, found, alone⟩ := resolveQualified_inherent taken answer same
      obtain ⟨rfl, -⟩ := indexed.type path decl found
      refine ⟨decl, ?_, taken, ?_⟩
      · exact Option.bind_eq_some_iff.mpr ⟨decl.path, own.symm.trans asked, found⟩
      · rw [alone, ← same]
        rfl
  · rintro ⟨decl, declared, free, alone⟩
    obtain ⟨path, named, found⟩ := Option.bind_eq_some_iff.mp declared
    obtain ⟨rfl, symbol⟩ := indexed.type path decl found
    obtain ⟨n, single, same⟩ := List.map_eq_singleton_iff.mp alone
    refine ⟨decl.path, own.trans named, n, ?_, same.trans provider.symm⟩
    rw [resolveQualified_type free symbol found, single]
    rfl

/-- Every rival of an ambiguous call has a qualifier that tells it from the others exactly if the
qualifier is its own. -/
theorem rivals_qualify (ds : List Document) (maxDepth : Nat) (s : Store)
    (loaded : (load ds maxDepth).value = .ok s) (receiver : Ty) (name : String)
    (visible candidates : List String)
    (tied : (s.resolveCall receiver name visible).value = .ambiguous candidates true) :
    candidates = (s.rivals receiver name visible).map (·.describe s) ∧
      ∀ m ∈ s.rivals receiver name visible,
        s.Qualifies receiver name m ↔ s.SetApart receiver name m := by
  refine ⟨(resolveCall_tied tied).2, fun m member => ?_⟩
  have indexed := load_indexed loaded
  unfold rivals at member
  split at member
  · obtain ⟨trait, among, offered, -⟩ := mem_traitRank.mp member
    exact trait_qualifies indexed among offered
  · rcases mem_firstRank member with ⟨d, -, given⟩ | ⟨path, -, given⟩
    · exact inherent_qualifies indexed given
    · exact extension_qualifies given

/-- What a call is ambiguous between, if it needs a qualifier. -/
def between? : MethodResolution → Option (List String)
  | .ambiguous candidates true => some candidates
  | _ => none

theorem between?_eq_some {r : MethodResolution} {candidates : List String}
    (tied : between? r = some candidates) : r = .ambiguous candidates true := by
  unfold between? at tied
  split at tied <;> cases tied
  rfl

/-- A document with a type of one parameter, an impl of it for each of the targets, and an extension
of its type of bytes, all with a method of one name. -/
def pairs (targets : List (List String × String)) : Document where
  module := "shop"
  origin := "shop"
  version := supportedVersion
  kind := .struct
  types := [("Pair", ⟨["T"], [("a", .short "T")], [], none, none, none⟩)]
  impls := targets.map fun t => Prelude.methodsOf t.2 t.1 ["fn m(self) -> u8"]
  extensions := [("Ext", ⟨"Pair<u8>", [], [], [("fn m(self) -> u8", "1")], none⟩)]

/-- A pair of bytes. -/
def bytePair : Ty := .named "shop::Pair" [.named "std::u8" []]

/-- The impl for all pairs and the extension both have a qualifier. -/
theorem rivals_qualify_pairs : ∃ s, (load [pairs [(["T"], "Pair<T>")]] 4).value = .ok s ∧
    (s.resolveCall bytePair "m" ["shop::Ext"]).value =
      .ambiguous ["inherent shop::Pair<T>::m", "shop::Ext::m"] true ∧
    ∀ m ∈ s.rivals bytePair "m" ["shop::Ext"], s.Qualifies bytePair "m" m := by
  have made : (load [pairs [(["T"], "Pair<T>")]] 4).value.toOption.map (fun s =>
      (between? (s.resolveCall bytePair "m" ["shop::Ext"]).value,
        decide (∀ m ∈ s.rivals bytePair "m" ["shop::Ext"], s.SetApart bytePair "m" m))) =
      some (some ["inherent shop::Pair<T>::m", "shop::Ext::m"], true) := by
    decide +kernel
  obtain ⟨s, loaded, facts⟩ := Option.map_eq_some_iff.mp made
  have loaded := ok_of_toOption loaded
  obtain ⟨tied, apart⟩ := Prod.mk.inj facts
  have tied := between?_eq_some tied
  have qualify := (rivals_qualify _ 4 s loaded bytePair "m" ["shop::Ext"] _ tied).2
  exact ⟨s, loaded, tied, fun m member => (qualify m member).mpr (of_decide_eq_true apart m member)⟩

/-- Where there is an impl for another type of pairs, no qualifier tells the impl for pairs of bytes
from the extension. -/
theorem pairs_without_qualifier :
    ∃ s, (load [pairs [([], "Pair<u8>"), ([], "Pair<String>")]] 4).value = .ok s ∧
      (s.resolveCall bytePair "m" ["shop::Ext"]).value =
        .ambiguous ["inherent shop::Pair<u8>::m", "shop::Ext::m"] true ∧
      ∃ m ∈ s.rivals bytePair "m" ["shop::Ext"], ∀ path m',
        (s.resolveQualified (some bytePair) path "m").value = .found m' →
          m'.provider ≠ m.provider := by
  have made : (load [pairs [([], "Pair<u8>"), ([], "Pair<String>")]] 4).value.toOption.map
      (fun s => (between? (s.resolveCall bytePair "m" ["shop::Ext"]).value,
        (s.rivals bytePair "m" ["shop::Ext"]).map (·.provider),
        decide (∀ decl ∈ s.types.values,
          (s.inherentMethods decl.openTy "m" s.inherentImpls).value.map (·.provider) ≠
            [.inherent 17]))) =
      some (some ["inherent shop::Pair<u8>::m", "shop::Ext::m"],
        [.inherent 17, .extension "shop::Ext"], true) := by
    decide +kernel
  obtain ⟨s, loaded, facts⟩ := Option.map_eq_some_iff.mp made
  simp only [Prod.mk.injEq, decide_eq_true_eq] at facts
  obtain ⟨tied, providers, others⟩ := facts
  have first : MethodProvider.inherent 17 ∈
      (s.rivals bytePair "m" ["shop::Ext"]).map (·.provider) := providers ▸ List.mem_cons_self
  obtain ⟨m, member, provider⟩ := List.mem_map.mp first
  refine ⟨s, ok_of_toOption loaded, between?_eq_some tied, m, member,
    fun path m' answer same => ?_⟩
  rw [provider] at same
  cases taken : s.extension? path with
  | some d => cases same.symm.trans (provider_of_extension (by simp [taken]) answer)
  | none =>
    obtain ⟨decl, found, alone⟩ := resolveQualified_inherent taken answer same
    refine others decl (NameMap.mem_values found) ?_
    rw [alone, List.map_cons, List.map_nil, same]

/-! ### Impls that stay alone -/

/-- A pattern learns nothing from the wildcard. -/
private theorem align_infer (vars : List String) (p : Ty) :
    Ty.align (Ty.bindVar vars) p .infer [] = (true, []) := by
  cases p with
  | param name =>
    by_cases var : name ∈ vars
    · simp [Ty.align, Ty.bindVar, var, NameMap.get?]
    · simp [Ty.align, Ty.bindVar, var, Ty.rigid]
  | _ => rfl

private theorem alignList_infer (vars : List String) (ps : List Ty) (generics : List Generic) :
    Ty.alignList (Ty.bindVar vars) ps (generics.map fun _ => .infer) [] = (true, []) := by
  induction ps generalizing generics with
  | nil => rfl
  | cons p rest ih =>
    cases generics with
    | nil => rfl
    | cons g generics => simp only [List.map_cons, Ty.alignList, align_infer, ih]

/-- Bounds on types that are not known do not count. -/
private theorem boundsAllow_nil {bounds : List Pipeline.Bound}
    (unknown : ∀ b ∈ bounds, b.ty.isConcrete = false) : (s.boundsAllow [] bounds).value = true := by
  induction bounds with
  | nil => rfl
  | cons b rest ih =>
    rw [List.forall_mem_cons] at unknown
    simp only [boundsAllow, Ty.substitute_nil, unknown.1, Bool.not_false, if_true]
    exact ih unknown.2

/-- A method that an impl gives to one type of a declaration it gives to the open type, if its
bounds ask nothing of other types. -/
private theorem inherentMethod?_open {d : ImplDecl} {decl : TypeDecl} {args : List Ty}
    (given : s.inherentMethod? (.named decl.path args) name d = some m)
    (saturated : args.length = decl.generics.length)
    (target : (s.normalize d.target).path? = some decl.path)
    (unknown : ∀ b ∈ d.bounds, b.ty.isConcrete = false) :
    ∃ m', s.inherentMethod? decl.openTy name d = some m' ∧ m'.provider = .inherent d.id := by
  obtain ⟨declared, found, given⟩ := Option.bind_eq_some_iff.mp given
  obtain ⟨subst, fits, -⟩ := Option.map_eq_some_iff.mp given
  -- The target is a type of the declaration, with as many arguments as the receiver.
  obtain ⟨patterns, shape, length⟩ : ∃ patterns,
      s.normalize d.target = .named decl.path patterns ∧ patterns.length = args.length := by
    cases shape : s.normalize d.target with
    | named path patterns =>
      rw [shape] at target
      cases target
      refine ⟨patterns, rfl, ?_⟩
      by_contra other
      simp [instantiate, shape, Ty.unify, Ty.align, other] at fits
    | _ =>
      rw [shape] at target
      cases target
  have open_ : Ty.unify (Generic.names d.generics) (s.normalize d.target) decl.openTy [] =
      (true, []) := by
    rw [shape, Ty.unify, TypeDecl.openTy, Ty.align, if_pos ⟨rfl, by simp [length, saturated]⟩]
    exact alignList_infer _ _ _
  refine ⟨_, Option.bind_eq_some_iff.mpr ⟨declared, found,
    Option.map_eq_some_iff.mpr ⟨[], ?_, rfl⟩⟩, rfl⟩
  simp [instantiate, open_, Logged.value_bind, boundsAllow_nil unknown]

/-- The only member of a list of which something comes. -/
private theorem filterMap_alone {α β : Type} {f : α → Option β} {l : List α} {a : α} {b : β}
    (once : l.Nodup) (member : a ∈ l) (found : f a = some b)
    (alone : ∀ c ∈ l, (f c).isSome = true → c = a) : l.filterMap f = [b] := by
  obtain ⟨before, behind, rfl⟩ := List.append_of_mem member
  have nothing {part : List α} (inside : ∀ c ∈ part, c ∈ before ++ a :: behind ∧ c ≠ a) :
      part.filterMap f = [] := by
    refine List.filterMap_eq_nil_iff.mpr fun c among => ?_
    obtain ⟨here, other⟩ := inside c among
    exact Option.not_isSome_iff_eq_none.mp fun some => other (alone c here some)
  rw [List.nodup_append] at once
  have first : before.filterMap f = [] := nothing fun c among =>
    ⟨List.mem_append_left _ among, fun same => once.2.2 c among a List.mem_cons_self same⟩
  have last : behind.filterMap f = [] := nothing fun c among =>
    ⟨List.mem_append_right _ (List.mem_cons_of_mem _ among),
      fun same => (List.nodup_cons.mp once.2.1).1 (same ▸ among)⟩
  rw [List.filterMap_append, List.filterMap_cons_some found, first, last, List.nil_append]

/-- A method of a type itself is told from its rivals by the path of the type, if no extension has
that path, the receiver has all its arguments, and no other impl of the type gives the name to any
of its types. -/
theorem setApart_of_alone (once : s.inherentImpls.Nodup) {d : ImplDecl} {decl : TypeDecl}
    {args : List Ty} (member : d ∈ s.inherentImpls)
    (given : s.inherentMethod? (s.normalize receiver) name d = some m)
    (normal : s.normalize receiver = .named decl.path args)
    (saturated : args.length = decl.generics.length)
    (declared : s.type? decl.path = some decl) (free : s.extension? decl.path = none)
    (target : (s.normalize d.target).path? = some decl.path)
    (unknown : ∀ b ∈ d.bounds, b.ty.isConcrete = false)
    (alone : ∀ other ∈ s.inherentImpls, (other.method? name).isSome = true →
      (Ty.unify (Generic.names other.generics) (s.normalize other.target) decl.openTy []).1 = true →
        other = d) : s.SetApart receiver name m := by
  have provider := (inherentMethod?_provider given).1
  rw [normal] at given
  obtain ⟨m', found, same⟩ := inherentMethod?_open given saturated target unknown
  have single : s.inherentImpls.filterMap (s.inherentMethod? decl.openTy name) = [m'] := by
    refine filterMap_alone once member found fun other among some => alone other among ?_ ?_
    · obtain ⟨n, given⟩ := Option.isSome_iff_exists.mp some
      obtain ⟨declared, named, -⟩ := Option.bind_eq_some_iff.mp given
      rw [named]
      rfl
    · obtain ⟨n, given⟩ := Option.isSome_iff_exists.mp some
      obtain ⟨declared, -, given⟩ := Option.bind_eq_some_iff.mp given
      obtain ⟨subst, fits, -⟩ := Option.map_eq_some_iff.mp given
      unfold instantiate at fits
      split at fits
      · cases fits
      · rename_i fitting
        rw [fitting]
  simp only [SetApart, provider]
  refine ⟨decl, ?_, free, ?_⟩
  · simp [normal, Ty.path?, declared]
  · rw [inherentMethods_value, single, List.map_cons, List.map_nil, same]

end Pipeline.Store
