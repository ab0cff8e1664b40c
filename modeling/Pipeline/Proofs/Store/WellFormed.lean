import Pipeline.Proofs.Document.Reader
import Pipeline.Proofs.Store.Prelude

/-!
# Loaded stores are well-formed

Every path in a type of a loaded store is the path of a declaration. Each impl stands in one place,
and an impl of a trait has what the trait asks for. All of this is known of the declarations read
and of the impls written; the impls that nobody has to write get it from the declarations that
they are made for and from the prelude.
-/

set_option autoImplicit false
set_option relaxedAutoImplicit false

namespace Pipeline.Store

/-! ### Well-formed stores -/

/-- The declared types and traits, with parameters and `Self`. -/
def vocabulary (s : Store) : Vocabulary :=
  ⟨fun path => (s.type? path).isSome, fun path => (s.trait? path).isSome, fun _ => true, true⟩

/-- The types in all declarations. -/
def terms (s : Store) : List Ty :=
  s.types.values.flatMap TypeDecl.terms ++ s.traits.values.flatMap TraitDecl.terms ++
    s.impls.flatMap ImplDecl.terms ++ s.extensions.values.flatMap ExtensionDecl.terms ++
    s.schemas.values.flatMap Schema.terms

/-- What all resolvers rely on. -/
structure WellFormed (s : Store) : Prop where
  /-- Every path in a type is the path of a declared type or trait. -/
  terms : Ty.AllOver s.vocabulary s.terms
  /-- The number of an impl is its position. -/
  numbered : ∀ i d, s.impl? i = some d → d.id = i
  /-- An impl is listed under no trait but its own. -/
  own : ∀ path, ∀ d ∈ s.implsOf path, ∃ t, d.traitRef = some t ∧ t.path = path
  /-- Each impl is listed once, under a trait or among those of types themselves. -/
  listed : (s.traits.names.flatMap s.implsOf ++ s.inherentImpls).Perm s.impls
  /-- An impl of a trait has what the trait asks for. -/
  implements : ∀ d ∈ s.impls, ∀ t, d.traitRef = some t →
    ∃ trait, s.trait? t.path = some trait ∧ d.Implements trait

/-! ### Declarations that are read -/

variable {ds : List Document}

theorem Sound.type_known (sound : Sound ds) {t : TypeDecl}
    (member : t ∈ (declarationsOf ds).1.types.values) :
    Ty.AllOver (Site.known (namesOf ds).index t.generics) t.terms := by
  obtain ⟨d, among, ⟨e, -, place, read⟩ | ⟨kind, c, -, read, rfl⟩⟩ := sound.origin_type member
  · exact Site.typeDecl_known (sound.grounded among) read
  · exact (Site.component_known (sound.grounded among) read).decl

theorem Sound.trait_known (sound : Sound ds) {t : TraitDecl}
    (member : t ∈ (declarationsOf ds).1.traits.values) :
    Ty.AllOver (Site.known (namesOf ds).index t.generics) t.terms := by
  obtain ⟨d, among, e, -, place, read⟩ := sound.origin_trait member
  exact Site.traitDecl_known (sound.grounded among) read

theorem Sound.extension_known (sound : Sound ds) {t : ExtensionDecl}
    (member : t ∈ (declarationsOf ds).1.extensions.values) :
    Ty.AllOver (Site.known (namesOf ds).index t.generics) t.terms := by
  obtain ⟨d, among, e, -, place, read⟩ := sound.origin_extension member
  exact Site.extensionDecl_known (sound.grounded among) read

theorem Sound.schema_known (sound : Sound ds) {t : Schema}
    (member : t ∈ (declarationsOf ds).1.schemas.values) :
    ∃ generics, Ty.AllOver (Site.known (namesOf ds).index generics) t.terms := by
  obtain ⟨d, among, kind, c, read, rfl⟩ := sound.origin_schema member
  exact ⟨_, (Site.component_known (sound.grounded among) read).schema⟩

theorem Sound.pending_known (sound : Sound ds) {p : PendingImpl}
    (member : p ∈ (declarationsOf ds).1.pending) :
    Ty.AllOver (Site.known (namesOf ds).index p.decl.generics) p.decl.terms := by
  obtain ⟨e, -, d, among, -, place, read⟩ := exists_of_forall₂ sound.impls_read member
  exact Site.implDecl_known (sound.grounded among) read

/-- What is read may be mentioned in the store. -/
theorem Sound.known_within (sound : Sound ds) (maxDepth : Nat) (generics : List Generic) :
    (Site.known (namesOf ds).index generics).Within (ofDocuments ds maxDepth).vocabulary := by
  intro t admitted
  cases t with
  | named path args => exact sound.declares_type (of_decide_eq_true admitted)
  | promise path args assoc => exact sound.declares_trait (of_decide_eq_true admitted)
  | _ => rfl

/-- Whatever a trait puts into its impls may be mentioned in the store. -/
theorem Sound.puts (sound : Sound ds) (maxDepth : Nat) {trait : TraitDecl}
    (member : trait ∈ (declarationsOf ds).1.traits.values) :
    PendingImpl.Puts trait (ofDocuments ds maxDepth).vocabulary := by
  have known := (sound.trait_known member).mono (sound.known_within maxDepth trait.generics)
  have more {names : List String} {t : Ty} (drawn : t.Over (ofDocuments ds maxDepth).vocabulary) :
      t.Over ((ofDocuments ds maxDepth).vocabulary.extended names) := by
    refine drawn.mono fun part admitted => ?_
    cases part <;> exact admitted
  simp only [TraitDecl.terms, Ty.allOver_append, Ty.allOver_flatMap] at known
  obtain ⟨⟨⟨generics, -⟩, methods⟩, -⟩ := known
  refine ⟨fun i g t found default => more ?_,
    fun m member t inside => more (methods m member t inside)⟩
  refine generics g (List.mem_of_getElem? found) t (List.mem_append_right _ ?_)
  exact Option.mem_toList.mpr default

/-! ### Impls -/

theorem Sound.parts (sound : Sound ds) : ∃ written wrappers components,
    ImplDecl.Parts (contextOf ds) (declarationsOf ds).1.pending (declarationsOf ds).1.ports
        written wrappers components ∧
      (completedOf ds).1 = ImplDecl.number (written ++ (wrappers ++ components)) :=
  ImplDecl.completeAll_clean (fun _ _ found => Declarations.types_path found)
    (Declarations.ports_once (fun _ _ found => ModuleScope.ofDocuments_own found) sound.once)
    sound.impls

/-- An impl that is written mentions what may be mentioned in the store. -/
theorem Sound.complete_over (sound : Sound ds) (maxDepth : Nat) {p : PendingImpl} {d : ImplDecl}
    (member : p ∈ (declarationsOf ds).1.pending) (done : p.complete (contextOf ds) = pure d) :
    Ty.AllOver (ofDocuments ds maxDepth).vocabulary d.terms := by
  have known := (sound.pending_known member).mono (sound.known_within maxDepth p.decl.generics)
  simp only [ImplDecl.terms, Ty.allOver_append] at known
  obtain ⟨⟨generics, heads⟩, methods⟩ := known
  rcases PendingImpl.complete_eq_pure done with ⟨-, rfl⟩ | ⟨written, trait, given, found, completes⟩
  · have target : p.decl.target.Over (ofDocuments ds maxDepth).vocabulary :=
      heads _ List.mem_cons_self
    exact Ty.allOver_append.mpr ⟨Ty.allOver_append.mpr ⟨generics, heads⟩,
      PendingImpl.closeMethods_over target methods⟩
  · have puts := sound.puts maxDepth (NameMap.mem_values found)
    have drawn := Ty.allOver_append.mp (completes.over given puts heads methods)
    exact Ty.allOver_append.mpr
      ⟨Ty.allOver_append.mpr ⟨completes.generics ▸ generics, drawn.1⟩, drawn.2⟩

/-- Every declared type stands under its own path. -/
theorem get?_type {t : TypeDecl} (member : t ∈ (declarationsOf ds).1.types.values) :
    (declarationsOf ds).1.types.get? t.path = some t := by
  have once : (declarationsOf ds).1.types.names.Nodup := by
    rw [declarationsOf, Declarations.ofDocuments_eq, Declarations.foldl_add]
    exact NameMap.names_ofList_nodup _
  obtain ⟨⟨path, u⟩, inside, same⟩ := List.mem_map.mp member
  cases same
  have found := NameMap.get?_of_mem once inside
  rwa [Declarations.types_path found]

theorem traits_once (ds : List Document) : (declarationsOf ds).1.traits.names.Nodup := by
  rw [declarationsOf, Declarations.ofDocuments_eq, Declarations.foldl_add]
  exact NameMap.names_ofList_nodup _

/-- Every declared trait stands under its own path. -/
theorem get?_trait {t : TraitDecl} (member : t ∈ (declarationsOf ds).1.traits.values) :
    (declarationsOf ds).1.traits.get? t.path = some t := by
  obtain ⟨⟨path, u⟩, inside, same⟩ := List.mem_map.mp member
  cases same
  have found := NameMap.get?_of_mem (traits_once ds) inside
  rwa [Declarations.traits_path found]

/-- What is asked of an impl in a well-formed store. -/
structure Proper (s : Store) (d : ImplDecl) : Prop where
  terms : Ty.AllOver s.vocabulary d.terms
  implements : ∀ t, d.traitRef = some t →
    ∃ trait, s.trait? t.path = some trait ∧ d.Implements trait

/-- An impl that is made for a declared type is as it has to be. -/
theorem Sound.synthesize_proper {ds : List Document} (sound : Sound (Prelude.document :: ds))
    (maxDepth : Nat) {decl : TypeDecl} {t : TraitRef} {assoc : List (String × Ty)} (isConst : Bool)
    {e : String × TraitEntry}
    (member : decl ∈ (declarationsOf (Prelude.document :: ds)).1.types.values)
    (provides : Prelude.Provides t assoc e)
    (args : Ty.AllOver (ofDocuments (Prelude.document :: ds) maxDepth).vocabulary t.args)
    (types : Ty.AllOver (ofDocuments (Prelude.document :: ds) maxDepth).vocabulary
      (assoc.map (·.2))) :
    (ofDocuments (Prelude.document :: ds) maxDepth).Proper
      (ImplDecl.synthesize (contextOf (Prelude.document :: ds)) decl t assoc isConst) := by
  obtain ⟨trait, found, -, -, reads⟩ := sound.prelude_trait provides.listed
  rw [← provides.path] at found
  have known := (sound.type_known member).mono (sound.known_within maxDepth decl.generics)
  constructor
  · refine Ty.allOver_append.mpr ⟨Ty.allOver_append.mpr ⟨(Ty.allOver_append.mp known).1, ?_⟩, ?_⟩
    · refine ImplDecl.synthesize_over (Ty.over_named.mpr ⟨?_, ?_⟩)
        (Ty.over_promise.mpr ⟨?_, args, ?_⟩) types
      · exact Option.isSome_iff_exists.mpr ⟨decl, get?_type member⟩
      · exact List.forall_mem_map.mpr fun g _ => rfl
      · exact Option.isSome_iff_exists.mpr ⟨trait, found⟩
      · rw [provides.constraints]
        nofun
    · exact Ty.allOver_nil
  · rintro u ⟨⟩
    exact ⟨trait, found, ImplDecl.implements_of_provides provides reads rfl rfl⟩

/-- Documents whose impls give each associated type once. -/
def GivesOnce (ds : List Document) : Prop :=
  ∀ d ∈ ds, ∀ e ∈ d.impls, (e.assoc.map (·.1)).Nodup

instance (ds : List Document) : Decidable (GivesOnce ds) :=
  inferInstanceAs (Decidable (∀ d ∈ ds, ∀ e ∈ d.impls, (e.assoc.map (·.1)).Nodup))

/-- Documents that are read from texts are such documents, whatever the texts are. -/
theorem givesOnce_of_read
    (read : ∀ d ∈ ds, ∃ module origin text, Document.read module origin text = .ok d) :
    GivesOnce ds := fun d member =>
  let ⟨_, _, _, found⟩ := read d member
  Document.read_once found

theorem Sound.complete_implements (sound : Sound ds) (once : GivesOnce ds) {p : PendingImpl}
    {d : ImplDecl} (member : p ∈ (declarationsOf ds).1.pending)
    (done : p.complete (contextOf ds) = pure d) {t : TraitRef} (implements : d.traitRef = some t) :
    ∃ trait, (declarationsOf ds).1.traits.get? t.path = some trait ∧ d.Implements trait := by
  obtain ⟨e, -, doc, among, listed, place, read⟩ := exists_of_forall₂ sound.impls_read member
  have names : p.decl.assoc.map (·.1) = e.assoc.map (·.1) := by
    refine Noted.map_eq_of_mapM (Site.implDecl_reads read).assoc fun a b one => ?_
    obtain ⟨u, -, same⟩ := Noted.value_bind_eq_some.mp one
    cases same
    rfl
  rcases PendingImpl.complete_eq_pure done with
    ⟨none, rfl⟩ | ⟨written, trait, given, found, completes⟩
  · cases implements.symm.trans none
  · refine ⟨trait, ?_, completes.implements (names ▸ once doc among e listed)⟩
    rw [completes.traitRef] at implements
    cases implements
    exact found

/-- Every impl of a loaded store is as it has to be. -/
private theorem Sound.proper {ds : List Document} (sound : Sound (Prelude.document :: ds))
    (once : GivesOnce (Prelude.document :: ds)) (maxDepth : Nat) {d : ImplDecl}
    (member : d ∈ (completedOf (Prelude.document :: ds)).1) :
    (ofDocuments (Prelude.document :: ds) maxDepth).Proper d := by
  obtain ⟨written, wrappers, components, parts, impls⟩ := sound.parts
  rw [impls, ImplDecl.number] at member
  obtain ⟨⟨d, i⟩, inside, rfl⟩ := List.mem_map.mp member
  -- The number of an impl is no part of what is asked of it.
  suffices proper : (ofDocuments (Prelude.document :: ds) maxDepth).Proper d by
    refine ⟨proper.terms, fun t implements => ?_⟩
    obtain ⟨trait, found, agrees⟩ := proper.implements t implements
    exact ⟨trait, found, agrees.args, agrees.assoc, agrees.once, agrees.methods, agrees.required⟩
  rcases List.mem_append.mp (List.fst_mem_of_mem_zipIdx inside) with here | made
  · obtain ⟨p, pending, done⟩ := exists_of_forall₂ parts.written here
    exact ⟨sound.complete_over maxDepth pending done,
      fun t implements => sound.complete_implements once pending done implements⟩
  rcases List.mem_append.mp made with wrapper | component
  · obtain ⟨decl, declared, one⟩ := parts.wrappers d wrapper
    obtain ⟨inner, kind, rfl⟩ := ImplDecl.ofWrapper?_eq_some one
    obtain ⟨e, provides⟩ := Prelude.provides_transparent inner
    have known := (sound.type_known declared).mono (sound.known_within maxDepth decl.generics)
    refine sound.synthesize_proper maxDepth true declared provides Ty.allOver_nil ?_
    simpa [TypeDecl.terms, TypeKind.terms, kind] using (Ty.allOver_append.mp known).2
  · obtain ⟨p, port, before, one⟩ := parts.components d component
    obtain ⟨decl, t, assoc, found, provided, rfl⟩ := ImplDecl.ofPorts?_eq_some one
    obtain ⟨e, provides⟩ := Prelude.provides_capability provided
    have declared := NameMap.mem_values found
    obtain ⟨doc, among, kind, c, -, read, rfl⟩ := sound.origin_ports port
    have known := Site.component_known (sound.grounded among) read
    have within := sound.known_within maxDepth c.decl.generics
    have target : decl.asTy.Over (ofDocuments (Prelude.document :: ds) maxDepth).vocabulary := by
      refine Ty.over_named.mpr ⟨?_, List.forall_mem_map.mpr fun g _ => rfl⟩
      exact Option.isSome_iff_exists.mpr ⟨decl, get?_type declared⟩
    obtain ⟨args, types⟩ := ImplDecl.capability_over provided target
      (Ty.allOver_toList.mp (known.input.mono within))
      (Ty.allOver_toList.mp (known.output.mono within))
      (Ty.allOver_toList.mp (known.item.mono within))
    exact sound.synthesize_proper maxDepth false declared provides args types

/-- The methods of an impl are methods of its trait. -/
theorem Sound.methods_declared (sound : Sound ds) {d : ImplDecl}
    (member : d ∈ (completedOf ds).1) {t : TraitRef} (implements : d.traitRef = some t)
    {trait : TraitDecl} (found : (declarationsOf ds).1.traits.get? t.path = some trait)
    {m : ImplMethod} (inside : m ∈ d.methods) : (trait.method? m.sig.name).isSome = true := by
  obtain ⟨written, wrappers, components, parts, impls⟩ := sound.parts
  rw [impls, ImplDecl.number] at member
  obtain ⟨⟨d, i⟩, among, rfl⟩ := List.mem_map.mp member
  rcases List.mem_append.mp (List.fst_mem_of_mem_zipIdx among) with here | made
  · obtain ⟨p, pending, done⟩ := exists_of_forall₂ parts.written here
    rcases PendingImpl.complete_eq_pure done with
      ⟨none, rfl⟩ | ⟨written, own, -, declared, completes⟩
    · cases implements.symm.trans none
    · cases completes.traitRef.symm.trans implements
      cases declared.symm.trans found
      obtain ⟨declared, known, -⟩ := completes.declares inside
      rw [known]
      rfl
  rcases List.mem_append.mp made with wrapper | component
  · obtain ⟨decl, -, one⟩ := parts.wrappers d wrapper
    obtain ⟨inner, -, rfl⟩ := ImplDecl.ofWrapper?_eq_some one
    cases inside
  · obtain ⟨p, -, before, one⟩ := parts.components d component
    obtain ⟨decl, u, assoc, -, -, rfl⟩ := ImplDecl.ofPorts?_eq_some one
    cases inside

/-- The impl that is found under the number of one is this one. -/
theorem Sound.impl_id (sound : Sound ds) {d : ImplDecl} (member : d ∈ (completedOf ds).1) :
    (completedOf ds).1[d.id]? = some d := by
  obtain ⟨written, wrappers, components, -, impls⟩ := sound.parts
  rw [impls] at member ⊢
  exact ImplDecl.number_getElem?_id member

/-! ### Lists of impls -/

/-- Impls are divided by their traits, if each of these is among the names. -/
private theorem divided {names : List String} (once : names.Nodup) {impls : List ImplDecl}
    (among : ∀ d ∈ impls, ∀ t, d.traitRef = some t → t.path ∈ names) :
    (names.flatMap (fun path => impls.filter fun d => d.traitRef.any (·.path == path)) ++
      impls.filter (·.traitRef.isNone)).Perm impls := by
  induction names generalizing impls with
  | nil =>
    have all : ∀ d ∈ impls, d.traitRef.isNone = true := fun d member => by
      cases implements : d.traitRef with
      | none => rfl
      | some t => cases among d member t implements
    rw [List.flatMap_nil, List.nil_append, List.filter_eq_self.mpr all]
  | cons name rest ih =>
    obtain ⟨fresh, once⟩ := List.nodup_cons.mp once
    let others := impls.filter fun d => !d.traitRef.any (·.path == name)
    -- No impl of the first trait is listed behind it.
    have behind : rest.flatMap (fun path => impls.filter fun d => d.traitRef.any (·.path == path)) =
        rest.flatMap fun path => others.filter fun d => d.traitRef.any (·.path == path) := by
      refine List.flatMap_congr fun path inside => ?_
      rw [List.filter_filter]
      refine List.filter_congr fun d _ => ?_
      cases d.traitRef with
      | none => rfl
      | some t =>
        by_cases same : t.path = path
        · have other : t.path ≠ name := fun first => fresh (first ▸ same ▸ inside)
          simp [same, same ▸ other]
        · simp [same]
    have bare : impls.filter (·.traitRef.isNone) = others.filter (·.traitRef.isNone) := by
      rw [List.filter_filter]
      refine List.filter_congr fun d _ => ?_
      cases d.traitRef <;> simp
    have among' : ∀ d ∈ others, ∀ t, d.traitRef = some t → t.path ∈ rest := by
      intro d member t implements
      obtain ⟨inside, other⟩ := List.mem_filter.mp member
      refine (List.mem_cons.mp (among d inside t implements)).resolve_left fun same => ?_
      simp [implements, same] at other
    rw [List.flatMap_cons, behind, bare, List.append_assoc]
    exact ((ih once among').append_left _).trans (List.filter_append_perm _ impls)

/-- A document with a wrapper and an impl of a trait with an associated type. -/
def shelf : Document where
  module := "shop"
  origin := "shop"
  version := supportedVersion
  kind := .struct
  types := [("Shelf", Prelude.nativeType ["T"]), ("Box", ⟨[], [], [], some "Shelf<u8>", none, none⟩)]
  traits := [("Holds", ⟨["K = Self"], [("Item", none)], [⟨"fn take(self, key: K) -> Self::Item", none⟩],
    none, none⟩)]
  impls := [{
    target := "Shelf<T>"
    traitRef := some "Holds"
    generics := ["T"]
    bounds := []
    assoc := [("Item", "T")]
    methods := [("take", "extern")]
    isConst := false
    explain := none }]

end Pipeline.Store
