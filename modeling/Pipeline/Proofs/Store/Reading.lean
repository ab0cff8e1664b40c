import Pipeline.Proofs.Decl.Terms
import Pipeline.Store.Declared

/-!
# What written declarations mention

What a site reads mentions declared types and traits and the generic parameters around it, and it
mentions `Self` only where the text does.
-/

set_option autoImplicit false
set_option relaxedAutoImplicit false

namespace Pipeline.Site

open Noted

/-- Whatever the names of a site stand for may be mentioned. -/
structure Sees (site : Site) (v : Vocabulary) : Prop where
  grounded : site.scope.Grounded site.index
  declared : site.index.Within v

/-- Whatever the names and parameters of a site stand for may be mentioned. -/
structure Within (site : Site) (v : Vocabulary) : Prop extends Sees site v where
  params : ∀ name ∈ site.generics, v.params name = true

variable {site : Site} {place : Location} {v : Vocabulary}

theorem Sees.within (sees : site.Sees v) {generics : List String}
    (params : ∀ name ∈ generics, v.params name = true) :
    Within { site with generics := generics } v := ⟨⟨sees.grounded, sees.declared⟩, params⟩

theorem Sees.inside (sees : site.Sees v) {generics : List Generic}
    (params : ∀ g ∈ generics, v.params g.name = true) : (site.inside generics).Within v := by
  refine sees.within fun name member => ?_
  obtain ⟨g, inside, rfl⟩ := List.mem_map.mp member
  exact params g inside

/-! ### Types, traits and signatures -/

theorem resolve_over (within : site.Within v) {t u : Ty} (written : t.Over (.written v.selfTy))
    (read : (site.resolve place t).value = some u) : u.Over v :=
  ModuleScope.resolveTy_over within.grounded within.declared within.params written
    (value_ofExcept_eq_some.mp read)

theorem resolveTrait_over (within : site.Within v) {t u : TraitRef}
    (written : t.asTy.Over (.written v.selfTy))
    (read : (site.resolveTrait place t).value = some u) : u.asTy.Over v := by
  have resolved := value_ofExcept_eq_some.mp read
  have same : site.scope.resolveTy site.generics site.index t.asTy = .ok u.asTy := by
    have whole : site.scope.resolveTy site.generics site.index t.asTy =
        TraitRef.asTy <$> site.scope.resolveTraitRef site.generics site.index t := by
      unfold TraitRef.asTy
      rw [ModuleScope.resolveTy, ModuleScope.resolveTraitRef]
      cases site.scope.resolvePath t.path site.index with
      | error e => rfl
      | ok symbol =>
        simp only [Bind.bind, Except.bind]
        split
        · rfl
        · cases site.scope.resolveTys site.generics site.index t.args with
          | error e => rfl
          | ok args =>
            cases site.scope.resolveAssoc site.generics site.index t.assoc <;> rfl
    rw [whole, resolved]
    rfl
  exact ModuleScope.resolveTy_over within.grounded within.declared within.params written same

theorem ty_over (within : site.Within v) {text : String} {t : Ty}
    (written : Ty.AllOver (.written v.selfTy) (Ty.written text))
    (read : (site.ty place text).value = some t) : t.Over v := by
  obtain ⟨u, parsed, read⟩ := value_bind_eq_some.mp read
  have drawn := allOver_termsRead.mp written u (value_ofExcept_eq_some.mp parsed)
  exact resolve_over within (by simpa using drawn) read

theorem optTy_over (within : site.Within v) {text : Option String} {t : Option Ty}
    (written : Ty.AllOver (.written v.selfTy) (text.toList.flatMap Ty.written))
    (read : (site.optTy place text).value = some t) : ∀ u ∈ t, u.Over v := by
  cases text with
  | none =>
    cases read
    nofun
  | some text =>
    obtain ⟨u, found, rfl⟩ := value_map_eq_some.mp read
    rintro _ ⟨⟩
    exact ty_over within (by simpa using written) found

theorem traitRef_over (within : site.Within v) {text : String} {t : TraitRef}
    (written : Ty.AllOver (.written v.selfTy) (TraitRef.written text))
    (read : (site.traitRef place text).value = some t) : t.asTy.Over v := by
  obtain ⟨u, parsed, read⟩ := value_bind_eq_some.mp read
  have drawn := allOver_termsRead.mp written u (value_ofExcept_eq_some.mp parsed)
  exact resolveTrait_over within (by simpa using drawn) read

theorem optTraitRef_over (within : site.Within v) {text : Option String} {t : Option TraitRef}
    (written : Ty.AllOver (.written v.selfTy) (text.toList.flatMap TraitRef.written))
    (read : (site.optTraitRef place text).value = some t) : ∀ u ∈ t, u.asTy.Over v := by
  cases text with
  | none =>
    cases read
    nofun
  | some text =>
    obtain ⟨u, found, rfl⟩ := value_map_eq_some.mp read
    rintro _ ⟨⟩
    exact traitRef_over within (by simpa using written) found

theorem signature_over (within : site.Within v) {text : String} {sig : MethodSig}
    (written : Ty.AllOver (.written v.selfTy) (MethodSig.written text))
    (read : (site.signature place text).value = some sig) : Ty.AllOver v sig.terms := by
  obtain ⟨parsed, parses, read⟩ := value_bind_eq_some.mp read
  obtain ⟨params, readParams, read⟩ := value_bind_eq_some.mp read
  obtain ⟨ret, readRet, read⟩ := value_bind_eq_some.mp read
  cases read
  have drawn := allOver_termsRead.mp written parsed (value_ofExcept_eq_some.mp parses)
  simp only [MethodSig.terms, Ty.allOver_append, Ty.allOver_map, Ty.allOver_cons,
    Ty.allOver_nil, and_true] at drawn ⊢
  refine ⟨fun p member => ?_, resolve_over within drawn.2 readRet⟩
  obtain ⟨q, inside, one⟩ := exists_of_mem_mapM readParams member
  obtain ⟨t, found, same⟩ := value_bind_eq_some.mp one
  cases same
  exact resolve_over within (drawn.1 q inside) found

/-! ### Bounds and generic parameters -/

theorem boundsOn_over (within : site.Within v) {t : Ty} {written : List WrittenBound}
    {bounds : List Bound} (drawn : t.Over v)
    (traits : ∀ b ∈ written, b.traitRef.asTy.Over (.written v.selfTy))
    (read : (site.boundsOn place t written).value = some bounds) :
    Ty.AllOver v (bounds.flatMap Bound.terms) := by
  refine Ty.allOver_flatMap.mpr fun b member => ?_
  obtain ⟨w, inside, one⟩ := exists_of_mem_mapM read member
  obtain ⟨u, found, same⟩ := value_bind_eq_some.mp one
  cases same
  simpa [Bound.terms] using ⟨drawn, resolveTrait_over within (traits w inside) found⟩

/-- The kind of a generic parameter. -/
def genericKind (site : Site) (place : Location) : Option Ty → Noted GenericKind
  | some t => .const <$> site.resolve place t
  | none => pure .type

/-- The default of a generic parameter. -/
def genericDefault (site : Site) (place : Location) : Option Ty → Noted (Option Ty)
  | some t => some <$> site.resolve place t
  | none => pure none

theorem generic_eq (site : Site) (place : Location) (written : WrittenGeneric) :
    site.generic place written = do
      let kind ← site.genericKind place written.constTy
      let default ← site.genericDefault place written.default
      let bounds ← site.boundsOn place (.param written.name) written.bounds
      return (⟨written.name, kind, default⟩, bounds) := by
  unfold generic
  cases written.constTy <;> cases written.default <;> rfl

theorem generic_over (within : site.Within v) {written : WrittenGeneric}
    {read : Generic × List Bound} (params : v.params written.name = true)
    (drawn : Ty.AllOver (.written v.selfTy) (written.constTy.toList ++
      written.bounds.map (·.traitRef.asTy) ++ written.default.toList))
    (found : (site.generic place written).value = some read) :
    Ty.AllOver v read.1.terms ∧ Ty.AllOver v (read.2.flatMap Bound.terms) := by
  simp only [Ty.allOver_append, Ty.allOver_toList, Ty.allOver_map] at drawn
  obtain ⟨⟨constTy, bounds⟩, default⟩ := drawn
  rw [generic_eq] at found
  obtain ⟨kind, readKind, found⟩ := value_bind_eq_some.mp found
  obtain ⟨default?, readDefault, found⟩ := value_bind_eq_some.mp found
  obtain ⟨bs, readBounds, found⟩ := value_bind_eq_some.mp found
  cases found
  have kinds : Ty.AllOver v (Generic.terms ⟨written.name, kind, none⟩) := by
    cases given : written.constTy with
    | none =>
      rw [given] at readKind
      cases readKind
      simp [Generic.terms]
    | some t =>
      rw [given] at readKind
      obtain ⟨u, resolved, rfl⟩ := value_map_eq_some.mp readKind
      simpa [Generic.terms] using resolve_over within (constTy t given) resolved
  have defaults : Ty.AllOver v default?.toList := by
    cases given : written.default with
    | none =>
      rw [given] at readDefault
      cases readDefault
      simp
    | some t =>
      rw [given] at readDefault
      obtain ⟨u, resolved, rfl⟩ := value_map_eq_some.mp readDefault
      simpa using resolve_over within (default t given) resolved
  refine ⟨?_, boundsOn_over within (Ty.over_param.mpr params) bounds readBounds⟩
  exact Ty.allOver_append.mpr ⟨(Ty.allOver_append.mp kinds).1, defaults⟩

theorem generic_name {written : WrittenGeneric} {read : Generic × List Bound}
    (found : (site.generic place written).value = some read) : read.1.name = written.name := by
  rw [generic_eq] at found
  obtain ⟨kind, -, found⟩ := value_bind_eq_some.mp found
  obtain ⟨default?, -, found⟩ := value_bind_eq_some.mp found
  obtain ⟨bs, -, found⟩ := value_bind_eq_some.mp found
  cases found
  rfl

theorem genericParams_over (sees : site.Sees v) {written : List String}
    {read : List Generic × List Bound} (params : ∀ g ∈ read.1, v.params g.name = true)
    (drawn : Ty.AllOver (.written v.selfTy) (written.flatMap Generic.written))
    (found : (site.genericParams place written).value = some read) :
    Ty.AllOver v (read.1.flatMap Generic.terms) ∧ Ty.AllOver v (read.2.flatMap Bound.terms) := by
  unfold genericParams at found
  obtain ⟨parsed, readTexts, found⟩ := value_bind_eq_some.mp found
  dsimp only at found
  split at found
  · cases found
  · obtain ⟨all, readAll, found⟩ := value_bind_eq_some.mp found
    cases found
    have names : all.map (·.1.name) = parsed.map (·.name) := by
      rw [map_eq_of_mapM readAll (g := (·.1.name)) fun x y one => generic_name one,
        ← List.zipIdx_map_fst 0 parsed, List.map_map, List.zipIdx_map_fst]
      rfl
    have inner : Within { site with generics := parsed.map (·.name) } v := by
      refine sees.within fun name member => ?_
      rw [← names] at member
      obtain ⟨r, inside, rfl⟩ := List.mem_map.mp member
      exact params r.1 (List.mem_map_of_mem inside)
    have each (r : Generic × List Bound) (member : r ∈ all) :
        Ty.AllOver v r.1.terms ∧ Ty.AllOver v (r.2.flatMap Bound.terms) := by
      obtain ⟨⟨g, i⟩, inside, one⟩ := exists_of_mem_mapM readAll member
      have among : g ∈ parsed := List.fst_mem_of_mem_zipIdx inside
      obtain ⟨⟨text, j⟩, written, parses⟩ := exists_of_mem_mapM readTexts among
      have known := Ty.allOver_flatMap.mp drawn text (List.fst_mem_of_mem_zipIdx written)
      refine generic_over inner ?_
        (allOver_termsRead.mp known g (value_ofExcept_eq_some.mp parses)) one
      exact inner.params _ (List.mem_map_of_mem among)
    simp only [Ty.allOver_flatMap, List.forall_mem_map, List.mem_flatMap, forall_exists_index,
      and_imp] at each ⊢
    exact ⟨fun r member => (each r member).1, fun b r member inside => (each r member).2 b inside⟩

theorem plainGenerics_over (sees : site.Sees v) {written : List String}
    {generics : List Generic} (params : ∀ g ∈ generics, v.params g.name = true)
    (drawn : Ty.AllOver (.written v.selfTy) (written.flatMap Generic.written))
    (found : (site.plainGenerics place written).value = some generics) :
    Ty.AllOver v (generics.flatMap Generic.terms) := by
  obtain ⟨read, readAll, found⟩ := value_bind_eq_some.mp found
  dsimp only at found
  split at found
  · cases found
    exact (genericParams_over sees params drawn readAll).1
  · cases found

theorem whereBounds_over (within : site.Within v) {written : List String} {bounds : List Bound}
    (drawn : Ty.AllOver (.written v.selfTy) (written.flatMap Bound.written))
    (found : (site.whereBounds place written).value = some bounds) :
    Ty.AllOver v (bounds.flatMap Bound.terms) := by
  obtain ⟨read, readAll, found⟩ := value_bind_eq_some.mp found
  cases found
  refine Ty.allOver_flatMap.mpr fun b member => ?_
  obtain ⟨bs, inside, among⟩ := List.mem_flatten.mp member
  obtain ⟨⟨text, i⟩, written, one⟩ := exists_of_mem_mapM readAll inside
  obtain ⟨⟨t, traits⟩, parses, one⟩ := value_bind_eq_some.mp one
  obtain ⟨u, resolved, one⟩ := value_bind_eq_some.mp one
  have known := allOver_termsRead.mp
    (Ty.allOver_flatMap.mp drawn text (List.fst_mem_of_mem_zipIdx written)) _
    (value_ofExcept_eq_some.mp parses)
  simp only [Ty.allOver_cons, Ty.allOver_map] at known
  have all := boundsOn_over within (resolve_over within known.1 resolved) known.2 one
  exact Ty.allOver_flatMap.mp all b among

/-! ### Impls -/

/-- The methods of an impl are read one by one, and no two of them have one name. -/
theorem implMethods_reads {ofTrait : Bool} {seen : List String} {entries : List (String × String)}
    {methods : List ImplMethod}
    (found : (site.implMethods place ofTrait seen entries).value = some methods) :
    List.Forall₂ (fun e m =>
        (site.implSignature (place.child e.1) ofTrait e.1).value = some m.sig) entries methods ∧
      (methods.map (·.sig.name)).Nodup ∧ ∀ m ∈ methods, m.sig.name ∉ seen := by
  induction entries generalizing seen methods with
  | nil =>
    cases found
    exact ⟨.nil, .nil, nofun⟩
  | cons e rest ih =>
    obtain ⟨body, -, found⟩ := value_bind_eq_some.mp found
    obtain ⟨sig, readSig, found⟩ := value_bind_eq_some.mp found
    split at found
    · cases found
    · rename_i unseen
      obtain ⟨others, there, found⟩ := value_bind_eq_some.mp found
      cases found
      obtain ⟨each, once, apart⟩ := ih there
      refine ⟨.cons readSig each, List.nodup_cons.mpr ⟨?_, once⟩, List.forall_mem_cons.mpr
        ⟨fun again => unseen (List.contains_iff_mem.mpr again), fun m inside again => ?_⟩⟩
      · rintro again
        obtain ⟨m, inside, same⟩ := List.mem_map.mp again
        exact apart m inside (same ▸ List.mem_cons_self)
      · exact apart m inside (List.mem_cons_of_mem _ again)

/-- The methods of an impl are written by their signatures, or by their names alone. -/
theorem sig_of_mem_implMethods {ofTrait : Bool} {seen : List String}
    {entries : List (String × String)} {methods : List ImplMethod} {m : ImplMethod}
    (found : (site.implMethods place ofTrait seen entries).value = some methods)
    (member : m ∈ methods) :
    ∃ e ∈ entries, (∃ place, (site.signature place e.1).value = some m.sig) ∨
      m.sig = nameOnly e.1 := by
  obtain ⟨e, among, readSig⟩ := exists_of_forall₂ (implMethods_reads found).1 member
  refine ⟨e, among, ?_⟩
  unfold implSignature at readSig
  split at readSig
  · exact Or.inl ⟨_, readSig⟩
  · split at readSig
    · exact Or.inr (Option.some.inj readSig).symm
    · cases readSig

/-- What an impl is read from. -/
structure ReadsImpl (site : Site) (place : Location) (e : ImplEntry) (p : PendingImpl) : Prop where
  generics : ∃ inline bounds, p.decl.bounds = inline ++ bounds ∧
    (site.genericParams (place.child "generics") e.generics).value =
      some (p.decl.generics, inline) ∧
    ((site.inside p.decl.generics).whereBounds (place.child "where") e.bounds).value = some bounds
  target : ((site.inside p.decl.generics).ty (place.child "for") e.target).value =
    some p.decl.target
  traitRef : ((site.inside p.decl.generics).optTraitRef (place.child "trait") e.traitRef).value =
    some p.decl.traitRef
  assoc : (e.assoc.mapM fun (name, t) => do
    return (name, ← (site.inside p.decl.generics).ty
      ((place.child "assoc").child name) t) : Noted (List (String × Ty))).value =
    some p.decl.assoc
  methods : ((site.inside p.decl.generics).implMethods (place.child "methods")
    p.decl.traitRef.isSome [] e.methods).value = some p.decl.methods
  module : p.decl.module = site.module
  origin : p.decl.origin = .declared
  unsigned : p.unsigned = (e.methods.map (·.1)).filter fun key => !isSignature key

theorem implDecl_reads {e : ImplEntry} {p : PendingImpl}
    (found : (site.implDecl place e).value = some p) : site.ReadsImpl place e p := by
  obtain ⟨⟨generics, inline⟩, readGenerics, found⟩ := value_bind_eq_some.mp found
  obtain ⟨target, readTarget, found⟩ := value_bind_eq_some.mp found
  obtain ⟨traitRef, readTrait, found⟩ := value_bind_eq_some.mp found
  obtain ⟨bounds, readBounds, found⟩ := value_bind_eq_some.mp found
  split at found
  · cases found
  · obtain ⟨assoc, readAssoc, found⟩ := value_bind_eq_some.mp found
    obtain ⟨methods, readMethods, found⟩ := value_bind_eq_some.mp found
    cases found
    exact ⟨⟨inline, bounds, rfl, readGenerics, readBounds⟩, readTarget, readTrait, readAssoc,
      readMethods, rfl, rfl, rfl⟩

/-- An impl mentions in its target, its trait, its associated types and its bounds what its text
does. -/
theorem ReadsImpl.heads_over {e : ImplEntry} {p : PendingImpl} (reads : site.ReadsImpl place e p)
    (sees : site.Sees v) (params : ∀ g ∈ p.decl.generics, v.params g.name = true)
    (drawn : Ty.AllOver (.written v.selfTy) e.heads) : Ty.AllOver v p.decl.heads := by
  simp only [ImplEntry.heads, Ty.allOver_append] at drawn
  obtain ⟨⟨⟨⟨generics, target⟩, traitRef⟩, assoc⟩, bounds⟩ := drawn
  have inner := sees.inside params
  obtain ⟨inline, wheres, all, readGenerics, readBounds⟩ := reads.generics
  simp only [ImplDecl.heads, all, Ty.allOver_append, Ty.allOver_cons, Ty.allOver_map,
    Ty.allOver_toList, List.flatMap_append]
  refine ⟨⟨⟨ty_over inner target reads.target, fun t member => ?_⟩, fun a member => ?_⟩,
    (genericParams_over sees params generics readGenerics).2,
    whereBounds_over inner bounds readBounds⟩
  · obtain ⟨u, inside, rfl⟩ := Option.map_eq_some_iff.mp member
    exact optTraitRef_over inner traitRef reads.traitRef u inside
  · obtain ⟨b, inside, one⟩ := exists_of_mem_mapM reads.assoc member
    obtain ⟨t, found, same⟩ := value_bind_eq_some.mp one
    cases same
    exact ty_over inner (Ty.allOver_flatMap.mp assoc b inside) found

theorem ReadsImpl.methods_over {e : ImplEntry} {p : PendingImpl} (reads : site.ReadsImpl place e p)
    (sees : site.Sees v) (params : ∀ g ∈ p.decl.generics, v.params g.name = true)
    (selfTy : v.selfTy = true) : Ty.AllOver v (p.decl.methods.flatMap (·.sig.terms)) := by
  have inner := sees.inside params
  refine Ty.allOver_flatMap.mpr fun m member => ?_
  obtain ⟨e, -, ⟨_, found⟩ | same⟩ := sig_of_mem_implMethods reads.methods member
  · exact signature_over inner (selfTy ▸ MethodSig.allOver_written e.1) found
  · rw [same]
    simpa [MethodSig.terms, nameOnly] using Ty.over_unit

/-! ### Extensions -/

/-- The methods of an extension have its target in the place of `Self`. -/
theorem sig_of_mem_extensionMethods {target : Ty} {seen : List String}
    {entries : List (String × String)} {methods : List ImplMethod} {m : ImplMethod}
    (found : (site.extensionMethods place target seen entries).value = some methods)
    (member : m ∈ methods) :
    ∃ place text sig, (site.signature place text).value = some sig ∧
      m.sig = closeSig target sig := by
  induction entries generalizing seen methods with
  | nil =>
    cases found
    cases member
  | cons e rest ih =>
    unfold extensionMethods at found
    dsimp only at found
    split at found
    · cases found
    · obtain ⟨body, -, found⟩ := value_bind_eq_some.mp found
      obtain ⟨sig, readSig, found⟩ := value_bind_eq_some.mp found
      split at found
      · cases found
      · obtain ⟨others, there, found⟩ := value_bind_eq_some.mp found
        cases found
        rcases List.mem_cons.mp member with rfl | inside
        · exact ⟨_, _, sig, readSig, rfl⟩
        · exact ih there inside

/-- A signature with a type in the place of `Self`. -/
theorem closeSig_over {w : Vocabulary} {self : Ty} {sig : MethodSig}
    (drawn : Ty.AllOver v sig.terms)
    (put : self.Over w) (left : ∀ t, v.admits t = true → t ≠ .selfTy → w.admits t = true) :
    Ty.AllOver w (closeSig self sig).terms := by
  rw [closeSig, MethodSig.terms_replace, Ty.allOver_map]
  exact fun t member => (drawn t member).withSelf put left

/-! ### Whole declarations -/

/-- All declared types and traits, the parameters of a declaration, and `Self`. -/
def known (index : SymbolIndex) (generics : List Generic) : Vocabulary :=
  ⟨fun path => index.symbols.get? path = some .type,
    fun path => index.symbols.get? path = some .trait, (Generic.names generics).contains, true⟩

theorem params_known {index : SymbolIndex} {generics : List Generic} :
    ∀ g ∈ generics, (known index generics).params g.name = true := fun _ member =>
  List.contains_iff_mem.mpr (List.mem_map_of_mem member)

variable {name : String} (grounded : site.scope.Grounded site.index)

include grounded

theorem sees_known (generics : List Generic) : site.Sees (known site.index generics) :=
  ⟨grounded, fun _ found => decide_eq_true found, fun _ found => decide_eq_true found⟩

/-- In a grounded scope nothing is mentioned but what is declared and the parameters around. -/
theorem within_known (generics : List Generic) :
    (site.inside generics).Within (known site.index generics) :=
  (sees_known grounded generics).inside params_known

theorem ty_known {generics : List Generic} {text : String} {t : Ty}
    (found : ((site.inside generics).ty place text).value = some t) :
    t.Over (known site.index generics) :=
  ty_over (within_known grounded generics) (Ty.allOver_written text) found

theorem optTy_known {generics : List Generic} {text : Option String} {t : Option Ty}
    (found : ((site.inside generics).optTy place text).value = some t) :
    Ty.AllOver (known site.index generics) t.toList :=
  Ty.allOver_toList.mpr (optTy_over (within_known grounded generics)
    (Ty.allOver_flatMap.mpr fun text _ => Ty.allOver_written text) found)

theorem plainGenerics_known {written : List String} {generics : List Generic}
    (found : (site.plainGenerics place written).value = some generics) :
    Ty.AllOver (known site.index generics) (generics.flatMap Generic.terms) :=
  plainGenerics_over (sees_known grounded generics) params_known
    (Ty.allOver_flatMap.mpr fun text _ => Generic.allOver_written text) found

theorem genericParams_known {written : List String} {generics : List Generic} {inline : List Bound}
    (found : (site.genericParams place written).value = some (generics, inline)) :
    Ty.AllOver (known site.index generics) (generics.flatMap Generic.terms) ∧
      Ty.AllOver (known site.index generics) (inline.flatMap Bound.terms) :=
  genericParams_over (sees_known grounded generics) params_known
    (Ty.allOver_flatMap.mpr fun text _ => Generic.allOver_written text) found

theorem signature_known {generics : List Generic} {text : String} {sig : MethodSig}
    (found : ((site.inside generics).signature place text).value = some sig) :
    Ty.AllOver (known site.index generics) sig.terms :=
  signature_over (within_known grounded generics) (MethodSig.allOver_written text) found

theorem typeKind_known {generics : List Generic} {e : TypeEntry} {kind : TypeKind}
    (found : ((site.inside generics).typeKind place e).value = some kind) :
    Ty.AllOver (known site.index generics) kind.terms := by
  unfold typeKind at found
  split at found
  · obtain ⟨fields, readFields, found⟩ := value_bind_eq_some.mp found
    cases found
    refine Ty.allOver_map.mpr fun f member => ?_
    obtain ⟨⟨name, entry⟩, -, one⟩ := exists_of_mem_mapM readFields member
    obtain ⟨t, read, same⟩ := value_bind_eq_some.mp one
    cases same
    exact ty_known grounded read
  · split at found
    · split at found <;> cases found
      exact Ty.allOver_nil
    · split at found
      · obtain ⟨t, read, same⟩ := value_bind_eq_some.mp found
        cases same
        simpa [TypeKind.terms] using ty_known grounded read
      · obtain ⟨t, read, same⟩ := value_bind_eq_some.mp found
        cases same
        simpa [TypeKind.terms] using ty_known grounded read
      · cases found
        exact Ty.allOver_nil

theorem typeDecl_known {e : TypeEntry} {d : TypeDecl}
    (found : (site.typeDecl place name e).value = some d) :
    Ty.AllOver (known site.index d.generics) d.terms := by
  obtain ⟨generics, readGenerics, found⟩ := value_bind_eq_some.mp found
  split at found
  · cases found
  · obtain ⟨kind, readKind, found⟩ := value_bind_eq_some.mp found
    cases found
    exact Ty.allOver_append.mpr
      ⟨plainGenerics_known grounded readGenerics, typeKind_known grounded readKind⟩

theorem traitMethods_known {generics : List Generic} {trait : String} {seen : List String} {i : Nat}
    {entries : List MethodEntry} {methods : List TraitMethod}
    (found : ((site.inside generics).traitMethods place trait seen i entries).value =
      some methods) : Ty.AllOver (known site.index generics) (methods.flatMap (·.sig.terms)) := by
  induction entries generalizing seen i methods with
  | nil =>
    cases found
    exact Ty.allOver_nil
  | cons e rest ih =>
    obtain ⟨sig, readSig, found⟩ := value_bind_eq_some.mp found
    split at found
    · cases found
    · obtain ⟨default, -, found⟩ := value_bind_eq_some.mp found
      obtain ⟨others, there, found⟩ := value_bind_eq_some.mp found
      cases found
      rw [List.flatMap_cons, Ty.allOver_append]
      exact ⟨signature_known grounded readSig, ih there⟩

/-- The specialization of a trait. -/
def optSpecialization (site : Site) (place : Location) :
    Option SpecializationEntry → Noted (Option Specialization)
  | some s => some <$> site.specialization place s
  | none => pure none

omit grounded in
theorem traitDecl_eq (site : Site) (place : Location) (name : String) (e : TraitEntry) :
    site.traitDecl place name e = do
      let generics ← site.plainGenerics (place.child "generics") e.generics
      let assoc ← e.assoc.mapM fun (name, bound) => do
        return AssocDecl.mk name (← (site.inside generics).optTraitRef
          ((place.child "assoc").child name) bound)
      let methods ← (site.inside generics).traitMethods (place.child "methods") name [] 0 e.methods
      let specialization ← (site.inside generics).optSpecialization
        (place.child "specialization") e.specialization
      return ⟨Path.child site.module name, name, site.module, generics, assoc, methods,
        specialization, e.explain⟩ := by
  unfold traitDecl
  cases e.specialization <;> rfl

theorem traitDecl_known {e : TraitEntry} {d : TraitDecl}
    (found : (site.traitDecl place name e).value = some d) :
    Ty.AllOver (known site.index d.generics) d.terms := by
  rw [traitDecl_eq] at found
  obtain ⟨generics, readGenerics, found⟩ := value_bind_eq_some.mp found
  obtain ⟨assoc, readAssoc, found⟩ := value_bind_eq_some.mp found
  obtain ⟨methods, readMethods, found⟩ := value_bind_eq_some.mp found
  obtain ⟨specialization, readTarget, found⟩ := value_bind_eq_some.mp found
  cases found
  simp only [TraitDecl.terms, Ty.allOver_append]
  refine ⟨⟨⟨plainGenerics_known grounded readGenerics, ?_⟩,
    traitMethods_known grounded readMethods⟩, ?_⟩
  · refine Ty.allOver_flatMap.mpr fun a member => ?_
    obtain ⟨⟨name, bound⟩, -, one⟩ := exists_of_mem_mapM readAssoc member
    obtain ⟨t, read, same⟩ := value_bind_eq_some.mp one
    cases same
    have drawn := optTraitRef_over (within_known grounded generics)
      (Ty.allOver_flatMap.mpr fun text _ => TraitRef.allOver_written text) read
    simpa using drawn
  · cases given : e.specialization with
    | none =>
      rw [given] at readTarget
      cases readTarget
      exact Ty.allOver_nil
    | some s =>
      rw [given] at readTarget
      obtain ⟨special, read, rfl⟩ := value_map_eq_some.mp readTarget
      obtain ⟨target, readRef, read⟩ := value_bind_eq_some.mp read
      obtain ⟨defaults, -, read⟩ := value_bind_eq_some.mp read
      cases read
      have drawn := traitRef_over (within_known grounded generics)
        (TraitRef.allOver_written s.target) readRef
      simpa using drawn

omit grounded in
/-- Whatever an impl writes, it writes no parameters but those of its own. -/
theorem allOver_heads (e : ImplEntry) : Ty.AllOver (.written true) e.heads := by
  simp only [ImplEntry.heads, Ty.allOver_append, Ty.allOver_flatMap]
  exact ⟨⟨⟨⟨fun text _ => Generic.allOver_written text, Ty.allOver_written _⟩,
    fun text _ => TraitRef.allOver_written text⟩, fun a _ => Ty.allOver_written _⟩,
    fun text _ => Bound.allOver_written text⟩

theorem implDecl_known {e : ImplEntry} {p : PendingImpl}
    (found : (site.implDecl place e).value = some p) :
    Ty.AllOver (known site.index p.decl.generics) p.decl.terms := by
  have reads := implDecl_reads found
  have sees := sees_known grounded p.decl.generics
  obtain ⟨inline, bounds, -, readGenerics, -⟩ := reads.generics
  simp only [ImplDecl.terms, Ty.allOver_append]
  exact ⟨⟨(genericParams_known grounded readGenerics).1,
    reads.heads_over sees params_known (allOver_heads e)⟩, reads.methods_over sees params_known rfl⟩

theorem extensionDecl_known {e : ExtensionEntry} {d : ExtensionDecl}
    (found : (site.extensionDecl place name e).value = some d) :
    Ty.AllOver (known site.index d.generics) d.terms := by
  obtain ⟨⟨generics, inline⟩, readGenerics, found⟩ := value_bind_eq_some.mp found
  obtain ⟨target, readTarget, found⟩ := value_bind_eq_some.mp found
  obtain ⟨bounds, readBounds, found⟩ := value_bind_eq_some.mp found
  obtain ⟨methods, readMethods, found⟩ := value_bind_eq_some.mp found
  cases found
  have params := genericParams_known grounded readGenerics
  have target : target.Over (known site.index generics) := ty_known grounded readTarget
  simp only [ExtensionDecl.terms, Ty.allOver_append, Ty.allOver_cons, List.flatMap_append]
  refine ⟨⟨params.1, target, params.2, ?_⟩, Ty.allOver_flatMap.mpr fun m member => ?_⟩
  · exact whereBounds_over (within_known grounded generics)
      (Ty.allOver_flatMap.mpr fun text _ => Bound.allOver_written text) readBounds
  · obtain ⟨_, text, sig, read, same⟩ := sig_of_mem_extensionMethods readMethods member
    rw [same]
    exact closeSig_over (signature_known grounded read) target fun _ admitted _ => admitted

/-- What is known of the types of a component. -/
structure KnownComponent (index : SymbolIndex) (c : ComponentDecl) : Prop where
  decl : Ty.AllOver (known index c.decl.generics) c.decl.terms
  schema : Ty.AllOver (known index c.decl.generics) c.schema.terms
  input : Ty.AllOver (known index c.decl.generics) c.ports.input.toList
  output : Ty.AllOver (known index c.decl.generics) c.ports.output.toList
  item : Ty.AllOver (known index c.decl.generics) c.ports.item.toList

theorem component_known {d : Document} {kind : ComponentKind} {c : ComponentDecl}
    (found : (site.component d kind).value = some c) : KnownComponent site.index c := by
  obtain ⟨generics, readGenerics, found⟩ := value_bind_eq_some.mp found
  obtain ⟨input, readInput, found⟩ := value_bind_eq_some.mp found
  obtain ⟨output, readOutput, found⟩ := value_bind_eq_some.mp found
  obtain ⟨item, readItem, found⟩ := value_bind_eq_some.mp found
  obtain ⟨columns, readColumns, found⟩ := value_bind_eq_some.mp found
  obtain ⟨columnChecks, -, found⟩ := value_bind_eq_some.mp found
  obtain ⟨params, readParams, found⟩ := value_bind_eq_some.mp found
  obtain ⟨checks, -, found⟩ := value_bind_eq_some.mp found
  cases found
  have names := plainGenerics_known grounded readGenerics
  have shape : Ty.AllOver (known site.index generics)
      (componentShape kind item (columns.map (·.1))).terms := by
    unfold componentShape
    split
    · refine Ty.allOver_map.mpr (List.forall_mem_map.mpr fun c member => ?_)
      obtain ⟨⟨name, e⟩, -, one⟩ := exists_of_mem_mapM readColumns member
      obtain ⟨t, read, one⟩ := value_bind_eq_some.mp one
      obtain ⟨checks, -, same⟩ := value_bind_eq_some.mp one
      cases same
      exact ty_known grounded read
    · exact Ty.allOver_nil
  have types : Ty.AllOver (known site.index generics) (params.map (·.ty)) := by
    refine Ty.allOver_map.mpr fun p member => ?_
    obtain ⟨⟨name, e⟩, -, one⟩ := exists_of_mem_mapM readParams member
    obtain ⟨t, read, one⟩ := value_bind_eq_some.mp one
    obtain ⟨default, -, one⟩ := value_bind_eq_some.mp one
    obtain ⟨checks, -, same⟩ := value_bind_eq_some.mp one
    cases same
    exact ty_known grounded read
  exact ⟨Ty.allOver_append.mpr ⟨names, shape⟩, Ty.allOver_append.mpr ⟨names, types⟩,
    optTy_known grounded readInput, optTy_known grounded readOutput, optTy_known grounded readItem⟩

end Pipeline.Site
