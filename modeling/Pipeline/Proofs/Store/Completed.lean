import Pipeline.Proofs.Decl.Terms
import Pipeline.Proofs.Fault.Noted
import Pipeline.Proofs.Store.Completion
import Pipeline.Proofs.Store.Reading

/-!
# What completed impls are

An impl of a trait that is completed without faults gives an argument for each parameter of the
trait and a type for each of its associated types, and its methods are methods of the trait. What
is put in from the trait is written with what the impl is written with.
-/

set_option autoImplicit false
set_option relaxedAutoImplicit false

namespace Pipeline

open Noted

/-! ### Arguments of traits -/

/-- The vocabulary with some parameters and `Self`, for which types of the vocabulary are put in. -/
def Vocabulary.extended (w : Vocabulary) (names : List String) : Vocabulary :=
  { w with params := fun name => w.params name || names.contains name, selfTy := true }

namespace Generic

variable {generics : List Generic} {args : List Ty} {name : String}

theorem mem_of_get?_assign {t : Ty} (found : (assign generics args).get? name = some t) :
    t ∈ args :=
  (List.of_mem_zip (NameMap.mem_of_get?_ofList found)).2

/-- Every parameter that has an argument is assigned one. -/
theorem not_mem_of_get?_assign (missing : (assign generics args).get? name = none) :
    name ∉ names (generics.take args.length) := by
  intro member
  obtain ⟨i, below, same⟩ := List.getElem_of_mem member
  simp only [names, List.length_map, List.length_take] at below
  have entry : (name, args[i]) ∈ (names generics).zip args := by
    rw [List.mem_iff_getElem]
    refine ⟨i, by simp [names]; omega, ?_⟩
    simp only [names, List.getElem_map, List.getElem_take] at same
    simp [names, same]
  have found := NameMap.get?_ofList_isSome entry
  rw [show NameMap.ofList _ = assign generics args from rfl, missing] at found
  cases found

end Generic

namespace TraitDecl

variable {d : TraitDecl} {self : Ty} {w : Vocabulary}

theorem length_appendDefaults (rest : List Generic) (given : List Ty) :
    (d.appendDefaults self rest given).length = given.length + rest.length := by
  induction rest generalizing given with
  | nil => simp [appendDefaults]
  | cons g rest ih =>
    rw [appendDefaults, ih, List.length_append, List.length_singleton, List.length_cons]
    omega

/-- There is an argument for each parameter, unless there are more than parameters. -/
theorem length_completeArgs {args : List Ty} (few : args.length ≤ d.generics.length) :
    (d.completeArgs self args).length = d.generics.length := by
  rw [completeArgs, length_appendDefaults, List.length_drop]
  omega

/-- The default of each parameter is written with the parameters before it, and with what is put
in. -/
def DefaultsOver (d : TraitDecl) (w : Vocabulary) : Prop :=
  ∀ (i : Nat) (g : Generic) (t : Ty), d.generics[i]? = some g → g.default = some t →
    t.Over (w.extended (Generic.names (d.generics.take i)))

private theorem appendDefaults_over (target : self.Over w) (defaults : d.DefaultsOver w)
    {given : List Ty} {before rest : List Generic} (all : d.generics = before ++ rest)
    (assigned : given.length = before.length) (drawn : Ty.AllOver w given) :
    Ty.AllOver w (d.appendDefaults self rest given) := by
  induction rest generalizing before given with
  | nil => exact drawn
  | cons g rest ih =>
    rw [appendDefaults]
    have behind : d.generics = (before ++ [g]) ++ rest := by simp [all]
    refine ih behind (by simp [assigned]) ?_
    rw [Ty.allOver_append, Ty.allOver_cons]
    refine ⟨drawn, ?_, Ty.allOver_nil⟩
    cases default : g.default with
    | none => exact Ty.over_infer
    | some t =>
      have written := defaults before.length g t (by simp [all]) default
      rw [all, List.take_left'  rfl] at written
      -- The target is put in first; what it mentions is left alone or becomes an argument.
      have between : (t.withSelf self).Over
          { w.extended (Generic.names before) with selfTy := w.selfTy } := by
        refine written.withSelf (target.mono fun part admitted => ?_) fun part admitted other => ?_
        · cases part <;> simp_all [Vocabulary.admits, Vocabulary.extended]
        · cases part <;> simp_all [Vocabulary.admits, Vocabulary.extended]
      refine between.substitute (fun name u found => drawn u (Generic.mem_of_get?_assign found))
        fun part admitted free => ?_
      cases part with
      | param name =>
        have outside := Generic.not_mem_of_get?_assign (free name rfl)
        rw [assigned, all, List.take_left' rfl] at outside
        simpa [Vocabulary.admits, Vocabulary.extended, outside] using admitted
      | _ => exact admitted

/-- Arguments that are left out are written with what the arguments given and the target are
written with. -/
theorem completeArgs_over {args : List Ty} (target : self.Over w) (defaults : d.DefaultsOver w)
    (few : args.length ≤ d.generics.length) (drawn : Ty.AllOver w args) :
    Ty.AllOver w (d.completeArgs self args) :=
  appendDefaults_over target defaults (List.take_append_drop args.length d.generics).symm
    (by simp [few]) drawn

end TraitDecl
/-! ### Signatures taken from the trait -/

namespace ImplDecl

variable {d : ImplDecl} {trait : TraitDecl} {w : Vocabulary}

theorem assoc?_over {name : String} {t : Ty} (assoc : Ty.AllOver w (d.assoc.map (·.2)))
    (found : d.assoc? name = some t) : t.Over w := by
  obtain ⟨a, inside, rfl⟩ := Option.map_eq_some_iff.mp found
  exact Ty.allOver_map.mp assoc a (List.mem_of_find?_eq_some inside)

/-- A signature taken from the trait is written with what the impl is written with. -/
theorem sigOfTrait_over {args : List Ty} {sig : MethodSig} (target : d.target.Over w)
    (assoc : Ty.AllOver w (d.assoc.map (·.2))) (drawn : Ty.AllOver w args)
    (all : trait.generics.length ≤ args.length)
    (written : Ty.AllOver (w.extended (Generic.names trait.generics)) sig.terms) :
    Ty.AllOver w (d.sigOfTrait (trait.substFor args) sig).terms := by
  rw [sigOfTrait, MethodSig.terms_replace, Ty.allOver_map]
  intro t member
  refine (written t member).replace (fun part u _ found => ?_) fun part admitted kept => ?_
  · split at found
    · exact assoc?_over assoc found
    · cases found
      exact target
    · exact drawn u (Generic.mem_of_get?_assign found)
    · cases found
  · cases part with
    | param name =>
      have outside := Generic.not_mem_of_get?_assign kept
      rw [List.take_of_length_le all] at outside
      simpa [Vocabulary.admits, Vocabulary.extended, outside] using admitted
    | selfTy => cases kept
    | _ => exact admitted

/-! ### Completed methods -/

/-- What a method of the trait becomes in an impl, written by its name alone or by its signature. -/
theorem completeMethod_eq_pure {unsigned : List String} {place : Location} {m m' : ImplMethod}
    (clean : d.completeMethod trait unsigned place m = pure m') :
    ∃ declared, trait.method? m.sig.name = some declared ∧ m'.body = m.body ∧
      (unsigned.contains m.sig.name = true ∧
          m'.sig = d.sigOfTrait (trait.substFor d.traitArgs) declared.sig ∨
        unsigned.contains m.sig.name = false ∧ fits m.sig declared.sig = true ∧
          m'.sig = Site.closeSig d.target m.sig) := by
  unfold completeMethod at clean
  dsimp only at clean
  split at clean
  · obtain ⟨_, noted, -⟩ := bind_eq_pure.mp clean
    cases congrArg Noted.faults noted
  · rename_i declared found
    split at clean
    · rename_i bare
      cases congrArg Noted.value clean
      exact ⟨declared, found, rfl, Or.inl ⟨bare, rfl⟩⟩
    · rename_i whole
      split at clean
      · obtain ⟨_, noted, -⟩ := bind_eq_pure.mp clean
        cases congrArg Noted.faults noted
      · rename_i agree
        cases congrArg Noted.value clean
        exact ⟨declared, found, rfl, Or.inr ⟨eq_false_of_ne_true whole, by simpa using agree, rfl⟩⟩

theorem fits_sigOfTrait (subst : Subst) (sig : MethodSig) :
    fits (d.sigOfTrait subst sig) sig = true := by
  simp [fits, sigOfTrait, MethodSig.replace]

theorem name_of_completeMethod {unsigned : List String} {place : Location} {m m' : ImplMethod}
    (clean : d.completeMethod trait unsigned place m = pure m') : m'.sig.name = m.sig.name := by
  obtain ⟨declared, found, -, ⟨-, same⟩ | ⟨-, -, same⟩⟩ := completeMethod_eq_pure clean
  · have named := List.find?_some (p := fun x : TraitMethod => x.sig.name == m.sig.name) found
    rw [same]
    exact eq_of_beq named
  · rw [same]
    rfl

/-! ### Agreement with the trait -/

/-- What is asked of an impl of a trait. -/
structure Implements (d : ImplDecl) (trait : TraitDecl) : Prop where
  /-- There is an argument for each parameter of the trait. -/
  args : d.traitArgs.length = trait.generics.length
  /-- The associated types are those of the trait. -/
  assoc : ∀ name, name ∈ d.assoc.map (·.1) ↔ name ∈ trait.assoc.map (·.name)
  /-- Each associated type is given once. -/
  once : (d.assoc.map (·.1)).Nodup
  /-- The methods are methods of the trait, with as many parameters as declared and with `self`
  where it is declared. -/
  methods : ∀ m ∈ d.methods, ∃ declared, trait.method? m.sig.name = some declared ∧
    fits m.sig declared.sig = true
  /-- There is each method that the trait gives no body and that is not implemented outside. -/
  required : ∀ m ∈ trait.methods, m.default.isNone = true → m.sig.tag ≠ .external →
    (d.method? m.sig.name).isSome = true

end ImplDecl

namespace PendingImpl

variable {p : PendingImpl} {types : NameMap TypeDecl} {written : TraitRef} {trait : TraitDecl}
  {d : ImplDecl} {w : Vocabulary}

/-- The impl with the arguments of its trait and with its associated types, before its methods are
completed. -/
def headed (p : PendingImpl) (written : TraitRef) (trait : TraitDecl) : ImplDecl :=
  { p.decl with
    assoc := written.assoc.foldl addAssoc p.decl.assoc
    traitRef := some (.plain written.path (trait.completeArgs p.decl.target written.args)) }

/-- What an impl of a trait is completed to. -/
structure CompletesFor (p : PendingImpl) (written : TraitRef) (trait : TraitDecl) (d : ImplDecl) :
    Prop where
  few : written.args.length ≤ trait.generics.length
  assoc : (p.headed written trait).assocFaults trait p.place = []
  missing : (p.headed written trait).missingMethods trait p.place = []
  methods : List.Forall₂ (fun m m' =>
    (p.headed written trait).completeMethod trait p.unsigned p.place m = pure m')
    p.decl.methods d.methods
  result : d = { p.headed written trait with methods := d.methods }

theorem completeFor_eq_pure (clean : p.completeFor types written trait = pure d) :
    p.CompletesFor written trait d := by
  unfold completeFor at clean
  dsimp only at clean
  split at clean
  · cases congrArg Noted.faults clean
  · rename_i few
    split at clean
    · cases congrArg Noted.faults clean
    · obtain ⟨_, assoc, clean⟩ := bind_eq_pure.mp clean
      obtain ⟨methods, completed, clean⟩ := bind_eq_pure.mp clean
      obtain ⟨_, missing, clean⟩ := bind_eq_pure.mp clean
      have result : d = { p.headed written trait with methods := methods } := by
        split at clean
        · obtain ⟨_, -, clean⟩ := bind_eq_pure.mp clean
          cases congrArg Noted.value clean
          rfl
        · cases congrArg Noted.value clean
          rfl
      subst result
      exact ⟨by omega, note_eq_pure.mp assoc, note_eq_pure.mp missing, mapM_eq_pure.mp completed,
        rfl⟩

theorem CompletesFor.generics (completes : p.CompletesFor written trait d) :
    d.generics = p.decl.generics := by
  rw [completes.result]
  rfl

theorem CompletesFor.traitRef (completes : p.CompletesFor written trait d) : d.traitRef =
    some (.plain written.path (trait.completeArgs p.decl.target written.args)) := by
  rw [completes.result]
  rfl

theorem addAssoc_nodup {given : List (String × Ty)} (more : List (String × Ty))
    (once : (given.map (·.1)).Nodup) : ((more.foldl addAssoc given).map (·.1)).Nodup := by
  induction more generalizing given with
  | nil => exact once
  | cons a rest ih =>
    refine ih ?_
    unfold addAssoc
    split
    · exact once
    · rename_i fresh
      rw [List.map_append, List.nodup_append]
      refine ⟨once, List.nodup_singleton _, fun name member other single => ?_⟩
      rintro rfl
      obtain ⟨b, inside, rfl⟩ := List.mem_map.mp member
      exact fresh (List.any_eq_true.mpr ⟨b, inside, by simpa using single⟩)

theorem mem_addAssoc {given more : List (String × Ty)} {a : String × Ty}
    (member : a ∈ more.foldl addAssoc given) : a ∈ given ∨ a ∈ more := by
  induction more generalizing given with
  | nil => exact Or.inl member
  | cons b rest ih =>
    rcases ih member with before | inside
    · unfold addAssoc at before
      split at before
      · exact Or.inl before
      · rcases List.mem_append.mp before with earlier | single
        · exact Or.inl earlier
        · exact Or.inr (List.mem_singleton.mp single ▸ List.mem_cons_self)
    · exact Or.inr (List.mem_cons_of_mem _ inside)

/-- The methods of an impl that is completed are methods of its trait. -/
theorem CompletesFor.declares (completes : p.CompletesFor written trait d) {m : ImplMethod}
    (member : m ∈ d.methods) : ∃ declared, trait.method? m.sig.name = some declared ∧
      ImplDecl.fits m.sig declared.sig = true := by
  obtain ⟨before, -, one⟩ := exists_of_forall₂ completes.methods member
  obtain ⟨declared, found, -, sig⟩ := ImplDecl.completeMethod_eq_pure one
  rw [ImplDecl.name_of_completeMethod one]
  refine ⟨declared, found, ?_⟩
  rcases sig with ⟨-, same⟩ | ⟨-, agree, same⟩
  · rw [same]
    exact ImplDecl.fits_sigOfTrait _ _
  · rw [same]
    simpa [ImplDecl.fits, Site.closeSig, MethodSig.replace] using agree

/-- An impl that is completed agrees with its trait, if it gives no associated type twice. -/
theorem CompletesFor.implements (completes : p.CompletesFor written trait d)
    (once : (p.decl.assoc.map (·.1)).Nodup) : d.Implements trait := by
  have args : d.traitArgs = trait.completeArgs p.decl.target written.args := by
    rw [ImplDecl.traitArgs, completes.traitRef]
    rfl
  have assoc : d.assoc = (p.headed written trait).assoc := by
    rw [completes.result]
  have names : d.methods.map (·.sig.name) = p.decl.methods.map (·.sig.name) :=
    map_eq_of_forall₂ completes.methods fun m m' one => ImplDecl.name_of_completeMethod one
  have faults := completes.assoc
  rw [ImplDecl.assocFaults, List.append_eq_nil_iff, List.map_eq_nil_iff, List.map_eq_nil_iff,
    List.filter_eq_nil_iff, List.filter_eq_nil_iff] at faults
  refine ⟨?_, fun name => ⟨fun member => ?_, fun member => ?_⟩, ?_, fun m member => ?_, ?_⟩
  · rw [args, TraitDecl.length_completeArgs completes.few]
  · obtain ⟨a, inside, rfl⟩ := List.mem_map.mp member
    rw [assoc] at inside
    simpa using faults.2 a inside
  · obtain ⟨a, inside, rfl⟩ := List.mem_map.mp member
    have given := faults.1 a inside
    simp only [ImplDecl.assoc?, Option.isNone_iff_eq_none, Option.map_eq_none_iff,
      List.find?_eq_none, not_forall, not_not] at given
    obtain ⟨b, inside, same⟩ := given
    rw [assoc]
    exact List.mem_map.mpr ⟨b, inside, by simpa using same⟩
  · rw [assoc]
    exact addAssoc_nodup written.assoc once
  · exact completes.declares member
  · intro m member default tag
    have given := completes.missing
    simp only [ImplDecl.missingMethods, List.map_eq_nil_iff, List.filter_eq_nil_iff,
      List.mem_filter, and_imp] at given
    have here := given m member (by simpa [default] using tag)
    obtain ⟨before, inside, same⟩ : ∃ before ∈ p.decl.methods, before.sig.name = m.sig.name := by
      simpa [ImplDecl.method?, headed] using here
    have among : m.sig.name ∈ d.methods.map (·.sig.name) :=
      names ▸ List.mem_map.mpr ⟨before, inside, same⟩
    obtain ⟨after, inside, same⟩ := List.mem_map.mp among
    exact List.find?_isSome.mpr ⟨after, inside, by simpa using same⟩

/-- What a trait puts into its impls is written with the vocabulary. -/
structure Puts (trait : TraitDecl) (w : Vocabulary) : Prop where
  defaults : trait.DefaultsOver w
  sigs : ∀ m ∈ trait.methods,
    Ty.AllOver (w.extended (Generic.names trait.generics)) m.sig.terms

/-- A signature with a type in the place of `Self` needs `Self` no longer. -/
private theorem closes {self : Ty} {sig : MethodSig}
    (drawn : Ty.AllOver { w with selfTy := true } sig.terms) (put : self.Over w) :
    Ty.AllOver w (Site.closeSig self sig).terms := by
  refine Site.closeSig_over drawn put fun part admitted other => ?_
  cases part with
  | selfTy => exact absurd rfl other
  | _ => exact admitted

/-- The methods of an impl with its target in the place of `Self`. -/
theorem closeMethods_over {d : ImplDecl} (target : d.target.Over w)
    (methods : Ty.AllOver { w with selfTy := true } (d.methods.flatMap (·.sig.terms))) :
    Ty.AllOver w (d.closeMethods.methods.flatMap (·.sig.terms)) := by
  refine Ty.allOver_flatMap.mpr (List.forall_mem_map.mpr fun m member => ?_)
  exact closes (Ty.allOver_flatMap.mp methods m member) target

/-- An impl that is completed is written with what it was written with, and with what its trait
puts in; `Self` is no longer needed in its methods. -/
theorem CompletesFor.over (completes : p.CompletesFor written trait d)
    (given : p.decl.traitRef = some written) (puts : Puts trait w)
    (heads : Ty.AllOver w p.decl.heads)
    (methods : Ty.AllOver { w with selfTy := true } (p.decl.methods.flatMap (·.sig.terms))) :
    Ty.AllOver w (d.heads ++ d.methods.flatMap (·.sig.terms)) := by
  simp only [ImplDecl.heads, given, Option.map_some, Option.toList_some, Ty.allOver_append,
    Ty.allOver_cons, Ty.allOver_nil, and_true, TraitRef.asTy, Ty.over_promise] at heads
  obtain ⟨⟨⟨target, path, args, constraints⟩, assoc⟩, bounds⟩ := heads
  have args' : Ty.AllOver w (trait.completeArgs p.decl.target written.args) :=
    TraitDecl.completeArgs_over target puts.defaults completes.few args
  have assoc' : Ty.AllOver w ((p.headed written trait).assoc.map (·.2)) := by
    refine Ty.allOver_map.mpr fun a member => ?_
    rcases mem_addAssoc member with own | constraint
    · exact Ty.allOver_map.mp assoc a own
    · exact constraints a constraint
  rw [completes.result]
  simp only [ImplDecl.heads, headed, Option.map_some, Option.toList_some, Ty.allOver_append,
    Ty.allOver_cons, Ty.allOver_nil, and_true, TraitRef.asTy, TraitRef.plain, Ty.over_promise]
  refine ⟨⟨⟨⟨target, path, args', fun c none => absurd none List.not_mem_nil⟩, assoc'⟩,
    bounds⟩, ?_⟩
  refine Ty.allOver_flatMap.mpr fun m member => ?_
  obtain ⟨before, inside, one⟩ := exists_of_forall₂ completes.methods member
  obtain ⟨declared, found, -, sig⟩ := ImplDecl.completeMethod_eq_pure one
  rcases sig with ⟨-, same⟩ | ⟨-, -, same⟩
  · rw [same]
    refine ImplDecl.sigOfTrait_over target assoc' args' ?_
      (puts.sigs declared (List.mem_of_find?_eq_some found))
    exact Nat.le_of_eq (TraitDecl.length_completeArgs completes.few).symm
  · rw [same]
    exact closes (Ty.allOver_flatMap.mp methods before inside) target

/-- What an impl is completed to, with a trait or without. -/
theorem complete_eq_pure {context : Context} (clean : p.complete context = pure d) :
    p.decl.traitRef = none ∧ d = p.decl.closeMethods ∨
      ∃ written trait, p.decl.traitRef = some written ∧
        context.traits.get? written.path = some trait ∧ p.CompletesFor written trait d := by
  unfold complete at clean
  split at clean
  · rename_i none
    cases congrArg Noted.value clean
    exact Or.inl ⟨none, rfl⟩
  · rename_i written given
    split at clean
    · cases congrArg Noted.faults clean
    · rename_i trait found
      exact Or.inr ⟨written, trait, given, found, completeFor_eq_pure clean⟩

/-! ### Every impl is completed -/

theorem tells_completeFor : Tells (p.completeFor types written trait) := by
  have method (m : ImplMethod) :
      Tells ((p.headed written trait).completeMethod trait p.unsigned p.place m) := by
    unfold ImplDecl.completeMethod
    dsimp only
    split
    · exact (Tells.note _).bind fun _ => Tells.pure _
    · split
      · exact Tells.pure _
      · split
        · exact (Tells.note _).bind fun _ => Tells.pure _
        · exact Tells.pure _
  unfold completeFor
  dsimp only
  split
  · exact Tells.fail _ _
  · split
    · exact Tells.fail _ _
    · refine (Tells.note _).bind fun _ => (Tells.mapM method _).bind fun methods => ?_
      refine (Tells.note _).bind fun _ => ?_
      split
      · exact (Tells.note _).bind fun _ => Tells.pure _
      · exact Tells.pure _

theorem tells_complete (context : Context) : Tells (p.complete context) := by
  unfold complete
  split
  · exact Tells.pure _
  · split
    · exact Tells.fail _ _
    · exact tells_completeFor

end PendingImpl

namespace ImplDecl

variable {context : Context}

/-- Impls that are completed without faults are all there, in their order. -/
theorem completed_clean {pending : List PendingImpl}
    (clean : (pending.map (·.complete context)).flatMap (·.faults) = []) :
    List.Forall₂ (fun p d => p.complete context = pure d) pending
      (((pending.map (·.complete context)).filter (·.faults.isEmpty)).filterMap (·.value)) := by
  induction pending with
  | nil => exact .nil
  | cons p rest ih =>
    rw [List.map_cons, List.flatMap_cons, List.append_eq_nil_iff] at clean
    obtain ⟨d, done⟩ := (PendingImpl.tells_complete context).eq_pure clean.1
    rw [List.map_cons, List.filter_cons_of_pos (by simp [clean.1]),
      List.filterMap_cons_some (b := d) (by rw [done]; rfl)]
    exact .cons done (ih clean.2)

/-- Each impl that is added is the one of a wrapper. -/
theorem addWrappers_eq (impls : List ImplDecl) (types : List TypeDecl) :
    ∃ added, (addWrappers context impls types).value = impls ++ added ∧
      ∀ d ∈ added, ∃ decl ∈ types, ofWrapper? context decl = some d := by
  induction types generalizing impls with
  | nil => exact ⟨[], (List.append_nil impls).symm, nofun⟩
  | cons decl rest ih =>
    have behind {impls : List ImplDecl} : ∃ added,
        (addWrappers context impls rest).value = impls ++ added ∧
          ∀ d ∈ added, ∃ other ∈ decl :: rest, ofWrapper? context other = some d := by
      obtain ⟨added, same, origin⟩ := ih impls
      refine ⟨added, same, fun d member => ?_⟩
      obtain ⟨other, inside, made⟩ := origin d member
      exact ⟨other, List.mem_cons_of_mem _ inside, made⟩
    unfold addWrappers
    cases made : ofWrapper? context decl with
    | none => exact behind
    | some d =>
      dsimp only
      split
      · exact behind
      · obtain ⟨added, same, origin⟩ := @behind (impls ++ [d])
        refine ⟨d :: added, by simpa using same, fun e member => ?_⟩
        rcases List.mem_cons.mp member with rfl | inside
        · exact ⟨decl, List.mem_cons_self, made⟩
        · exact origin e inside

/-! ### Impls that nobody has to write -/

theorem ofWrapper?_eq_some {decl : TypeDecl} {d : ImplDecl}
    (made : ofWrapper? context decl = some d) : ∃ inner, decl.kind = .transparent inner ∧
      d = synthesize context decl (.plain Builtin.transparent []) [(Builtin.inner, inner)] true := by
  unfold ofWrapper? at made
  split at made
  · rename_i inner kind
    cases made
    exact ⟨inner, kind, rfl⟩
  · cases made

theorem ofPorts?_eq_some {impls : List ImplDecl} {p : Ports} {d : ImplDecl}
    (made : ofPorts? context impls p = some d) : ∃ decl t assoc,
      context.types.get? p.path = some decl ∧ p.capability decl = .ok (t, assoc) ∧
        d = synthesize context decl t assoc false := by
  obtain ⟨decl, found, made⟩ := Option.bind_eq_some_iff.mp made
  split at made
  · cases made
  · rename_i t assoc provided
    split at made <;> cases made
    exact ⟨decl, t, assoc, found, provided, rfl⟩

/-- An impl that is made for a declared type is written with the parameters of the type. -/
theorem synthesize_over {w : Vocabulary} {decl : TypeDecl} {t : TraitRef}
    {assoc : List (String × Ty)} {isConst : Bool} (target : decl.asTy.Over w)
    (trait : t.asTy.Over w) (types : Ty.AllOver w (assoc.map (·.2))) :
    Ty.AllOver w (synthesize context decl t assoc isConst).heads := by
  simp only [heads, synthesize, Option.map_some, Option.toList_some, List.flatMap_nil,
    List.append_nil, Ty.allOver_append, Ty.allOver_cons]
  exact ⟨⟨target, trait, Ty.allOver_nil⟩, types⟩

/-- What a component provides is written with the types of the component. -/
theorem capability_over {w : Vocabulary} {p : Ports} {decl : TypeDecl} {t : TraitRef}
    {assoc : List (String × Ty)} (provided : p.capability decl = .ok (t, assoc))
    (target : decl.asTy.Over w) (input : ∀ u ∈ p.input, u.Over w)
    (output : ∀ u ∈ p.output, u.Over w) (item : ∀ u ∈ p.item, u.Over w) :
    Ty.AllOver w t.args ∧ Ty.AllOver w (assoc.map (·.2)) := by
  unfold Ports.capability at provided
  repeat' split at provided
  all_goals cases provided
  all_goals simp_all [TraitRef.plain]

/-- What all impls come from: those written, those of wrappers and those of components. -/
structure Parts (context : Context) (pending : List PendingImpl) (ports : List Ports)
    (written wrappers components : List ImplDecl) : Prop where
  written : List.Forall₂ (fun p d => p.complete context = pure d) pending written
  wrappers : ∀ d ∈ wrappers, ∃ decl ∈ context.types.values, ofWrapper? context decl = some d
  components : ∀ d ∈ components, ∃ p ∈ ports, ∃ impls, ofPorts? context impls p = some d

theorem completeAll_clean
    (own : ∀ path decl, context.types.get? path = some decl → decl.path = path)
    {pending : List PendingImpl} {ports : List Ports} (once : (ports.map (·.path)).Nodup)
    (clean : (completeAll context pending ports).value.2 = []) :
    ∃ written wrappers components, Parts context pending ports written wrappers components ∧
      (completeAll context pending ports).value.1 =
        number (written ++ (wrappers ++ components)) := by
  simp only [completeAll, Logged.value_bind, Logged.value_pure, List.append_eq_nil_iff] at clean ⊢
  have written := completed_clean clean.1.1
  generalize ((pending.map (·.complete context)).filter (·.faults.isEmpty)).filterMap
    (·.value) = completed at written ⊢
  obtain ⟨wrappers, same, origin⟩ := @addWrappers_eq context completed
    context.types.values
  rw [addComponents_value own once, same]
  refine ⟨completed, wrappers, _, ⟨written, origin, fun d member => ?_⟩,
    congrArg number (List.append_assoc _ _ _)⟩
  obtain ⟨p, inside, made⟩ := List.mem_filterMap.mp member
  exact ⟨p, inside, _, made⟩

end ImplDecl
end Pipeline
