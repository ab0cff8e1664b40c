import Pipeline.Proofs.Data.Insertion
import Pipeline.Store.Names

/-!
# Names declared in any order

What documents declare is said apart from the order in which they declare it. Nothing is at fault
if no name is declared twice and each document is in order by itself; the names are then those of
all documents together, in whatever order they stand.
-/

set_option autoImplicit false
set_option relaxedAutoImplicit false

namespace Pipeline

/-- Names are different from one another and from those taken. -/
def Fresh (taken : String → Prop) (names : List String) : Prop :=
  names.Nodup ∧ ∀ name ∈ names, ¬ taken name

theorem fresh_nil (taken : String → Prop) : Fresh taken [] := ⟨List.nodup_nil, nofun⟩

theorem fresh_singleton {taken : String → Prop} {name : String} :
    Fresh taken [name] ↔ ¬ taken name := by
  simp [Fresh]

theorem fresh_append {taken : String → Prop} {first second : List String} :
    Fresh taken (first ++ second) ↔
      Fresh taken first ∧ Fresh (fun name => taken name ∨ name ∈ first) second := by
  simp only [Fresh, List.nodup_append, List.mem_append, not_or]
  constructor
  · rintro ⟨⟨once, again, apart⟩, free⟩
    exact ⟨⟨once, fun name member => free name (Or.inl member)⟩, again,
      fun name member =>
        ⟨free name (Or.inr member), fun before => apart name before name member rfl⟩⟩
  · rintro ⟨⟨once, free⟩, again, free'⟩
    refine ⟨⟨once, again, fun name member other member' same => ?_⟩, fun name member => ?_⟩
    · exact (free' other member').2 (same ▸ member)
    · exact member.elim (free name) fun member => (free' name member).1

namespace Names

/-- What is added to the names declared. -/
structure Addition where
  symbols : List (String × SymbolKind) := []
  extensions : List String := []
  /-- Modules, each with the name of a member if there is one to add. -/
  members : List (String × Option String) := []
  origins : List (String × String) := []
  /-- True when nothing is wrong with what is added by itself. -/
  sound : Bool := true

namespace Addition

instance : Append Addition where
  append a b := ⟨a.symbols ++ b.symbols, a.extensions ++ b.extensions, a.members ++ b.members,
    a.origins ++ b.origins, a.sound && b.sound⟩

@[simp] theorem symbols_append (a b : Addition) : (a ++ b).symbols = a.symbols ++ b.symbols := rfl
@[simp] theorem extensions_append (a b : Addition) :
    (a ++ b).extensions = a.extensions ++ b.extensions := rfl
@[simp] theorem members_append (a b : Addition) : (a ++ b).members = a.members ++ b.members := rfl
@[simp] theorem origins_append (a b : Addition) : (a ++ b).origins = a.origins ++ b.origins := rfl
@[simp] theorem sound_append (a b : Addition) : (a ++ b).sound = (a.sound && b.sound) := rfl

/-- Additions one after another. -/
def concat : List Addition → Addition
  | [] => {}
  | a :: rest => a ++ concat rest

theorem concat_eq (as : List Addition) :
    concat as = ⟨as.flatMap (·.symbols), as.flatMap (·.extensions), as.flatMap (·.members),
      as.flatMap (·.origins), as.all (·.sound)⟩ := by
  induction as with
  | nil => rfl
  | cons a rest ih => rw [concat, ih]; rfl

/-- What is added fits to the names declared before. -/
structure Fits (a : Addition) (n : Names) : Prop where
  sound : a.sound = true
  symbols : Fresh (fun path => n.index.symbols.contains path = true) (a.symbols.map (·.1))
  extensions : Fresh (· ∈ n.index.extensions) a.extensions
  origins : Fresh (fun module => n.origins.contains module = true) (a.origins.map (·.1))

end Addition

/-- Adds a name to the members of a module, or the module alone. -/
def addMember (modules : NameMap NameSet) (m : String × Option String) : NameMap NameSet :=
  let members := (modules.get? m.1).getD []
  modules.insert m.1 (m.2.elim members fun name => NameSet.insert name members)

/-- The names with what is added. -/
def enter (n : Names) (a : Addition) : Names where
  index := {
    symbols := a.symbols.foldl (fun m p => m.insert p.1 p.2) n.index.symbols
    extensions := a.extensions.foldl (fun s name => NameSet.insert name s) n.index.extensions
    modules := a.members.foldl addMember n.index.modules }
  origins := a.origins.foldl (fun m p => m.insert p.1 p.2) n.origins
  faults := n.faults

theorem enter_append (n : Names) (a b : Addition) : n.enter (a ++ b) = (n.enter a).enter b := by
  simp [enter, List.foldl_append]

theorem Addition.fits_append {a b : Addition} {n : Names} :
    (a ++ b).Fits n ↔ a.Fits n ∧ b.Fits (n.enter a) := by
  have symbols : (fun path => (n.enter a).index.symbols.contains path = true) =
      fun path => n.index.symbols.contains path = true ∨ path ∈ a.symbols.map (·.1) :=
    funext fun path => propext (NameMap.contains_foldl a.symbols n.index.symbols path)
  have extensions : (· ∈ (n.enter a).index.extensions) =
      fun name => name ∈ n.index.extensions ∨ name ∈ a.extensions :=
    funext fun name => propext (NameSet.mem_foldl_insert a.extensions n.index.extensions name)
  have origins : (fun module => (n.enter a).origins.contains module = true) =
      fun module => n.origins.contains module = true ∨ module ∈ a.origins.map (·.1) :=
    funext fun module => propext (NameMap.contains_foldl a.origins n.origins module)
  constructor
  · rintro ⟨sound, first, second, third⟩
    rw [Addition.symbols_append, List.map_append, fresh_append] at first
    rw [Addition.extensions_append, fresh_append] at second
    rw [Addition.origins_append, List.map_append, fresh_append] at third
    rw [Addition.sound_append, Bool.and_eq_true] at sound
    exact ⟨⟨sound.1, first.1, second.1, third.1⟩,
      ⟨sound.2, symbols ▸ first.2, extensions ▸ second.2, origins ▸ third.2⟩⟩
  · rintro ⟨a_fits, b_fits⟩
    refine ⟨?_, ?_, ?_, ?_⟩
    · rw [Addition.sound_append, a_fits.sound, b_fits.sound, Bool.and_self]
    · rw [Addition.symbols_append, List.map_append, fresh_append]
      exact ⟨a_fits.symbols, symbols ▸ b_fits.symbols⟩
    · rw [Addition.extensions_append, fresh_append]
      exact ⟨a_fits.extensions, extensions ▸ b_fits.extensions⟩
    · rw [Addition.origins_append, List.map_append, fresh_append]
      exact ⟨a_fits.origins, origins ▸ b_fits.origins⟩

/-! ### Operations that add something -/

/-- An operation finds no fault if what it adds fits and no fault was there before; then it adds
that and does nothing else. -/
structure Adds (f : Names → Names) (a : Addition) : Prop where
  faultless : ∀ n, (f n).faults = [] ↔ n.faults = [] ∧ a.Fits n
  result : ∀ n, (f n).faults = [] → f n = n.enter a

theorem Adds.comp {f g : Names → Names} {a b : Addition} (first : Adds f a) (second : Adds g b) :
    Adds (fun n => g (f n)) (a ++ b) where
  faultless n := by
    rw [second.faultless, first.faultless, Addition.fits_append, and_assoc]
    refine and_congr_right fun clean => and_congr_right fun fits => ?_
    rw [first.result n ((first.faultless n).mpr ⟨clean, fits⟩)]
  result n clean := by
    have before := ((second.faultless _).mp clean).1
    rw [enter_append, ← first.result n before]
    exact second.result _ clean

theorem Adds.nothing : Adds id {} where
  faultless n := by
    refine (and_iff_left ?_).symm
    exact ⟨rfl, fresh_nil _, fresh_nil _, fresh_nil _⟩
  result _ _ := rfl

theorem Adds.foldl {β : Type} {f : Names → β → Names} {a : β → Addition}
    (each : ∀ x, Adds (fun n => f n x) (a x)) (xs : List β) :
    Adds (fun n => xs.foldl f n) (Addition.concat (xs.map a)) := by
  induction xs with
  | nil => exact .nothing
  | cons x rest ih => exact (each x).comp ih

theorem faults_fail (n : Names) (place : Location) (kind : ErrorKind) :
    (n.fail place kind).faults ≠ [] := by
  simp [fail]

/-- An operation that is at fault for names declared before, and otherwise adds something. -/
theorem Adds.of_guard {f : Names → Names} {a : Addition} (blocked : Names → Prop)
    (fits : ∀ n, a.Fits n ↔ ¬ blocked n) (faults : ∀ n, blocked n → (f n).faults ≠ [])
    (adds : ∀ n, ¬ blocked n → f n = n.enter a) : Adds f a where
  faultless n := by
    rw [fits]
    by_cases here : blocked n
    · exact iff_of_false (faults n here) fun both => both.2 here
    · rw [adds n here]
      exact (and_iff_left here).symm
  result n clean := adds n fun here => faults n here clean

theorem adds_declarePath (path : String) (kind : SymbolKind) (place : Location) :
    Adds (fun n => n.declarePath path kind place) { symbols := [(path, kind)] } := by
  refine .of_guard (fun n => n.index.symbols.contains path = true) (fun n => ?_) (fun n taken => ?_)
    fun n free => ?_
  · exact ⟨fun fits => fresh_singleton.mp fits.symbols,
      fun free => ⟨rfl, fresh_singleton.mpr free, fresh_nil _, fresh_nil _⟩⟩
  · simp only [declarePath, taken, if_true]
    exact faults_fail _ _ _
  · simp only [declarePath, free]
    rfl

theorem adds_declare (kind : SymbolKind) (module : String) (around : Location) (name : String) :
    Adds (fun n => declare kind module around n name)
      { symbols := [(Path.child module name, kind)], members := [(module, some name)] } := by
  refine .of_guard (fun n => n.index.symbols.contains (Path.child module name) = true)
    (fun n => ?_) (fun n taken => ?_) fun n free => ?_
  · exact ⟨fun fits => fresh_singleton.mp fits.symbols,
      fun free => ⟨rfl, fresh_singleton.mpr free, fresh_nil _, fresh_nil _⟩⟩
  · simp only [declare, declarePath, taken, if_true]
    exact faults_fail _ _ _
  · simp only [declare, declarePath, free]
    rfl

theorem adds_declareExtension (module : String) (around : Location) (name : String) :
    Adds (fun n => declareExtension module around n name)
      { extensions := [Path.child module name], members := [(module, some name)] } := by
  have contains (n : Names) : n.index.extensions.contains (Path.child module name) = true ↔
      Path.child module name ∈ n.index.extensions := List.contains_iff_mem
  refine .of_guard (fun n => Path.child module name ∈ n.index.extensions)
    (fun n => ?_) (fun n taken => ?_) fun n free => ?_
  · exact ⟨fun fits => fresh_singleton.mp fits.extensions,
      fun free => ⟨rfl, fresh_nil _, fresh_singleton.mpr free, fresh_nil _⟩⟩
  · rw [← contains] at taken
    simp only [declareExtension, taken, if_true]
    exact faults_fail _ _ _
  · rw [← contains] at free
    simp only [declareExtension, free]
    rfl

theorem adds_invalid (place : Location) (fault : DeclFault) :
    Adds (fun n => n.invalid place fault) { sound := false } :=
  .of_guard (fun _ => True)
    (fun _ => iff_of_false (fun fits => nomatch fits.sound) (fun no => no trivial))
    (fun n _ => faults_fail n _ _) fun _ no => absurd trivial no

/-! ### Documents -/

/-- What the component of a document adds. -/
def ofComponent (d : Document) : Addition :=
  if d.isPlain then {} else { symbols := [(d.module, .type)], sound := d.name = Path.last d.module }

theorem adds_declareComponent (d : Document) : Adds (·.declareComponent d) (ofComponent d) := by
  unfold ofComponent declareComponent
  split
  · exact .nothing
  · by_cases named : d.name = Path.last d.module
    · simpa [named] using adds_declarePath d.module .type (d.location.child "name")
    · simp only [named, decide_false, if_false]
      exact (adds_invalid (d.location.child "name") (.misnamedComponent d.name d.module)).comp
        (adds_declarePath d.module .type (d.location.child "name"))

/-- The members by which a module is a part of the modules around it. -/
def ofModule (module : String) : List (String × Option String) :=
  let parts := Path.segments module
  (module, none) :: (List.range (parts.length - 1)).map fun i =>
    (Path.ofSegments (parts.take (i + 1)), some (parts.getD (i + 1) ""))

theorem addModule_eq (index : SymbolIndex) (module : String) :
    index.addModule module =
      { index with modules := (ofModule module).foldl addMember index.modules } := by
  have members (steps : List Nat) (parts : List String) (index : SymbolIndex) :
      steps.foldl (fun index i => index.addMember (Path.ofSegments (parts.take (i + 1)))
          (parts.getD (i + 1) "")) index =
        { index with modules := (steps.map fun i => (Path.ofSegments (parts.take (i + 1)),
          some (parts.getD (i + 1) ""))).foldl addMember index.modules } := by
    induction steps generalizing index with
    | nil => rfl
    | cons i rest ih =>
      rw [List.foldl_cons, ih]
      rfl
  unfold SymbolIndex.addModule ofModule
  rw [members]
  rfl

/-- What a document adds if its version is supported. -/
def ofBody (d : Document) : Addition :=
  { sound := d.misplacedSections.isEmpty } ++
  { origins := [(d.module, d.origin)], members := ofModule d.module } ++
  ofComponent d ++
  .concat ((d.types.map (·.1)).map fun name =>
    { symbols := [(Path.child d.module name, .type)], members := [(d.module, some name)] }) ++
  .concat ((d.traits.map (·.1)).map fun name =>
    { symbols := [(Path.child d.module name, .trait)], members := [(d.module, some name)] }) ++
  .concat ((d.extensions.map (·.1)).map fun name =>
    { extensions := [Path.child d.module name], members := [(d.module, some name)] })

/-- What a document adds. -/
def ofDocument (d : Document) : Addition := { sound := d.version = supportedVersion } ++ ofBody d

/-- Opening the module of a document, unless it is open. -/
def openModule (d : Document) (n : Names) : Names :=
  if n.origins.contains d.module then n.fail d.location (duplicate d.module .module)
  else { n with
    origins := n.origins.insert d.module d.origin, index := n.index.addModule d.module }

theorem adds_openModule (d : Document) :
    Adds (openModule d) { origins := [(d.module, d.origin)], members := ofModule d.module } := by
  refine .of_guard (fun n => n.origins.contains d.module = true) (fun n => ?_) (fun n taken => ?_)
    fun n free => ?_
  · exact ⟨fun fits => fresh_singleton.mp fits.origins,
      fun free => ⟨rfl, fresh_nil _, fresh_nil _, fresh_singleton.mpr free⟩⟩
  · simp only [openModule, taken, if_true]
    exact faults_fail _ _ _
  · simp only [openModule, free, addModule_eq]
    rfl

/-- Noting the sections of a document that have no meaning in it. -/
def noteMisplaced (d : Document) (n : Names) : Names :=
  d.misplacedSections.foldl
    (fun n section_ => n.invalid d.location (.misplacedSection section_ d.kind.text)) n

theorem adds_noteMisplaced (d : Document) :
    Adds (noteMisplaced d) { sound := d.misplacedSections.isEmpty } := by
  have each := Adds.foldl (fun section_ : String =>
    adds_invalid d.location (.misplacedSection section_ d.kind.text)) d.misplacedSections
  have same : Addition.concat (d.misplacedSections.map fun _ => { sound := false }) =
      { sound := d.misplacedSections.isEmpty } := by
    rw [Addition.concat_eq]
    cases d.misplacedSections <;> simp
  rw [same] at each
  exact each

theorem origins_noteMisplaced (d : Document) (n : Names) :
    (noteMisplaced d n).origins = n.origins := by
  unfold noteMisplaced
  generalize d.misplacedSections = sections
  induction sections generalizing n with
  | nil => rfl
  | cons _ rest ih => exact ih _

/-- Declaring the component, the types, the traits and the extensions of a document. -/
def declareAll (d : Document) (n : Names) : Names :=
  let n := n.declareComponent d
  let n := (d.types.map (·.1)).foldl (declare .type d.module (d.location.child "types")) n
  let n := (d.traits.map (·.1)).foldl (declare .trait d.module (d.location.child "traits")) n
  (d.extensions.map (·.1)).foldl (declareExtension d.module (d.location.child "extensions")) n

theorem addDocument_of_open (d : Document) (n : Names) (version : d.version = supportedVersion) :
    (n.addDocument d).1 = if n.origins.contains d.module then
        n.fail d.location (duplicate d.module .module)
      else declareAll d (openModule d (noteMisplaced d n)) := by
  unfold addDocument
  simp only [version, ne_eq, not_true_eq_false, if_false]
  split
  · rfl
  · rename_i free
    rw [← origins_noteMisplaced d n] at free
    rw [openModule, if_neg free]
    rfl

private theorem adds_body (d : Document) :
    Adds (fun n => declareAll d (openModule d (noteMisplaced d n))) (ofBody d) := by
  have opened := (adds_noteMisplaced d).comp (adds_openModule d)
  have types := (opened.comp (adds_declareComponent d)).comp
    (.foldl (adds_declare .type d.module (d.location.child "types")) (d.types.map (·.1)))
  have traits := types.comp
    (.foldl (adds_declare .trait d.module (d.location.child "traits")) (d.traits.map (·.1)))
  exact traits.comp (.foldl (adds_declareExtension d.module (d.location.child "extensions"))
    (d.extensions.map (·.1)))

/-- A document is at fault for itself or for what was declared before, or adds its names. -/
theorem adds_addDocument (d : Document) : Adds (fun n => (n.addDocument d).1) (ofDocument d) := by
  -- The module is looked up ahead of the sections that are misplaced; these are no names, so that
  -- opening the module could as well come behind them.
  by_cases version : d.version = supportedVersion
  · have whole : ofDocument d = ofBody d := by
      simp only [ofDocument, version, decide_true]
      rfl
    have body := adds_body d
    rw [whole]
    constructor
    · intro n
      rw [addDocument_of_open d n version]
      split
      · rename_i taken
        refine iff_of_false (faults_fail _ _ _) fun ⟨_, fits⟩ => fits.origins.2 d.module ?_ taken
        simp [ofBody]
      · exact body.faultless n
    · intro n
      rw [addDocument_of_open d n version]
      split
      · exact fun clean => absurd clean (faults_fail _ _ _)
      · exact body.result n
  · refine .of_guard (fun _ => True)
      (fun _ => iff_of_false (fun fits => ?_) fun no => no trivial) (fun n _ => ?_)
      fun _ no => absurd trivial no
    · have sound := fits.sound
      simp [ofDocument, version] at sound
    · simp only [addDocument, ne_eq, version, not_false_eq_true, if_true]
      exact faults_fail _ _ _

/-- A document that is refused as a whole is at fault. -/
theorem addDocument_kept (d : Document) (n : Names) (clean : (n.addDocument d).1.faults = []) :
    (n.addDocument d).2 = true := by
  unfold addDocument at clean ⊢
  dsimp only at clean ⊢
  split at clean
  · exact absurd clean (faults_fail _ _ _)
  · rename_i version
    rw [if_neg version]
    split at clean
    · exact absurd clean (faults_fail _ _ _)
    · rename_i free
      rw [if_neg free]

/-- What documents add. -/
def ofDocuments (ds : List Document) : Addition := .concat (ds.map ofDocument)

theorem adds_addDocuments (ds : List Document) :
    Adds (fun n => (n.addDocuments ds).1) (ofDocuments ds) := by
  induction ds with
  | nil => exact .nothing
  | cons d rest ih => exact (adds_addDocument d).comp ih

theorem addDocuments_kept (ds : List Document) (n : Names)
    (clean : (n.addDocuments ds).1.faults = []) : (n.addDocuments ds).2 = ds := by
  induction ds generalizing n with
  | nil => rfl
  | cons d rest ih =>
    have last : ((n.addDocument d).1.addDocuments rest).1.faults = [] := clean
    have kept := addDocument_kept d n (((adds_addDocuments rest).faultless _).mp last).1
    change (if (n.addDocument d).2 = true then d :: ((n.addDocument d).1.addDocuments rest).2 else
      ((n.addDocument d).1.addDocuments rest).2) = d :: rest
    rw [if_pos kept, ih _ last]

/-! ### Any order -/

theorem addMember_comm (modules : NameMap NameSet) (p q : String × Option String) :
    addMember (addMember modules p) q = addMember (addMember modules q) p := by
  obtain ⟨m, name⟩ := p
  obtain ⟨m', name'⟩ := q
  by_cases same : m = m'
  · subst same
    simp only [addMember, NameMap.get?_insert, if_true, Option.getD_some, NameMap.insert_insert]
    cases name <;> cases name' <;> simp [NameSet.insert_comm]
  · simp only [addMember, NameMap.get?_insert, if_neg same, if_neg (Ne.symm same)]
    exact NameMap.insert_comm modules same _ _

/-- Additions of the same things in another order. -/
structure Addition.Same (a b : Addition) : Prop where
  symbols : a.symbols.Perm b.symbols
  extensions : a.extensions.Perm b.extensions
  members : a.members.Perm b.members
  origins : a.origins.Perm b.origins
  sound : a.sound = b.sound

theorem Addition.Same.of_perm {as bs : List Addition} (perm : as.Perm bs) :
    (concat as).Same (concat bs) := by
  rw [concat_eq, concat_eq]
  exact ⟨perm.flatMap_right _, perm.flatMap_right _, perm.flatMap_right _, perm.flatMap_right _,
    perm.all_eq⟩

theorem fresh_perm {taken : String → Prop} {names names' : List String} (perm : names.Perm names')
    (fresh : Fresh taken names) : Fresh taken names' :=
  ⟨perm.nodup_iff.mp fresh.1, fun name member => fresh.2 name (perm.mem_iff.mpr member)⟩

theorem Addition.Same.fits {a b : Addition} (same : a.Same b) {n : Names} (fits : a.Fits n) :
    b.Fits n where
  sound := same.sound ▸ fits.sound
  symbols := fresh_perm (same.symbols.map _) fits.symbols
  extensions := fresh_perm same.extensions fits.extensions
  origins := fresh_perm (same.origins.map _) fits.origins

/-- What fits may be added in any order. -/
theorem Addition.Same.enter {a b : Addition} (same : a.Same b) {n : Names} (fits : a.Fits n) :
    n.enter a = n.enter b := by
  have symbols := NameMap.insert_foldl_perm same.symbols fits.symbols.1 n.index.symbols
  have extensions := same.extensions.foldl_eq' (f := fun s name => NameSet.insert name s)
    (fun x _ y _ s => NameSet.insert_comm s x y) n.index.extensions
  have members := same.members.foldl_eq' (fun p _ q _ modules => addMember_comm modules p q)
    n.index.modules
  have origins := NameMap.insert_foldl_perm same.origins fits.origins.1 n.origins
  simp only [Names.enter, symbols, extensions, members, origins]

/-- Names may be declared in any order: nothing is at fault, or it is in every order. -/
theorem addDocuments_perm {ds ds' : List Document} (perm : ds.Perm ds') (n : Names)
    (clean : (n.addDocuments ds).1.faults = []) :
    (n.addDocuments ds').1 = (n.addDocuments ds).1 := by
  have same := Addition.Same.of_perm (perm.map ofDocument)
  obtain ⟨before, fits⟩ := ((adds_addDocuments ds).faultless n).mp clean
  have clean' := ((adds_addDocuments ds').faultless n).mpr ⟨before, same.fits fits⟩
  rw [(adds_addDocuments ds).result n clean, (adds_addDocuments ds').result n clean']
  exact (same.enter fits).symm

end Names
end Pipeline
