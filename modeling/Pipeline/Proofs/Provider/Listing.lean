import Pipeline.Proofs.File.Tree
import Pipeline.Provider.Directory

/-!
# What a directory lists and what it finds

A module that a directory lists is spelled by the names on the way to a document. The document is
found again under the module if the module can be split into these names and its last segment has
no dot: finding puts the ending in the place of whatever stands behind a dot.
-/

set_option autoImplicit false
set_option relaxedAutoImplicit false

namespace Pipeline

theorem Text.occurs_single {c : Char} {cs : List Char} : occurs [c] cs = true ↔ c ∈ cs := by
  induction cs with
  | nil => simp [occurs]
  | cons d cs ih => simp [occurs, dropStart?, ih, Bool.or_eq_true]

/-- Lists are made for each without a fault, and something is true of all their members. -/
theorem Except.mapM_flatten {ε α β : Type} {f : α → Except ε (List β)} {P : β → Prop} {xs : List α}
    (each : ∀ x ∈ xs, ∃ ys, f x = .ok ys ∧ ∀ y ∈ ys, P y) :
    ∃ ys, (do let yss ← xs.mapM f; return yss.flatten) = .ok ys ∧ ∀ y ∈ ys, P y := by
  suffices lists : ∃ yss, xs.mapM f = .ok yss ∧ ∀ y ∈ yss.flatten, P y by
    obtain ⟨yss, made, all⟩ := lists
    exact ⟨yss.flatten, by rw [made]; rfl, all⟩
  induction xs with
  | nil => exact ⟨[], rfl, by simp⟩
  | cons x xs ih =>
    obtain ⟨⟨ys, made, holds⟩, rest⟩ := List.forall_mem_cons.mp each
    obtain ⟨yss, further, all⟩ := ih rest
    refine ⟨ys :: yss, ?_, ?_⟩
    · simp [List.mapM_cons, made, further, bind, Except.bind, pure, Except.pure]
    · rw [List.flatten_cons]
      exact List.forall_mem_append.mpr ⟨holds, all⟩

namespace Directory

open FilePath (IsName IsRelative under splitName)

/-! ### Documents and their modules -/

variable {root stem ending : String} {folders : List String}

theorem isName_document (plain : '/' ∉ stem.toList) (known : ending ∈ extensions) :
    IsName (stem ++ "." ++ ending) := by
  have spelled : 'y' ∈ (stem ++ "." ++ ending).toList ∧ '/' ∉ ending.toList := by
    rcases List.mem_cons.mp known with rfl | known
    · simp
    · rw [List.mem_singleton] at known
      simp [known]
  have other (short : String) (without : 'y' ∉ short.toList) : stem ++ "." ++ ending ≠ short :=
    fun same => without (same ▸ spelled.1)
  refine ⟨other _ (by decide), other _ (by decide), other _ (by decide), ?_⟩
  simp [plain, spelled.2]

theorem noDot_of_extension (known : ending ∈ extensions) : ending ≠ "" ∧ '.' ∉ ending.toList := by
  rcases List.mem_cons.mp known with rfl | known
  · decide
  · rw [List.mem_singleton] at known
    subst known
    decide

theorem splitName_extension (nonempty : stem ≠ "") (known : ending ∈ extensions) :
    splitName (stem ++ "." ++ ending) = (stem, some ending) :=
  FilePath.splitName_document nonempty (noDot_of_extension known).2

/-- The module of a document is spelled by the names on the way to it. -/
theorem moduleOfPath_under (known : IsRelative root)
    (called : ∀ name ∈ folders ++ [stem], IsName name) (ends : ending ∈ extensions) :
    moduleOfPath root (under root (folders ++ [stem ++ "." ++ ending])) =
      .ok (Path.ofSegments (folders ++ [stem])) := by
  obtain ⟨folders', stem'⟩ := List.forall_mem_append.mp called
  have stemmed : IsName stem := stem' stem (by simp)
  have document := isName_document stemmed.noSlash ends
  have filed : ∀ name ∈ folders ++ [stem ++ "." ++ ending], IsName name :=
    List.forall_mem_append.mpr ⟨folders', by simpa using document⟩
  have below : Text.dropStart? (FilePath.parts root)
      (FilePath.parts (under root (folders ++ [stem ++ "." ++ ending]))) =
        some ((folders ++ [stem ++ "." ++ ending]).map FilePath.Part.name) :=
    Text.dropStart?_eq_some.mpr (FilePath.parts_under known filed)
  have without :
      FilePath.withExtension (FilePath.ofPieces (folders ++ [stem ++ "." ++ ending])) "" =
        FilePath.ofPieces (folders ++ [stem]) := by
    rw [FilePath.withExtension_eq
      (FilePath.pieces_ofPieces (by simp) fun name member => (filed name member).noSlash) document,
      splitName_extension stemmed.nonempty ends, if_pos rfl, String.append_empty]
  have named := FilePath.parts_ofPieces (by simp) called
  simp [-List.map_append, moduleOfPath, below, FilePath.names?_map, without, named]

/-! ### Listing -/

variable {tree below : FileTree} {top listed : List String} {module : String}

/-- A module is spelled by the folders and the stem of something below a directory that has the
name of a document; it is a file if its path can be followed. -/
structure Spells (below : FileTree) (root module : String) (folders : List String)
    (stem ending : String) : Prop where
  spelled : module = Path.ofSegments (folders ++ [stem])
  ends : ending ∈ extensions
  shown : isHidden stem = false
  called : ∀ name ∈ folders ++ [stem], IsName name
  stands : ∃ item, below.get? (folders ++ [stem ++ "." ++ ending]) = some item ∧
    ((under root (folders ++ [stem ++ "." ++ ending])).utf8ByteSize ≤ Files.maxPathLength →
      ∃ text, item = .file text)

theorem isHidden_append {a : String} (nonempty : a ≠ "") (b : String) :
    isHidden (a ++ b) = isHidden a := FilePath.dropStart?_append_isSome '.' nonempty b

/-- A beginning of a name that is not passed over is a name too. -/
theorem isName_of_shown {a : String} (nonempty : a ≠ "") (plain : '/' ∉ a.toList)
    (shown : isHidden a = false) : IsName a := by
  refine ⟨nonempty, ?_, ?_, plain⟩ <;>
  · rintro rfl
    exact absurd shown (by decide)

theorem shown_stem (nonempty : stem ≠ "") (known : IsName (stem ++ "." ++ ending))
    (shown : isHidden (stem ++ "." ++ ending) = false) : isHidden stem = false ∧ IsName stem := by
  have plain := known.noSlash
  rw [String.append_assoc] at plain shown
  rw [isHidden_append nonempty] at shown
  exact ⟨shown, isName_of_shown nonempty (fun slash => plain (by simp [slash])) shown⟩

/-- What has the name of a document has a stem, which is a name that is not passed over. -/
theorem stem_of_isDocument {name : String} {names : List String} (known : IsRelative root)
    (called : ∀ part ∈ names ++ [name], IsName part) (shown : isHidden name = false)
    (document : isDocument (under root (names ++ [name])) = true) :
    ∃ stem ending, name = stem ++ "." ++ ending ∧ ending ∈ extensions ∧ isHidden stem = false ∧
      ∀ part ∈ names ++ [stem], IsName part := by
  rw [isDocument, FilePath.extension?_under known called] at document
  rcases FilePath.splitName_cases name with none | ⟨stem, ending, split, nonempty, spelled⟩
  · simp [none] at document
  · rw [split] at document
    obtain ⟨folders, last⟩ := List.forall_mem_append.mp called
    obtain ⟨shown, stemmed⟩ :=
      shown_stem nonempty (spelled ▸ last name (by simp)) (spelled ▸ shown)
    exact ⟨stem, ending, spelled, List.contains_iff_mem.mp document, shown,
      List.forall_mem_append.mpr ⟨folders, by simpa using stemmed⟩⟩

theorem directory_of_isDirectory (rooted : tree.files root = .ok (.directory top listed))
    (here : tree.get? top = some below) (plain : below.Plain) {names : List String}
    {item : FileTree} (stands : below.get? names = some item)
    (nested : tree.files.isDirectory (under root names) = true) :
    ∃ es, item = .directory es ∧
      tree.files (under root names) = .ok (.directory (top ++ names) (es.map (·.1))) := by
  have finds : ∃ place more, tree.files (under root names) = .ok (.directory place more) := by
    unfold Files.isDirectory at nested
    split at nested
    · exact ⟨_, _, by assumption⟩
    · cases nested
  obtain ⟨place, more, finds⟩ := finds
  have tells := FileTree.files_under rooted here plain stands (FileTree.of_files_eq_ok finds).1
  obtain ⟨-, es, rfl, -⟩ := FileTree.seen_eq_directory (tells.symm.trans finds)
  exact ⟨es, rfl, tells⟩

/-- What is listed of one directory stands below it, and so for the directories in it. -/
theorem walk_spells (rooted : tree.files root = .ok (.directory top listed))
    (here : tree.get? top = some below) (plain : below.Plain) (depth : Nat)
    {es : List (String × FileTree)} (found : below.get? folders = some (.directory es))
    (opens : tree.files (under root folders) =
      .ok (.directory (top ++ folders) (es.map (·.1)))) :
    ∃ modules, walk tree.files root depth (under root folders) = .ok modules ∧
      ∀ module ∈ modules, ∃ folders stem ending, Spells below root module folders stem ending := by
  have known := (FileTree.of_files_eq_ok rooted).2.1
  induction depth generalizing folders es with
  | zero => exact ⟨[], rfl, by simp⟩
  | succ depth ih =>
    have entries : Files.names tree.files (under root folders) =
        .ok (NameSet.ofList (es.map (·.1))) := by simp [Files.names, opens]
    simp only [walk, entries]
    -- Each name stands for an entry, since a name is told only of what is there.
    refine Except.mapM_flatten fun name member => ?_
    obtain ⟨member, shown⟩ := List.mem_filter.mp member
    obtain ⟨item, entry⟩ := NameMap.exists_get?_of_mem_names (NameSet.mem_ofList.mp member)
    have stands : below.get? (folders ++ [name]) = some item := by
      rw [FileTree.get?_append, found, Option.bind_some]
      simpa [FileTree.get?, FileTree.entries] using entry
    obtain ⟨plainItem, called⟩ := plain.get? stands
    rw [← FilePath.under_concat]
    by_cases nested : tree.files.isDirectory (under root (folders ++ [name])) = true
    · rw [if_pos nested]
      obtain ⟨more, rfl, opens⟩ := directory_of_isDirectory rooted here plain stands nested
      exact ih stands opens
    · rw [if_neg nested]
      by_cases document : isDocument (under root (folders ++ [name])) = true
      · rw [if_pos document]
        obtain ⟨stem, ending, rfl, ends, shown, called⟩ :=
          stem_of_isDocument known called (by simpa using shown) document
        rw [moduleOfPath_under known called ends]
        refine ⟨_, rfl, List.forall_mem_singleton.mpr ⟨folders, stem, ending, rfl, ends, shown,
          called, item, stands, fun fits => ?_⟩⟩
        have tells := FileTree.files_under rooted here plain stands fits
        cases plainItem with
        | file text => exact ⟨text, rfl⟩
        | directory =>
          exact absurd (by simp [Files.isDirectory, tells, FileTree.seen]) nested
      · rw [if_neg document]
        exact ⟨[], rfl, by simp⟩

/-! ### Finding -/

/-- A module leads to a file that is read for it and whose path is that of the module. -/
def LeadsBack (files : Files) (root module : String) : Prop :=
  ∃ path text, pathOfModule? files root module = some path ∧
    moduleOfPath root path = .ok module ∧ files.text path = .ok text ∧
    fetch files root module = some (Provider.readDocument module (originOf root path) text)

theorem isUnsafe_iff {name : String} (known : IsName name) :
    isUnsafe name = true ↔ '\\' ∈ name.toList := by
  have slash : Text.contains "/" name = false :=
    Bool.eq_false_iff.mpr fun inside => known.noSlash (Text.occurs_single.mp inside)
  have back : Text.contains "\\" name = true ↔ '\\' ∈ name.toList := Text.occurs_single
  simp [isUnsafe, known.nonempty, known.notDot, known.notUp, slash, back]

theorem isName_fst {name : String} (known : IsName name) (shown : isHidden name = false) :
    IsName (splitName name).1 := by
  rcases FilePath.splitName_cases name with none | ⟨stem, ending, split, nonempty, spelled⟩
  · rwa [none]
  · rw [split]
    exact (shown_stem nonempty (spelled ▸ known) (spelled ▸ shown)).2

/-- A module with given segments is looked for under the last of them without its ending. -/
theorem candidates_eq (known : IsRelative root) (called : ∀ name ∈ folders ++ [stem], IsName name)
    (shown : isHidden stem = false) (apart : Path.segments module = folders ++ [stem]) :
    candidates root module =
      if ∃ name ∈ folders ++ [stem], '\\' ∈ name.toList then []
      else extensions.map fun ending =>
        under root (folders ++ [(splitName stem).1 ++ "." ++ ending]) := by
  obtain ⟨folders', stem'⟩ := List.forall_mem_append.mp called
  have refused : (folders ++ [stem]).any isUnsafe = true ↔
      ∃ name ∈ folders ++ [stem], '\\' ∈ name.toList := by
    rw [List.any_eq_true]
    exact exists_congr fun name => and_congr_right fun member => isUnsafe_iff (called name member)
  simp only [candidates, apart, refused]
  refine if_congr Iff.rfl rfl (List.map_congr_left fun ending ends => ?_)
  have stemmed := isName_fst (stem' stem (by simp)) shown
  rw [FilePath.join_ofPieces known (by simp) called, FilePath.withExtension_under known called
    (noDot_of_extension ends).1 (isName_document stemmed.noSlash ends)]

/-- A file at names below a directory is read, since no link leads out of it. -/
theorem readInside_under (rooted : tree.files root = .ok (.directory top listed))
    (here : tree.get? top = some below) (plain : below.Plain) {names : List String}
    (called : ∀ name ∈ names, IsName name)
    (opens : tree.files.isFile (under root names) = true) :
    ∃ text, tree.files.text (under root names) = .ok text ∧
      readInside tree.files root (under root names) = .ok text := by
  obtain ⟨place, content, finds⟩ : ∃ place content,
      tree.files (under root names) = .ok (.file place content) := by
    unfold Files.isFile at opens
    split at opens
    · exact ⟨_, _, by assumption⟩
    · cases opens
  obtain ⟨item, -, tells⟩ := FileTree.get?_of_files_under rooted here plain called finds
  obtain ⟨rfl, text, rfl⟩ : place = top ++ names ∧ ∃ text, content = .ok text := by
    cases item with
    | file text =>
      cases tells
      exact ⟨rfl, text, rfl⟩
    | directory es => cases tells
    | link target => cases tells
  have inside : (Text.dropStart? top (top ++ names)).isSome := by
    rw [Text.dropStart?_eq_some.mpr rfl]
    rfl
  refine ⟨text, by simp [Files.text, finds], ?_⟩
  simp [readInside, Files.place, rooted, finds, Files.text, Entry.place, Except.map,
    Except.mapError, inside, bind, Except.bind]

theorem Spells.leadsBack_iff (spells : Spells below root module folders stem ending)
    (rooted : tree.files root = .ok (.directory top listed)) (here : tree.get? top = some below)
    (plain : below.Plain) (apart : Path.segments module = folders ++ [stem])
    (fits : (under root (folders ++ [stem ++ "." ++ ending])).utf8ByteSize ≤ Files.maxPathLength) :
    LeadsBack tree.files root module ↔
      (splitName stem).2 = none ∧ ∀ name ∈ folders ++ [stem], '\\' ∉ name.toList := by
  have known := (FileTree.of_files_eq_ok rooted).2.1
  obtain ⟨folders', last⟩ := List.forall_mem_append.mp spells.called
  have stemmed : IsName stem := last stem (by simp)
  have shorter : ∀ name ∈ folders ++ [(splitName stem).1], IsName name :=
    List.forall_mem_append.mpr ⟨folders', by simpa using isName_fst stemmed spells.shown⟩
  have paths := candidates_eq known spells.called spells.shown apart
  constructor
  · -- The module of a candidate has the stem without its ending, whatever file it is.
    rintro ⟨path, -, finds, back, -⟩
    have candidate := List.mem_of_find?_eq_some finds
    rw [paths] at candidate
    split at candidate
    · cases candidate
    · rename_i safe
      obtain ⟨ending', ends, rfl⟩ := List.mem_map.mp candidate
      rw [moduleOfPath_under known shorter ends, spells.spelled] at back
      have kept := Path.eq_of_ofSegments_concat (Except.ok.inj back)
      exact ⟨FilePath.splitName_fst_eq_iff.mp kept, fun name member inside =>
        safe ⟨name, member, inside⟩⟩
  · -- The document is a candidate, but another ending of its stem may go before it.
    rintro ⟨undotted, safe⟩
    rw [if_neg fun ⟨name, member, inside⟩ => safe name member inside,
      FilePath.splitName_fst_eq_iff.mpr undotted] at paths
    obtain ⟨item, stands, file⟩ := spells.stands
    obtain ⟨text, rfl⟩ := file fits
    have tells := FileTree.files_under rooted here plain stands fits
    have found : (pathOfModule? tree.files root module).isSome = true := by
      refine List.find?_isSome.mpr ⟨_, paths ▸ List.mem_map_of_mem spells.ends, ?_⟩
      simp [Files.isFile, tells, FileTree.seen]
    obtain ⟨path, finds⟩ := Option.isSome_iff_exists.mp found
    obtain ⟨ending', ends, rfl⟩ := List.mem_map.mp (paths ▸ List.mem_of_find?_eq_some finds)
    have document := isName_document stemmed.noSlash ends
    obtain ⟨text, reads, inside⟩ := readInside_under rooted here plain
      (List.forall_mem_append.mpr ⟨folders', by simpa using document⟩) (List.find?_some finds)
    refine ⟨_, text, finds, ?_, reads, ?_⟩
    · rw [moduleOfPath_under known spells.called ends, spells.spelled]
    · rw [fetch, finds, Option.map_some, inside]
      rfl

/-! ### Listing and finding -/

theorem mem_of_mem_dropRepeats {modules : List String} (member : module ∈ dropRepeats modules) :
    module ∈ modules := by
  induction modules with
  | nil => cases member
  | cons a rest ih =>
    cases rest with
    | nil => exact member
    | cons b rest =>
      unfold dropRepeats at member
      split at member
      · exact List.mem_cons_of_mem _ (ih member)
      · rcases List.mem_cons.mp member with rfl | later
        · exact List.mem_cons_self
        · exact List.mem_cons_of_mem _ (ih later)

/-- What a directory without links lists can be spelled by the names on the way to a document. When
the module can be split into these names, it leads back to a file that is its own if no dot stands
inside the stem of the document and no backslash in the names, and else it does not. -/
theorem modules_leadBack_iff (tree below : FileTree) (root : String) (top listed : List String)
    (rooted : tree.files root = .ok (.directory top listed)) (here : tree.get? top = some below)
    (plain : below.Plain) :
    ∃ modules, Directory.modules tree.files root = .ok modules ∧
      ∀ module ∈ modules, ∃ folders stem ending,
        Spells below root module folders stem ending ∧
        (Path.segments module = folders ++ [stem] →
          (under root (folders ++ [stem ++ "." ++ ending])).utf8ByteSize ≤ Files.maxPathLength →
          (LeadsBack tree.files root module ↔
            (splitName stem).2 = none ∧ ∀ name ∈ folders ++ [stem], '\\' ∉ name.toList)) := by
  obtain ⟨-, -, place, item, -, stands, tells⟩ := FileTree.of_files_eq_ok rooted
  obtain ⟨rfl, es, rfl, rfl⟩ := FileTree.seen_eq_directory tells
  cases here.symm.trans stands
  obtain ⟨modules, lists, each⟩ : ∃ modules,
      walk tree.files root maxDepth (under root []) = .ok modules ∧ ∀ module ∈ modules,
        ∃ folders stem ending, Spells (.directory es) root module folders stem ending :=
    walk_spells rooted here plain maxDepth rfl (by simpa [under] using rooted)
  refine ⟨dropRepeats modules, ?_, fun module member => ?_⟩
  · change dropRepeats <$> walk tree.files root maxDepth (under root []) = _
    rw [lists]
    rfl
  · obtain ⟨folders, stem, ending, spells⟩ := each module (mem_of_mem_dropRepeats member)
    exact ⟨folders, stem, ending, spells, fun apart fits =>
      spells.leadsBack_iff rooted here plain apart fits⟩

/-- Some documents, two of which have a dot in their stems. -/
def drawer : FileTree := .directory [("a.b.yaml", .file ""),
  ("sub", .directory [("c.yml", .file "")]), ("x.y.yaml", .file ""), ("x.yaml", .file "")]

theorem drawer_plain : drawer.Plain := by
  refine .directory (by decide) ?_
  simp only [List.forall_mem_cons]
  exact ⟨.file _, .directory (by decide) (by simpa using .file _), .file _, .file _, by simp⟩

/-- A file system with the drawer in it. -/
def house : Files := (FileTree.directory [("proj", drawer)]).files

theorem modules_leadBack_iff_drawer :
    ∃ modules, Directory.modules house "proj" = .ok modules ∧
      ∀ module ∈ modules, ∃ folders stem ending,
        Spells drawer "proj" module folders stem ending ∧
        (Path.segments module = folders ++ [stem] →
          (under "proj" (folders ++ [stem ++ "." ++ ending])).utf8ByteSize ≤ Files.maxPathLength →
          (LeadsBack house "proj" module ↔
            (splitName stem).2 = none ∧ ∀ name ∈ folders ++ [stem], '\\' ∉ name.toList)) :=
  modules_leadBack_iff (.directory [("proj", drawer)]) drawer "proj" ["proj"] _ rfl rfl drawer_plain

/-- A stem with a dot in it is listed, and either found nowhere or in the document of another. -/
theorem dotted_astray :
    Directory.modules house "proj" = .ok ["a.b", "sub::c", "x.y", "x"] ∧
    fetch house "proj" "a.b" = none ∧ ¬LeadsBack house "proj" "x.y" := by
  refine ⟨rfl, rfl, ?_⟩
  rintro ⟨path, -, finds, back, -⟩
  have found : pathOfModule? house "proj" "x.y" = some "proj/x.yaml" := rfl
  cases found.symm.trans finds
  have other : moduleOfPath "proj" "proj/x.yaml" = .ok "x" := rfl
  exact absurd (other.symm.trans back) (by simp)

end Directory
end Pipeline
