import Mathlib.Data.List.Induction
import Pipeline.File.Path
import Pipeline.Proofs.Data.Path

/-!
# Names on the way to a file

The path that names lead to from a directory has these names again as its last pieces and parts,
whatever the path of the directory looks like, and another ending changes its last name alone.
-/

set_option autoImplicit false
set_option relaxedAutoImplicit false

namespace Pipeline.FilePath

/-! ### Pieces -/

private theorem splitFrom_slash (piece before behind : List Char) :
    Text.splitFrom ['/'] 0 piece (before ++ '/' :: behind) =
      Text.splitFrom ['/'] 0 piece before ++ Text.splitFrom ['/'] 0 [] behind := by
  induction before generalizing piece with
  | nil => simp [Text.splitFrom, Text.dropStart?]
  | cons c before ih =>
    simp only [List.cons_append, Text.splitFrom, Text.dropStart?]
    by_cases slash : ('/' == c) = true <;> simp [slash, ih]

theorem pieces_slash (a b : String) : pieces (a ++ "/" ++ b) = pieces a ++ pieces b := by
  simp [pieces, Text.split, splitFrom_slash]

private theorem splitFrom_noSlash {cs : List Char} (piece : List Char) (plain : '/' ∉ cs) :
    Text.splitFrom ['/'] 0 piece cs = [piece.reverse ++ cs] := by
  induction cs generalizing piece with
  | nil => simp [Text.splitFrom]
  | cons c cs ih =>
    rw [List.mem_cons, not_or] at plain
    have other : ('/' == c) = false := by simpa using plain.1
    simp [Text.splitFrom, Text.dropStart?, other, ih _ plain.2]

theorem pieces_of_noSlash {name : String} (plain : '/' ∉ name.toList) : pieces name = [name] := by
  simp [pieces, Text.split, splitFrom_noSlash [] plain]

theorem ofPieces_pieces (path : String) : ofPieces (pieces path) = path :=
  Text.join_split (by decide) path

theorem ofPieces_cons (a : String) {more : List String} (goesOn : more ≠ []) :
    ofPieces (a :: more) = a ++ "/" ++ ofPieces more := by
  obtain ⟨b, rest, rfl⟩ := List.exists_cons_of_ne_nil goesOn
  rfl

theorem ofPieces_append {before behind : List String} (begins : before ≠ [])
    (goesOn : behind ≠ []) :
    ofPieces (before ++ behind) = ofPieces before ++ "/" ++ ofPieces behind := by
  induction before with
  | nil => exact absurd rfl begins
  | cons a before ih =>
    cases before with
    | nil => exact ofPieces_cons a goesOn
    | cons b before =>
      rw [List.cons_append, ofPieces_cons a (by simp), ih (by simp), ofPieces_cons a (by simp)]
      simp only [String.append_assoc]

/-- What is written behind a path stands in its last piece. -/
theorem ofPieces_concat (before : List String) (a b : String) :
    ofPieces (before ++ [a ++ b]) = ofPieces (before ++ [a]) ++ b := by
  cases before with
  | nil => rfl
  | cons c before =>
    rw [ofPieces_append (by simp) (by simp), ofPieces_append (by simp) (by simp)]
    simp only [ofPieces, Text.join, String.append_assoc]

theorem pieces_ofPieces {names : List String} (nonempty : names ≠ [])
    (plain : ∀ name ∈ names, '/' ∉ name.toList) : pieces (ofPieces names) = names := by
  induction names with
  | nil => exact absurd rfl nonempty
  | cons a names ih =>
    rw [List.forall_mem_cons] at plain
    cases names with
    | nil => exact pieces_of_noSlash plain.1
    | cons b names =>
      rw [ofPieces_cons a (by simp), pieces_slash, pieces_of_noSlash plain.1,
        ih (by simp) plain.2, List.singleton_append]

/-! ### Names -/

/-- True of the texts that can be the name of a file. -/
structure IsName (name : String) : Prop where
  nonempty : name ≠ ""
  notDot : name ≠ "."
  notUp : name ≠ ".."
  noSlash : '/' ∉ name.toList

instance (name : String) : Decidable (IsName name) :=
  decidable_of_iff (name ≠ "" ∧ name ≠ "." ∧ name ≠ ".." ∧ '/' ∉ name.toList)
    ⟨fun ⟨a, b, c, d⟩ => ⟨a, b, c, d⟩, fun name => ⟨name.1, name.2, name.3, name.4⟩⟩

theorem IsName.idle {name : String} (known : IsName name) : isIdle name = false := by
  simp [isIdle, known.nonempty, known.notDot]

theorem innerParts_names {names : List String} (known : ∀ name ∈ names, IsName name) :
    innerParts names = names.map Part.name := by
  have kept : names.filter (fun piece => !isIdle piece) = names :=
    List.filter_eq_self.mpr fun name member => by rw [(known name member).idle]; rfl
  rw [innerParts, kept]
  exact List.map_congr_left fun name member => if_neg (known name member).notUp

private theorem parts_eq {path first : String} {rest : List String}
    (split : pieces path = first :: rest) (begins : first ≠ "") (notHere : first ≠ ".") :
    parts path = innerParts (first :: rest) := by
  unfold parts
  rw [split]
  split <;> simp_all

theorem parts_ofPieces {names : List String} (nonempty : names ≠ [])
    (called : ∀ name ∈ names, IsName name) : parts (ofPieces names) = names.map Part.name := by
  have split := pieces_ofPieces nonempty fun name member => (called name member).noSlash
  obtain ⟨first, rest, rfl⟩ := List.exists_cons_of_ne_nil nonempty
  have begins : IsName first := called first (by simp)
  rw [parts_eq split begins.nonempty begins.notDot, innerParts_names called]

theorem names?_map (names : List String) : names? (names.map Part.name) = some names := by
  induction names with
  | nil => rfl
  | cons a names ih => simp [names?, ih]

/-! ### Joined paths -/

/-- Whether a text begins with some character is told by any beginning of it. -/
theorem dropStart?_append_isSome (c : Char) {a : String} (nonempty : a ≠ "") (b : String) :
    (Text.dropStart? [c] (a ++ b).toList).isSome = (Text.dropStart? [c] a.toList).isSome := by
  obtain ⟨d, cs, spelled⟩ := List.exists_cons_of_ne_nil fun none =>
    nonempty (String.toList_injective none)
  rw [String.toList_append, spelled, List.cons_append]
  by_cases same : c = d
  · subst same
    simp [Text.dropStart?]
  · simp [Text.dropStart?, same]

theorem isAbsolute_append {a : String} (nonempty : a ≠ "") (b : String) :
    isAbsolute (a ++ b) = isAbsolute a := dropStart?_append_isSome '/' nonempty b

theorem isAbsolute_slash (a : String) : isAbsolute ("/" ++ a) = true :=
  Text.startsWith_iff.mpr ⟨a.toList, by simp⟩

theorem IsName.relative {name : String} (known : IsName name) : isAbsolute name = false := by
  rw [Bool.eq_false_iff]
  intro absolute
  obtain ⟨rest, spelled⟩ := Text.startsWith_iff.mp absolute
  exact known.noSlash (by simp [spelled])

theorem relative_ofPieces {names : List String} (known : ∀ name ∈ names, IsName name) :
    isAbsolute (ofPieces names) = false := by
  cases names with
  | nil => rfl
  | cons a names =>
    rw [List.forall_mem_cons] at known
    cases names with
    | nil => exact known.1.relative
    | cons b names =>
      rw [ofPieces_cons a (by simp), String.append_assoc, isAbsolute_append known.1.nonempty]
      exact known.1.relative

/-- The path without the slash at its end. -/
def trunk (path : String) : String := (Text.stripEnd? "/" path).getD path

theorem stripEnd?_slash {path before : String} :
    Text.stripEnd? "/" path = some before ↔ path = before ++ "/" := by
  have spelled : Text.dropStart? ['/'] path.toList.reverse = some before.toList.reverse ↔
      path = before ++ "/" := by
    rw [Text.dropStart?_eq_some, List.reverse_eq_iff, ← String.toList_inj]
    simp
  rw [← spelled, Text.stripEnd?, Option.map_eq_some_iff]
  constructor
  · rintro ⟨cs, dropped, rfl⟩
    simpa using dropped
  · intro dropped
    exact ⟨_, dropped, by simp⟩

theorem eq_trunk (path : String) : path = trunk path ∨ path = trunk path ++ "/" := by
  cases ends : Text.stripEnd? "/" path with
  | none => simp [trunk, ends]
  | some before => exact Or.inr (by simpa [trunk, ends] using stripEnd?_slash.mp ends)

theorem endsWith_slash (path : String) :
    Text.endsWith "/" path = (Text.stripEnd? "/" path).isSome := by
  simp [Text.endsWith, Text.stripEnd?]

theorem join_eq {root path : String} (nonempty : root ≠ "") (relative : isAbsolute path = false) :
    join root path = trunk root ++ "/" ++ path := by
  rw [join, endsWith_slash, trunk]
  cases ends : Text.stripEnd? "/" root with
  | none => simp [nonempty, relative]
  | some before => simp [nonempty, relative, ← stripEnd?_slash.mp ends]

theorem pieces_trunk (path : String) :
    pieces path = pieces (trunk path) ∨ pieces path = pieces (trunk path) ++ [""] := by
  rcases eq_trunk path with same | slash
  · exact Or.inl (congrArg pieces same)
  · refine Or.inr ?_
    have split := pieces_slash (trunk path) ""
    rwa [String.append_empty, ← slash] at split

/-! ### Paths below a directory -/

/-- A path that is not empty and does not begin at the root of the file system. -/
structure IsRelative (path : String) : Prop where
  nonempty : path ≠ ""
  relative : isAbsolute path = false

theorem IsRelative.trunk {root : String} (known : IsRelative root) : IsRelative (trunk root) := by
  rcases eq_trunk root with same | slash
  · exact same ▸ known
  · have nonempty : FilePath.trunk root ≠ "" := by
      intro none
      rw [none] at slash
      exact absurd known.relative (by rw [slash]; decide)
    exact ⟨nonempty, by rw [← isAbsolute_append nonempty "/", ← slash, known.relative]⟩

theorem IsRelative.slash {a : String} (known : IsRelative a) (b : String) :
    IsRelative (a ++ "/" ++ b) := by
  refine ⟨fun none => ?_, ?_⟩
  · exact known.nonempty (by simpa using congrArg String.toList none)
  · rw [String.append_assoc, isAbsolute_append known.nonempty, known.relative]

theorem IsRelative.pieces {path : String} (known : IsRelative path) :
    ∃ first rest, pieces path = first :: rest ∧ first ≠ "" := by
  cases split : FilePath.pieces path with
  | nil => exact absurd (by rw [← ofPieces_pieces path, split]; rfl) known.nonempty
  | cons first rest =>
    refine ⟨first, rest, rfl, ?_⟩
    rintro rfl
    have spelled := ofPieces_pieces path
    rw [split] at spelled
    cases rest with
    | nil => exact known.nonempty spelled.symm
    | cons second rest =>
      rw [ofPieces_cons "" (by simp), String.empty_append] at spelled
      exact absurd known.relative (by rw [← spelled, isAbsolute_slash]; decide)

theorem innerParts_append (before behind : List String) :
    innerParts (before ++ behind) = innerParts before ++ innerParts behind := by
  simp [innerParts]

theorem parts_slash {a : String} (known : IsRelative a) (b : String) :
    parts (a ++ "/" ++ b) = parts a ++ innerParts (pieces b) := by
  obtain ⟨first, rest, split, begins⟩ := known.pieces
  have whole : pieces (a ++ "/" ++ b) = first :: (rest ++ pieces b) := by
    rw [pieces_slash, split, List.cons_append]
  by_cases dot : first = "."
  · simp [parts, whole, split, dot, innerParts_append]
  · rw [parts_eq split begins dot, parts_eq whole begins dot]
    exact innerParts_append (first :: rest) _

theorem parts_trunk {root : String} (known : IsRelative root) :
    parts (trunk root) = parts root := by
  rcases eq_trunk root with same | slash
  · exact congrArg parts same.symm
  · have whole := parts_slash known.trunk ""
    rw [String.append_empty, ← slash] at whole
    rw [whole]
    exact (List.append_nil _).symm

/-- The path that names lead to from a directory. -/
def under (root : String) (names : List String) : String := names.foldl join root

theorem under_concat (root : String) (names : List String) (name : String) :
    under root (names ++ [name]) = join (under root names) name := by
  simp [under]

theorem trunk_append_name {name : String} (known : IsName name) (a : String) :
    trunk (a ++ name) = a ++ name := by
  rcases eq_trunk (a ++ name) with same | slash
  · exact same.symm
  · have last := congrArg (List.getLast? ∘ String.toList) slash
    have nonempty : name.toList ≠ [] := fun none => known.nonempty (String.toList_injective none)
    simp [List.getLast?_append, nonempty] at last
    exact absurd (List.mem_of_getLast? last) known.noSlash

variable {root : String} {names : List String}

theorem under_eq (known : IsRelative root) (nonempty : names ≠ [])
    (called : ∀ name ∈ names, IsName name) :
    under root names = trunk root ++ "/" ++ ofPieces names := by
  induction names using List.reverseRecOn with
  | nil => exact absurd rfl nonempty
  | append_singleton folders name ih =>
    obtain ⟨folders', name'⟩ := List.forall_mem_append.mp called
    have last : IsName name := name' name (by simp)
    rw [under_concat]
    rcases List.eq_nil_or_concat folders with rfl | ⟨before, folder, spelled⟩
    · exact join_eq known.nonempty last.relative
    · rw [List.concat_eq_append] at spelled
      subst spelled
      rw [ih (by simp) folders', join_eq (known.trunk.slash _).nonempty last.relative]
      -- The path so far ends with a name, so that no slash is dropped from it.
      have kept : trunk (trunk root ++ "/" ++ ofPieces (before ++ [folder])) =
          trunk root ++ "/" ++ ofPieces (before ++ [folder]) := by
        have inner := ofPieces_concat before "" folder
        rw [String.empty_append] at inner
        rw [inner, ← String.append_assoc, trunk_append_name (folders' folder (by simp))]
      rw [kept, ofPieces_append (by simp) (List.cons_ne_nil name [])]
      simp only [String.append_assoc]
      rfl

theorem IsRelative.under (known : IsRelative root) (called : ∀ name ∈ names, IsName name) :
    IsRelative (under root names) := by
  by_cases nonempty : names = []
  · rwa [nonempty]
  · rw [under_eq known nonempty called]
    exact known.trunk.slash _

theorem join_ofPieces (known : IsRelative root) (nonempty : names ≠ [])
    (called : ∀ name ∈ names, IsName name) : join root (ofPieces names) = under root names := by
  rw [under_eq known nonempty called, join_eq known.nonempty (relative_ofPieces called)]

theorem pieces_under (known : IsRelative root) (nonempty : names ≠ [])
    (called : ∀ name ∈ names, IsName name) :
    pieces (under root names) = pieces (trunk root) ++ names := by
  rw [under_eq known nonempty called, pieces_slash,
    pieces_ofPieces nonempty fun name member => (called name member).noSlash]

theorem parts_under (known : IsRelative root) (called : ∀ name ∈ names, IsName name) :
    parts (under root names) = parts root ++ names.map Part.name := by
  by_cases nonempty : names = []
  · simp [nonempty, under]
  · rw [under_eq known nonempty called, parts_slash known.trunk, parts_trunk known,
      pieces_ofPieces nonempty fun name member => (called name member).noSlash,
      innerParts_names called]

/-! ### Endings -/

theorem splitLast?_eq {path : String} {before : List String} {name : String}
    (split : pieces path = before ++ [name]) (known : IsName name) :
    splitLast? path = some (ofPieces (before ++ [""]), name) := by
  have kept : dropIdle (before ++ [name]) = before ++ [name] := by
    simp [dropIdle, known.idle]
  simp [splitLast?, split, kept, known.notUp]

theorem withExtension_eq {path : String} {before : List String} {name : String}
    (split : pieces path = before ++ [name]) (known : IsName name) (ending : String) :
    withExtension path ending = ofPieces (before ++
      [(splitName name).1 ++ if ending = "" then "" else "." ++ ending]) := by
  simp only [withExtension, splitLast?_eq split known]
  rw [String.append_assoc, ← ofPieces_concat, String.empty_append]

theorem extension?_under {name : String} (known : IsRelative root)
    (called : ∀ part ∈ names ++ [name], IsName part) :
    extension? (under root (names ++ [name])) = (splitName name).2 := by
  have split := pieces_under known (by simp) called
  rw [← List.append_assoc] at split
  rw [extension?, splitLast?_eq split (called name (by simp)), Option.bind_some]

/-- Another ending is put on the last of the names. -/
theorem withExtension_under {name ending : String} (known : IsRelative root)
    (called : ∀ part ∈ names ++ [name], IsName part) (nonempty : ending ≠ "")
    (ended : IsName ((splitName name).1 ++ "." ++ ending)) :
    withExtension (under root (names ++ [name])) ending =
      under root (names ++ [(splitName name).1 ++ "." ++ ending]) := by
  have split := pieces_under known (by simp) called
  rw [← List.append_assoc] at split
  have called' : ∀ part ∈ names ++ [(splitName name).1 ++ "." ++ ending], IsName part :=
    List.forall_mem_append.mpr ⟨(List.forall_mem_append.mp called).1, by simpa using ended⟩
  have begins : pieces (trunk root) ≠ [] := by
    obtain ⟨first, rest, split, -⟩ := known.trunk.pieces
    simp [split]
  rw [withExtension_eq split (called name (by simp)), if_neg nonempty,
    under_eq known (by simp) called', ← String.append_assoc, List.append_assoc,
    ofPieces_append begins (by simp), ofPieces_pieces]

/-- A name with an ending is what stands before its last dot, the dot and the ending. -/
theorem splitName_cases (name : String) : splitName name = (name, none) ∨
    ∃ stem ending, splitName name = (stem, some ending) ∧ stem ≠ "" ∧
      name = stem ++ "." ++ ending := by
  have whole := List.takeWhile_append_dropWhile (p := (· ≠ '.')) (l := name.toList.reverse)
  simp only [splitName]
  cases rest : name.toList.reverse.dropWhile (· ≠ '.') with
  | nil => exact Or.inl rfl
  | cons d more =>
    cases more with
    | nil => exact Or.inl rfl
    | cons c before =>
      have dot : d = '.' := by
        have first := List.head_dropWhile_not (fun c => decide (c ≠ '.')) (l := name.toList.reverse)
          (by rw [rest]; exact List.cons_ne_nil _ _)
        simp only [rest, List.head_cons] at first
        simpa using first
      refine Or.inr ⟨String.ofList (c :: before).reverse, _, rfl, by simp, ?_⟩
      rw [rest, dot, ← List.reverse_eq_iff] at whole
      generalize List.takeWhile _ name.toList.reverse = after at whole
      refine String.toList_injective ?_
      rw [← whole]
      simp

/-- Only what stands behind a dot is dropped from a name with its ending. -/
theorem splitName_fst_eq_iff {name : String} :
    (splitName name).1 = name ↔ (splitName name).2 = none := by
  rcases splitName_cases name with none | ⟨stem, ending, split, -, spelled⟩
  · simp [none]
  · rw [split]
    refine iff_of_false (fun same => ?_) (Option.some_ne_none ending)
    have sizes := congrArg String.length (same.trans spelled)
    simp only [String.length_append] at sizes
    have dot : ".".length = 1 := rfl
    omega

theorem splitName_document {stem ending : String} (nonempty : stem ≠ "")
    (plain : '.' ∉ ending.toList) :
    splitName (stem ++ "." ++ ending) = (stem, some ending) := by
  have spelled : (stem ++ "." ++ ending).toList.reverse =
      ending.toList.reverse ++ '.' :: stem.toList.reverse := by simp
  have none : ∀ c ∈ ending.toList.reverse, decide (c ≠ '.') = true := by
    intro c member
    rw [List.mem_reverse] at member
    exact decide_eq_true fun dot => plain (dot ▸ member)
  obtain ⟨c, before, begins⟩ := List.exists_cons_of_ne_nil fun none : stem.toList.reverse = [] =>
    nonempty (String.toList_injective (List.reverse_eq_nil_iff.mp none))
  simp only [splitName]
  rw [spelled, List.takeWhile_append_of_pos none, List.dropWhile_append_of_pos none, begins]
  have whole : String.ofList (c :: before).reverse = stem := by simp [← begins]
  simpa using whole

end Pipeline.FilePath
