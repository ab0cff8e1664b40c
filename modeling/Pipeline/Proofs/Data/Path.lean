import Pipeline.Text.Path

/-!
# Paths and their segments

A path is what its segments make when they are put together again, and segments without colons are
found again in what they make.
-/

set_option autoImplicit false
set_option relaxedAutoImplicit false

namespace Pipeline

namespace Text

theorem dropStart?_eq_some {α : Type} [BEq α] [LawfulBEq α] {p cs rest : List α} :
    dropStart? p cs = some rest ↔ cs = p ++ rest := by
  induction p generalizing cs with
  | nil => simp [dropStart?]
  | cons c p ih =>
    cases cs with
    | nil => simp [dropStart?]
    | cons d cs =>
      simp only [dropStart?, List.cons_append, List.cons.injEq]
      split
      · rename_i same
        rw [ih]
        exact (and_iff_right (eq_of_beq same).symm).symm
      · rename_i different
        exact iff_of_false (by simp) fun both => different (beq_iff_eq.mpr both.1.symm)

theorem startsWith_iff {start s : String} :
    startsWith start s = true ↔ ∃ rest, s.toList = start.toList ++ rest := by
  simp only [startsWith, Option.isSome_iff_exists, dropStart?_eq_some]

theorem toList_join (sep s : String) (rest : List String) :
    (join sep (s :: rest)).toList = s.toList ++ rest.flatMap fun t => sep.toList ++ t.toList := by
  induction rest generalizing s with
  | nil => simp [join]
  | cons t rest ih => simp [join, ih]

/-! ### Pieces -/

private theorem splitFrom_drop (sep : List Char) (k : Nat) (piece cs : List Char) :
    splitFrom sep k piece cs = splitFrom sep 0 piece (cs.drop k) := by
  induction cs generalizing k with
  | nil => simp [splitFrom]
  | cons c cs ih =>
    cases k with
    | zero => rfl
    | succ k => exact ih k

/-- The pieces of a text with separators between them are the text. -/
private theorem splitFrom_joined (c : Char) (sep piece cs : List Char) :
    ∃ first more, splitFrom (c :: sep) 0 piece cs = first :: more ∧
      first ++ more.flatMap ((c :: sep) ++ ·) = piece.reverse ++ cs := by
  -- Behind a separator the text goes on shorter by more than one character.
  induction h : cs.length using Nat.strongRecOn generalizing piece cs with
  | ind n ih =>
    subst h
    cases cs with
    | nil => exact ⟨piece.reverse, [], rfl, rfl⟩
    | cons d cs =>
      simp only [splitFrom]
      split
      · rename_i met
        obtain ⟨rest, met⟩ := Option.isSome_iff_exists.mp met
        have spelled := dropStart?_eq_some.mp met
        rw [List.cons_append] at spelled
        obtain ⟨rfl, rfl⟩ := List.cons.inj spelled
        have shorter : rest.length < (d :: (sep ++ rest)).length := by
          rw [List.length_cons, List.length_append]
          omega
        obtain ⟨first, more, pieces, joined⟩ := ih rest.length shorter [] rest rfl
        refine ⟨piece.reverse, first :: more, ?_, ?_⟩
        · rw [splitFrom_drop, List.length_cons, Nat.add_sub_cancel, List.drop_left, pieces]
        · rw [List.flatMap_cons, List.append_assoc, joined]
          simp
      · obtain ⟨first, more, pieces, joined⟩ := ih cs.length (by simp) (d :: piece) cs rfl
        exact ⟨first, more, pieces, by simpa using joined⟩

/-- A text is made of its pieces. -/
theorem join_split {sep : String} (nonempty : sep ≠ "") (s : String) :
    join sep (split sep s) = s := by
  obtain ⟨c, cs, spelled⟩ : ∃ c cs, sep.toList = c :: cs :=
    List.exists_cons_of_ne_nil fun none => nonempty (String.toList_injective none)
  obtain ⟨first, more, pieces, joined⟩ := splitFrom_joined c cs [] s.toList
  have parts : split sep s = String.ofList first :: more.map String.ofList := by
    simp [split, spelled, pieces]
  refine String.toList_injective ?_
  rw [parts, toList_join, spelled]
  simpa [List.flatMap_map] using joined

end Text

namespace Path

theorem toList_ofSegments (first : String) (more : List String) :
    (ofSegments (first :: more)).toList =
      first.toList ++ more.flatMap fun name => ':' :: ':' :: name.toList :=
  Text.toList_join "::" first more

theorem toList_child (path name : String) :
    (child path name).toList = path.toList ++ ':' :: ':' :: name.toList := by
  simp [child]

theorem startsWith_child (path name : String) :
    Text.startsWith (child path "") (child path name) = true :=
  Text.startsWith_iff.mpr ⟨name.toList, by simp [toList_child]⟩

theorem startsWith_of_child {path name other : String}
    (below : Text.startsWith (child (child path name) "") other = true) :
    Text.startsWith (child path "") other = true := by
  obtain ⟨rest, goes⟩ := Text.startsWith_iff.mp below
  refine Text.startsWith_iff.mpr ⟨name.toList ++ ':' :: ':' :: rest, ?_⟩
  rw [goes]
  simp [toList_child]

theorem ofSegments_concat (first : String) (more : List String) (name : String) :
    ofSegments (first :: more ++ [name]) = child (ofSegments (first :: more)) name := by
  refine String.toList_injective ?_
  rw [List.cons_append, toList_child, toList_ofSegments, toList_ofSegments]
  simp

theorem eq_of_ofSegments_concat {folders : List String} {a b : String}
    (same : ofSegments (folders ++ [a]) = ofSegments (folders ++ [b])) : a = b := by
  cases folders with
  | nil => exact same
  | cons first more =>
    have spelled := congrArg String.toList same
    simp only [List.cons_append, toList_ofSegments, List.flatMap_append] at spelled
    exact String.toList_injective (by simpa using spelled)

theorem segments_ne_nil (path : String) : segments path ≠ [] := by
  obtain ⟨first, more, pieces, -⟩ := Text.splitFrom_joined ':' [':'] [] path.toList
  simp [segments, Text.split, pieces]

/-- A path is made of its segments. -/
theorem ofSegments_segments (path : String) : ofSegments (segments path) = path :=
  Text.join_split (by decide) path

/-- A segment without a colon. -/
def Plain (segment : String) : Prop := ':' ∉ segment.toList

instance (segment : String) : Decidable (Plain segment) :=
  inferInstanceAs (Decidable (':' ∉ segment.toList))

private theorem splitFrom_word {word : List Char} (piece rest : List Char) (plain : ':' ∉ word) :
    Text.splitFrom [':', ':'] 0 piece (word ++ rest) =
      Text.splitFrom [':', ':'] 0 (word.reverse ++ piece) rest := by
  induction word generalizing piece with
  | nil => rfl
  | cons c word ih =>
    rw [List.mem_cons, not_or] at plain
    have other : (':' == c) = false := by simpa using plain.1
    simp [Text.splitFrom, Text.dropStart?, other, ih _ plain.2]

private theorem splitFrom_segments {more : List String} (piece : List Char)
    (plain : ∀ name ∈ more, Plain name) :
    Text.splitFrom [':', ':'] 0 piece (more.flatMap fun name => ':' :: ':' :: name.toList) =
      piece.reverse :: more.map (·.toList) := by
  induction more generalizing piece with
  | nil => rfl
  | cons name more ih =>
    rw [List.forall_mem_cons] at plain
    simp [Text.splitFrom, Text.dropStart?, splitFrom_word [] _ plain.1, ih _ plain.2]

/-- The segments of a path are those it was put together from. -/
theorem segments_of_plain {first : String} {more : List String}
    (plain : ∀ name ∈ first :: more, Plain name) :
    segments (ofSegments (first :: more)) = first :: more := by
  rw [List.forall_mem_cons] at plain
  have pieces : Text.splitFrom [':', ':'] 0 [] (ofSegments (first :: more)).toList =
      first.toList :: more.map (·.toList) := by
    rw [toList_ofSegments, splitFrom_word _ _ plain.1, splitFrom_segments _ plain.2]
    simp
  have split := congrArg (List.map String.ofList) pieces
  simpa [segments, Text.split, Function.comp_def] using split

theorem segments_child {path name : String} (plain : ∀ s ∈ segments path, Plain s)
    (named : Plain name) : segments (child path name) = segments path ++ [name] := by
  obtain ⟨first, more, split⟩ := List.exists_cons_of_ne_nil (segments_ne_nil path)
  rw [split] at plain
  have whole : child path name = ofSegments (first :: (more ++ [name])) := by
    rw [← List.cons_append, ofSegments_concat, ← split, ofSegments_segments]
  rw [whole, split, segments_of_plain, List.cons_append]
  rw [← List.cons_append]
  exact List.forall_mem_append.mpr ⟨plain, List.forall_mem_singleton.mpr named⟩

/-- A path begins with a segment if it is that segment, or goes on with a separator behind it. -/
theorem head?_segments_iff {path first : String} (plain : Plain first) :
    (segments path).head? = some first ↔
      path.toList = first.toList ∨ ∃ rest, path.toList = first.toList ++ ':' :: ':' :: rest := by
  constructor
  · intro head
    obtain ⟨_, more, split⟩ := List.exists_cons_of_ne_nil (segments_ne_nil path)
    rw [split] at head
    cases head
    have whole := congrArg String.toList (ofSegments_segments path)
    rw [split, toList_ofSegments] at whole
    cases more with
    | nil => exact Or.inl (by simpa using whole.symm)
    | cons name more => exact Or.inr ⟨_, by simpa using whole.symm⟩
  · rintro (same | ⟨rest, goes⟩)
    · rw [← String.toList_injective same] at plain ⊢
      have single := segments_of_plain (List.forall_mem_singleton.mpr plain)
      rw [show ofSegments [path] = path from rfl] at single
      rw [single]
      rfl
    · simp [segments, Text.split, goes, splitFrom_word [] _ plain, Text.splitFrom, Text.dropStart?]

end Path
end Pipeline
