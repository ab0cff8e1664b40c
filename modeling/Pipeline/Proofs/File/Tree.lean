import Pipeline.File.Tree
import Pipeline.Proofs.Data.NameMap
import Pipeline.Proofs.File.Path

/-!
# Trees without links

Below a directory that holds no links, names lead to what stands at them: a path of the directory
with names behind it finds the entry of these names, as long as it is short enough to be followed.
-/

set_option autoImplicit false
set_option relaxedAutoImplicit false

namespace Pipeline.FileTree

open FilePath (IsName IsRelative under)

/-- A tree of files and directories under names of files, without links. -/
inductive Plain : FileTree → Prop
  | file (text : String) : Plain (file text)
  | directory {es : List (String × FileTree)} : (∀ e ∈ es, IsName e.1) → (∀ e ∈ es, Plain e.2) →
      Plain (directory es)

/-- What a file system tells of something at a place. -/
def seen (place : List String) : FileTree → Except FileFault Entry
  | file text => .ok (.file place (.ok text))
  | directory es => .ok (.directory place (es.map (·.1)))
  | link _ => .error .missing

variable {tree below item : FileTree} {place names : List String}

theorem get?_append (before behind : List String) (tree : FileTree) :
    tree.get? (before ++ behind) = (tree.get? before).bind (get? behind) := by
  induction before generalizing tree with
  | nil => rfl
  | cons name before ih =>
    have inside : get? (before ++ behind) = fun next => (get? before next).bind (get? behind) :=
      funext ih
    simp [get?, Option.bind_assoc, inside]

/-- What stands below a plain tree is plain, and stands under names of files. -/
theorem Plain.get? (plain : below.Plain) (found : below.get? names = some item) :
    item.Plain ∧ ∀ name ∈ names, IsName name := by
  induction names generalizing below with
  | nil =>
    cases found
    exact ⟨plain, by simp⟩
  | cons name names ih =>
    obtain ⟨next, entry, further⟩ := Option.bind_eq_some_iff.mp found
    have member := NameMap.mem_of_get? entry
    cases plain with
    | file text => cases member
    | directory called inside =>
      obtain ⟨plain, rest⟩ := ih (inside _ member) further
      exact ⟨plain, List.forall_mem_cons.mpr ⟨called _ member, rest⟩⟩

theorem get?_concat {name : String} {es : List (String × FileTree)}
    (here : tree.get? place = some (directory es)) :
    tree.get? (place ++ [name]) = NameMap.get? name es := by
  rw [get?_append, here]
  simp [get?, entries]

attribute [local simp] walk

section

variable {jump : List String → List String → Except FileFault (List String)}

/-- One name leads one step down. -/
theorem walk_cons {name : String} {es : List (String × FileTree)}
    (here : tree.get? place = some (directory es)) (known : IsName name)
    (entry : NameMap.get? name es = some item) (plain : item.Plain) :
    walk tree jump place (name :: names) = walk tree jump (place ++ [name]) names := by
  cases plain <;> simp [here, known.idle, known.notUp, entry]

/-- Names lead to what stands at them. -/
theorem walk_names (here : tree.get? place = some below) (plain : below.Plain)
    (found : below.get? names = some item) :
    walk tree jump place names = .ok (place ++ names) := by
  induction names generalizing place below with
  | nil => simp
  | cons name names ih =>
    obtain ⟨next, entry, further⟩ := Option.bind_eq_some_iff.mp found
    have member := NameMap.mem_of_get? entry
    cases plain with
    | file text => cases member
    | directory called inside =>
      have stands := (get?_concat here).trans entry
      rw [walk_cons here (called _ member) entry (inside _ member),
        ih stands (inside _ member) further, List.append_assoc, List.singleton_append]

end

/-- Names that nothing stands at lead nowhere. -/
theorem walk_names_none (here : tree.get? place = some below) (plain : below.Plain)
    (called : ∀ name ∈ names, IsName name) (missing : below.get? names = none) :
    ∃ fault, ∀ jump, walk tree jump place names = .error fault := by
  induction names generalizing place below with
  | nil => cases missing
  | cons name names ih =>
    obtain ⟨known, called⟩ := List.forall_mem_cons.mp called
    cases plain with
    | file text => exact ⟨.notDirectory, fun jump => by simp [here]⟩
    | @directory es names' inside =>
      cases entry : NameMap.get? name es with
      | none => exact ⟨.missing, fun jump => by simp [here, known.idle, known.notUp, entry]⟩
      | some next =>
        have plain := inside _ (NameMap.mem_of_get? entry)
        obtain ⟨fault, ends⟩ := ih ((get?_concat here).trans entry) plain called
          (by simpa [FileTree.get?, entries, entry] using missing)
        exact ⟨fault, fun jump => by rw [walk_cons here known entry plain, ends]⟩

theorem resolve_names (links : Nat) (here : tree.get? place = some below) (plain : below.Plain)
    (found : below.get? names = some item) :
    resolve tree links place names = .ok (place ++ names) := by
  cases links <;> exact walk_names here plain found

theorem resolve_names_none (here : tree.get? place = some below) (plain : below.Plain)
    (called : ∀ name ∈ names, IsName name) (missing : below.get? names = none) :
    ∃ fault, ∀ links, resolve tree links place names = .error fault := by
  obtain ⟨fault, ends⟩ := walk_names_none here plain called missing
  exact ⟨fault, fun links => by cases links <;> exact ends _⟩

/-- Only a directory has something further on. -/
private theorem directory_of_walk
    {jump : List String → List String → Except FileFault (List String)}
    {start before : List String} {piece : String}
    (leads : walk tree jump start (piece :: before) = .ok place) :
    ∃ es, tree.get? start = some (directory es) := by
  unfold walk at leads
  split at leads
  · cases leads
  · exact ⟨_, by assumption⟩
  · cases leads

private theorem walk_swap {jump : List String → List String → Except FileFault (List String)}
    {start before last behind : List String} {stop : Except FileFault (List String)}
    (jumps : ∀ link pieces, jump link (pieces ++ last) = .ok place →
      jump link (pieces ++ behind) = stop)
    (swap : ∀ mid, walk tree jump mid last = .ok place → walk tree jump mid behind = stop)
    (leads : walk tree jump start (before ++ last) = .ok place) :
    walk tree jump start (before ++ behind) = stop := by
  induction before generalizing start with
  | nil => exact swap start leads
  | cons piece before ih =>
    rw [List.cons_append] at leads ⊢
    obtain ⟨es, stands⟩ := directory_of_walk leads
    simp only [walk, stands] at leads ⊢
    split_ifs at leads ⊢
    · exact ih leads
    · exact ih leads
    · cases entry : NameMap.get? piece es with
      | none =>
        rw [entry] at leads
        cases leads
      | some next =>
        cases next with
        | link target =>
          simp only [entry] at leads ⊢
          split_ifs at leads ⊢
          rw [← List.append_assoc] at leads ⊢
          exact jumps _ _ leads
        | file text =>
          simp only [entry] at leads ⊢
          exact ih leads
        | directory more =>
          simp only [entry] at leads ⊢
          exact ih leads

/-- What stands last in a path can be put in the place of something else that leads on from
wherever it does. -/
theorem resolve_swap {links : Nat} {start before last behind : List String}
    {stop : Except FileFault (List String)}
    (swap : ∀ links mid, resolve tree links mid last = .ok place →
      resolve tree links mid behind = stop)
    (leads : resolve tree links start (before ++ last) = .ok place) :
    resolve tree links start (before ++ behind) = stop := by
  induction links generalizing start before with
  | zero => exact walk_swap (fun _ _ none => absurd none (by simp)) (swap 0) leads
  | succ links ih => exact walk_swap (fun _ _ leads => ih leads) (swap (links + 1)) leads

theorem resolve_nil (links : Nat) : resolve tree links place [] = .ok place := by
  cases links <;> rfl

theorem eq_of_resolve_idle {links : Nat} {mid : List String}
    (leads : resolve tree links mid [""] = .ok place) : mid = place := by
  have walks : ∀ jump, walk tree jump mid [""] = .ok place → mid = place := by
    intro jump leads
    obtain ⟨es, stands⟩ := directory_of_walk leads
    simpa [walk, stands, FilePath.isIdle] using leads
  cases links <;> exact walks _ leads

/-! ### What a path finds -/

theorem of_files_eq_ok {path : String} {entry : Entry} (found : tree.files path = .ok entry) :
    path.utf8ByteSize ≤ Files.maxPathLength ∧ IsRelative path ∧ ∃ place item,
      resolve tree maxLinks [] (FilePath.pieces path) = .ok place ∧
      tree.get? place = some item ∧ item.seen place = .ok entry := by
  unfold files at found
  split_ifs at found with long absent
  simp only [Bool.or_eq_true, decide_eq_true_eq, not_or, Bool.not_eq_true] at absent
  refine ⟨Nat.not_lt.mp long, ⟨absent.1, absent.2⟩, ?_⟩
  cases leads : resolve tree maxLinks [] (FilePath.pieces path) with
  | error fault =>
    rw [leads] at found
    cases found
  | ok place =>
    rw [leads] at found
    cases stands : tree.get? place with
    | none => simp [bind, Except.bind, stands] at found
    | some item =>
      refine ⟨place, item, rfl, stands, ?_⟩
      cases item with
      | link target => simp [bind, Except.bind, stands] at found
      | file text => simpa [bind, Except.bind, stands, seen] using found
      | directory es => simpa [bind, Except.bind, stands, seen] using found

theorem files_of_resolve {path : String} (known : IsRelative path)
    (fits : path.utf8ByteSize ≤ Files.maxPathLength)
    (leads : resolve tree maxLinks [] (FilePath.pieces path) = .ok place)
    (stands : tree.get? place = some item) : tree.files path = item.seen place := by
  unfold files
  rw [if_neg (Nat.not_lt.mpr fits), if_neg (by simp [known.nonempty, known.relative]), leads]
  cases item <;> simp [bind, Except.bind, stands, seen]

theorem seen_eq_directory {top listed : List String}
    (tells : item.seen place = .ok (.directory top listed)) :
    place = top ∧ ∃ es, item = directory es ∧ es.map (·.1) = listed := by
  cases item with
  | directory es =>
    cases tells
    exact ⟨rfl, es, rfl, rfl⟩
  | file text => cases tells
  | link target => cases tells

variable {root : String} {top listed : List String}

/-- Names behind the path of a directory lead where they lead from the directory. -/
theorem resolve_under (rooted : tree.files root = .ok (.directory top listed))
    (called : ∀ name ∈ names, IsName name) {stop : Except FileFault (List String)}
    (further : ∀ links, resolve tree links top names = stop) :
    resolve tree maxLinks [] (FilePath.pieces (under root names)) = stop := by
  obtain ⟨-, known, place, item, leads, stands, tells⟩ := of_files_eq_ok rooted
  obtain ⟨rfl, -⟩ := seen_eq_directory tells
  by_cases nonempty : names = []
  · rw [nonempty] at further ⊢
    rw [← further maxLinks, resolve_nil]
    exact leads
  · rw [FilePath.pieces_under known nonempty called]
    -- A slash at the end of the directory's path makes an idle piece, which the names replace.
    rcases FilePath.pieces_trunk root with same | slash
    · rw [same, ← List.append_nil (FilePath.pieces _)] at leads
      refine resolve_swap (fun links mid stays => ?_) leads
      rw [resolve_nil] at stays
      cases stays
      exact further links
    · rw [slash] at leads
      refine resolve_swap (fun links mid idle => ?_) leads
      rw [eq_of_resolve_idle idle]
      exact further links

/-- Names behind the path of a directory find what stands at them, unless the path is too long. -/
theorem files_under (rooted : tree.files root = .ok (.directory top listed))
    (here : tree.get? top = some below) (plain : below.Plain)
    (found : below.get? names = some item)
    (fits : (under root names).utf8ByteSize ≤ Files.maxPathLength) :
    tree.files (under root names) = item.seen (top ++ names) := by
  have known := (of_files_eq_ok rooted).2.1.under (plain.get? found).2
  have leads := resolve_under rooted (plain.get? found).2 fun links =>
    resolve_names links here plain found
  exact files_of_resolve known fits leads (by rw [get?_append, here, Option.bind_some, found])

/-- What names behind the path of a directory find stands at them. -/
theorem get?_of_files_under (rooted : tree.files root = .ok (.directory top listed))
    (here : tree.get? top = some below) (plain : below.Plain)
    (called : ∀ name ∈ names, IsName name) {entry : Entry}
    (finds : tree.files (under root names) = .ok entry) :
    ∃ item, below.get? names = some item ∧ item.seen (top ++ names) = .ok entry := by
  obtain ⟨fits, -, place, item, leads, -⟩ := of_files_eq_ok finds
  cases found : below.get? names with
  | some item => exact ⟨item, rfl, (files_under rooted here plain found fits).symm.trans finds⟩
  | none =>
    obtain ⟨fault, ends⟩ := resolve_names_none here plain called found
    exact absurd (leads.symm.trans (resolve_under rooted called ends)) (by simp)

end Pipeline.FileTree
