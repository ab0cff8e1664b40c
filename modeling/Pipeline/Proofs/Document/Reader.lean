import Pipeline.Document.Reader
import Pipeline.Proofs.Fault.Noted

/-!
# Names in documents that are read

A mapping gives each name once, and so does every section with a free choice of names. A record
keeps whatever each of its fields keeps.
-/

set_option autoImplicit false
set_option relaxedAutoImplicit false

namespace Pipeline

open Yaml

namespace Yaml.Node

variable {α : Type} {read : Node → Read α}

/-- Named values have different names, none of which was read before. -/
theorem namedValues_nodup {seen : List String} {entries : List (Node × Node)}
    {values : List (String × α)} (found : namedValues read seen entries = .ok values) :
    (∀ v ∈ values, v.1 ∉ seen) ∧ (values.map (·.1)).Nodup := by
  induction entries generalizing seen values with
  | nil =>
    cases found
    exact ⟨nofun, List.nodup_nil⟩
  | cons entry rest ih =>
    obtain ⟨key, value⟩ := entry
    obtain ⟨name, -, found⟩ := except_bind_eq_ok.mp found
    obtain ⟨a, -, found⟩ := except_bind_eq_ok.mp found
    split at found
    · cases found
    · rename_i fresh
      obtain ⟨others, there, found⟩ := except_bind_eq_ok.mp found
      cases found
      obtain ⟨outside, once⟩ := ih there
      refine ⟨List.forall_mem_cons.mpr ⟨by simpa using fresh, fun v member inside => ?_⟩,
        List.nodup_cons.mpr ⟨fun inside => ?_, once⟩⟩
      · exact outside v member (List.mem_cons_of_mem _ inside)
      · obtain ⟨v, member, same⟩ := List.mem_map.mp inside
        exact outside v member (same ▸ List.mem_cons_self)

theorem asNamed_nodup {node : Node} {values : List (String × α)}
    (found : node.asNamed read = .ok values) : (values.map (·.1)).Nodup := by
  cases node with
  | mapping tag entries =>
    simp only [asNamed] at found
    split at found
    · cases found
    · exact (namedValues_nodup found).2
  | scalar tag style text =>
    simp only [asNamed] at found
    split at found
    · cases found
    · obtain ⟨plain, -, found⟩ := except_bind_eq_ok.mp found
      split at found <;> cases found
      exact List.nodup_nil
  | sequence tag items => cases found
  | broken => cases found

/-- Each item of a list was read. -/
theorem asList_all {P : α → Prop} (each : ∀ node a, read node = .ok a → P a) {node : Node}
    {values : List α} (found : node.asList read = .ok values) : ∀ a ∈ values, P a := by
  have items (nodes : List Node) (values : List α) (found : nodes.mapM read = .ok values) :
      ∀ a ∈ values, P a := by
    induction nodes generalizing values with
    | nil =>
      cases found
      nofun
    | cons node rest ih =>
      rw [List.mapM_cons] at found
      obtain ⟨a, here, found⟩ := except_bind_eq_ok.mp found
      obtain ⟨others, there, found⟩ := except_bind_eq_ok.mp found
      cases found
      exact List.forall_mem_cons.mpr ⟨each node a here, ih others there⟩
  cases node with
  | sequence tag nodes => exact items nodes values found
  | broken => cases found
  | scalar tag style text =>
    simp only [asList] at found
    split at found <;> cases found
    nofun
  | mapping tag entries =>
    simp only [asList] at found
    split at found <;> cases found
    nofun

variable {σ : Type} {canonical? : String → Option String} {field : String → Node → σ → Read σ}
  {P : σ → Prop}

/-- A record keeps what each of its fields keeps. -/
theorem fieldValues_keeps
    (each : ∀ name node r r', P r → field name node r = .ok r' → P r') {seen : List String}
    {entries : List (Node × Node)} {start : σ} {result : List String × σ} (first : P start)
    (found : fieldValues canonical? field seen entries start = .ok result) : P result.2 := by
  induction entries generalizing seen start with
  | nil =>
    cases found
    exact first
  | cons entry rest ih =>
    obtain ⟨key, value⟩ := entry
    obtain ⟨written, -, found⟩ := except_bind_eq_ok.mp found
    split at found
    · cases found
    · split at found
      · cases found
      · obtain ⟨next, here, found⟩ := except_bind_eq_ok.mp found
        exact ih (each _ _ _ _ first here) found

theorem asRecord_keeps
    (each : ∀ name node r r', P r → field name node r = .ok r' → P r') {required : List String}
    {start result : σ} {node : Node} (first : P start)
    (found : node.asRecord required canonical? field start = .ok result) : P result := by
  unfold asRecord at found
  dsimp only at found
  split at found
  · obtain ⟨⟨seen, record⟩, read, found⟩ := except_bind_eq_ok.mp found
    split at found <;> cases found
    exact fieldValues_keeps each first read
  · cases found
  · split at found
    · obtain ⟨_, read, found⟩ := except_bind_eq_ok.mp found
      cases read
      split at found <;> cases found
      exact first
    · cases found

end Yaml.Node

namespace Document

/-- No impl that is read gives an associated type twice. -/
theorem impl_once {node : Node} {e : ImplEntry} (found : impl node = .ok e) :
    (e.assoc.map (·.1)).Nodup := by
  have start : ((default : ImplEntry).assoc.map (·.1)).Nodup := List.nodup_nil
  refine Node.asRecord_keeps (P := fun e : ImplEntry => (e.assoc.map (·.1)).Nodup)
    (fun name v e e' once read => ?_) start found
  split at read
  case h_5 =>
    obtain ⟨assoc, named, read⟩ := except_bind_eq_ok.mp read
    cases read
    exact Node.asNamed_nodup named
  all_goals
    obtain ⟨value, -, read⟩ := except_bind_eq_ok.mp read
    cases read
    exact once

theorem header_impls {node : Node} {d d' : Document} (found : header node d = .ok d') :
    d'.impls = d.impls := by
  refine Node.asRecord_keeps (P := fun e : Document => e.impls = d.impls)
    (fun name v e e' same read => ?_) rfl found
  split at read
  all_goals
    obtain ⟨value, -, read⟩ := except_bind_eq_ok.mp read
    cases read
    exact same

/-- No impl of a document that is read gives an associated type twice. -/
theorem read_once {module origin text : String} {d : Document}
    (found : read module origin text = .ok d) : ∀ e ∈ d.impls, (e.assoc.map (·.1)).Nodup := by
  obtain ⟨d, record, found⟩ := except_bind_eq_ok.mp found
  split at found <;> cases found
  refine Node.asRecord_keeps
    (P := fun d : Document => ∀ e ∈ d.impls, (e.assoc.map (·.1)).Nodup)
    (fun name v d d' once read => ?_) (fun e member => absurd member List.not_mem_nil) record
  unfold readSection at read
  split at read
  case h_1 =>
    rw [header_impls read]
    exact once
  case h_14 =>
    obtain ⟨impls, listed, read⟩ := except_bind_eq_ok.mp read
    cases read
    exact Node.asList_all (fun node e => impl_once) listed
  all_goals
    obtain ⟨value, -, read⟩ := except_bind_eq_ok.mp read
    cases read
    exact once

end Document
end Pipeline
