import Pipeline.Proofs.Store.Impls
import Pipeline.Proofs.Ty.Renaming

/-!
# Impls that can be told apart

No two impls of a trait without bounds are the same up to the names of their parameters, and no two
impls of types themselves that are the same in this way share a method. Impls are compared as they
are written: an alias and what it stands for are told apart, which no obligation does.
-/

set_option autoImplicit false
set_option relaxedAutoImplicit false

namespace Pipeline

/-- What an impl applies to: its target, with the arguments of its trait. -/
def ImplDecl.applied (d : ImplDecl) : List Ty := d.target :: d.traitArgs

namespace ImplDecl

theorem clash_of_trait {a b : ImplDecl} {t u : TraitRef} (implements : a.traitRef = some t)
    (also : b.traitRef = some u) (path : t.path = u.path) (free : a.bounds = [])
    (unbounded : b.bounds = []) (renames : Ty.Renames a.applied b.applied) : Clash a b := by
  have same : canonical (a.target :: t.args) = canonical (b.target :: u.args) := by
    have forms := canonical_eq_of_renames renames
    simpa only [applied, traitArgs, implements, also] using forms
  refine Or.inl ⟨?_, ?_⟩
  · simp [traitKey?, implements, free]
  · simp [traitKey?, implements, also, free, unbounded, path, same]

theorem clash_of_methods {a b : ImplDecl} (inherent : a.traitRef = none)
    (also : b.traitRef = none) {m m' : ImplMethod} (here : m ∈ a.methods) (there : m' ∈ b.methods)
    (name : m.sig.name = m'.sig.name) (renames : Ty.Renames a.applied b.applied) : Clash a b := by
  have same : canonical [a.target] = canonical [b.target] := by
    have forms := canonical_eq_of_renames renames
    simpa only [applied, traitArgs, inherent, also] using forms
  refine Or.inr ⟨(canonical [a.target], m.sig.name), ?_, ?_⟩
  · rw [methodKeys, inherent]
    exact List.mem_map_of_mem here
  · rw [methodKeys, also, same, name]
    exact List.mem_map_of_mem there

end ImplDecl

namespace Store

variable {ds : List Document}

/-- No renaming of parameters makes one impl the other, as they are written or, where they are
written without aliases, as their types are looked at. -/
structure ToldApart (s : Store) (a b : ImplDecl) : Prop where
  written : ¬ Ty.Renames a.applied b.applied
  expanded : (∀ t ∈ a.applied ++ b.applied, s.normalize t = t) →
    ¬ Ty.Renames (a.applied.map s.normalize) (b.applied.map s.normalize)

theorem toldApart_of_written {s : Store} {a b : ImplDecl}
    (written : ¬ Ty.Renames a.applied b.applied) : s.ToldApart a b := by
  refine ⟨written, fun normal => ?_⟩
  rw [List.forall_mem_append] at normal
  rwa [List.map_congr_left normal.1, List.map_congr_left normal.2, List.map_id', List.map_id']

/-- Impls of different numbers do not clash. -/
theorem Sound.impl_apart (sound : Sound ds) {maxDepth i j : Nat} (apart : i ≠ j) {a b : ImplDecl}
    (first : (ofDocuments ds maxDepth).impl? i = some a)
    (second : (ofDocuments ds maxDepth).impl? j = some b) : ¬ a.Clash b := by
  have pairs := List.pairwise_iff_getElem.mp sound.apart
  obtain ⟨inI, rfl⟩ := List.getElem?_eq_some_iff.mp first
  obtain ⟨inJ, rfl⟩ := List.getElem?_eq_some_iff.mp second
  rcases Nat.lt_or_gt_of_ne apart with before | behind
  · exact pairs i j inI inJ before
  · exact fun clash => pairs j i inJ inI behind clash.symm

/-- Two impls of a trait without bounds are told apart, and so are two impls of types themselves
that share the name of a method. -/
theorem load_distinct (ds : List Document) (maxDepth : Nat) (s : Store)
    (loaded : (load ds maxDepth).value = .ok s) (i j : Nat) (apart : i ≠ j) (a b : ImplDecl)
    (first : s.impl? i = some a) (second : s.impl? j = some b) :
    (∀ t u, a.traitRef = some t → b.traitRef = some u → t.path = u.path → a.bounds = [] →
      b.bounds = [] → s.ToldApart a b) ∧
    (a.traitRef = none → b.traitRef = none → ∀ m ∈ a.methods, ∀ m' ∈ b.methods,
      m.sig.name = m'.sig.name → s.ToldApart a b) := by
  obtain ⟨sound, rfl⟩ := sound_of_load loaded
  have clashless := sound.impl_apart apart first second
  -- What a renaming makes equal has one canonical form, by which the loader finds a clash.
  constructor
  · intro t u implements also path free unbounded
    refine toldApart_of_written fun renames => clashless ?_
    exact ImplDecl.clash_of_trait implements also path free unbounded renames
  · intro inherent also m here m' there name
    refine toldApart_of_written fun renames => clashless ?_
    exact ImplDecl.clash_of_methods inherent also here there name renames

/-- A document with impls of a trait and impls that share the name of a method, for one type and for
another. -/
def stamps (generics : List String) (first second : String) : Document where
  module := "shop"
  origin := "shop"
  version := supportedVersion
  kind := .struct
  types := [("Money", ⟨[], [("cents", .short "u64")], [], none, none, none⟩),
    ("Cash", ⟨[], [], [], none, some "Money", none⟩)]
  traits := [("Named", ⟨[], [], [], none, none⟩)]
  impls := [⟨first, some "Named", generics, [], [], [], false, none⟩,
    ⟨second, some "Named", generics, [], [], [], false, none⟩,
    ⟨first, none, generics, [], [], [("const fn worth(self) -> u64", "1")], false, none⟩,
    ⟨second, none, generics, [], [], [("const fn worth(self) -> u64", "1")], false, none⟩]

/-- The trait of an impl, whether it has no bounds, and the names of its methods. -/
private def heading (d : ImplDecl) : Option TraitRef × Bool × List String :=
  (d.traitRef, d.bounds.isEmpty, d.methods.map (·.sig.name))

private theorem heading_eq {d : ImplDecl} {t : Option TraitRef} {names : List String}
    (same : heading d = (t, true, names)) :
    d.traitRef = t ∧ d.bounds = [] ∧ d.methods.map (·.sig.name) = names := by
  obtain ⟨implements, rest⟩ := Prod.mk.inj same
  obtain ⟨free, methods⟩ := Prod.mk.inj rest
  exact ⟨implements, List.isEmpty_iff.mp free, methods⟩

/-- Impls for all lists and for all options are told apart. -/
theorem load_distinct_stamps :
    ∃ s, (load [stamps ["T"] "Vec<T>" "Option<T>"] 4).value = .ok s ∧
      ∃ a b c d, s.impl? 17 = some a ∧ s.impl? 18 = some b ∧ s.ToldApart a b ∧
        s.impl? 19 = some c ∧ s.impl? 20 = some d ∧ s.ToldApart c d := by
  have made : ∃ s, (load [stamps ["T"] "Vec<T>" "Option<T>"] 4).value = .ok s ∧
      [17, 18, 19, 20].map (fun i => (s.impl? i).map heading) =
        [some (some (.plain "shop::Named" []), true, []),
          some (some (.plain "shop::Named" []), true, []),
          some (none, true, ["worth"]), some (none, true, ["worth"])] := by
    decide +kernel
  obtain ⟨s, loaded, headings⟩ := made
  simp only [List.map_cons, List.cons.injEq, Option.map_eq_some_iff] at headings
  obtain ⟨⟨a, first, nameA⟩, ⟨b, second, nameB⟩, ⟨c, third, nameC⟩, ⟨d, fourth, nameD⟩, -⟩ :=
    headings
  obtain ⟨implements, free, -⟩ := heading_eq nameA
  obtain ⟨also, unbounded, -⟩ := heading_eq nameB
  obtain ⟨inherent, -, methods⟩ := heading_eq nameC
  obtain ⟨inherent', -, methods'⟩ := heading_eq nameD
  obtain ⟨m, here, name⟩ := List.mem_map.mp (methods ▸ List.mem_singleton_self "worth")
  obtain ⟨m', there, name'⟩ := List.mem_map.mp (methods' ▸ List.mem_singleton_self "worth")
  exact ⟨s, loaded, a, b, c, d, first, second,
    (load_distinct _ 4 s loaded 17 18 (by decide) a b first second).1 _ _ implements also rfl free
      unbounded, third, fourth,
    (load_distinct _ 4 s loaded 19 20 (by decide) c d third fourth).2 inherent inherent' m here m'
      there (name.trans name'.symm)⟩

/-- Impls for a struct and for an alias of it load, though nothing tells them apart once the alias
is expanded. -/
theorem load_indistinct :
    ∃ s, (load [stamps [] "Money" "Cash"] 4).value = .ok s ∧
      (∃ a b t u, s.impl? 17 = some a ∧ s.impl? 18 = some b ∧ a.traitRef = some t ∧
        b.traitRef = some u ∧ t.path = u.path ∧ a.bounds = [] ∧ b.bounds = [] ∧
        Ty.Renames (a.applied.map s.normalize) (b.applied.map s.normalize)) ∧
      ∃ c d, s.impl? 19 = some c ∧ s.impl? 20 = some d ∧ c.traitRef = none ∧ d.traitRef = none ∧
        (∃ m ∈ c.methods, ∃ m' ∈ d.methods, m.sig.name = m'.sig.name) ∧
        Ty.Renames (c.applied.map s.normalize) (d.applied.map s.normalize) := by
  have made : ∃ s, (load [stamps [] "Money" "Cash"] 4).value = .ok s ∧
      [17, 18, 19, 20].map (fun i => (s.impl? i).map heading) =
        [some (some (.plain "shop::Named" []), true, []),
          some (some (.plain "shop::Named" []), true, []),
          some (none, true, ["worth"]), some (none, true, ["worth"])] ∧
      ∀ i ∈ [17, 18, 19, 20], (s.impl? i).map (fun d => d.applied.map s.normalize) =
        some [.named "shop::Money" []] := by
    decide +kernel
  have unchanged : Ty.Renames [.named "shop::Money" []] [.named "shop::Money" []] :=
    ⟨id, fun _ _ _ _ same => same, by decide⟩
  obtain ⟨s, loaded, headings, types⟩ := made
  have expanded {i : Nat} {d : ImplDecl} (among : i ∈ [17, 18, 19, 20])
      (found : s.impl? i = some d) :
      d.applied.map s.normalize = [.named "shop::Money" []] := by
    have types := types i among
    rw [found] at types
    exact Option.some.inj types
  simp only [List.map_cons, List.cons.injEq, Option.map_eq_some_iff] at headings
  obtain ⟨⟨a, first, nameA⟩, ⟨b, second, nameB⟩, ⟨c, third, nameC⟩, ⟨d, fourth, nameD⟩, -⟩ :=
    headings
  obtain ⟨implements, free, -⟩ := heading_eq nameA
  obtain ⟨also, unbounded, -⟩ := heading_eq nameB
  obtain ⟨inherent, -, methods⟩ := heading_eq nameC
  obtain ⟨inherent', -, methods'⟩ := heading_eq nameD
  obtain ⟨m, here, name⟩ := List.mem_map.mp (methods ▸ List.mem_singleton_self "worth")
  obtain ⟨m', there, name'⟩ := List.mem_map.mp (methods' ▸ List.mem_singleton_self "worth")
  refine ⟨s, loaded, ⟨a, b, _, _, first, second, implements, also, rfl, free, unbounded, ?_⟩,
    c, d, third, fourth, inherent, inherent', ⟨m, here, m', there, name.trans name'.symm⟩, ?_⟩
  · rw [expanded (by decide) first, expanded (by decide) second]
    exact unchanged
  · rw [expanded (by decide) third, expanded (by decide) fourth]
    exact unchanged

end Store
end Pipeline
