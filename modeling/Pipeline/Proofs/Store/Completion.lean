import Mathlib.Data.List.Nodup
import Mathlib.Logic.Equiv.Basic
import Pipeline.Proofs.Obligation.Renumbering
import Pipeline.Store.Completion

/-!
# Impls completed in any order

Whether an impl is added for a wrapper or a component depends on which impls are written, not on
their order, and on no other impl that is added. Two impls clash in either order. The impls of the
same declarations in another order are thus the same ones under other numbers.
-/

set_option autoImplicit false
set_option relaxedAutoImplicit false

namespace Pipeline

namespace ImplDecl

variable {context : Context}

/-! ### Impls that are added -/

theorem isWritten_perm {impls impls' : List ImplDecl} (perm : impls.Perm impls')
    (path trait : String) : isWritten impls path trait = isWritten impls' path trait :=
  perm.any_eq

theorem addWrappers_perm {impls impls' : List ImplDecl} (perm : impls.Perm impls')
    (types : List TypeDecl) :
    (addWrappers context impls types).value.Perm (addWrappers context impls' types).value := by
  induction types generalizing impls impls' with
  | nil => exact perm
  | cons decl rest ih =>
    unfold addWrappers
    cases ofWrapper? context decl with
    | none => exact ih perm
    | some d =>
      simp only [isWritten_perm perm]
      split
      · exact ih perm
      · exact ih (perm.append_right [d])

/-- The impl that is added for a component. -/
def ofPorts? (context : Context) (impls : List ImplDecl) (p : Ports) : Option ImplDecl :=
  (context.types.get? p.path).bind fun decl =>
    match p.capability decl with
    | .error _ => none
    | .ok (traitRef, assoc) =>
      if isWritten impls p.path traitRef.path then none
      else some (synthesize context decl traitRef assoc false)

/-- The fault of a component without the types that its role needs. -/
def portFaults (context : Context) (p : Ports) : List Diagnostic :=
  ((context.types.get? p.path).map fun decl =>
    match p.capability decl with
    | .error fault => [⟨p.place, .invalidDeclaration fault⟩]
    | .ok _ => []).getD []

/-- The impl of a component is written for no other path. -/
private theorem isWritten_synthesize {impls : List ImplDecl} {decl : TypeDecl} {traitRef : TraitRef}
    {assoc : List (String × Ty)} {path : String} (other : decl.path ≠ path) (trait : String) :
    isWritten (impls ++ [synthesize context decl traitRef assoc false]) path trait =
      isWritten impls path trait := by
  have target : (synthesize context decl traitRef assoc false).target.path? = some decl.path := rfl
  simp [isWritten, target, other]

/-- Each component has its impl added by itself. -/
theorem addComponents_value
    (own : ∀ path decl, context.types.get? path = some decl → decl.path = path)
    {ports : List Ports} (once : (ports.map (·.path)).Nodup) (impls : List ImplDecl) :
    (addComponents context impls ports).value =
      (impls ++ ports.filterMap (ofPorts? context impls), ports.flatMap (portFaults context)) := by
  induction ports generalizing impls with
  | nil => simp [addComponents]
  | cons p rest ih =>
    obtain ⟨fresh, once⟩ := List.nodup_cons.mp once
    unfold addComponents
    rw [List.filterMap_cons, List.flatMap_cons]
    unfold ofPorts? portFaults
    cases found : context.types.get? p.path with
    | none => exact ih once impls
    | some decl =>
      simp only [Option.bind_some, Option.map_some, Option.getD_some]
      cases p.capability decl with
      | error fault =>
        simp only [Logged.value_bind, Logged.value_pure, ih once impls]
        rfl
      | ok provided =>
        obtain ⟨traitRef, assoc⟩ := provided
        dsimp only
        split
        · exact ih once impls
        · simp only [Logged.value_bind, ih once, List.append_assoc, List.nil_append]
          -- The impl just added is for another path than those of the components behind.
          have same : ∀ q ∈ rest, ofPorts? context
              (impls ++ [synthesize context decl traitRef assoc false]) q =
                ofPorts? context impls q := by
            intro q member
            have other : decl.path ≠ q.path := by
              rw [own _ _ found]
              exact fun same => fresh (List.mem_map.mpr ⟨q, member, same.symm⟩)
            simp only [ofPorts?, isWritten_synthesize other]
          rw [List.filterMap_congr same]
          rfl

theorem addComponents_perm
    (own : ∀ path decl, context.types.get? path = some decl → decl.path = path)
    {ports ports' : List Ports} (perm : ports.Perm ports') (once : (ports.map (·.path)).Nodup)
    {impls impls' : List ImplDecl} (same : impls.Perm impls') :
    (addComponents context impls ports).value.1.Perm (addComponents context impls' ports').value.1 ∧
      (addComponents context impls ports).value.2.Perm
        (addComponents context impls' ports').value.2 := by
  have added : ofPorts? context impls' = ofPorts? context impls := by
    funext p
    simp only [ofPorts?, isWritten_perm same]
  rw [addComponents_value own once, addComponents_value own ((perm.map _).nodup_iff.mp once), added]
  exact ⟨same.append (perm.filterMap _), perm.flatMap_right _⟩

/-! ### Clashes -/

/-- Nothing tells two impls apart, or two of their methods. -/
def Clash (a b : ImplDecl) : Prop :=
  a.traitKey?.isSome = true ∧ a.traitKey? = b.traitKey? ∨
    ∃ key ∈ a.methodKeys, key ∈ b.methodKeys

theorem Clash.symm {a b : ImplDecl} (clash : Clash a b) : Clash b a := by
  rcases clash with ⟨keyed, same⟩ | ⟨key, here, there⟩
  · exact Or.inl ⟨same ▸ keyed, same.symm⟩
  · exact Or.inr ⟨key, there, here⟩

theorem clashes_eq_nil {before : List ImplDecl} {d : ImplDecl} :
    clashes before d = [] ↔ ∀ b ∈ before, ¬ Clash b d := by
  unfold clashes
  cases implements : d.traitRef with
  | some t =>
    have methods : d.methodKeys = [] := by simp [methodKeys, implements]
    have clash (b : ImplDecl) :
        Clash b d ↔ d.traitKey?.isSome = true ∧ b.traitKey? = d.traitKey? := by
      simp only [Clash, methods, List.not_mem_nil, and_false, exists_false, or_false]
      exact and_congr_left fun same => by rw [same]
    simp [clash]
    tauto
  | none =>
    have keyless : d.traitKey? = none := by simp [traitKey?, implements]
    have clash (b : ImplDecl) : Clash b d ↔ ∃ key ∈ b.methodKeys, key ∈ d.methodKeys := by
      refine or_iff_right ?_
      rintro ⟨keyed, same⟩
      rw [same, keyless] at keyed
      cases keyed
    simp [clash]
    tauto

/-- Impls are at fault if any two of them clash. -/
theorem allClashes_eq_nil {before ds : List ImplDecl} :
    allClashes before ds = [] ↔
      (∀ d ∈ ds, ∀ b ∈ before, ¬ Clash b d) ∧ ds.Pairwise fun a b => ¬ Clash a b := by
  induction ds generalizing before with
  | nil => simp [allClashes]
  | cons d rest ih =>
    rw [allClashes, List.append_eq_nil_iff, clashes_eq_nil, ih, List.pairwise_cons,
      List.forall_mem_cons]
    simp only [List.mem_append, List.mem_singleton, or_imp, forall_and, forall_eq]
    tauto

/-- Which impls clash does not depend on their numbers. -/
theorem allClashes_number (impls : List ImplDecl) :
    allClashes [] (number impls) = [] ↔ impls.Pairwise fun a b => ¬ Clash a b := by
  rw [allClashes_eq_nil, number, List.pairwise_map]
  have unnumbered : impls.zipIdx.map (·.1) = impls := List.zipIdx_map_fst 0 impls
  conv_rhs => rw [← unnumbered, List.pairwise_map]
  exact and_iff_right (fun _ _ => nofun)

/-! ### Numbers -/

theorem number_getElem? (impls : List ImplDecl) (i : Nat) :
    (number impls)[i]? = impls[i]?.map fun d => { d with id := i } := by
  simp [number, List.getElem?_zipIdx, Function.comp_def]

/-- An impl is found under its number. -/
theorem number_getElem?_id {impls : List ImplDecl} {d : ImplDecl} (member : d ∈ number impls) :
    (number impls)[d.id]? = some d := by
  obtain ⟨i, found⟩ := List.mem_iff_getElem?.mp member
  have numbered := found
  rw [number_getElem?] at numbered
  obtain ⟨e, -, rfl⟩ := Option.map_eq_some_iff.mp numbered
  exact found

/-- Positions behind the first one, moved like all positions. -/
def shift (σ : Equiv.Perm Nat) : Equiv.Perm Nat where
  toFun
    | 0 => 0
    | i + 1 => σ i + 1
  invFun
    | 0 => 0
    | i + 1 => σ.symm i + 1
  left_inv i := by cases i <;> simp
  right_inv i := by cases i <;> simp

/-- A list in another order has each member at another position. -/
theorem exists_positions {α : Type} {l l' : List α} (perm : l.Perm l') :
    ∃ σ : Equiv.Perm Nat, ∀ i, l'[σ i]? = l[i]? := by
  induction perm with
  | nil => exact ⟨Equiv.refl Nat, fun _ => rfl⟩
  | cons a _ ih =>
    obtain ⟨σ, positions⟩ := ih
    refine ⟨shift σ, fun i => ?_⟩
    cases i with
    | zero => rfl
    | succ i => exact positions i
  | swap a b l =>
    refine ⟨Equiv.swap 0 1, fun i => ?_⟩
    match i with
    | 0 => simp
    | 1 => simp
    | i + 2 =>
      rw [Equiv.swap_apply_of_ne_of_ne (by omega) (by omega)]
      simp
  | trans _ _ ih ih' =>
    obtain ⟨σ, positions⟩ := ih
    obtain ⟨τ, positions'⟩ := ih'
    exact ⟨σ.trans τ, fun i => (positions' (σ i)).trans (positions i)⟩

private theorem number_nodup (impls : List ImplDecl) : ((number impls).map (·.id)).Nodup := by
  have ids : (number impls).map (·.id) = List.range impls.length := by
    simp [number, Function.comp_def, List.zipIdx_map_snd, List.range_eq_range']
  rw [ids]
  exact List.nodup_range

/-- Impls in another order are the same ones under other numbers. -/
theorem exists_renumber {impls impls' : List ImplDecl} (perm : impls.Perm impls') :
    ∃ σ : Equiv.Perm Nat, ((number impls).map (·.renumber σ)).Perm (number impls') ∧
      ∀ i, (number impls')[σ i]? = (number impls)[i]?.map (·.renumber σ) := by
  obtain ⟨σ, positions⟩ := exists_positions perm
  have moved (i : Nat) : (number impls')[σ i]? = (number impls)[i]?.map (·.renumber σ) := by
    rw [number_getElem?, number_getElem?, positions, Option.map_map]
    rfl
  refine ⟨σ, ?_, moved⟩
  have once : (((number impls).map (·.renumber σ)).map (·.id)).Nodup := by
    have ids := (number_nodup impls).map σ.injective
    rwa [List.map_map] at ids ⊢
  refine (List.perm_ext_iff_of_nodup (List.Nodup.of_map _ once)
    (List.Nodup.of_map _ (number_nodup impls'))).mpr fun d => ?_
  rw [List.mem_iff_getElem?, List.mem_iff_getElem?]
  simp only [List.getElem?_map, ← moved]
  exact σ.exists_congr_right (q := fun i => (number impls')[i]? = some d)

/-! ### All impls -/

/-- The same declarations in another order are completed to the same impls in another order, and
without faults if they are in the first. -/
theorem completeAll_perm
    (own : ∀ path decl, context.types.get? path = some decl → decl.path = path)
    {pending pending' : List PendingImpl} (perm : pending.Perm pending')
    {ports ports' : List Ports} (permPorts : ports.Perm ports') (once : (ports.map (·.path)).Nodup)
    (clean : (completeAll context pending ports).value.2 = []) :
    (completeAll context pending' ports').value.2 = [] ∧
      ∃ σ : Equiv.Perm Nat,
        ((completeAll context pending ports).value.1.map (·.renumber σ)).Perm
          (completeAll context pending' ports').value.1 ∧
        ∀ i, (completeAll context pending' ports').value.1[σ i]? =
          (completeAll context pending ports).value.1[i]?.map (·.renumber σ) := by
  have completed := perm.map (·.complete context)
  have written := (completed.filter (·.faults.isEmpty)).filterMap (·.value)
  obtain ⟨all, faults⟩ := addComponents_perm own permPorts once
    (addWrappers_perm written context.types.values)
  simp only [completeAll, Logged.value_bind, Logged.value_pure, List.append_eq_nil_iff,
    allClashes_number] at clean ⊢
  obtain ⟨⟨prevented, incapable⟩, apart⟩ := clean
  refine ⟨⟨⟨?_, ?_⟩, ?_⟩, exists_renumber all⟩
  · exact List.perm_nil.mp (prevented ▸ (completed.flatMap_right (·.faults)).symm)
  · exact List.perm_nil.mp (incapable ▸ faults.symm)
  · exact (all.pairwise_iff fun apart clash => apart clash.symm).mp apart

end ImplDecl
end Pipeline
