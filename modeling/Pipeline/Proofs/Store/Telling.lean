import Pipeline.Proofs.Store.Reading

/-!
# What keeps a declaration from being read

A declaration that is left out has told a fault. In documents without faults every entry is thus
read, and every impl completed.
-/

set_option autoImplicit false
set_option relaxedAutoImplicit false

namespace Pipeline

open Noted

namespace Noted

variable {α β : Type}

theorem Tells.ite {c : Prop} [Decidable c] {x y : Noted α} (yes : Tells x) (no : Tells y) :
    Tells (if c then x else y) := by
  split
  · exact yes
  · exact no

end Noted

namespace Site

variable {site : Site} {place : Location}

theorem tells_resolve (t : Ty) : Tells (site.resolve place t) := Tells.ofExcept _ _ _

theorem tells_resolveTrait (t : TraitRef) : Tells (site.resolveTrait place t) :=
  Tells.ofExcept _ _ _

theorem tells_ty (text : String) : Tells (site.ty place text) :=
  (Tells.ofExcept _ _ _).bind tells_resolve

theorem tells_optTy (text : Option String) : Tells (site.optTy place text) := by
  cases text with
  | none => exact Tells.pure none
  | some text => exact (tells_ty text).map some

theorem tells_traitRef (text : String) : Tells (site.traitRef place text) :=
  (Tells.ofExcept _ _ _).bind tells_resolveTrait

theorem tells_optTraitRef (text : Option String) : Tells (site.optTraitRef place text) := by
  cases text with
  | none => exact Tells.pure none
  | some text => exact (tells_traitRef text).map some

theorem tells_signature (text : String) : Tells (site.signature place text) := by
  refine (Tells.ofExcept _ _ _).bind fun sig => Tells.bind (Tells.mapM (fun p => ?_) _) fun _ => ?_
  · exact (tells_resolve p.2).bind fun t => Tells.pure (p.1, t)
  · exact (tells_resolve sig.ret).bind fun ret => Tells.pure _

theorem tells_boundsOn (t : Ty) (written : List WrittenBound) :
    Tells (site.boundsOn place t written) := by
  refine Tells.mapM (fun b => ?_) written
  exact (tells_resolveTrait b.traitRef).bind fun trait => Tells.pure _

theorem tells_generic (written : WrittenGeneric) : Tells (site.generic place written) := by
  have kind : Tells (site.genericKind place written.constTy) := by
    cases written.constTy with
    | none => exact Tells.pure _
    | some t => exact (tells_resolve t).map _
  have default : Tells (site.genericDefault place written.default) := by
    cases written.default with
    | none => exact Tells.pure _
    | some t => exact (tells_resolve t).map _
  rw [generic_eq]
  refine kind.bind fun kind => default.bind fun default => ?_
  exact (tells_boundsOn _ _).bind fun bounds => Tells.pure _

theorem tells_genericParams (written : List String) : Tells (site.genericParams place written) := by
  refine Tells.bind (Tells.mapM (fun p => Tells.ofExcept _ _ _) _) fun parsed => ?_
  refine Tells.ite (Tells.fail _ _) (Tells.bind (Tells.mapM (fun p => ?_) _) fun read => ?_)
  · exact tells_generic p.1
  · exact Tells.pure _

theorem tells_plainGenerics (written : List String) : Tells (site.plainGenerics place written) := by
  refine (tells_genericParams written).bind fun read => ?_
  exact Tells.ite (Tells.pure read.1) (Tells.fail _ _)

theorem tells_whereBounds (written : List String) : Tells (site.whereBounds place written) := by
  refine Tells.bind (Tells.mapM (fun p => ?_) _) fun read => Tells.pure read.flatten
  refine (Tells.ofExcept _ _ _).bind fun clause => ?_
  exact (tells_resolve clause.1).bind fun t => tells_boundsOn t clause.2

theorem tells_snippet (text : String) : Tells (Snippet.ofText place text) := Tells.ofExcept _ _ _

theorem tells_snippet? (text : Option String) : Tells (Snippet.ofText? place text) := by
  cases text with
  | none => exact Tells.pure none
  | some text => exact (tells_snippet text).map some

theorem tells_body (text : String) : Tells (MethodBody.ofText place text) :=
  Tells.ite (Tells.pure _) ((tells_snippet text).map _)

/-! ### Types and traits -/

theorem tells_typeKind (e : TypeEntry) : Tells (site.typeKind place e) := by
  unfold typeKind
  refine Tells.ite ?_ (Tells.ite (Tells.ite (Tells.pure _) (Tells.fail _ _)) ?_)
  · refine Tells.bind (Tells.mapM (fun f => ?_) _) fun fields => Tells.pure _
    exact (tells_ty f.2.ty).bind fun t => Tells.pure _
  · split
    · exact (tells_ty _).bind fun t => Tells.pure _
    · exact (tells_ty _).bind fun t => Tells.pure _
    · exact Tells.pure _

theorem tells_typeDecl (name : String) (e : TypeEntry) : Tells (site.typeDecl place name e) := by
  refine (tells_plainGenerics e.generics).bind fun generics => Tells.ite (Tells.fail _ _) ?_
  exact (tells_typeKind e).bind fun kind => Tells.pure _

theorem tells_traitMethods (trait : String) (entries : List MethodEntry) (seen : List String)
    (i : Nat) : Tells (site.traitMethods place trait seen i entries) := by
  induction entries generalizing seen i with
  | nil => exact Tells.pure []
  | cons e rest ih =>
    refine (tells_signature e.sig).bind fun sig => Tells.ite (Tells.fail _ _) ?_
    exact (tells_snippet? e.default).bind fun body => (ih _ _).bind fun methods => Tells.pure _

theorem tells_specialization (e : SpecializationEntry) : Tells (site.specialization place e) := by
  refine (tells_traitRef e.target).bind fun target => ?_
  refine Tells.bind (Tells.mapM (fun d => ?_) _) fun defaults => Tells.pure _
  exact (tells_snippet d.2).bind fun body => Tells.pure _

theorem tells_traitDecl (name : String) (e : TraitEntry) : Tells (site.traitDecl place name e) := by
  have specialization (s : Site) (p : Location) :
      Tells (s.optSpecialization p e.specialization) := by
    cases e.specialization with
    | none => exact Tells.pure none
    | some special => exact (tells_specialization special).map some
  rw [traitDecl_eq]
  refine (tells_plainGenerics e.generics).bind fun generics => ?_
  refine Tells.bind (Tells.mapM (fun a => ?_) _) fun assoc => ?_
  · exact (tells_optTraitRef a.2).bind fun bound => Tells.pure _
  · refine (tells_traitMethods name e.methods [] 0).bind fun methods => ?_
    exact (specialization _ _).bind fun special => Tells.pure _

/-! ### Impls, extensions and components -/

theorem tells_implMethods (ofTrait : Bool) (entries : List (String × String))
    (seen : List String) : Tells (site.implMethods place ofTrait seen entries) := by
  induction entries generalizing seen with
  | nil => exact Tells.pure []
  | cons e rest ih =>
    refine (tells_body e.2).bind fun body => Tells.bind ?_ fun sig => ?_
    · exact Tells.ite (tells_signature e.1) (Tells.ite (Tells.pure _) (Tells.fail _ _))
    · exact Tells.ite (Tells.fail _ _) ((ih _).bind fun methods => Tells.pure _)

theorem tells_implDecl (e : ImplEntry) : Tells (site.implDecl place e) := by
  refine (tells_genericParams e.generics).bind fun generics => ?_
  refine (tells_ty e.target).bind fun target => ?_
  refine (tells_optTraitRef e.traitRef).bind fun trait => ?_
  refine (tells_whereBounds e.bounds).bind fun bounds => Tells.ite (Tells.fail _ _) ?_
  refine Tells.bind (Tells.mapM (fun a => ?_) _) fun assoc => ?_
  · exact (tells_ty a.2).bind fun t => Tells.pure _
  · exact (tells_implMethods _ e.methods []).bind fun methods => Tells.pure _

theorem tells_component (d : Document) (kind : ComponentKind) : Tells (site.component d kind) := by
  refine (tells_plainGenerics d.generics).bind fun generics => ?_
  refine (tells_optTy d.input).bind fun input => (tells_optTy d.output).bind fun output => ?_
  refine (tells_optTy d.item).bind fun item => ?_
  refine Tells.bind (Tells.mapM (fun c => ?_) _) fun columns => ?_
  · exact (tells_ty c.2.ty).bind fun t => (Tells.collect _ _).bind fun checks => Tells.pure _
  · refine (Tells.collect _ _).bind fun columnChecks => ?_
    refine Tells.bind (Tells.mapM (fun p => ?_) _) fun params => ?_
    · refine (tells_ty p.2.ty).bind fun t => (tells_snippet? p.2.default).bind fun default => ?_
      exact (Tells.collect _ _).bind fun checks => Tells.pure _
    · exact (Tells.collect _ _).bind fun checks => Tells.pure _

end Site
end Pipeline
