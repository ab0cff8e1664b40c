import Pipeline.Proofs.Store.Canonical
import Pipeline.Proofs.Ty.Substitution

/-!
# What holds of every impl

An impl of a loaded store is written in a document, or made for a wrapper or a component. What
holds of each of these and does not depend on numbers holds of all impls: they give an argument for
each parameter of their trait, their types mention no parameters but their own, and no two of them
are alike.
-/

set_option autoImplicit false
set_option relaxedAutoImplicit false

namespace Pipeline.Store

open Noted

variable {ds : List Document}

/-- Every impl is written, or made for a wrapper or a component. -/
theorem Sound.impl_induction (sound : Sound ds) {motive : ImplDecl → Prop}
    (numbered : ∀ d i, motive d → motive { d with id := i })
    (written : ∀ p ∈ (declarationsOf ds).1.pending, ∀ d, p.complete (contextOf ds) = pure d →
      motive d)
    (wrapper : ∀ decl ∈ (declarationsOf ds).1.types.values, ∀ inner,
      decl.kind = .transparent inner → motive (ImplDecl.synthesize (contextOf ds) decl
        (.plain Builtin.transparent []) [(Builtin.inner, inner)] true))
    (component : ∀ p ∈ (declarationsOf ds).1.ports, ∀ decl t assoc,
      (declarationsOf ds).1.types.get? p.path = some decl → p.capability decl = .ok (t, assoc) →
      motive (ImplDecl.synthesize (contextOf ds) decl t assoc false))
    {d : ImplDecl} (member : d ∈ (completedOf ds).1) : motive d := by
  obtain ⟨here, wrappers, components, parts, impls⟩ := sound.parts
  rw [impls, ImplDecl.number] at member
  obtain ⟨⟨d, i⟩, inside, rfl⟩ := List.mem_map.mp member
  refine numbered d i ?_
  rcases List.mem_append.mp (List.fst_mem_of_mem_zipIdx inside) with inside | made
  · obtain ⟨p, pending, done⟩ := exists_of_forall₂ parts.written inside
    exact written p pending d done
  rcases List.mem_append.mp made with inside | inside
  · obtain ⟨decl, declared, one⟩ := parts.wrappers d inside
    obtain ⟨inner, kind, rfl⟩ := ImplDecl.ofWrapper?_eq_some one
    exact wrapper decl declared inner kind
  · obtain ⟨p, port, before, one⟩ := parts.components d inside
    obtain ⟨decl, t, assoc, found, provided, rfl⟩ := ImplDecl.ofPorts?_eq_some one
    exact component p port decl t assoc found provided

/-- An impl gives an argument for each parameter of its trait. -/
theorem Sound.length_traitArgs (sound : Sound (Prelude.document :: ds)) {d : ImplDecl}
    (member : d ∈ (completedOf (Prelude.document :: ds)).1) {t : TraitRef}
    (implements : d.traitRef = some t) {trait : TraitDecl}
    (found : (declarationsOf (Prelude.document :: ds)).1.traits.get? t.path = some trait) :
    t.args.length = trait.generics.length := by
  have provided {t : TraitRef} {assoc : List (String × Ty)} {trait : TraitDecl}
      (provides : ∃ e, Prelude.Provides t assoc e)
      (found : (declarationsOf (Prelude.document :: ds)).1.traits.get? t.path = some trait) :
      t.args.length = trait.generics.length := by
    obtain ⟨e, provides⟩ := provides
    obtain ⟨own, there, -, -, reads⟩ := sound.prelude_trait provides.listed
    rw [provides.path, there] at found
    cases found
    rw [provides.args, reads.generics]
  refine sound.impl_induction (motive := fun d => ∀ t trait, d.traitRef = some t →
    (declarationsOf (Prelude.document :: ds)).1.traits.get? t.path = some trait →
      t.args.length = trait.generics.length) (fun _ _ holds => holds) ?_ ?_ ?_ member t trait
    implements found
  · intro p _ d done t trait implements found
    rcases PendingImpl.complete_eq_pure done with ⟨none, rfl⟩ | ⟨written, own, -, there, completes⟩
    · cases implements.symm.trans none
    · cases completes.traitRef.symm.trans implements
      cases there.symm.trans found
      exact TraitDecl.length_completeArgs completes.few
  · rintro decl - inner - t trait ⟨⟩ found
    exact provided (Prelude.provides_transparent inner) found
  · rintro p - decl t assoc - capable u trait ⟨⟩ found
    exact provided (Prelude.provides_capability capable) found

/-- The target of an impl mentions no parameters but those of the impl. -/
theorem Sound.target_own (sound : Sound ds) {d : ImplDecl} (member : d ∈ (completedOf ds).1) :
    d.target.Over (.own d.generics true) := by
  refine sound.impl_induction (motive := fun d => d.target.Over (.own d.generics true))
    (fun _ _ holds => holds) ?_ (fun decl _ _ _ => asTy_own decl true)
    (fun _ _ decl _ _ _ _ => asTy_own decl true) member
  intro p pending d done
  have known := (sound.pending_known pending).mono (Site.known_within_own _ _)
  have target := (Ty.allOver_append.mp (Ty.allOver_append.mp known).1).2 _ List.mem_cons_self
  rcases PendingImpl.complete_eq_pure done with ⟨-, rfl⟩ | ⟨written, trait, -, -, completes⟩
  · exact target
  · rw [completes.result]
    exact target

/-- Arguments for all parameters of a declaration are arguments for all that its types mention. -/
theorem covers_of_own {generics : List Generic} {args : List Ty} {t : Ty} {selfTy : Bool}
    (own : t.Over (.own generics selfTy)) (all : generics.length ≤ args.length) :
    Generic.Covers generics args t := by
  refine Ty.Over.mono own fun part admitted => ?_
  cases part with
  | named path args => rfl
  | promise path args assoc => rfl
  | param name =>
    have listed : name ∈ Generic.names generics := List.contains_iff_mem.mp admitted
    refine Option.isSome_iff_ne_none.mpr fun missing => Generic.not_mem_of_get?_assign missing ?_
    rwa [List.take_of_length_le all]
  | _ => rfl

/-- No two impls clash. -/
theorem Sound.apart (sound : Sound ds) :
    (completedOf ds).1.Pairwise fun a b => ¬ ImplDecl.Clash a b := by
  have clean := sound.impls
  rw [completedOf, ImplDecl.completeAll] at clean ⊢
  simp only [Logged.value_bind, Logged.value_pure, List.append_eq_nil_iff] at clean ⊢
  exact (ImplDecl.allClashes_eq_nil.mp clean.2).2

end Pipeline.Store
