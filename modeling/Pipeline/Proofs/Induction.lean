import Pipeline.Document.Basic
import Pipeline.Expr.Basic
import Pipeline.Value.Basic

/-!
# Induction on types, values and expressions

Types, values, expressions and written values hold lists of themselves. The hypotheses about the members of
a list are stated by membership, so that a proof needs no second statement about lists.
-/

set_option autoImplicit false
set_option relaxedAutoImplicit false

namespace Pipeline

namespace Ty

@[elab_as_elim]
theorem inductionOn {motive : Ty → Prop} (t : Ty)
    (named : ∀ path args, (∀ t ∈ args, motive t) → motive (.named path args))
    (param : ∀ name, motive (.param name))
    (const : ∀ value, motive (.const value))
    (fn : ∀ params ret, (∀ t ∈ params, motive t) → motive ret → motive (.fn params ret))
    (promise : ∀ path args assoc, (∀ t ∈ args, motive t) → (∀ c ∈ assoc, motive c.2) →
      motive (.promise path args assoc))
    (projection : ∀ base name, motive base → motive (.projection base name))
    (selfTy : motive .selfTy) (infer : motive .infer) (unit : motive .unit) : motive t := by
  refine @Ty.rec motive (fun ts => ∀ t ∈ ts, motive t) (fun assoc => ∀ c ∈ assoc, motive c.2)
    (fun c => motive c.2) named param const fn promise projection selfTy infer unit (by simp) ?_
    (by simp) ?_ (fun _ _ ih => ih) t
  · intro t rest here there
    exact List.forall_mem_cons.mpr ⟨here, there⟩
  · intro c rest here there
    exact List.forall_mem_cons.mpr ⟨here, there⟩

end Ty

namespace Value

/-- True for a value that holds no other values. -/
def isLeaf : Value → Bool
  | list _ => false
  | some _ => false
  | record _ _ => false
  | wrapped _ _ => false
  | _ => true

@[elab_as_elim]
theorem inductionOn {motive : Value → Prop} (v : Value)
    (leaf : ∀ v, v.isLeaf = true → motive v)
    (list : ∀ items, (∀ v ∈ items, motive v) → motive (.list items))
    (some : ∀ v, motive v → motive (.some v))
    (record : ∀ t fields, (∀ f ∈ fields, motive f.2) → motive (.record t fields))
    (wrapped : ∀ t v, motive v → motive (.wrapped t v)) : motive v := by
  refine @Value.rec motive (fun items => ∀ v ∈ items, motive v)
    (fun fields => ∀ f ∈ fields, motive f.2) (fun f => motive f.2) (leaf _ rfl) (fun _ => leaf _ rfl)
    (fun _ => leaf _ rfl) (fun _ => leaf _ rfl) (fun _ => leaf _ rfl) list (leaf _ rfl) some record
    (fun _ _ => leaf _ rfl) wrapped (fun _ _ => leaf _ rfl) (fun _ _ => leaf _ rfl)
    (fun _ _ => leaf _ rfl) (by simp) ?_ (by simp) ?_ (fun _ _ ih => ih) v
  · intro v rest here there
    exact List.forall_mem_cons.mpr ⟨here, there⟩
  · intro f rest here there
    exact List.forall_mem_cons.mpr ⟨here, there⟩

end Value

namespace Expr

@[elab_as_elim]
theorem inductionOn {motive : Expr → Prop} (e : Expr)
    (lit : ∀ l, motive (.lit l))
    (ident : ∀ name, motive (.ident name))
    (self : motive .self)
    (path : ∀ segments, motive (.path segments))
    (field : ∀ base name optional, motive base → motive (.field base name optional))
    (method : ∀ receiver name args optional, motive receiver → (∀ e ∈ args, motive e) →
      motive (.method receiver name args optional))
    (call : ∀ callee args, (∀ e ∈ args, motive e) → motive (.call callee args))
    (unary : ∀ op operand, motive operand → motive (.unary op operand))
    (binary : ∀ op left right, motive left → motive right → motive (.binary op left right))
    (list : ∀ items, (∀ e ∈ items, motive e) → motive (.list items))
    (record : ∀ path fields, (∀ f ∈ fields, motive f.2) → motive (.record path fields))
    (closure : ∀ params body source, motive body → motive (.closure params body source)) :
    motive e := by
  refine @Expr.rec motive (fun es => ∀ e ∈ es, motive e) (fun fields => ∀ f ∈ fields, motive f.2)
    (fun f => motive f.2) lit ident self path (fun base name optional ih => field base name optional ih)
    method call unary binary list record closure (by simp) ?_ (by simp) ?_ (fun _ _ ih => ih) e
  · intro e rest here there
    exact List.forall_mem_cons.mpr ⟨here, there⟩
  · intro f rest here there
    exact List.forall_mem_cons.mpr ⟨here, there⟩

end Expr

namespace RawValue

@[elab_as_elim]
theorem inductionOn {motive : RawValue → Prop} (raw : RawValue)
    (null : motive .null)
    (bool : ∀ b, motive (.bool b))
    (int : ∀ n, motive (.int n))
    (float : ∀ x, motive (.float x))
    (str : ∀ s, motive (.str s))
    (seq : ∀ items, (∀ v ∈ items, motive v) → motive (.seq items))
    (map : ∀ entries, (∀ e ∈ entries, motive e.2) → motive (.map entries))
    (tagged : ∀ tag v, motive v → motive (.tagged tag v)) : motive raw := by
  refine @RawValue.rec motive (fun items => ∀ v ∈ items, motive v)
    (fun entries => ∀ e ∈ entries, motive e.2) (fun e => motive e.2) null bool int float str seq map
    tagged (by simp) ?_ (by simp) ?_ (fun _ _ _ ih => ih) raw
  · intro v rest here there
    exact List.forall_mem_cons.mpr ⟨here, there⟩
  · intro e rest here there
    exact List.forall_mem_cons.mpr ⟨here, there⟩

end RawValue
end Pipeline
