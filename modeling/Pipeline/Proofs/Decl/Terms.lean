import Pipeline.Document.Basic
import Pipeline.Proofs.Decl.Signature
import Pipeline.Proofs.Scope.Resolution
import Pipeline.Schema.Basic

/-!
# The types in declarations

Each declaration holds types in several places: in its generic parameters, its bounds, its
signatures and so on. They are listed here, those of declarations as a store holds them and those
of texts before names are resolved.
-/

set_option autoImplicit false
set_option relaxedAutoImplicit false

namespace Pipeline

/-! ### Declarations -/

/-- The types of a generic parameter. -/
def Generic.terms (g : Generic) : List Ty :=
  (match g.kind with
    | .const t => [t]
    | .type => []) ++ g.default.toList

/-- The types in the shape of a declared type. -/
def TypeKind.terms : TypeKind → List Ty
  | .struct fields => fields.map (·.ty)
  | .transparent inner => [inner]
  | .synonym target => [target]
  | .native => []
  | .enum _ => []

/-- The types in the declaration of a type. -/
def TypeDecl.terms (d : TypeDecl) : List Ty := d.generics.flatMap Generic.terms ++ d.kind.terms

/-- The types of a signature. -/
def MethodSig.terms (s : MethodSig) : List Ty := s.params.map (·.2) ++ [s.ret]

/-- The types in the declaration of a trait. -/
def TraitDecl.terms (d : TraitDecl) : List Ty :=
  d.generics.flatMap Generic.terms ++ d.assoc.flatMap (fun a => (a.bound.map (·.asTy)).toList) ++
    d.methods.flatMap (·.sig.terms) ++ (d.specialization.map (·.target.asTy)).toList

/-- The types of a bound. -/
def Bound.terms (b : Bound) : List Ty := [b.ty, b.traitRef.asTy]

/-- The types that an impl is about: its target, its trait, its associated types and its bounds. -/
def ImplDecl.heads (d : ImplDecl) : List Ty :=
  d.target :: (d.traitRef.map (·.asTy)).toList ++ d.assoc.map (·.2) ++ d.bounds.flatMap Bound.terms

/-- The types in an impl. -/
def ImplDecl.terms (d : ImplDecl) : List Ty :=
  d.generics.flatMap Generic.terms ++ d.heads ++ d.methods.flatMap (·.sig.terms)

/-- The types in an extension. -/
def ExtensionDecl.terms (d : ExtensionDecl) : List Ty :=
  d.generics.flatMap Generic.terms ++ d.target :: d.bounds.flatMap Bound.terms ++
    d.methods.flatMap (·.sig.terms)

/-- The types in a schema. -/
def Schema.terms (s : Schema) : List Ty :=
  s.generics.flatMap Generic.terms ++ s.params.map (·.ty)

/-! ### Texts -/

/-- The types in what was read from a text; none where it cannot be read. -/
def termsRead {α : Type} (terms : α → List Ty) : Except ParseError α → List Ty
  | .ok a => terms a
  | .error _ => []

/-- The types written in the text of a type. -/
def Ty.written (text : String) : List Ty := termsRead (fun t => [t]) (Ty.parse text)

/-- The types written in the text of a trait reference. -/
def TraitRef.written (text : String) : List Ty :=
  termsRead (fun t => [t.asTy]) (TraitRef.parse text)

/-- The types written in the text of a signature. -/
def MethodSig.written (text : String) : List Ty := termsRead MethodSig.terms (MethodSig.parse text)

/-- The types written in the text of a generic parameter. -/
def Generic.written (text : String) : List Ty :=
  termsRead
    (fun g => g.constTy.toList ++ g.bounds.map (·.traitRef.asTy) ++ g.default.toList)
    (WrittenGeneric.parse text)

/-- The types written in the text of a bounded type. -/
def Bound.written (text : String) : List Ty :=
  termsRead (fun c => c.1 :: c.2.map (·.traitRef.asTy)) (WrittenBound.parseClause text)

/-- The types that an impl writes apart from its methods. -/
def ImplEntry.heads (e : ImplEntry) : List Ty :=
  e.generics.flatMap Generic.written ++ Ty.written e.target ++
    e.traitRef.toList.flatMap TraitRef.written ++ e.assoc.flatMap (fun a => Ty.written a.2) ++
    e.bounds.flatMap Bound.written

variable {v : Vocabulary}

theorem allOver_termsRead {α : Type} {terms : α → List Ty} {r : Except ParseError α} :
    Ty.AllOver v (termsRead terms r) ↔ ∀ a, r = .ok a → Ty.AllOver v (terms a) := by
  cases r <;> simp [termsRead]

/-! ### Signatures with types put in -/

theorem MethodSig.terms_replace (f : Ty → Option Ty) (s : MethodSig) :
    (s.replace f).terms = s.terms.map (·.replace f) := by
  simp [MethodSig.terms, MethodSig.replace]

/-! ### Texts mention no parameters -/

theorem Ty.Written.over {t : Ty} (written : t.Written) : t.Over (.written true) := by
  induction written with
  | named _ _ _ each => exact over_named.mpr ⟨rfl, each⟩
  | const _ => exact over_const _
  | fn _ _ each result => exact over_fn.mpr ⟨each, result⟩
  | promise _ _ _ _ each types => exact over_promise.mpr ⟨rfl, each, types⟩
  | projection _ => exact over_projection.mpr (over_selfTy.mpr rfl)
  | selfTy => exact over_selfTy.mpr rfl
  | infer => exact over_infer
  | unit => exact over_unit

theorem TraitRef.Written.over {t : TraitRef} (written : t.Written) :
    t.asTy.Over (.written true) := by
  obtain ⟨-, items⟩ := written
  exact Ty.over_promise.mpr ⟨rfl, fun t member => (items.args t member).over,
    fun c member => (items.types c member).over⟩

theorem Ty.allOver_written (text : String) : AllOver (.written true) (Ty.written text) := by
  refine allOver_termsRead.mpr fun t parsed => ?_
  have written : t.Written := Written.gives_anyTy.of_runOn parsed
  simpa using written.over

theorem TraitRef.allOver_written (text : String) :
    Ty.AllOver (.written true) (TraitRef.written text) := by
  refine allOver_termsRead.mpr fun t parsed => ?_
  have written : t.Written := Written.gives_traitRef.of_runOn parsed
  simpa using written.over

theorem MethodSig.allOver_written (text : String) :
    Ty.AllOver (.written true) (MethodSig.written text) := by
  refine allOver_termsRead.mpr fun sig parsed => ?_
  have legible : sig.Legible := gives_signature.of_runOn parsed
  simpa [MethodSig.terms] using
    ⟨fun name t member => (legible.params.types _ member).over, legible.ret.over⟩

theorem Generic.allOver_written (text : String) :
    Ty.AllOver (.written true) (Generic.written text) := by
  refine allOver_termsRead.mpr fun g parsed => ?_
  have readable : Written.ReadableGeneric g := Written.gives_generic.of_runOn parsed
  simp only [Ty.allOver_append, Ty.allOver_toList, Ty.allOver_map]
  exact ⟨⟨fun t member => (readable.constTy t member).over,
    fun b member => (readable.bounds b member).over⟩, fun t member => (readable.default t member).over⟩

theorem Bound.allOver_written (text : String) :
    Ty.AllOver (.written true) (Bound.written text) := by
  refine allOver_termsRead.mpr fun clause parsed => ?_
  obtain ⟨written, each⟩ := Written.gives_whereClause.of_runOn parsed
  simp only [Ty.allOver_cons, Ty.allOver_map]
  exact ⟨written.over, fun b member => (each b member).over⟩

end Pipeline
