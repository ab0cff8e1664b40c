import Pipeline.Proofs.Method.Qualification
import Pipeline.Proofs.Obligation.Origin

/-!
# Where methods come from

The method that a call means is given by an impl of the type itself, by an extension, or by a trait
that the type implements. One without a body inside the declarations is left open by the
declaration that gives it: an impl or an extension that writes it without one, or a trait for whose
method neither the impl nor a default has one.
-/

set_option autoImplicit false
set_option relaxedAutoImplicit false

namespace Pipeline

/-- True for what stands for other types: a parameter, `Self` or an associated type of it. -/
def Ty.isPlaceholder : Ty → Bool
  | .param _ => true
  | .selfTy => true
  | .projection .selfTy _ => true
  | _ => false

/-- A signature that another one becomes where types are put for its placeholders. -/
def MethodSig.Becomes (declared sig : MethodSig) : Prop :=
  ∃ f : Ty → Option Ty, (∀ t, t.isPlaceholder = false → f t = none) ∧ sig = declared.replace f

/-- True for a body outside the declarations. -/
def MethodBody.isExternal : MethodBody → Bool
  | .external => true
  | .expr _ => false

/-- True for a method to which nobody gives a body inside the declarations. -/
def Method.isBodiless (m : Method) : Bool := m.body.all (·.isExternal)

namespace Store

variable {s : Store} {receiver : Ty} {name : String} {m : Method}

/-! ### Ranks -/

/-- What gives a type a method of a name. -/
inductive Gives (s : Store) (receiver : Ty) (name : String) (m : Method) : Prop
  | inherent {d : ImplDecl} : d ∈ s.inherentImpls →
      s.inherentMethod? receiver name d = some m → Gives s receiver name m
  | extension {path : String} : (s.extensionMethod? receiver path name).value = some m →
      Gives s receiver name m
  | trait {trait : TraitDecl} : trait ∈ s.traits.values →
      (s.offer receiver trait name).value = .method m → Gives s receiver name m

theorem Gives.named (gives : s.Gives receiver name m) : m.name = name := by
  cases gives with
  | inherent _ given => exact (inherentMethod?_provider given).2
  | extension given => exact (extensionMethod?_provider given).2.1
  | trait _ offered => exact (offer_provider offered).2

theorem gives_of_mem_firstRank {visible : List String}
    (member : m ∈ s.firstRank receiver name visible) : s.Gives receiver name m := by
  rcases mem_firstRank member with ⟨d, among, given⟩ | ⟨path, -, given⟩
  · exact .inherent among given
  · exact .extension given

theorem gives_of_traitTier (found : (s.traitTier receiver name).value = .found m) :
    s.Gives receiver name m := by
  have member : m ∈ s.traitRank receiver name := traitTier_found found ▸ List.mem_singleton_self m
  obtain ⟨trait, among, offered, -⟩ := mem_traitRank.mp member
  exact .trait among offered

theorem gives_of_resolveCall {visible : List String}
    (found : (s.resolveCall receiver name visible).value = .found m) :
    s.Gives (s.normalize receiver) name m := by
  rcases resolveCall_found found with only | ⟨-, traits⟩
  · exact gives_of_mem_firstRank (only ▸ List.mem_singleton_self m)
  · exact gives_of_traitTier traits

theorem gives_of_resolveQualified {receiver : Option Ty} {path : String}
    (found : (s.resolveQualified receiver path name).value = .found m) :
    ∃ t, s.Gives t name m := by
  unfold resolveQualified at found
  dsimp only at found
  split at found
  · split at found
    · cases found
    · rename_i t _
      simp only [Logged.value_bind] at found
      cases given : (s.extensionMethod? t path name).value with
      | none =>
        rw [given] at found
        cases found
      | some n =>
        rw [given] at found
        cases found
        exact ⟨t, .extension given⟩
  · split at found
    · split at found
      · rename_i t trait _ declared
        simp only [Logged.value_bind] at found
        cases offered : (s.offer t trait name).value with
        | method n =>
          rw [offered] at found
          cases found
          exact ⟨t, .trait (NameMap.mem_values declared) offered⟩
        | tied impls =>
          rw [offered] at found
          cases found
        | nothing =>
          rw [offered] at found
          cases found
      · cases found
    · split at found
      · cases found
      · rename_i decl _
        simp only [Logged.value_bind] at found
        cases rank : MethodResolution.ofTier s
            (s.inherentMethods decl.openTy name s.inherentImpls).value with
        | none =>
          rw [rank] at found
          exact ⟨_, gives_of_traitTier found⟩
        | some r =>
          rw [rank] at found
          cases found
          have member := List.mem_singleton_self m
          rw [← ofTier_found rank, inherentMethods_value] at member
          obtain ⟨d, among, given⟩ := List.mem_filterMap.mp member
          exact ⟨_, .inherent among given⟩
    · cases found

/-! ### Candidates -/

theorem select_impl {holds : Resolver} {trait : TraitDecl} {ty : Ty} {query : TraitRef}
    {c : Candidate} (found : (s.select holds trait ty query).value = .met c) {i : Nat}
    (id : c.implId = some i) : ∃ d, d.id = i ∧ (d ∈ s.implsOf query.path ∨
      ∃ special ∈ s.specializationsOf query.path,
        d ∈ s.implsOf special.path ∧ c.origin = .specialization special.path) := by
  have own {origin : CandidateOrigin} {kept : ImplDecl → Bool}
      (member : c ∈ s.ownCandidates holds trait ty query origin kept) :
      ∃ d, d.id = i ∧ d ∈ s.implsOf query.path := by
    obtain ⟨-, p, inside, same⟩ := mem_candidates member
    obtain ⟨d, among, rfl⟩ := List.mem_map.mp inside
    exact ⟨d, Option.some.inj (same.symm.trans id), List.mem_of_mem_filter among⟩
  rw [select_value] at found
  cases promised : s.promisedBy? ty query with
  | some p =>
    rw [promised] at found
    cases found
    cases id.symm.trans (promisedBy?_origin promised).1
  | none =>
    rw [promised, Option.map_none, Option.getD_none] at found
    rcases mem_of_firstTier found with derived | direct | blanket
    · obtain ⟨special, among, origin, d, inside, same⟩ := mem_specialized derived
      exact ⟨d, Option.some.inj (same.symm.trans id), Or.inr ⟨special, among, inside, origin⟩⟩
    · obtain ⟨d, same, member⟩ := own direct
      exact ⟨d, same, Or.inl member⟩
    · obtain ⟨d, same, member⟩ := own blanket
      exact ⟨d, same, Or.inl member⟩

/-- The impl that a candidate stands for is one of the trait asked for, or of a trait by whose
specialization the candidate came. -/
theorem resolve_impl {ty : Ty} {t : TraitRef} {c : Candidate}
    (found : (s.resolve ty t).value = .met c) {i : Nat} (id : c.implId = some i) :
    ∃ d, d.id = i ∧ (d ∈ s.implsOf t.path ∨ ∃ special ∈ s.specializationsOf t.path,
      d ∈ s.implsOf special.path ∧ c.origin = .specialization special.path) := by
  have inside : (s.resolveInside s.maxDepth [] ty t).value = .met c := found
  unfold resolveInside at inside
  cases declared : s.trait? t.path with
  | none =>
    rw [declared] at inside
    cases inside
  | some trait =>
    simp only [declared] at inside
    split at inside
    · cases inside
    · rw [if_neg (by simp)] at inside
      exact (select_impl inside id :)

/-! ### Methods without a body -/

/-- The module that declares what provides a method; nothing for the promise of an opaque type. -/
def providerModule? (s : Store) : MethodProvider → Option String
  | .inherent id => (s.impl? id).map (·.module)
  | .extension path => (s.extension? path).map (·.module)
  | .trait _ c => (c.implId.bind s.impl?).map (·.module)

/-- The method of a name as the impl or the extension that provides it writes it. -/
def providerMethod? (s : Store) (name : String) : MethodProvider → Option ImplMethod
  | .inherent id => (s.impl? id).bind (·.method? name)
  | .extension path => (s.extension? path).bind (·.method? name)
  | .trait _ c => (c.implId.bind s.impl?).bind (·.method? name)

/-- A method that is written by what provides it is among the methods of an impl or of an extension
of the module. -/
theorem provider_written {p : MethodProvider} {written : ImplMethod} {module : String}
    (own : s.providerMethod? name p = some written) (declared : s.providerModule? p = some module) :
    (∃ d ∈ s.impls, d.module = module ∧ written ∈ d.methods ∧ written.sig.name = name) ∨
      ∃ d ∈ s.extensions.values,
        d.module = module ∧ written ∈ d.methods ∧ written.sig.name = name := by
  cases p with
  | inherent id =>
    obtain ⟨d, found, own⟩ := Option.bind_eq_some_iff.mp own
    rw [providerModule?, found] at declared
    exact Or.inl ⟨d, List.mem_of_getElem? found, Option.some.inj declared, named_of_find? own⟩
  | extension path =>
    obtain ⟨d, found, own⟩ := Option.bind_eq_some_iff.mp own
    rw [providerModule?, found] at declared
    exact Or.inr ⟨d, NameMap.mem_values found, Option.some.inj declared, named_of_find? own⟩
  | trait path c =>
    obtain ⟨d, stands, own⟩ := Option.bind_eq_some_iff.mp own
    rw [providerModule?, stands] at declared
    obtain ⟨i, -, found⟩ := Option.bind_eq_some_iff.mp stands
    exact Or.inl ⟨d, List.mem_of_getElem? found, Option.some.inj declared, named_of_find? own⟩

/-- An impl makes its types implement a trait: it is one of the trait, or of a trait that
specializes it, by which a candidate came. -/
def ImplFor (s : Store) (d : ImplDecl) (trait : TraitDecl) (c : Candidate) : Prop :=
  d ∈ s.implsOf trait.path ∨ ∃ special ∈ s.specializationsOf trait.path,
    d ∈ s.implsOf special.path ∧ c.origin = .specialization special.path

/-- The declared signature of a method to which nobody gives a body: it is written without one, or
it is not written and has no default. -/
inductive LeftOpen (s : Store) (m : Method) : MethodSig → Prop
  | written {written : ImplMethod} : s.providerMethod? m.name m.provider = some written →
      written.body.isExternal = true → LeftOpen s m written.sig
  | unwritten {trait : TraitDecl} {declared : TraitMethod} {c : Candidate} :
      trait ∈ s.traits.values → trait.method? m.name = some declared → declared.default = none →
      m.provider = .trait trait.path c → s.providerMethod? m.name m.provider = none →
      s.specializedBody? c m.name = none →
      (∀ d, c.implId.bind s.impl? = some d → s.ImplFor d trait c) →
      LeftOpen s m declared.sig

theorem becomes_substitute (sig : MethodSig) (subst : Subst) :
    sig.Becomes (sig.substitute subst) := by
  refine ⟨_, fun t fixed => ?_, rfl⟩
  cases t with
  | param => cases fixed
  | _ => rfl

theorem becomes_sigFor (sig : MethodSig) (receiver : Ty) (subst : Subst) (c : Candidate) :
    sig.Becomes (sigFor sig receiver subst c) := by
  refine ⟨_, fun t fixed => ?_, rfl⟩
  split
  · cases fixed
  · cases fixed
  · cases fixed
  · rfl

theorem external_of_bodiless (bodiless : m.isBodiless = true) {body : MethodBody}
    (given : m.body = some body) : body.isExternal = true := by
  rwa [Method.isBodiless, given] at bodiless

theorem not_expr_of_bodiless (bodiless : m.isBodiless = true) (body : Snippet) :
    m.body ≠ some (.expr body) := fun given => by
  cases external_of_bodiless bodiless given

/-- A method of a trait is the one that the impl writes, or a default. -/
theorem methodOf_cases (s : Store) (receiver : Ty) (trait : TraitDecl) (declared : TraitMethod)
    (args : List Ty) (c : Candidate) :
    (∃ written, (c.implId.bind s.impl?).bind (·.method? declared.sig.name) = some written ∧
      (s.methodOf receiver trait declared args c).sig = written.sig.substitute c.subst ∧
      (s.methodOf receiver trait declared args c).body = some written.body) ∨
    (c.implId.bind s.impl?).bind (·.method? declared.sig.name) = none ∧
      ((∃ body, (s.methodOf receiver trait declared args c).body = some (.expr body)) ∨
        s.specializedBody? c declared.sig.name = none ∧
          (s.methodOf receiver trait declared args c).sig =
            sigFor declared.sig receiver (trait.substFor args) c ∧
          (s.methodOf receiver trait declared args c).body = declared.default.map .expr) := by
  unfold methodOf
  dsimp only [Option.bind_eq_bind, Option.pure_def]
  cases stands : c.implId.bind s.impl? with
  | some d =>
    cases own : d.method? declared.sig.name with
    | some written => exact Or.inl ⟨written, by simpa using own, by simp [own], by simp [own]⟩
    | none =>
      refine Or.inr ⟨by simpa using own, ?_⟩
      cases special : s.specializedBody? c declared.sig.name with
      | some found => exact Or.inl ⟨found.1, by simp [own]⟩
      | none => exact Or.inr ⟨rfl, by simp [own], by simp [own]⟩
  | none =>
    refine Or.inr ⟨rfl, ?_⟩
    cases special : s.specializedBody? c declared.sig.name with
    | some found => exact Or.inl ⟨found.1, rfl⟩
    | none => exact Or.inr ⟨rfl, rfl, rfl⟩

theorem leftOpen_of_offer {trait : TraitDecl} (among : trait ∈ s.traits.values)
    (numbered : ∀ d ∈ s.impls, s.impl? d.id = some d)
    (offered : (s.offer receiver trait name).value = .method m)
    (bodiless : m.isBodiless = true) :
    ∃ sig, s.LeftOpen m sig ∧ sig.Becomes m.sig := by
  have named := (offer_provider offered).2
  unfold offer at offered
  cases declares : trait.method? name with
  | none =>
    rw [declares] at offered
    cases offered
  | some declared =>
    have same : declared.sig.name = name := (named_of_find? declares).2
    simp only [declares, Logged.value_bind] at offered
    cases met : (s.resolve receiver (.plain trait.path (trait.completeArgs receiver []))).value with
    | ambiguous | notImplemented =>
      rw [met] at offered
      cases offered
    | met c =>
      rw [met] at offered
      cases offered
      have made := s.methodOf_cases receiver trait declared (trait.completeArgs receiver []) c
      rw [same, ← named] at made
      rcases made with ⟨written, own, sig, body⟩ |
        ⟨unwritten, ⟨body, default⟩ | ⟨special, sig, body⟩⟩
      · exact ⟨written.sig, .written own (external_of_bodiless bodiless body),
          sig ▸ becomes_substitute _ _⟩
      · exact absurd default (not_expr_of_bodiless bodiless body)
      · refine ⟨declared.sig, .unwritten among (named.symm ▸ declares) ?_ rfl unwritten special
          fun d stands => ?_, sig ▸ becomes_sigFor _ _ _ _⟩
        · cases default : declared.default with
          | none => rfl
          | some snippet =>
            rw [default] at body
            exact absurd body (not_expr_of_bodiless bodiless snippet)
        · obtain ⟨i, id, found⟩ := Option.bind_eq_some_iff.mp stands
          obtain ⟨d', rfl, implements⟩ := resolve_impl met id
          have listed : d' ∈ s.impls := by
            rcases implements with own | ⟨special, -, through, -⟩
            · exact (mem_implsOf.mp own).1
            · exact (mem_implsOf.mp through).1
          cases found.symm.trans (numbered d' listed)
          exact implements

/-- A method without a body is left open by what provides it, and has its signature, with types put
for parameters and for `Self`. -/
theorem leftOpen_of_gives (numbered : ∀ d ∈ s.impls, s.impl? d.id = some d)
    (gives : s.Gives receiver name m) (bodiless : m.isBodiless = true) :
    ∃ sig, s.LeftOpen m sig ∧ sig.Becomes m.sig := by
  cases gives with
  | trait among offered => exact leftOpen_of_offer among numbered offered bodiless
  | @inherent d among given =>
    obtain ⟨written, own, given⟩ := Option.bind_eq_some_iff.mp given
    obtain ⟨subst, -, rfl⟩ := Option.map_eq_some_iff.mp given
    have found : s.impl? d.id = some d := numbered d (List.mem_of_mem_filter among)
    refine ⟨written.sig, .written ?_ (external_of_bodiless bodiless rfl), becomes_substitute _ _⟩
    simpa [providerMethod?, found] using own
  | @extension path given =>
    obtain ⟨d, written, subst, found, own, rfl⟩ := extensionMethod?_written given
    refine ⟨written.sig, .written ?_ (external_of_bodiless bodiless rfl), becomes_substitute _ _⟩
    simpa [providerMethod?, found] using own

end Store
end Pipeline
