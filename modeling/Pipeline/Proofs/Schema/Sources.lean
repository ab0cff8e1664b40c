import Pipeline.Proofs.Schema.Renumbering
import Pipeline.Proofs.Store.Expansion
import Pipeline.Proofs.Ty.Merging
import Pipeline.Store.Load

/-!
# The types a value can be converted from

The impls of the conversion trait are laid over the type expected as they are written, where an
obligation lays them over it with their aliases expanded. What is found in the first way is found in
the second one too, and all of it where no target is written with an alias.
-/

set_option autoImplicit false
set_option relaxedAutoImplicit false

namespace Pipeline

/-! ### Patterns written with aliases -/

namespace Ty

variable {vars : List String} {s s' : Subst}

/-- A pattern fits the wildcard and learns nothing from it. -/
theorem unify_infer (p : Ty) : unify vars p infer s = (true, s) := by
  cases p with
  | param name =>
    unfold unify align bindVar
    split
    · cases s.get? name with
      | none => simp
      | some bound => simp [fits_infer]
    · rfl
  | _ => rfl

private theorem unifyAll_map {f : Ty → Ty} {ps ts : List Ty}
    (each : ∀ p ∈ ps, ∀ t ∈ ts, ∀ s s', unify vars p t s = (true, s') →
      unify vars (f p) t s = (true, s'))
    (found : unifyAll vars ps ts s = (true, s')) :
    unifyAll vars (ps.map f) ts s = (true, s') := by
  induction ps generalizing ts s with
  | nil => exact found
  | cons p rest ih =>
    cases ts with
    | nil => exact found
    | cons t ts =>
      obtain ⟨s₁, first, found⟩ := alignList_cons_iff.mp found
      exact alignList_cons_iff.mpr ⟨s₁, each p List.mem_cons_self t List.mem_cons_self s s₁ first,
        ih (fun p inP t inT => each p (List.mem_cons_of_mem _ inP) t (List.mem_cons_of_mem _ inT))
          found⟩

private theorem alignAssoc_map {f : Ty → Ty} {ps ts : List (String × Ty)}
    (each : ∀ c ∈ ps, ∀ t ∈ ts, ∀ s s', unify vars c.2 t.2 s = (true, s') →
      unify vars (f c.2) t.2 s = (true, s'))
    (found : alignAssoc (bindVar vars) ps ts s = (true, s')) :
    alignAssoc (bindVar vars) (ps.map fun c => (c.1, f c.2)) ts s = (true, s') := by
  induction ps generalizing s with
  | nil => exact found
  | cons c rest ih =>
    rw [List.forall_mem_cons] at each
    refine alignAssoc_cons_iff.mpr ?_
    obtain ⟨absent, found⟩ | ⟨d, s₁, there, first, found⟩ := alignAssoc_cons_iff.mp found
    · exact .inl ⟨absent, ih each.2 found⟩
    · exact .inr ⟨d, s₁, there, each.1 d (List.mem_of_find?_eq_some there) s s₁ first,
        ih each.2 found⟩

end Ty

namespace Store

variable {store : Store} {n : Nat} {vars : List String}

/-- A pattern that fits a type without aliases fits it when its own ones are expanded, with the same
types for its variables. -/
theorem unify_normalizeTo {p t : Ty} {s s' : Subst} (free : store.AliasFree t)
    (found : Ty.unify vars p t s = (true, s')) :
    Ty.unify vars (store.normalizeTo n p) t s = (true, s') := by
  induction p using Ty.inductionOn generalizing t s s' with
  | param | const | selfTy | infer | unit =>
    rw [normalizeTo_leaf rfl]
    exact found
  | named path args ih =>
    rw [Ty.unify, Ty.align_named_iff] at found
    obtain ⟨rfl, rfl⟩ | ⟨args', rfl, length, found⟩ := found
    · exact Ty.unify_infer _
    · -- The path is also the one of the type, so that it is not the path of an alias.
      obtain ⟨plain, inside⟩ := aliasFree_named.mp free
      rw [normalizeTo_named plain, Ty.unify, Ty.align_named_iff, List.length_map]
      exact .inr ⟨args', rfl, length,
        Ty.unifyAll_map (fun p inP t inT s s' => ih p inP (inside t inT)) found⟩
  | fn params ret ihs ih =>
    rw [Ty.unify, Ty.align_fn_iff] at found
    rw [normalizeTo_fn, Ty.unify, Ty.align_fn_iff, List.length_map]
    refine found.imp_right ?_
    rintro ⟨params', ret', s₁, rfl, length, first, last⟩
    obtain ⟨inside, result⟩ := aliasFree_fn.mp free
    exact ⟨params', ret', s₁, rfl, length,
      Ty.unifyAll_map (fun p inP t inT s s' => ihs p inP (inside t inT)) first, ih result last⟩
  | promise path args assoc ihs ihc =>
    rw [Ty.unify, Ty.align_promise_iff] at found
    rw [normalizeTo_promise, Ty.unify, Ty.align_promise_iff, List.length_map]
    refine found.imp_right ?_
    rintro ⟨args', assoc', s₁, rfl, length, first, last⟩
    obtain ⟨inside, constraints⟩ := aliasFree_promise.mp free
    exact ⟨args', assoc', s₁, rfl, length,
      Ty.unifyAll_map (fun p inP t inT s s' => ihs p inP (inside t inT)) first,
      Ty.alignAssoc_map (fun c inC t inT s s' => ihc c inC (constraints t inT)) last⟩
  | projection base name ih =>
    rw [Ty.unify, Ty.align_projection_iff] at found
    rw [normalizeTo_projection, Ty.unify, Ty.align_projection_iff]
    refine found.imp_right ?_
    rintro ⟨base', rfl, laid⟩
    exact ⟨base', rfl, ih (aliasFree_projection.mp free) laid⟩

/-! ### Sources -/

/-- An impl of the conversion trait, its target laid over the type expected in a certain form, gives
a type that accepts a value and from which there is a conversion. -/
def OffersFrom (store : Store) (form : Ty → Ty) (v : Value) (expected source : Ty) (w : Value) :
    Prop :=
  ∃ d ∈ store.implsOf Builtin.from_, ∃ written subst, d.traitArgs.head? = some written ∧
    Ty.unify (Generic.names d.generics) (form d.target) expected [] = (true, subst) ∧
    source = written.substitute subst ∧ (store.accept v source).value = some w ∧
    (store.implements expected (.plain Builtin.from_ [source])).value = true

theorem conversion?_eq_some {v : Value} {expected source : Ty} {w : Value} {d : ImplDecl} :
    store.conversion? v expected d = some (source, w) ↔
      ∃ written subst, d.traitArgs.head? = some written ∧
        Ty.unify (Generic.names d.generics) d.target expected [] = (true, subst) ∧
        source = written.substitute subst ∧ (store.accept v source).value = some w ∧
        (store.implements expected (.plain Builtin.from_ [source])).value = true := by
  unfold conversion?
  rw [Option.bind_eq_some_iff]
  refine exists_congr fun written => ?_
  generalize Ty.unify (Generic.names d.generics) d.target expected [] = unified
  obtain ⟨fits, subst⟩ := unified
  dsimp only
  constructor
  · rintro ⟨given, found⟩
    split at found
    · rename_i both
      obtain ⟨inner, accepted, same⟩ := Option.map_eq_some_iff.mp found
      cases same
      obtain rfl : fits = true := both.1
      exact ⟨subst, given, rfl, rfl, accepted, both.2⟩
    · cases found
  · rintro ⟨subst', given, same, rfl, accepted, applies⟩
    cases same
    refine ⟨given, ?_⟩
    rw [if_pos ⟨rfl, applies⟩, accepted]
    rfl

/-- The conversions of a value are those from the types that the impls, as they are written, offer,
one from each type. All of them are offered with the aliases expanded, and no other ones where no
impl has a target with an alias. -/
theorem conversions_exact (store : Store) (v : Value) (expected : Ty) :
    (((store.conversions v expected (store.implsOf Builtin.from_) []).value).map (·.1)).Nodup ∧
    (∀ source w, (source, w) ∈
        (store.conversions v expected (store.implsOf Builtin.from_) []).value ↔
      store.OffersFrom id v expected source w) ∧
    (store.AliasFree expected → ∀ source w, store.OffersFrom id v expected source w →
      store.OffersFrom store.normalize v expected source w) ∧
    ((∀ d ∈ store.implsOf Builtin.from_, store.normalize d.target = d.target) →
      ∀ source w, (source, w) ∈
          (store.conversions v expected (store.implsOf Builtin.from_) []).value ↔
        store.OffersFrom store.normalize v expected source w) := by
  have determined : store.Determined v
      ((store.implsOf Builtin.from_).filterMap (store.conversion? v expected)) := fun c member => by
    obtain ⟨d, -, found⟩ := List.mem_filterMap.mp member
    exact accept_of_conversion? found
  obtain ⟨once, members⟩ := foldl_addConversion [] determined List.nodup_nil
  rw [← conversions_value] at once members
  have exact : ∀ source w, (source, w) ∈
      (store.conversions v expected (store.implsOf Builtin.from_) []).value ↔
        store.OffersFrom id v expected source w := by
    intro source w
    rw [members, List.nil_append, List.mem_filterMap]
    exact exists_congr fun d => and_congr_right fun _ => conversion?_eq_some
  refine ⟨once, exact, fun free source w => ?_, fun normal source w => (exact source w).trans ?_⟩
  · rintro ⟨d, impl, written, subst, given, unified, rest⟩
    exact ⟨d, impl, written, subst, given, unify_normalizeTo free unified, rest⟩
  · refine exists_congr fun d => and_congr_right fun impl => ?_
    rw [normal d impl, id_eq]

/-- A document with a struct, an alias of it and a conversion from numbers into one of them. -/
def register (target : String) : Document where
  module := "shop"
  origin := "shop"
  version := supportedVersion
  kind := .struct
  types := [("Money", ⟨[], [("cents", .short "u64")], [], none, none, none⟩),
    ("Cash", ⟨[], [], [], none, some "Money", none⟩)]
  impls := [{
    target := target
    traitRef := some "From<i64>"
    generics := []
    bounds := []
    assoc := []
    methods := [("from", "extern")]
    isConst := false
    explain := none }]

/-- The impl for the struct converts numbers, in both ways of looking for it. -/
theorem conversions_exact_money :
    ∃ s, (load [register "Money"] 4).value = .ok s ∧ s.AliasFree (.named "shop::Money" []) ∧
      (∀ d ∈ s.implsOf Builtin.from_, s.normalize d.target = d.target) ∧
      ∃ source w, s.OffersFrom id (.int 5) (.named "shop::Money" []) source w ∧
        s.OffersFrom s.normalize (.int 5) (.named "shop::Money" []) source w ∧
        (source, w) ∈ (s.conversions (.int 5) (.named "shop::Money" [])
          (s.implsOf Builtin.from_) []).value := by
  have made : (load [register "Money"] 4).value.toOption.map (fun s =>
      (decide (s.AliasFree (.named "shop::Money" [])),
        decide (∀ d ∈ s.implsOf Builtin.from_, s.normalize d.target = d.target),
        (s.conversions (.int 5) (.named "shop::Money" []) (s.implsOf Builtin.from_)
          []).value.map (·.1))) = some (true, true, [.named "std::i64" []]) := by
    decide +kernel
  obtain ⟨s, loaded, facts⟩ := Option.map_eq_some_iff.mp made
  obtain ⟨free, facts⟩ := Prod.mk.inj facts
  obtain ⟨normal, sources⟩ := Prod.mk.inj facts
  have free := of_decide_eq_true free
  have normal := of_decide_eq_true normal
  obtain ⟨⟨source, w⟩, member, -⟩ := List.mem_map.mp (sources ▸ List.mem_singleton_self _)
  obtain ⟨-, exact, sound, complete⟩ := conversions_exact s (.int 5) (.named "shop::Money" [])
  have offered := (complete normal source w).mp member
  exact ⟨s, ok_of_toOption loaded, free, normal, source, w, (exact source w).mp member,
    sound free source w ((exact source w).mp member), (complete normal source w).mpr offered⟩

/-- The impl for the alias meets the obligation of the struct and converts nothing. -/
theorem conversions_miss_cash :
    ∃ s, (load [register "Cash"] 4).value = .ok s ∧
      s.normalize (.named "shop::Money" []) = .named "shop::Money" [] ∧
      (∃ source w, s.OffersFrom s.normalize (.int 5) (.named "shop::Money" []) source w) ∧
      (s.conversions (.int 5) (.named "shop::Money" []) (s.implsOf Builtin.from_) []).value =
        [] := by
  have made : (load [register "Cash"] 4).value.toOption.map (fun s =>
      (decide (s.normalize (.named "shop::Money" []) = .named "shop::Money" []),
        (s.conversions (.int 5) (.named "shop::Money" []) (s.implsOf Builtin.from_)
          []).value.isEmpty,
        (s.implsOf Builtin.from_).any fun d => d.traitArgs.head? = some (.named "std::i64" []) ∧
          Ty.unify (Generic.names d.generics) (s.normalize d.target) (.named "shop::Money" []) [] =
            (true, []) ∧
          (s.accept (.int 5) (.named "std::i64" [])).value.isSome = true ∧
          (s.implements (.named "shop::Money" [])
            (.plain Builtin.from_ [.named "std::i64" []])).value = true)) =
      some (true, true, true) := by
    decide +kernel
  obtain ⟨s, loaded, facts⟩ := Option.map_eq_some_iff.mp made
  obtain ⟨normal, facts⟩ := Prod.mk.inj facts
  obtain ⟨empty, offered⟩ := Prod.mk.inj facts
  obtain ⟨d, impl, offers⟩ := List.any_eq_true.mp offered
  obtain ⟨given, unified, accepted, applies⟩ := of_decide_eq_true offers
  obtain ⟨w, accepted⟩ := Option.isSome_iff_exists.mp accepted
  exact ⟨s, ok_of_toOption loaded, of_decide_eq_true normal,
    ⟨.named "std::i64" [], w, d, impl, .named "std::i64" [], [], given, unified, rfl, accepted,
      applies⟩, List.isEmpty_iff.mp empty⟩

end Store
end Pipeline
