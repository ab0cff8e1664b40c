import Pipeline.Proofs.Fault.Noted
import Pipeline.Proofs.Scope.Invariants
import Pipeline.Proofs.Scope.Steps
import Pipeline.Proofs.Ty.Vocabulary
import Pipeline.Scope.Resolve

/-!
# What resolved types mention

A name in a scope stands for what is declared under its path. The types and traits that a resolved
type mentions are thus declared, and its parameters are those of the declaration around it.
-/

set_option autoImplicit false
set_option relaxedAutoImplicit false

namespace Pipeline

/-- What a type can mention before its names are resolved: any path, and no parameter. -/
def Vocabulary.written (selfTy : Bool) : Vocabulary :=
  ⟨fun _ => true, fun _ => true, fun _ => false, selfTy⟩

namespace SymbolIndex

variable {index : SymbolIndex} {path : String} {symbol : Symbol}

theorem symbol?_path (found : index.symbol? path = some symbol) : symbol.path = path := by
  unfold symbol? at found
  split at found
  · cases found
    rfl
  · split at found <;> cases found
    rfl

theorem symbol?_of_get? {kind : SymbolKind} (found : index.symbols.get? path = some kind) :
    index.symbol? path = some ⟨kind, path⟩ := by
  simp [symbol?, found]

theorem get?_of_symbol? (found : index.symbol? path = some symbol)
    (declared : symbol.kind ≠ .module) : index.symbols.get? path = some symbol.kind := by
  unfold symbol? at found
  split at found
  · rename_i known
    cases found
    exact known
  · split at found <;> cases found
    exact absurd rfl declared

/-- All types and traits that are declared may be mentioned. -/
structure Within (index : SymbolIndex) (v : Vocabulary) : Prop where
  types : ∀ path, index.symbols.get? path = some .type → v.types path = true
  traits : ∀ path, index.symbols.get? path = some .trait → v.traits path = true

end SymbolIndex

namespace ModuleScope

variable {index : SymbolIndex} {scope : ModuleScope} {v : Vocabulary} {generics : List String}

/-- Every name stands for what is declared under its path. -/
def Grounded (scope : ModuleScope) (index : SymbolIndex) : Prop :=
  ∀ name entry, scope.names.get? name = some entry →
    index.symbol? entry.symbol.path = some entry.symbol

private theorem invariant_grounded (index : SymbolIndex) :
    Invariant (Grounded · index) fun symbol _ => index.symbol? symbol.path = some symbol where
  bind := by
    intro scope scope' name symbol strength grounded declared bound
    obtain ⟨entry, origin, rfl⟩ := bind_eq_ok bound
    intro other found known
    rw [NameMap.get?_insert] at known
    split at known
    · cases known
      rcases origin with ⟨-, rfl⟩ | ⟨before, known, taken⟩
      · exact declared
      · rcases NameEntry.rebind_eq_ok taken with
          ⟨-, rfl⟩ | ⟨-, rfl⟩ | ⟨-, -, rfl⟩ | ⟨-, -, -, rfl⟩
        · exact declared
        · exact grounded _ _ known
        · exact grounded _ _ known
        · exact grounded _ before known
    · exact grounded other found known
  bindExtension grounded bound := by
    rcases bindExtension_eq_ok bound with ⟨-, rfl⟩ | ⟨-, rfl⟩ <;> exact grounded

/-- In the scope of a document every name stands for what is declared, if the component is. -/
theorem ofDocument_grounded {d : Document}
    (component : d.isPlain = false → index.symbol? d.module = some ⟨.type, d.module⟩) :
    (ofDocument index d).1.Grounded index := by
  have declared (path : String) (symbol : Symbol) (found : index.symbol? path = some symbol) :
      index.symbol? symbol.path = some symbol := SymbolIndex.symbol?_path found ▸ found
  exact (invariant_grounded index).ofDocument (fun path symbol _ found _ => declared path symbol found)
    (fun path symbol _ found _ => declared path symbol found) component nofun

theorem resolvePath_declared (grounded : scope.Grounded index) {written : String} {symbol : Symbol}
    (resolved : scope.resolvePath written index = .ok symbol) :
    index.symbol? symbol.path = some symbol := by
  have declared {path : String} {symbol : Symbol} (found : index.symbol? path = some symbol) :
      index.symbol? symbol.path = some symbol := SymbolIndex.symbol?_path found ▸ found
  unfold resolvePath at resolved
  split at resolved
  · split at resolved
    · rename_i known
      cases resolved
      obtain ⟨path, -, found⟩ := Option.bind_eq_some_iff.mp known
      exact declared found
    · split at resolved <;> cases resolved
      exact declared ‹_›
  · split at resolved
    · cases resolved
    · rename_i entry known
      split at resolved <;> cases resolved
      exact grounded _ entry known

/-! ### Types -/

theorem exists_of_mem_resolveTys {ts us : List Ty} {u : Ty}
    (resolved : scope.resolveTys generics index ts = .ok us) (member : u ∈ us) :
    ∃ t ∈ ts, scope.resolveTy generics index t = .ok u := by
  induction ts generalizing us with
  | nil =>
    cases resolved
    cases member
  | cons t rest ih =>
    rw [resolveTys] at resolved
    obtain ⟨first, here, resolved⟩ := except_bind_eq_ok.mp resolved
    obtain ⟨others, there, resolved⟩ := except_bind_eq_ok.mp resolved
    cases resolved
    rcases List.mem_cons.mp member with rfl | inside
    · exact ⟨t, List.mem_cons_self, here⟩
    · obtain ⟨t, among, same⟩ := ih there inside
      exact ⟨t, List.mem_cons_of_mem _ among, same⟩

theorem exists_of_mem_resolveAssoc {assoc assoc' : List (String × Ty)} {c : String × Ty}
    (resolved : scope.resolveAssoc generics index assoc = .ok assoc') (member : c ∈ assoc') :
    ∃ b ∈ assoc, scope.resolveTy generics index b.2 = .ok c.2 := by
  induction assoc generalizing assoc' with
  | nil =>
    cases resolved
    cases member
  | cons b rest ih =>
    rw [resolveAssoc] at resolved
    obtain ⟨first, here, resolved⟩ := except_bind_eq_ok.mp resolved
    obtain ⟨others, there, resolved⟩ := except_bind_eq_ok.mp resolved
    cases resolved
    rcases List.mem_cons.mp member with rfl | inside
    · exact ⟨b, List.mem_cons_self, here⟩
    · obtain ⟨b, among, same⟩ := ih there inside
      exact ⟨b, List.mem_cons_of_mem _ among, same⟩

theorem parameter?_eq_some {path : String} {args : List Ty} {t : Ty}
    (found : parameter? path args generics = some t) :
    (∃ name ∈ generics, t = .param name) ∨
      ∃ name ∈ generics, ∃ assoc, t = .projection (.param name) assoc := by
  unfold parameter? at found
  split at found
  · rename_i bare
    rw [Bool.and_eq_true] at bare
    cases found
    exact Or.inl ⟨path, by simpa using bare.2, rfl⟩
  · split at found
    · rename_i head name _
      split at found
      · rename_i known
        cases found
        exact Or.inr ⟨head, by simpa using known, name, rfl⟩
      · cases found
    · cases found

variable (grounded : scope.Grounded index) (declared : index.Within v)
  (params : ∀ name ∈ generics, v.params name = true)

include grounded declared

theorem resolveTrait_declared {written : String} {symbol : Symbol}
    (resolved : scope.resolvePath written index = .ok symbol) (kind : symbol.kind = .trait) :
    v.traits symbol.path = true := by
  have found := SymbolIndex.get?_of_symbol? (resolvePath_declared grounded resolved)
    (by simp [kind])
  exact declared.traits _ (kind ▸ found)

theorem resolveType_declared {written : String} {symbol : Symbol}
    (resolved : scope.resolvePath written index = .ok symbol) (kind : symbol.kind = .type) :
    v.types symbol.path = true := by
  have found := SymbolIndex.get?_of_symbol? (resolvePath_declared grounded resolved)
    (by simp [kind])
  exact declared.types _ (kind ▸ found)

include params

/-- A resolved type mentions declared types and traits and the parameters around it. -/
theorem resolveTy_over {t u : Ty} (written : t.Over (.written v.selfTy))
    (resolved : scope.resolveTy generics index t = .ok u) : u.Over v := by
  induction t using Ty.inductionOn generalizing u with
  | named path args ih =>
    rw [resolveTy] at resolved
    split at resolved
    · rename_i parameter found
      cases resolved
      rcases parameter?_eq_some found with ⟨name, known, rfl⟩ | ⟨name, known, assoc, rfl⟩
      · exact Ty.over_param.mpr (params name known)
      · exact Ty.over_projection.mpr (Ty.over_param.mpr (params name known))
    · obtain ⟨symbol, found, resolved⟩ := except_bind_eq_ok.mp resolved
      split at resolved
      · cases resolved
      · rename_i kind
        obtain ⟨us, there, resolved⟩ := except_bind_eq_ok.mp resolved
        cases resolved
        refine Ty.over_named.mpr ⟨?_, fun u member => ?_⟩
        · exact resolveType_declared grounded declared found (not_not.mp kind)
        · obtain ⟨t, inside, same⟩ := exists_of_mem_resolveTys there member
          exact ih t inside ((Ty.over_named.mp written).2 t inside) same
  | fn ps ret ihs ih =>
    rw [resolveTy] at resolved
    obtain ⟨us, there, resolved⟩ := except_bind_eq_ok.mp resolved
    obtain ⟨v, here, resolved⟩ := except_bind_eq_ok.mp resolved
    cases resolved
    obtain ⟨each, result⟩ := Ty.over_fn.mp written
    refine Ty.over_fn.mpr ⟨fun u member => ?_, ih result here⟩
    obtain ⟨t, inside, same⟩ := exists_of_mem_resolveTys there member
    exact ihs t inside (each t inside) same
  | promise path args assoc ihs ihc =>
    rw [resolveTy] at resolved
    obtain ⟨symbol, found, resolved⟩ := except_bind_eq_ok.mp resolved
    split at resolved
    · cases resolved
    · rename_i kind
      obtain ⟨us, there, resolved⟩ := except_bind_eq_ok.mp resolved
      obtain ⟨cs, behind, resolved⟩ := except_bind_eq_ok.mp resolved
      cases resolved
      obtain ⟨-, each, constraints⟩ := Ty.over_promise.mp written
      refine Ty.over_promise.mpr ⟨?_, fun u member => ?_, fun c member => ?_⟩
      · exact resolveTrait_declared grounded declared found (not_not.mp kind)
      · obtain ⟨t, inside, same⟩ := exists_of_mem_resolveTys there member
        exact ihs t inside (each t inside) same
      · obtain ⟨b, inside, same⟩ := exists_of_mem_resolveAssoc behind member
        exact ihc b inside (constraints b inside) same
  | projection base name ih =>
    rw [resolveTy] at resolved
    obtain ⟨u, here, resolved⟩ := except_bind_eq_ok.mp resolved
    cases resolved
    exact Ty.over_projection.mpr (ih (Ty.over_projection.mp written) here)
  | param name => cases Ty.over_param.mp written
  | const value =>
    cases resolved
    exact Ty.over_const value
  | selfTy =>
    cases resolved
    exact Ty.over_selfTy.mpr (Ty.over_selfTy.mp written)
  | infer =>
    cases resolved
    exact Ty.over_infer
  | unit =>
    cases resolved
    exact Ty.over_unit

end ModuleScope
end Pipeline
