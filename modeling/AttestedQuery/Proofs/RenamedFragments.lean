import AttestedQuery.Proofs.BindingOrder
import AttestedQuery.Proofs.LeftJoin
import AttestedQuery.Proofs.PathNames

/-!
# Fragments with permuted keys

A permutation of reserved keys, applied to the places of binding of an algebra, is applied to its
fragments, to what they bind and to the rows that they admit. Conditions are not touched: where they
name no key that is moved, they say the same of the permuted rows.
-/

set_option autoImplicit false

namespace AttestedQuery

open AttestedQuery.Normal (Reserved)

/-! ## Renamed maps -/

namespace KeyMap

variable {α : Type} [Inhabited α]

def renamed (σ : Equiv.Perm String) (map : KeyMap α) : KeyMap α :=
  ofList ((map.keys.map σ).map fun key => (key, (map.get? (σ.symm key)).getD default))

theorem get_renamed (σ : Equiv.Perm String) (map : KeyMap α) (key : String) :
    (map.renamed σ).get? key = map.get? (σ.symm key) := by
  have member : key ∈ map.keys.map σ ↔ (map.get? (σ.symm key)).isSome := by
    rw [← mem_keys_iff, List.mem_map]
    exact ⟨fun ⟨name, inside, same⟩ => by simpa [← same] using inside,
      fun inside => ⟨_, inside, σ.apply_symm_apply key⟩⟩
  rw [renamed, get_ofList_map]
  cases found : map.get? (σ.symm key) with
  | none => rw [if_neg (by simp [member, found])]
  | some value => rw [if_pos (by simp [member, found]), Option.getD_some]

theorem get_renamed_apply (σ : Equiv.Perm String) (map : KeyMap α) (key : String) :
    (map.renamed σ).get? (σ key) = map.get? key := by
  rw [get_renamed, σ.symm_apply_apply]

theorem renamed_symm (σ : Equiv.Perm String) (map : KeyMap α) :
    (map.renamed σ.symm).renamed σ = map := by
  apply ext
  intro key
  rw [get_renamed, get_renamed_apply]

theorem contains_renamed (σ : Equiv.Perm String) (map : KeyMap α) (key : String) :
    (map.renamed σ).contains key = map.contains (σ.symm key) := by
  rw [contains_eq_isSome, contains_eq_isSome, get_renamed]

end KeyMap

theorem KeySet.ext_contains {a b : KeySet} (same : ∀ key, a.contains key = b.contains key) :
    a = b := by
  apply KeyMap.ext
  intro key
  have here := same key
  rw [KeyMap.contains_eq_isSome, KeyMap.contains_eq_isSome] at here
  cases first : a.get? key <;> cases second : b.get? key <;> simp_all

section Renamed

variable (σ : Equiv.Perm String)

/-! ## Renamed patterns -/

section Patterns

variable {σ} (fixes : ∀ key, ¬ Reserved key → σ key = key)

theorem Pattern.positions_renamed (p : Pattern) (position : Nat) :
    (p.renamed σ).positions.get? position =
      (p.positions.get? position).map (Option.map (PatternTerm.renamed σ)) := by
  have same : (p.renamed σ).positions = p.positions.map (Option.map (PatternTerm.renamed σ)) := rfl
  rw [same, QuadOf.get_map]

theorem PatternTerm.renamed_const_iff {t : PatternTerm} {term : Term} :
    t.renamed σ = .const term ↔ t = .const term := by
  cases t <;> simp [PatternTerm.renamed]

theorem Pattern.const_renamed_iff {p : Pattern} {position : Nat} {term : Term} :
    (p.renamed σ).positions.get? position = some (some (.const term)) ↔
      p.positions.get? position = some (some (.const term)) := by
  rw [positions_renamed]
  simp [PatternTerm.renamed_const_iff]

theorem Pattern.encodable_renamed {e : Encoder} {p : Pattern} :
    (p.renamed σ).Encodable e ↔ p.Encodable e := by
  simp only [Encodable, const_renamed_iff]

include fixes

theorem Pattern.mem_keys_renamed {p : Pattern} {key : String} :
    key ∈ (p.renamed σ).keys ↔ σ.symm key ∈ p.keys := by
  rw [mem_keys_iff, mem_keys_iff]
  simp only [positions_renamed, Option.map_eq_some_iff]
  constructor
  · rintro ⟨position, _, ⟨_, asked, term, rfl, rfl⟩, named⟩
    rw [PatternTerm.key_renamed fixes, Option.map_eq_some_iff] at named
    obtain ⟨name, named, rfl⟩ := named
    exact ⟨position, term, asked, by rw [named, σ.symm_apply_apply]⟩
  · rintro ⟨position, term, asked, named⟩
    refine ⟨position, _, ⟨_, asked, term, rfl, rfl⟩, ?_⟩
    rw [PatternTerm.key_renamed fixes, named, Option.map_some, σ.apply_symm_apply]

theorem Pattern.fits_renamed {agrees : Term → Term → Prop} {row : Row} {p : Pattern} {quad : Quad} :
    (p.renamed σ).Fits agrees (row.renamed σ) quad ↔ p.Fits agrees row quad := by
  constructor
  · rintro ⟨constant, key⟩
    refine ⟨fun position term held asked => constant position term held
      (const_renamed_iff.2 asked), fun position term name asked named => ?_⟩
    rw [← row.get_renamed_apply σ]
    refine key position (term.renamed σ) (σ name) (by rw [positions_renamed, asked]; rfl) ?_
    rw [PatternTerm.key_renamed fixes, named, Option.map_some]
  · rintro ⟨constant, key⟩
    refine ⟨fun position term held asked => constant position term held
      (const_renamed_iff.1 asked), fun position other name asked named => ?_⟩
    simp only [positions_renamed, Option.map_eq_some_iff] at asked
    obtain ⟨_, asked, term, rfl, rfl⟩ := asked
    rw [PatternTerm.key_renamed fixes, Option.map_eq_some_iff] at named
    obtain ⟨name, named, rfl⟩ := named
    rw [row.get_renamed_apply σ]
    exact key position term name asked named

end Patterns

/-! ## Renamed extensions -/

namespace ScopedExtension

def renamed (x : ScopedExtension) : ScopedExtension :=
  ⟨σ x.name, x.value.renamed σ, x.visible.map (KeyMap.renamed σ)⟩

variable {σ} {bound : String → Prop} {x : ScopedExtension} {xs : List ScopedExtension} {row : Row}
  {e : Encoder}

theorem supplied_renamed :
    (x.renamed σ).Supplied (bound ∘ σ.symm) ↔ x.Supplied bound := by
  obtain ⟨name, value, visible⟩ := x
  cases value with
  | var source =>
    cases visible with
    | none => exact Iff.rfl
    | some visible =>
      simp [Supplied, renamed, Expr.renamed, KeyMap.contains_renamed]
  | _ => exact Iff.rfl

theorem compiles_renamed :
    (x.renamed σ).Compiles e (bound ∘ σ.symm) ↔ x.Compiles e bound := by
  obtain ⟨name, value, visible⟩ := x
  cases value with
  | var source => cases visible <;> simp [Compiles, Reached, renamed, Expr.renamed]
  | _ => exact Iff.rfl

theorem holds_renamed : (x.renamed σ).Holds (row.renamed σ) ↔ x.Holds row := by
  obtain ⟨name, value, visible⟩ := x
  cases value with
  | const term => simp [Holds, renamed, Expr.renamed, KeyMap.get_renamed]
  | var source => simp [Holds, renamed, Expr.renamed, KeyMap.get_renamed]
  | _ => exact Iff.rfl

theorem keys_renamed : (x.renamed σ).keys = x.keys.map σ := by
  obtain ⟨name, value, visible⟩ := x
  cases value <;> rfl

theorem after_renamed : (x.renamed σ).after (bound ∘ σ.symm) = x.after bound ∘ σ.symm := by
  funext key
  have about : key ∈ (x.renamed σ).keys ↔ σ.symm key ∈ x.keys := by
    rw [keys_renamed, List.mem_map]
    exact ⟨fun ⟨name, inside, same⟩ => by simpa [← same] using inside,
      fun inside => ⟨_, inside, σ.apply_symm_apply key⟩⟩
  simp only [after, supplied_renamed, about, Function.comp_apply]

theorem afterAll_renamed :
    afterAll (bound ∘ σ.symm) (xs.map (renamed σ)) = afterAll bound xs ∘ σ.symm := by
  induction xs generalizing bound with
  | nil => rfl
  | cons x rest induction =>
    rw [List.map_cons, afterAll_cons, afterAll_cons, after_renamed, induction]

theorem run_renamed : Run e (bound ∘ σ.symm) (xs.map (renamed σ)) ↔ Run e bound xs := by
  induction xs generalizing bound with
  | nil => exact Iff.rfl
  | cons x rest induction =>
    rw [List.map_cons, Run, Run, compiles_renamed, after_renamed, induction]

theorem met_renamed : Met (row.renamed σ) (bound ∘ σ.symm) (xs.map (renamed σ)) ↔
    Met row bound xs := by
  induction xs generalizing bound with
  | nil => exact Iff.rfl
  | cons x rest induction =>
    rw [List.map_cons, Met, Met, supplied_renamed, holds_renamed, after_renamed, induction]

end ScopedExtension

/-! ## Renamed fragments -/

/-- A filter that may read the renamed keys. Its condition stays as it is. -/
def ScopedFilter.renamed (x : ScopedFilter) : ScopedFilter :=
  { x with visible := x.visible.renamed σ }

namespace Fragment

def renamed (f : Fragment) : Fragment where
  patterns := f.patterns.map (.renamed σ)
  extensions := f.extensions.map (.renamed σ)
  filters := f.filters.map (.renamed σ)
  exclusiveOf := f.exclusiveOf

theorem commutes_renamed : Commutes (renamed σ) where
  paired _ _ _ _ _ := by simp [renamed, paired]
  shifted _ _ := rfl

section Keys

variable {σ} (fixes : ∀ key, ¬ Reserved key → σ key = key)
include fixes

theorem matched_renamed (f : Fragment) : (f.renamed σ).Matched = f.Matched ∘ σ.symm := by
  funext key
  simp [Matched, renamed, Pattern.mem_keys_renamed fixes]

theorem binds_renamed (f : Fragment) : (f.renamed σ).Binds = f.Binds ∘ σ.symm := by
  rw [Binds, matched_renamed fixes]
  exact ScopedExtension.afterAll_renamed

theorem keys_renamed (f : Fragment) : (f.renamed σ).keys = f.keys.renamed σ := by
  apply KeySet.ext_contains
  intro key
  rw [KeyMap.contains_renamed, Bool.eq_iff_iff, contains_keys_iff_placed, contains_keys_iff_placed]
  have named (x : ScopedExtension) : (x.renamed σ).name = key ↔ x.name = σ.symm key :=
    (Equiv.eq_symm_apply σ).symm
  simp [renamed, Pattern.mem_keys_renamed fixes, named]

theorem withFilter_renamed (number : Nat) (condition : Expr) (f : Fragment) :
    (f.withFilter number condition).renamed σ = (f.renamed σ).withFilter number condition := by
  rw [withFilter, withFilter, keys_renamed fixes]
  simp [renamed, ScopedFilter.renamed]

theorem withExtension_renamed (pathAlias : Bool) (name : String) (value : Expr) (f : Fragment) :
    (f.withExtension pathAlias name value).renamed σ =
      (f.renamed σ).withExtension pathAlias (σ name) (value.renamed σ) := by
  rw [withExtension, withExtension, keys_renamed fixes]
  cases pathAlias <;> simp [renamed, ScopedExtension.renamed]

theorem yields_renamed {agrees : Term → Term → Prop} {quads : List Quad} {f : Fragment}
    {row : Row} :
    (f.renamed σ).Yields agrees quads (row.renamed σ) ↔ f.Yields agrees quads row := by
  have met : ScopedExtension.Met (row.renamed σ) (f.renamed σ).Matched (f.renamed σ).extensions ↔
      ScopedExtension.Met row f.Matched f.extensions := by
    rw [matched_renamed fixes]
    exact ScopedExtension.met_renamed
  constructor
  · rintro ⟨fits, holds, bound⟩
    refine ⟨fun p member => ?_, met.1 holds, fun key => ?_⟩
    · obtain ⟨quad, inside, fit⟩ := fits (p.renamed σ) (List.mem_map_of_mem member)
      exact ⟨quad, inside, (Pattern.fits_renamed fixes).1 fit⟩
    · have here := bound (σ key)
      rw [KeyMap.get_renamed_apply, binds_renamed fixes, Function.comp_apply,
        σ.symm_apply_apply] at here
      exact here
  · rintro ⟨fits, holds, bound⟩
    refine ⟨List.forall_mem_map.2 fun p member => ?_, met.2 holds, fun key => ?_⟩
    · obtain ⟨quad, inside, fit⟩ := fits p member
      exact ⟨quad, inside, (Pattern.fits_renamed fixes).2 fit⟩
    · rw [KeyMap.get_renamed, binds_renamed fixes]
      exact bound (σ.symm key)

end Keys

end Fragment

/-! ## Algebras whose expressions name no renamed key -/

namespace Algebra

mutual

/-- The names in the conditions of an algebra and in the values that it binds by BIND. -/
def reads : Algebra → List String
  | .bgp _ => []
  | .join left right => left.reads ++ right.reads
  | .union _ branches => readsOfAll branches
  | .filter condition inner => condition.names ++ inner.reads
  | .extend pathAlias _ value inner => (if pathAlias then [] else value.names) ++ inner.reads
  | .project _ inner => inner.reads

def readsOfAll : List Algebra → List String
  | [] => []
  | branch :: rest => branch.reads ++ readsOfAll rest

end

theorem mem_readsOfAll {branches : List Algebra} {key : String} :
    key ∈ readsOfAll branches ↔ ∃ branch ∈ branches, key ∈ branch.reads := by
  induction branches with
  | nil => simp [readsOfAll]
  | cons first rest induction =>
    rw [readsOfAll, List.mem_append, induction, List.exists_mem_cons_iff]

end Algebra

namespace Algebra

theorem reads_bodyOf (a : Algebra) : (Program.bodyOf a).reads = a.reads := by
  cases a <;> rfl

mutual

theorem reads_renamed {σ : Equiv.Perm String} : (a : Algebra) → (a.renamed σ).reads = a.reads
  | .bgp _ => rfl
  | .join left right => by rw [renamed, reads, reads, reads_renamed left, reads_renamed right]
  | .union _ branches => by rw [renamed, reads, reads, readsOfAll_renamed branches]
  | .filter _ inner | .project _ inner => by rw [renamed, reads, reads, reads_renamed inner]
  | .extend pathAlias _ value inner => by
    rw [renamed, reads, reads, reads_renamed inner]
    cases pathAlias <;> rfl

theorem readsOfAll_renamed {σ : Equiv.Perm String} : (branches : List Algebra) →
    readsOfAll (renamedAll σ branches) = readsOfAll branches
  | [] => rfl
  | branch :: rest => by
    rw [renamedAll, readsOfAll, readsOfAll, reads_renamed branch, readsOfAll_renamed rest]

end

end Algebra

theorem Expr.renamed_of_names {σ : Equiv.Perm String} {value : Expr}
    (kept : ∀ key ∈ value.names, σ key = key) : value.renamed σ = value := by
  cases value with
  | var key => rw [renamed, kept key (by simp [names])]
  | _ => rfl

namespace Fragment

section Keys

variable {σ}

theorem Each.renamed {n m : Nat} {branches : List Algebra} {lists : List (List Fragment)}
    (each : Each (fun n a fragments m => (∀ key ∈ a.reads, σ key = key) →
      ofAlgebra n (a.renamed σ) = .ok (fragments.map (Fragment.renamed σ), m)) n branches lists m)
    (kept : ∀ key ∈ Algebra.readsOfAll branches, σ key = key) :
    ofBranches n (Algebra.renamedAll σ branches) =
      .ok (lists.map (List.map (Fragment.renamed σ)), m) := by
  induction each with
  | nil => rfl
  | cons first _ induction =>
    simp only [Algebra.readsOfAll, List.mem_append] at kept
    rw [Algebra.renamedAll, ofBranches]
    exact bind_ok_iff.2 ⟨_, first fun key member => kept key (Or.inl member),
      bind_ok_iff.2 ⟨_, induction fun key member => kept key (Or.inr member), rfl⟩⟩

variable (fixes : ∀ key, ¬ Reserved key → σ key = key)
include fixes

theorem closed_renamed : Closed fun n a fragments m => (∀ key ∈ a.reads, σ key = key) →
    ofAlgebra n (a.renamed σ) = .ok (fragments.map (Fragment.renamed σ), m) where
  bgp n patterns _ := rfl
  join first second kept := by
    simp only [Algebra.reads, List.mem_append] at kept
    rw [Algebra.renamed, ofAlgebra]
    refine bind_ok_iff.2 ⟨_, first fun key member => kept key (Or.inl member),
      bind_ok_iff.2 ⟨_, second fun key member => kept key (Or.inr member), ?_⟩⟩
    exact congrArg (fun l => Except.ok (l, _)) ((commutes_renamed σ).product _ _)
  union kind each kept := by
    have branchwise : ofBranches _ _ = _ := Each.renamed each kept
    rw [Algebra.renamed, ofAlgebra]
    refine bind_ok_iff.2 ⟨_, branchwise, ?_⟩
    exact congrArg (fun l => Except.ok (l, _))
      ((commutes_renamed σ).united (fun _ _ => rfl) kind _)
  filter condition induction kept := by
    simp only [Algebra.reads, List.mem_append] at kept
    rw [Algebra.renamed, ofAlgebra]
    refine bind_ok_iff.2 ⟨_, induction fun key member => kept key (Or.inr member), ?_⟩
    exact congrArg (fun l => Except.ok (l, _)) (by
      simp [Function.comp_def, withFilter_renamed fixes])
  extend pathAlias name value induction kept := by
    simp only [Algebra.reads, List.mem_append] at kept
    have source : (if pathAlias then value.renamed σ else value) = value.renamed σ := by
      cases pathAlias with
      | true => rfl
      | false => exact (Expr.renamed_of_names fun key named => kept key (Or.inl named)).symm
    rw [Algebra.renamed, ofAlgebra, source]
    refine bind_ok_iff.2 ⟨_, induction fun key member => kept key (Or.inr member), ?_⟩
    exact congrArg (fun l => Except.ok (l, _)) (by
      simp [Function.comp_def, withExtension_renamed fixes])

end Keys

theorem closed_reads : Closed fun _ a fragments _ => ∀ f ∈ fragments, ∀ x ∈ f.filters,
    ∀ key ∈ x.condition.names, key ∈ a.reads where
  bgp n patterns := by simp [ofPatterns]
  join first second := by
    intro f member x filter key named
    obtain ⟨i, j, a, b, here, there, rfl⟩ := mem_product.1 member
    rw [Algebra.reads, List.mem_append]
    exact (List.mem_append.1 filter).imp (first a (List.mem_of_getElem? here) x · key named)
      (second b (List.mem_of_getElem? there) x · key named)
  union kind each := by
    intro f member x filter key named
    obtain ⟨list, inside, g, here, same⟩ := mem_united member
    rw [same] at filter
    obtain ⟨branch, branched, _, _, holds⟩ := each.exists_branch inside
    exact Algebra.mem_readsOfAll.2 ⟨branch, branched, holds g here x filter key named⟩
  filter condition induction := by
    intro f member x filter key named
    obtain ⟨g, inside, rfl⟩ := List.mem_map.1 member
    rw [Algebra.reads, List.mem_append]
    rcases List.mem_append.1 filter with before | last
    · exact Or.inr (induction g inside x before key named)
    · rw [List.mem_singleton.1 last] at named
      exact Or.inl named
  extend pathAlias name value induction := by
    intro f member x filter key named
    obtain ⟨g, inside, rfl⟩ := List.mem_map.1 member
    exact List.mem_append_right _ (induction g inside x filter key named)

/-! ## Filters of renamed fragments -/

def Unmoved (f : Fragment) : Prop := ∀ x ∈ f.filters, ∀ key ∈ x.condition.names, σ key = key

section Filters

variable {σ} {e : Encoder} {f g : Fragment} {row : Row}

theorem isTrue_renamed {x : ScopedFilter} (unmoved : ∀ key ∈ x.condition.names, σ key = key) :
    (x.renamed σ).isTrue e (row.renamed σ) = x.isTrue e row := by
  refine Row.satisfies_congr fun key named => ?_
  have back : σ.symm key = key := by rw [Equiv.symm_apply_eq, unmoved key named]
  simp only [KeyMap.get_restrict, ScopedFilter.renamed, KeyMap.contains_renamed,
    KeyMap.get_renamed, back]

theorem passes_renamed (unmoved : f.Unmoved σ) :
    (f.renamed σ).Passes e (row.renamed σ) ↔ f.Passes e row := by
  simp only [Passes, renamed, List.forall_mem_map]
  exact forall₂_congr fun x filter => by rw [isTrue_renamed (unmoved x filter)]

theorem passesBeside_renamed (unmoved : g.Unmoved σ) :
    (g.renamed σ).PassesBeside e (f.renamed σ) (row.renamed σ) ↔ g.PassesBeside e f row := by
  simp only [PassesBeside, renamed, List.forall_mem_map, List.map_map, Function.comp_def]
  exact forall₂_congr fun x filter => by
    rw [isTrue_renamed (unmoved x filter)]
    rfl

theorem compiles_renamed (fixes : ∀ key, ¬ Reserved key → σ key = key) (unmoved : f.Unmoved σ) :
    (f.renamed σ).Compiles e ↔ f.Compiles e := by
  have run : ScopedExtension.Run e (f.renamed σ).Matched (f.renamed σ).extensions ↔
      ScopedExtension.Run e f.Matched f.extensions := by
    rw [matched_renamed fixes]
    exact ScopedExtension.run_renamed
  have reads (x : ScopedFilter) (filter : x ∈ f.filters) (key : String)
      (named : key ∈ x.condition.names) :
      (x.visible.contains key = true ∧ f.Binds key) ↔
        (x.visible.renamed σ).contains key = true ∧ (f.renamed σ).Binds key := by
    have back : σ.symm key = key := by rw [Equiv.symm_apply_eq, unmoved x filter key named]
    rw [KeyMap.contains_renamed, binds_renamed fixes, Function.comp_apply, back]
  constructor
  · rintro ⟨patterns, extensions, filters⟩
    refine ⟨fun p member => ?_, run.1 extensions, fun x filter => ?_⟩
    · exact Pattern.encodable_renamed.1 (patterns (p.renamed σ) (List.mem_map_of_mem member))
    · exact (filters (x.renamed σ) (List.mem_map_of_mem filter)).congr fun key named =>
        (reads x filter key named).symm
  · rintro ⟨patterns, extensions, filters⟩
    refine ⟨List.forall_mem_map.2 fun p member => ?_, run.2 extensions,
      List.forall_mem_map.2 fun x filter => ?_⟩
    · exact Pattern.encodable_renamed.2 (patterns p member)
    · exact (filters x filter).congr (reads x filter)

end Filters

end Fragment

end Renamed

end AttestedQuery
