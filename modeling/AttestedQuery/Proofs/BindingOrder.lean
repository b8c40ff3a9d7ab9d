import AttestedQuery.Proofs.QuadOrder
import AttestedQuery.Proofs.Visibility

/-!
# What a fragment becomes

What is known of the branch of a fragment before it is compiled. Its extensions are met in their
order, and each of them may bind keys for those after it: so the keys that are bound before an
extension decide whether it can be compiled, whether it has a value, and what is bound after it. A
fragment can be compiled where its constants have encodings, each extension can be compiled when its
turn comes, and each filter can be compiled over the keys that are bound in the end. The rows that
its branch admits are those that fit its patterns, bind these keys, and give the value to each
extension that has one.
-/

set_option autoImplicit false

namespace AttestedQuery

/-! ## One extension -/

namespace ScopedExtension

variable {bound few more : String → Prop} {x : ScopedExtension} {row : Row}

/-- One end of a path of length zero is bound. -/
def Reached (bound : String → Prop) (x : ScopedExtension) : Prop :=
  match x.value, x.visible with
  | .var source, none => bound x.name ∨ bound source
  | _, _ => True

def Compiles (e : Encoder) (bound : String → Prop) (x : ScopedExtension) : Prop :=
  match x.value with
  | .const term => ∃ code, e.encode term = .ok code
  | .var _ => x.Reached bound
  | _ => False

def after (bound : String → Prop) (x : ScopedExtension) (key : String) : Prop :=
  bound key ∨ x.Supplied bound ∧ key ∈ x.keys

theorem Reached.mono (reached : x.Reached few) (grows : ∀ key, few key → more key) :
    x.Reached more := by
  obtain ⟨name, value, visible⟩ := x
  cases value with
  | var source =>
    cases visible with
    | none => exact Or.imp (grows name) (grows source) reached
    | some visible => trivial
  | _ => trivial

theorem Compiles.reached {e : Encoder} (compiles : x.Compiles e bound) : x.Reached bound := by
  obtain ⟨name, value, visible⟩ := x
  cases value with
  | var source => exact compiles
  | _ => trivial

/-- Which keys are bound matters to compiling for the ends of paths alone. -/
theorem Compiles.of_reached {e : Encoder} (compiles : x.Compiles e few)
    (reached : x.Reached more) : x.Compiles e more := by
  obtain ⟨name, value, visible⟩ := x
  cases value with
  | var source => exact reached
  | _ => exact compiles

theorem after_mono (grows : ∀ key, few key → more key) (key : String) (bound : x.after few key) :
    x.after more key :=
  bound.imp (grows key) fun ⟨supplied, about⟩ => ⟨supplied.mono grows, about⟩

end ScopedExtension

namespace Tracing

variable {e : Encoder} {t final : Tracing} {x : ScopedExtension} {xs : List ScopedExtension}
  {made : List Extension} {row : Row}

theorem exists_extension_iff : (∃ found, t.extension? e x = .ok found) ↔ x.Compiles e t.Binds := by
  obtain ⟨name, value, visible⟩ := x
  cases value with
  | const term =>
    refine ⟨fun ⟨found, traced⟩ => ?_, fun ⟨code, encoded⟩ => ?_⟩
    · obtain ⟨code, encoded, _⟩ := bind_ok_iff.1 traced
      exact ⟨code, encoded⟩
    · exact ⟨_, bind_ok_iff.2 ⟨code, encoded, rfl⟩⟩
  | var key =>
    simp only [extension?, ScopedExtension.Compiles, ScopedExtension.Reached, Binds]
    cases visible with
    | some visible => cases t.sources.get? key <;> simp
    | none =>
      cases found : t.sources.get? key with
      | some source => simp [found]
      | none => cases t.sources.get? name <;> simp [found]
  | _ => simp [extension?, ScopedExtension.Compiles]

theorem holds_of_extension {extension : Extension} {wire : Wire}
    (traced : t.extension? e x = .ok (some (extension, wire))) :
    extension.Holds row ↔ x.Holds row := by
  rcases extension_cases traced with plain | ⟨name, source, visible, rfl⟩
  · obtain ⟨_, _, same, holds, _⟩ := extension_plain plain traced
    obtain ⟨rfl, rfl⟩ := Prod.mk.inj (Option.some.inj same)
    exact holds row
  · rcases extension_copy traced with ⟨impossible, _⟩ | ⟨_, same, _, _⟩
    · cases impossible
    · obtain ⟨rfl, rfl⟩ := Prod.mk.inj (Option.some.inj same)
      exact exists_congr fun term => and_comm

end Tracing

/-! ## Extensions in their order -/

namespace ScopedExtension

variable {bound few more : String → Prop} {xs ys : List ScopedExtension} {row : Row}

/-- The keys that are bound after several extensions. -/
def afterAll (bound : String → Prop) (xs : List ScopedExtension) : String → Prop :=
  xs.foldl after bound

/-- Each of several extensions can be compiled when its turn comes. -/
def Run (e : Encoder) : (String → Prop) → List ScopedExtension → Prop
  | _, [] => True
  | bound, x :: rest => x.Compiles e bound ∧ Run e (x.after bound) rest

def Met (row : Row) : (String → Prop) → List ScopedExtension → Prop
  | _, [] => True
  | bound, x :: rest => (x.Supplied bound → x.Holds row) ∧ Met row (x.after bound) rest

theorem afterAll_cons {x : ScopedExtension} :
    afterAll bound (x :: xs) = afterAll (x.after bound) xs := rfl

theorem afterAll_append : afterAll bound (xs ++ ys) = afterAll (afterAll bound xs) ys :=
  List.foldl_append

theorem run_append {e : Encoder} :
    Run e bound (xs ++ ys) ↔ Run e bound xs ∧ Run e (afterAll bound xs) ys := by
  induction xs generalizing bound with
  | nil => simp [Run, afterAll]
  | cons x rest induction => simp [Run, afterAll, induction, and_assoc]

theorem met_append :
    Met row bound (xs ++ ys) ↔ Met row bound xs ∧ Met row (afterAll bound xs) ys := by
  induction xs generalizing bound with
  | nil => simp [Met, afterAll]
  | cons x rest induction => simp [Met, afterAll, induction, and_assoc]

theorem afterAll_keeps {key : String} (here : bound key) : afterAll bound xs key := by
  induction xs generalizing bound with
  | nil => exact here
  | cons x rest induction => exact induction (Or.inl here)

/-- What can be compiled where few keys are bound can be where more are. -/
theorem Run.mono {e : Encoder} (run : Run e few xs) (grows : ∀ key, few key → more key) :
    Run e more xs := by
  induction xs generalizing few more with
  | nil => trivial
  | cons x rest induction =>
    exact ⟨run.1.of_reached (run.1.reached.mono grows), induction run.2 (after_mono grows)⟩

end ScopedExtension

namespace Tracing

open ScopedExtension

variable {e : Encoder} {t final : Tracing} {xs : List ScopedExtension} {made : List Extension}
  {row : Row}

theorem binds_of_extension {x : ScopedExtension} {extension : Extension} {wire : Wire}
    (traced : t.extension? e x = .ok (some (extension, wire))) :
    (t.withKey extension.name wire).Binds = x.after t.Binds := by
  obtain ⟨supplied, keys⟩ := supplied_of_some traced
  funext key
  refine propext ((isSome_withKey t extension.name key wire).trans ((keys key).trans ?_))
  rw [after, and_iff_right supplied, or_comm]

theorem after_of_none {x : ScopedExtension} (traced : t.extension? e x = .ok none) :
    x.after t.Binds = t.Binds := by
  funext key
  simp [after, not_supplied_of_none traced]

theorem exists_withExtension_iff {state : Tracing × List Extension} {x : ScopedExtension} :
    (∃ next, withExtension e state x = .ok next) ↔ x.Compiles e state.1.Binds := by
  rw [← exists_extension_iff]
  constructor
  · rintro ⟨next, made⟩
    obtain ⟨found, traced, _⟩ := bind_ok_iff.1 made
    exact ⟨found, traced⟩
  · rintro ⟨found, traced⟩
    refine bind_succeeds ⟨found, traced⟩ fun found _ => ?_
    cases found with
    | none => exact ⟨_, rfl⟩
    | some found => exact ⟨_, rfl⟩

theorem binds_of_withExtension {state next : Tracing × List Extension} {x : ScopedExtension}
    (made : withExtension e state x = .ok next) : next.1.Binds = x.after state.1.Binds := by
  obtain ⟨found, traced, made⟩ := bind_ok_iff.1 made
  cases found with
  | none =>
    obtain rfl := pure_ok_iff.1 made
    exact (after_of_none traced).symm
  | some found =>
    obtain rfl := pure_ok_iff.1 made
    exact binds_of_extension traced

/-- Extensions are compiled one after another where each can be compiled when its turn comes. -/
theorem exists_foldlM_iff {state : Tracing × List Extension} :
    (∃ last, xs.foldlM (withExtension e) state = .ok last) ↔ Run e state.1.Binds xs := by
  induction xs generalizing state with
  | nil => exact ⟨fun _ => trivial, fun _ => ⟨_, rfl⟩⟩
  | cons x rest induction =>
    rw [Run, ← exists_withExtension_iff, List.foldlM_cons]
    constructor
    · rintro ⟨last, folded⟩
      obtain ⟨next, made, later⟩ := bind_ok_iff.1 folded
      rw [← binds_of_withExtension made]
      exact ⟨⟨next, made⟩, induction.1 ⟨last, later⟩⟩
    · rintro ⟨first, others⟩
      refine bind_succeeds first fun next made => induction.2 ?_
      rw [binds_of_withExtension made]
      exact others

theorem Applies.binds (applies : Applies e t xs made final) :
    final.Binds = afterAll t.Binds xs := by
  induction applies with
  | done t => rfl
  | skip found _ induction => rw [induction, afterAll_cons, after_of_none found]
  | make found _ induction => rw [induction, afterAll_cons, ← binds_of_extension found]

/-- The extensions that have a value say together what the row gives each its value for. -/
theorem Applies.met (applies : Applies e t xs made final) :
    (∀ x ∈ made, x.Holds row) ↔ Met row t.Binds xs := by
  induction applies with
  | done t => simp [Met]
  | skip found _ induction =>
    rw [induction, Met, after_of_none found]
    exact (and_iff_right fun supplied => absurd supplied (not_supplied_of_none found)).symm
  | make found _ induction =>
    rw [List.forall_mem_cons, induction, Met, binds_of_extension found, holds_of_extension found]
    exact and_congr_left' ⟨fun holds _ => holds, fun holds => holds (supplied_of_some found).1⟩

end Tracing

/-! ## Patterns and filters -/

def Pattern.Encodable (e : Encoder) (p : Pattern) : Prop :=
  ∀ position term, p.positions.get? position = some (some (.const term)) →
    ∃ code, e.encode term = .ok code

theorem foldlM_succeeds {ε α β : Type} {f : β → α → Except ε β} {xs : List α}
    (each : ∀ state, ∀ x ∈ xs, ∃ next, f state x = .ok next) (start : β) :
    ∃ last, xs.foldlM f start = .ok last := by
  cases folded : xs.foldlM f start with
  | ok last => exact ⟨last, rfl⟩
  | error fault =>
    obtain ⟨state, x, member, failed⟩ := foldlM_error folded
    obtain ⟨next, made⟩ := each state x member
    rw [failed] at made
    cases made

theorem run_mapM_succeeds {ε σ α β : Type} {f : α → StateT σ (Except ε) β} {xs : List α}
    (each : ∀ x ∈ xs, ∀ s, ∃ found, f x s = .ok found) {s : σ} :
    ∃ found, xs.mapM f s = .ok found := by
  induction xs generalizing s with
  | nil => exact ⟨([], s), rfl⟩
  | cons x rest induction =>
    obtain ⟨⟨y, middle⟩, first⟩ := each x List.mem_cons_self s
    obtain ⟨⟨ys, last⟩, others⟩ :=
      induction (fun z member => each z (List.mem_cons_of_mem x member)) (s := middle)
    rw [List.mapM_cons]
    exact ⟨(y :: ys, last), run_bind_ok_iff.2 ⟨y, middle, first,
      run_bind_ok_iff.2 ⟨ys, last, others, rfl⟩⟩⟩

namespace Tracing

variable {e : Encoder}

theorem exists_withPosition {t : Tracing} {here : Wire} {asked : Option PatternTerm}
    (encodable : ∀ term, asked = some (.const term) → ∃ code, e.encode term = .ok code) :
    ∃ next, t.withPosition e here asked = .ok next := by
  rcases asked with _ | term | name | label
  · exact ⟨t, rfl⟩
  · exact bind_succeeds (encodable term rfl) fun code _ => ⟨_, rfl⟩
  · simp only [withPosition, PatternTerm.key?]
    split <;> exact ⟨_, rfl⟩
  · simp only [withPosition, PatternTerm.key?]
    split <;> exact ⟨_, rfl⟩

theorem exists_ofPatterns_iff {patterns : List Pattern} :
    (∃ t, ofPatterns e patterns = .ok t) ↔ ∀ p ∈ patterns, p.Encodable e := by
  constructor
  · rintro ⟨t, traced⟩ p member position term asked
    obtain ⟨i, inside, rfl⟩ := List.getElem_of_mem member
    refine (records_ofPatterns traced).encodable (.slot i position, some (.const term))
      (mem_places_iff.2 ⟨i, _, position, List.getElem?_eq_getElem inside, asked, rfl⟩) term rfl
  · intro encodable
    refine foldlM_succeeds (fun t entry listed => ?_) initial
    refine foldlM_succeeds (fun t place asked => exists_withPosition fun term constant => ?_) t
    obtain ⟨p, i⟩ := entry
    obtain ⟨asked', position⟩ := place
    rw [List.mem_zipIdx_iff_getElem?] at listed asked
    rw [QuadOf.toList_getElem] at asked
    exact encodable p (List.mem_of_getElem? listed) position term
      (asked.trans (congrArg some constant))

end Tracing

def Expr.Compiles (e : Encoder) (read : String → Prop) (condition : Expr) : Prop :=
  ∃ s : Surroundings, s.encoder = e ∧
    (∀ key ∈ condition.names, (s.keyWire? key).isSome = true ↔ read key) ∧
    ∃ hints found, s.condition condition hints = .ok found

theorem Surroundings.exists_condition_iff (s : Surroundings) {e : Encoder} (encoder : s.encoder = e)
    {read : String → Prop} (keys : ∀ key, (s.keyWire? key).isSome = true ↔ read key)
    (condition : Expr) (hints : List Hint) :
    (∃ found, s.condition condition hints = .ok found) ↔ condition.Compiles e read := by
  refine ⟨fun compiled => ⟨s, encoder, fun key _ => keys key, hints, compiled⟩, ?_⟩
  rintro ⟨t, same, reads, before, ⟨c, after⟩, compiled⟩
  have narrow (any : Surroundings) :
      (any.narrowed condition.names).condition condition = any.condition condition :=
    condition_narrowed condition fun _ member => member
  have twins : (t.narrowed condition.names).Twins (s.narrowed condition.names) := by
    refine ⟨encoder.trans same.symm, fun key => ?_⟩
    rw [keyWire_narrowed, keyWire_narrowed]
    by_cases named : key ∈ condition.names
    · rw [if_pos (List.contains_iff_mem.2 named), if_pos (List.contains_iff_mem.2 named)]
      exact Bool.eq_iff_iff.2 ((keys key).trans (reads key named).symm)
    · rw [if_neg (by simpa using named), if_neg (by simpa using named)]
  rw [← narrow t] at compiled
  obtain ⟨d, final, ran, _⟩ := matches_condition twins condition before hints c after compiled
  rw [narrow s] at ran
  exact ⟨_, ran⟩

theorem Expr.Compiles.congr {e : Encoder} {read other : String → Prop} {condition : Expr}
    (compiles : condition.Compiles e read)
    (same : ∀ key ∈ condition.names, read key ↔ other key) : condition.Compiles e other := by
  obtain ⟨s, encoder, keys, compiled⟩ := compiles
  exact ⟨s, encoder, fun key named => (keys key named).trans (same key named), compiled⟩

/-! ## Fragments -/

namespace Fragment

def Matched (f : Fragment) (key : String) : Prop := ∃ p ∈ f.patterns, key ∈ p.keys

/-- The patterns of a fragment and its extensions bind a key. -/
def Binds (f : Fragment) : String → Prop := ScopedExtension.afterAll f.Matched f.extensions

structure Compiles (e : Encoder) (f : Fragment) : Prop where
  patterns : ∀ p ∈ f.patterns, p.Encodable e
  extensions : ScopedExtension.Run e f.Matched f.extensions
  filters : ∀ x ∈ f.filters,
    x.condition.Compiles e fun key => x.visible.contains key = true ∧ f.Binds key

structure Yields (agrees : Term → Term → Prop) (quads : List Quad) (f : Fragment) (row : Row) :
    Prop where
  fits : ∀ p ∈ f.patterns, ∃ quad ∈ quads, p.Fits agrees row quad
  met : ScopedExtension.Met row f.Matched f.extensions
  bound : ∀ key, (row.get? key).isSome = true ↔ f.Binds key

variable {e : Encoder} {f : Fragment} {projected : List String}

theorem binds_of_ofPatterns {t : Tracing} (traced : Tracing.ofPatterns e f.patterns = .ok t) :
    t.Binds = f.Matched :=
  funext fun key => propext (Tracing.isSome_ofPatterns traced key)

theorem exists_filterOf_iff {t : Tracing} {x : ScopedFilter} {hints : List Hint}
    (binds : t.Binds = f.Binds) :
    (∃ found, Branch.filterOf e projected t.sources x hints = .ok found) ↔
      x.condition.Compiles e fun key => x.visible.contains key = true ∧ f.Binds key := by
  have keys (key : String) : ((Surroundings.mk e projected t.sources x.visible).keyWire? key).isSome
      = true ↔ x.visible.contains key = true ∧ f.Binds key := by
    rw [Surroundings.isSome_keyWire, Bool.and_eq_true, ← binds]
    rfl
  rw [← Surroundings.exists_condition_iff _ rfl keys _ hints]
  constructor
  · rintro ⟨⟨filter, after⟩, made⟩
    obtain ⟨c, middle, ran, _⟩ := run_bind_ok_iff.1 made
    exact ⟨_, ran⟩
  · rintro ⟨⟨c, after⟩, ran⟩
    exact ⟨(⟨x.number, c.holds⟩, after), run_bind_ok_iff.2 ⟨c, after, ran, rfl⟩⟩

theorem exists_ofFragment_iff {hints : List Hint} :
    (∃ found, Branch.ofFragment e projected f hints = .ok found) ↔ f.Compiles e := by
  constructor
  · rintro ⟨⟨b, after⟩, compiled⟩
    obtain ⟨plain, t, extensions, filters, traced, folded, filtered, _⟩ :=
      Branch.ofFragment_ok_iff.1 compiled
    obtain ⟨made, _, applies⟩ := Tracing.applies_of_foldlM folded
    have start := binds_of_ofPatterns traced
    have binds : t.Binds = f.Binds := by rw [applies.binds, start, Binds]
    refine ⟨Tracing.exists_ofPatterns_iff.1 ⟨plain, traced⟩, ?_, fun x member => ?_⟩
    · exact start ▸ Tracing.exists_foldlM_iff.1 ⟨_, folded⟩
    · obtain ⟨place, inside, rfl⟩ := List.getElem_of_mem member
      have each := run_mapM_each filtered
      obtain ⟨before, after, made⟩ := each.get inside (by rw [← each.length_eq]; exact inside)
      exact (exists_filterOf_iff binds).1 ⟨_, made⟩
  · rintro ⟨patterns, run, filters⟩
    obtain ⟨plain, traced⟩ := Tracing.exists_ofPatterns_iff.2 patterns
    have start := binds_of_ofPatterns traced
    obtain ⟨⟨t, extensions⟩, folded⟩ : ∃ last,
        f.extensions.foldlM (Tracing.withExtension e) (plain, []) = .ok last :=
      Tracing.exists_foldlM_iff.2 (by rw [start]; exact run)
    obtain ⟨made, _, applies⟩ := Tracing.applies_of_foldlM folded
    have binds : t.Binds = f.Binds := by rw [applies.binds, start, Binds]
    obtain ⟨⟨compiled, after⟩, filtered⟩ : ∃ found,
        f.filters.mapM (Branch.filterOf e projected t.sources) hints = .ok found :=
      run_mapM_succeeds fun x member hints => (exists_filterOf_iff binds).2 (filters x member)
    exact ⟨(_, after), Branch.ofFragment_ok_iff.2
      ⟨plain, t, extensions, compiled, traced, folded, filtered, rfl⟩⟩

theorem admits_iff_yields {b : Branch} {start final : Tracing} (applies : b.Applies e f start final)
    {d : Dataset} {row : Row} : b.Admits d e row ↔ f.Yields e.SameCode d.quads row := by
  have matched := binds_of_ofPatterns applies.traced
  have binds : final.Binds = f.Binds := by rw [applies.extensions.binds, matched, Binds]
  have met : (∀ x ∈ b.extensions, x.Holds row) ↔ _ := applies.extensions.met
  rw [matched] at met
  have bound (key : String) : (row.get? key).isSome = b.bound.contains key ↔
      ((row.get? key).isSome = true ↔ f.Binds key) := by
    rw [applies.bound, Bool.eq_iff_iff, ← binds]
    rfl
  constructor
  · intro admits
    refine ⟨?_, met.1 admits.extended, fun key => (bound key).1 (admits.bound key)⟩
    rw [← applies.patterns]
    exact admits.fits
  · intro yields
    refine ⟨?_, met.2 yields.met, fun key => (bound key).2 (yields.bound key)⟩
    rw [applies.patterns]
    exact yields.fits

end Fragment

/-! ## Programs -/

namespace Program

variable {config : Config} {query : NormalQuery} {p : Program} {fragments : List Fragment}

theorem exists_ofNormal_iff : (∃ p, ofNormal config query = .ok p) ↔ ∃ fragments next,
    Fragment.ofAlgebra 0 (bodyOf query.algebra) = .ok (fragments, next) ∧
      ∀ f ∈ fragments, f.Compiles config.encoder := by
  constructor
  · rintro ⟨p, compiled⟩
    obtain ⟨fragments, compiles⟩ := ofNormal_ok compiled
    obtain ⟨next, folded⟩ := compiles.folded
    refine ⟨fragments, next, folded, fun f member => ?_⟩
    obtain ⟨j, fragment⟩ := List.mem_iff_getElem?.1 member
    obtain ⟨b, _, before, after, made⟩ := compiles.applies fragment
    exact Fragment.exists_ofFragment_iff.1 ⟨_, made⟩
  · rintro ⟨fragments, next, folded, each⟩
    obtain ⟨⟨branches, hints⟩, mapped⟩ : ∃ found,
        fragments.mapM (Branch.ofFragment config.encoder query.projected) [] = .ok found :=
      run_mapM_succeeds fun f member hints => Fragment.exists_ofFragment_iff.2 (each f member)
    exact ⟨_, bind_ok_iff.2 ⟨_, folded, bind_ok_iff.2 ⟨_, mapped, rfl⟩⟩⟩

theorem Compiles.admits_iff_yields (compiles : p.Compiles config query fragments) {d : Dataset}
    {i : Nat} {row : Row} : p.Admits d config.encoder i row ↔
      ∃ f, fragments[i]? = some f ∧ f.Yields config.encoder.SameCode d.quads row := by
  constructor
  · rintro ⟨b, branch, admits⟩
    obtain ⟨f, _, _, fragment, _⟩ := compiles.of_branch branch
    obtain ⟨_, found, before, after, made⟩ := compiles.applies fragment
    obtain rfl := Option.some.inj (branch.symm.trans found)
    obtain ⟨start, final, applies⟩ := Branch.ofFragment_applies made
    exact ⟨_, fragment, (Fragment.admits_iff_yields applies).1 admits⟩
  · rintro ⟨f, fragment, yields⟩
    obtain ⟨b, branch, before, after, made⟩ := compiles.applies fragment
    obtain ⟨start, final, applies⟩ := Branch.ofFragment_applies made
    exact ⟨b, branch, (Fragment.admits_iff_yields applies).2 yields⟩

end Program

/-! ## Programs that keep the same rows -/

section Signed

variable {quads : List Quad} {config : Config} {signer : Signer} {d : Dataset}
  {tree : Commitment.Tree} {signature : Octets} {query other : NormalQuery} {p q : Program}
  {fragments others : List Fragment}

theorem Resolver.resolve_same (s : d.SignedBy quads config signer tree signature)
    (compiles : p.Compiles config query fragments) (compiles' : q.Compiles config other others)
    (user : ∀ name ∈ p.projected, isUserKey name = true)
    (projected : ∀ name, name ∈ p.projected ↔ name ∈ q.projected)
    (kept : ∀ row,
      (∃ i full, row = full.visible ∧
        Fragment.Keeps config.encoder fragments (p.Admits d config.encoder) i full) ↔
      ∃ i full, row = full.visible ∧
        Fragment.Keeps config.encoder others (q.Admits d config.encoder) i full) :
    ∃ resolution resolution', (d.resolver config).resolve p = .ok resolution ∧
      (d.resolver config).resolve q = .ok resolution' ∧
      (resolution.witnesses.map (·.bindings)).Perm (resolution'.witnesses.map (·.bindings)) := by
  by_cases empty : d.quads = []
  · obtain ⟨resolution, resolved, none⟩ := resolve_empty s empty compiles
    obtain ⟨resolution', resolved', none'⟩ := resolve_empty s empty compiles'
    exact ⟨resolution, resolution', resolved, resolved', by simp [none, none']⟩
  · have contains : p.projected.contains = q.projected.contains := by
      funext name
      rw [Bool.eq_iff_iff, List.contains_iff_mem, List.contains_iff_mem]
      exact projected name
    obtain ⟨resolution, rows, resolved, bindings, nodup, here⟩ :=
      resolve_bindings s empty compiles user
    obtain ⟨resolution', rows', resolved', bindings', nodup', there⟩ :=
      resolve_bindings s empty compiles' fun name member => user name ((projected name).2 member)
    have perm : rows.Perm rows' := (List.perm_ext_iff_of_nodup nodup nodup').2 fun row => by
      rw [here, there, kept]
    refine ⟨resolution, resolution', resolved, resolved', ?_⟩
    rw [bindings, bindings', contains]
    exact perm.map _

end Signed

end AttestedQuery
