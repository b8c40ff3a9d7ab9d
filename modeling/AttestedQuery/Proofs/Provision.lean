import AttestedQuery.Proofs.Filters
import AttestedQuery.Proofs.Tidy

/-!
# The inputs of a compiled program

A compiled program asks for nothing that its inputs do not have: the slots it reads are below its
width, its public values are of projected variables, and its hints are listed. Its assertions have
no empty lists either.
-/

set_option autoImplicit false

namespace AttestedQuery

/-- A value that a number of slots, public values of these names and a number of hints supply. -/
def Wire.Supplied (slots : Nat) (names : List String) (hints : Nat) : Wire → Prop
  | .slot i position => i < slots ∧ position < 4
  | .variable name => name ∈ names
  | .hint i => i < hints
  | .const _ => True
  | .hash2 .. | .hash4 .. => False

abbrev Wire.Confined (slots : Nat) (w : Wire) : Prop := w.Supplied slots [] 0

theorem Wire.Supplied.leaves {slots hints : Nat} {names : List String} {w : Wire}
    (supplied : w.Supplied slots names hints) : w.leaves = [w] := by
  match w with
  | .slot .. | .variable _ | .hint _ | .const _ => rfl

theorem Wire.Supplied.mono {slots more hints others : Nat} {names listed : List String} {w : Wire}
    (supplied : w.Supplied slots names hints) (wider : slots ≤ more) (named : names ⊆ listed)
    (longer : hints ≤ others) : w.Supplied more listed others := by
  match w with
  | .slot .. => exact ⟨supplied.1.trans_le wider, supplied.2⟩
  | .variable _ => exact named supplied
  | .hint _ => exact supplied.trans_le longer
  | .const _ => trivial

/-! ## Tracing -/

namespace Tracing

/-- The sources of a tracing are confined to the slots so far, and so are its equalities. -/
structure Confined (slots : Nat) (t : Tracing) : Prop where
  sources : ∀ key wire, t.sources.get? key = some wire → wire.Confined slots
  equalities : ∀ a ∈ t.equalities, ∃ x y, a = .eq x y ∧ x.Confined slots ∧ y.Confined slots

theorem confined_initial (slots : Nat) : initial.Confined slots where
  sources := by simp [initial, KeyMap.get_empty]
  equalities := by simp [initial]

variable {slots : Nat} {e : Encoder} {t next : Tracing}

theorem Confined.withEquality (confined : t.Confined slots) {a b : Wire} (left : a.Confined slots)
    (right : b.Confined slots) : (t.withEquality a b).Confined slots where
  sources := confined.sources
  equalities := by
    rw [Tracing.withEquality, List.forall_mem_append, List.forall_mem_singleton]
    exact ⟨confined.equalities, a, b, rfl, left, right⟩

theorem Confined.insert (confined : t.Confined slots) (key : String) {wire : Wire}
    (here : wire.Confined slots) :
    Confined slots { t with sources := t.sources.insert key wire } where
  sources k w found := by
    rw [KeyMap.get_insert] at found
    split at found
    next => exact Option.some.inj found ▸ here
    next => exact confined.sources k w found
  equalities := confined.equalities

/-- A key is bound to a confined wire, or required to equal its source in either order. -/
theorem Confined.bind (confined : t.Confined slots) (key : String) {wire : Wire}
    (here : wire.Confined slots) : (t.withKey key wire).Confined slots := by
  unfold withKey
  split
  next source found => exact confined.withEquality (confined.sources key source found) here
  next => exact confined.insert key here

theorem Confined.withPosition (confined : t.Confined slots) {here : Wire}
    (term : Option PatternTerm) (inside : here.Confined slots) (traced : t.withPosition e here term = .ok next) :
    next.Confined slots := by
  unfold Tracing.withPosition at traced
  split at traced
  next =>
    obtain rfl := Except.ok.inj traced
    exact confined
  next =>
    obtain ⟨code, _, whole⟩ := bind_ok_iff.1 traced
    obtain rfl := pure_ok_iff.1 whole
    exact confined.withEquality inside trivial
  next =>
    split at traced
    next =>
      obtain rfl := Except.ok.inj traced
      exact confined
    next key _ =>
      split at traced
      next first found =>
        obtain rfl := Except.ok.inj traced
        exact confined.withEquality inside (confined.sources key first found)
      next =>
        obtain rfl := Except.ok.inj traced
        exact confined.insert key inside

theorem Confined.withPattern (confined : t.Confined slots) {entry : Pattern × Nat}
    (inside : entry.2 < slots) (traced : t.withPattern e entry = .ok next) :
    next.Confined slots := by
  refine foldlM_preserves (fun t => t.Confined slots) traced confined ?_
  rintro t ⟨term, position⟩ next member before traced
  have here : (Wire.slot entry.2 position).Confined slots := ⟨inside, (List.mem_zipIdx' member).1⟩
  exact before.withPosition term here traced

theorem confined_ofPatterns {patterns : List Pattern} (traced : ofPatterns e patterns = .ok t) :
    t.Confined patterns.length := by
  refine foldlM_preserves (fun t => t.Confined patterns.length) traced (confined_initial _) ?_
  rintro t ⟨pattern, i⟩ next member before traced
  exact before.withPattern (List.mem_zipIdx' member).1 traced

theorem Confined.extension (confined : t.Confined slots) {x : ScopedExtension} {made : Extension}
    {wire : Wire} (found : t.extension? e x = .ok (some (made, wire))) : wire.Confined slots := by
  have supplied := extension_supplies found
  cases source : made.source with
  | term term =>
    rw [source] at supplied
    obtain ⟨code, _, rfl⟩ := supplied
    exact trivial
  | key key =>
    rw [source] at supplied
    exact confined.sources key wire supplied

theorem Confined.withExtensions {state final : Tracing × List Extension}
    (confined : state.1.Confined slots) {extensions : List ScopedExtension}
    (folded : extensions.foldlM (withExtension e) state = .ok final) : final.1.Confined slots := by
  refine foldlM_preserves (fun state => state.1.Confined slots) folded confined ?_
  intro state x next _ before traced
  rw [withExtension, bind_ok_iff] at traced
  obtain ⟨made, found, later⟩ := traced
  cases made with
  | none =>
    obtain rfl := pure_ok_iff.1 later
    exact before
  | some made =>
    obtain rfl := pure_ok_iff.1 later
    exact before.bind _ (before.extension found)

end Tracing

/-! ## Branches -/

theorem Wire.Confined.supplies {slots : Nat} {w : Wire} (confined : w.Confined slots)
    (names : List String) (hints : Nat) : ∀ leaf ∈ w.leaves, leaf.Supplied slots names hints := by
  rw [Wire.Supplied.leaves confined, List.forall_mem_singleton]
  exact confined.mono le_rfl (List.nil_subset _) (Nat.zero_le _)

section Leaves

variable {slots : Nat} {e : Encoder} {projected : List String} {t : Tracing} {all : List Hint}

theorem Tracing.Confined.known (confined : t.Confined slots) {visible : KeySet} {leaf : Wire}
    (known : (t.surroundings e projected visible).Known all leaf) :
    leaf.Supplied slots projected all.length := by
  cases known with
  | const => trivial
  | hint listed => exact List.idxOf_lt_length_of_mem listed
  | key found member =>
    unfold Surroundings.keyWire? at found
    split at found
    next =>
      obtain ⟨source, stored, rfl⟩ := Option.map_eq_some_iff.1 found
      split at member
      next published =>
        obtain rfl := List.mem_singleton.1 member
        exact List.contains_iff_mem.1 published
      next => exact (confined.sources _ _ stored).supplies projected all.length leaf member
    next => cases found

theorem Tracing.Confined.reads_bindingOf (confined : t.Confined slots) {name : String}
    (member : name ∈ projected) :
    (Branch.bindingOf t.sources name).Reads (Wire.Supplied slots projected all.length) := by
  apply Assertion.reads_eq
  · rw [Wire.leaves, List.forall_mem_singleton]
    · exact member
    all_goals simp
  · cases found : t.sources.get? name with
    | none => exact Wire.Confined.supplies (w := .const Field.zero) trivial projected all.length
    | some source => exact (confined.sources name source found).supplies projected all.length

theorem Tracing.Confined.reads_equality (confined : t.Confined slots) {a : Assertion}
    (member : a ∈ t.equalities) : a.Reads (Wire.Supplied slots projected all.length) ∧ a.Tidy := by
  obtain ⟨x, y, rfl, left, right⟩ := confined.equalities a member
  exact ⟨Assertion.reads_eq (left.supplies _ _) (right.supplies _ _), trivial⟩

end Leaves

open Compiling

theorem Branch.tidy_filterOf (e : Encoder) (projected : List String) (sources : KeyMap Wire)
    (x : ScopedFilter) : Gives (filterOf e projected sources x) fun f => f.assertion.Tidy := by
  refine gives_bind (Surroundings.tidy_condition _ x.condition) ?_
  intro c tidy
  exact gives_pure tidy.holds

/-- A branch asks for what its slots, the projected variables and the hints of the program supply,
and has no empty lists. -/
theorem Branch.yields_supplied (e : Encoder) (projected : List String) (f : Fragment) :
    Yields (ofFragment e projected f) fun all b =>
      b.assertion.Reads (Wire.Supplied b.slotCount projected all.length) ∧ b.assertion.Tidy := by
  unfold ofFragment
  refine yields_bind (yields_lifted _) fun plain => ?_
  refine yields_bind (yields_lifted _) ?_
  rintro ⟨t, extensions⟩
  refine yields_bind (yields_mapM fun x _ => (yields_filterOf e projected t x).gives
    (tidy_filterOf e projected t.sources x)) fun filters => ?_
  refine yields_pure fun all each folded traced => ?_
  have confined : t.Confined f.patterns.length :=
    (Tracing.confined_ofPatterns traced).withExtensions folded
  have filtered : ∀ filter ∈ filters, filter.assertion.Reads
      (Wire.Supplied f.patterns.length projected all.length) ∧ filter.assertion.Tidy := by
    intro filter member
    obtain ⟨i, inside, rfl⟩ := List.getElem_of_mem member
    obtain ⟨expresses, tidy⟩ := each.get (each.length_eq ▸ inside) inside
    exact ⟨expresses.reads.mono fun leaf => confined.known, tidy⟩
  have parts : ∀ part : Assertion, part ∈ projected.map (bindingOf t.sources) ++ t.equalities ++
      [Assertion.all (filters.map (·.assertion))] →
      part.Reads (Wire.Supplied f.patterns.length projected all.length) ∧ part.Tidy := by
    simp only [List.forall_mem_append, List.forall_mem_map, List.forall_mem_singleton]
    refine ⟨⟨fun name member => ⟨confined.reads_bindingOf member, trivial⟩,
      fun a => confined.reads_equality⟩, ?_⟩
    constructor
    · apply Assertion.reads_all
      exact List.forall_mem_map.2 fun filter member => (filtered filter member).1
    · apply Assertion.tidy_all
      exact List.forall_mem_map.2 fun filter member => (filtered filter member).2
  exact ⟨Assertion.reads_all fun part member => (parts part member).1,
    Assertion.tidy_all fun part member => (parts part member).2⟩

/-! ## Programs -/

def Program.Supplies (p : Program) (w : Wire) : Prop :=
  w.Supplied p.width p.projected p.hints.length

/-- A compiled program asks for nothing that its inputs do not supply. -/
theorem Program.Compiles.supplied {config : Config} {query : NormalQuery} {p : Program}
    {fragments : List Fragment} (compiles : Compiles config query p fragments) {b : Branch}
    (member : b ∈ p.branches) : b.assertion.Reads p.Supplies ∧ b.assertion.Tidy := by
  have each := yields_mapM fun f (_ : f ∈ fragments) =>
    Branch.yields_supplied config.encoder query.projected f
  have all := (each [] p.branches p.hints compiles.branches).2 p.hints List.prefix_rfl
  obtain ⟨i, inside, rfl⟩ := List.getElem_of_mem member
  obtain ⟨reads, tidy⟩ := all.get (all.length_eq ▸ inside) inside
  refine ⟨reads.mono fun leaf supplied => ?_, tidy⟩
  rw [← compiles.projected] at supplied
  exact supplied.mono (slotCount_le_width member) (List.Subset.refl _) le_rfl

end AttestedQuery
