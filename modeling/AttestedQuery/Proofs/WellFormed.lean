import AttestedQuery.Proofs.Forgery
import AttestedQuery.Proofs.ListedHints
import AttestedQuery.Proofs.PublicRecord

/-!
# Compiled programs are well formed

Each branch of a compiled program reads its own slots, the projected variables and the hints that it
lists, and the hints of the program are all different. So the evaluation of any branch finds every
value in a witness of the right shape: the only failure is an assertion that does not hold.
-/

set_option autoImplicit false

namespace AttestedQuery

/-! ## Hints and leaves -/

theorem Wire.mem_hints_of_leaf {index : Nat} :
    (w : Wire) → .hint index ∈ w.leaves → index ∈ w.hints
  | .hint _, member => by simpa [hints, leaves] using member
  | .hash2 a b, member => by
    rw [leaves, List.mem_append] at member
    rw [hints, List.mem_append]
    exact member.imp a.mem_hints_of_leaf b.mem_hints_of_leaf
  | .hash4 a b c d, member => by
    simp only [leaves, List.mem_append] at member
    simp only [hints, List.mem_append]
    exact member.imp (fun one => one.imp
      (fun two => two.imp a.mem_hints_of_leaf b.mem_hints_of_leaf) c.mem_hints_of_leaf)
      d.mem_hints_of_leaf
  | .slot _ _, member | .variable _, member | .const _, member => by simp [leaves] at member

mutual

theorem Assertion.mem_hints_of_leaf {index : Nat} :
    (a : Assertion) → .hint index ∈ a.leaves → index ∈ a.hints
  | .true, member | .false, member => by simp [leaves] at member
  | .eq a b, member | .compare _ a b, member => by
    simp only [leaves, List.mem_append] at member
    simp only [hints, List.mem_append]
    exact member.imp a.mem_hints_of_leaf b.mem_hints_of_leaf
  | .not a, member => by
    rw [leaves] at member
    rw [hints]
    exact a.mem_hints_of_leaf member
  | .and parts, member | .or parts, member => by
    rw [leaves] at member
    rw [hints]
    exact mem_hintsOfAll_of_leaf parts member

theorem Assertion.mem_hintsOfAll_of_leaf {index : Nat} :
    (parts : List Assertion) → .hint index ∈ leavesOfAll parts → index ∈ hintsOfAll parts
  | [], member => by simp [leavesOfAll] at member
  | part :: rest, member => by
    rw [leavesOfAll, List.mem_append] at member
    rw [hintsOfAll, List.mem_append]
    exact member.imp part.mem_hints_of_leaf (mem_hintsOfAll_of_leaf rest)

end

/-! ## What a branch reads -/

open Compiling

namespace Branch

/-- A value that a branch may read: a term of one of its slots, a variable of these names, a hint
that it lists and that is among this many, or a constant. -/
def MayRead (b : Branch) (names : List String) (hints : Nat) : Wire → Prop
  | .slot i position => i < b.slotCount ∧ position < 4
  | .variable name => name ∈ names
  | .hint i => i ∈ b.hints ∧ i < hints
  | .const _ => True
  | .hash2 .. | .hash4 .. => False

def parts (b : Branch) : List Assertion :=
  b.bindings ++ b.equalities ++ b.filters.map (·.assertion)

variable {b : Branch} {names : List String} {hints : Nat} {leaf : Wire}

theorem mayRead_of_supplied (supplied : leaf.Supplied b.slotCount names hints)
    (listed : ∀ i, leaf = .hint i → i ∈ b.hints) : b.MayRead names hints leaf := by
  match leaf with
  | .slot .. | .variable _ | .const _ => exact supplied
  | .hint i => exact ⟨listed i rfl, supplied⟩

/-- What is supplied without hints may be read in any case. -/
theorem mayRead_of_unhinted (supplied : leaf.Supplied b.slotCount names 0) :
    b.MayRead names hints leaf := by
  refine mayRead_of_supplied (supplied.mono le_rfl (List.Subset.refl _) (Nat.zero_le _)) ?_
  rintro i rfl
  exact absurd supplied (Nat.not_lt_zero i)

theorem reads_assertion {wanted : Wire → Prop} (each : ∀ a ∈ b.parts, a.Reads wanted) :
    b.assertion.Reads wanted := by
  simp only [parts, List.forall_mem_append, List.forall_mem_map] at each
  obtain ⟨⟨bindings, equalities⟩, filters⟩ := each
  apply Assertion.reads_all
  simp only [List.forall_mem_append, List.forall_mem_singleton]
  exact ⟨⟨bindings, equalities⟩, Assertion.reads_all (List.forall_mem_map.2 filters)⟩

/-- The parts of a compiled branch read what the branch may read. -/
theorem yields_parts (e : Encoder) (projected : List String) (f : Fragment) :
    Yields (ofFragment e projected f) fun all b =>
      ∀ a ∈ b.parts, a.Reads (b.MayRead projected all.length) := by
  unfold ofFragment
  refine yields_bind (yields_lifted _) fun plain => ?_
  refine yields_bind (yields_lifted _) ?_
  rintro ⟨t, extensions⟩
  refine yields_bind (yields_mapM fun x _ => yields_filterOf e projected t x) fun filters => ?_
  refine yields_pure fun all each folded traced => ?_
  have confined : t.Confined f.patterns.length :=
    (Tracing.confined_ofPatterns traced).withExtensions folded
  simp only [parts, List.forall_mem_append, List.forall_mem_map]
  refine ⟨⟨fun name member => ?_, fun a member => ?_⟩, fun filter member leaf inside => ?_⟩
  · have reads : (bindingOf t.sources name).Reads
        (Wire.Supplied f.patterns.length projected ([] : List Hint).length) :=
      confined.reads_bindingOf member
    exact reads.mono fun leaf supplied => mayRead_of_unhinted supplied
  · have reads : a.Reads
        (Wire.Supplied f.patterns.length projected ([] : List Hint).length) :=
      (confined.reads_equality member).1
    exact reads.mono fun leaf supplied => mayRead_of_unhinted supplied
  · obtain ⟨i, bound, rfl⟩ := List.getElem_of_mem member
    have expresses := each.get (each.length_eq ▸ bound) bound
    refine mayRead_of_supplied (confined.known (expresses.reads leaf inside)) ?_
    rintro index rfl
    rw [mem_sortedUnique, List.mem_flatMap]
    exact ⟨_, member, Assertion.mem_hints_of_leaf _ inside⟩

end Branch

theorem Program.Compiles.reads_parts {config : Config} {query : NormalQuery} {p : Program}
    {fragments : List Fragment} (compiles : Compiles config query p fragments) {b : Branch}
    (member : b ∈ p.branches) :
    ∀ a ∈ b.parts, a.Reads (b.MayRead p.projected p.hints.length) := by
  have each := yields_mapM fun f (_ : f ∈ fragments) =>
    Branch.yields_parts config.encoder query.projected f
  have all := (each [] p.branches p.hints compiles.branches).2 p.hints List.prefix_rfl
  obtain ⟨i, inside, rfl⟩ := List.getElem_of_mem member
  rw [compiles.projected]
  exact all.get (all.length_eq ▸ inside) inside

/-! ## Evaluation -/

namespace View

variable {h : Hasher} {v : View}

mutual

/-- Where everything can be read, the check of an assertion fails at most on one that does not
hold. -/
theorem check_outcome : (a : Assertion) → a.Reads (v.Readable h) →
    v.check h a = .ok () ∨ ∃ part, v.check h a = .error (.unmet (.assertion part))
  | .and parts, reads => by
    rw [check]
    exact checkAll_outcome parts fun leaf member => reads leaf (by rwa [Assertion.leaves])
  | .true, reads | .false, reads | .eq _ _, reads | .compare _ _ _, reads | .not _, reads
  | .or _, reads => by
    obtain ⟨holds, read⟩ := exists_holds _ reads
    rw [check, read]
    · cases holds with
      | true => exact Or.inl rfl
      | false => exact Or.inr ⟨_, rfl⟩
    · intro parts impossible
      cases impossible

theorem checkAll_outcome : (parts : List Assertion) →
    (∀ leaf ∈ Assertion.leavesOfAll parts, v.Readable h leaf) →
    v.checkAll h parts = .ok () ∨ ∃ part, v.checkAll h parts = .error (.unmet (.assertion part))
  | [], _ => Or.inl rfl
  | part :: rest, reads => by
    rw [Assertion.leavesOfAll, List.forall_mem_append] at reads
    rw [checkAll]
    obtain passes | ⟨culprit, fails⟩ := check_outcome part reads.1
    · rw [passes]
      exact checkAll_outcome rest reads.2
    · rw [fails]
      exact Or.inr ⟨culprit, rfl⟩

end

end View

/-- A witness has the shape that a program asks for: as many slots and hints, and a value for each
projected variable. -/
structure Witness.Fits (w : Witness) (p : Program) : Prop where
  slots : w.slots.length = p.width
  hints : w.hints.length = p.hints.length
  values : ∀ name ∈ p.projected, (w.values.get? name).isSome = true

theorem Witness.Fits.readable {w : Witness} {p : Program} (fits : w.Fits p) (h : Hasher)
    {b : Branch} (narrow : b.slotCount ≤ p.width) {leaf : Wire}
    (reads : b.MayRead p.projected p.hints.length leaf) : w.view.Readable h leaf := by
  match leaf with
  | .slot i position =>
    obtain ⟨inside, place⟩ := reads
    have bound : i < w.slots.length := by rw [fits.slots]; exact inside.trans_le narrow
    obtain ⟨x, found⟩ : ∃ x, w.slots[i].terms.get? position = some x := by
      interval_cases position <;> exact ⟨_, rfl⟩
    exact ⟨x, by simp [View.field, View.slot?, view, bound, found]⟩
  | .variable name =>
    obtain ⟨x, found⟩ := Option.isSome_iff_exists.1 (fits.values name reads)
    exact ⟨x, by simp [View.field, view, found]⟩
  | .hint i =>
    have inside : i < w.hints.length := by rw [fits.hints]; exact reads.2
    exact ⟨w.hints[i], by simp [View.field, view, inside]⟩
  | .const x => exact ⟨x, rfl⟩

/-- A compiled program lists every hint once, and no branch of it is wider than the program. Each
part of a branch reads slots of the branch, projected variables, and hints that the branch lists and
the program has. So in every witness of the right shape every branch evaluates to a verdict, and its
check fails at most on an assertion that does not hold. -/
theorem compiled_reads_what_witness_has (config : Config) (query : NormalQuery) (p : Program)
    (compiled : Program.ofNormal config query = .ok p) :
    p.hints.Nodup ∧
    (∀ b ∈ p.branches, b.slotCount ≤ p.width ∧
      ∀ a ∈ b.parts, a.Reads (b.MayRead p.projected p.hints.length)) ∧
    ∀ (h : Hasher) (w : Witness), w.Fits p → ∀ b ∈ p.branches,
      (∃ verdict, w.view.holds h b.assertion = .ok verdict) ∧
      (w.view.check h b.assertion = .ok () ∨
        ∃ a, w.view.check h b.assertion = .error (.unmet (.assertion a))) := by
  obtain ⟨fragments, compiles⟩ := Program.ofNormal_ok compiled
  refine ⟨compiles.hints_nodup, fun b member => ?_, fun h w fits b member => ?_⟩
  · exact ⟨Program.slotCount_le_width member, compiles.reads_parts member⟩
  · have reads : b.assertion.Reads (w.view.Readable h) :=
      Branch.reads_assertion fun a inside => (compiles.reads_parts member a inside).mono
        fun leaf => fits.readable h (Program.slotCount_le_width member)
    exact ⟨View.exists_holds _ reads, View.check_outcome _ reads⟩

open Circuit in
/-- The program of the sample query with hints, and a witness of its shape. -/
theorem compiled_reads_sample : ∃ query p, Program.ofNormal trustingConfig query = .ok p ∧
    p.hints.length = 4 ∧ sampleValues.Fits p ∧ p.hints.Nodup ∧
    (∀ b ∈ p.branches, b.slotCount ≤ p.width ∧
      ∀ a ∈ b.parts, a.Reads (b.MayRead p.projected p.hints.length)) ∧
    ∀ b ∈ p.branches,
      (∃ verdict,
        sampleValues.view.holds trustingConfig.hasher b.assertion = .ok verdict) ∧
      (sampleValues.view.check trustingConfig.hasher b.assertion = .ok () ∨
        ∃ a, sampleValues.view.check trustingConfig.hasher b.assertion =
          .error (.unmet (.assertion a))) := by
  obtain ⟨p, compiled, shape⟩ := exists_ok_of_any sampleChoice_trusted
  obtain ⟨names, width, count, _⟩ := of_decide_eq_true shape
  obtain ⟨query, made⟩ := Program.compile_ok compiled
  have values : ∀ name ∈ p.projected, (sampleValues.values.get? name).isSome = true := by
    rw [names]
    decide
  have fits : sampleValues.Fits p := ⟨width.symm, count.symm, values⟩
  obtain ⟨nodup, reads, evaluates⟩ := compiled_reads_what_witness_has trustingConfig query p made
  exact ⟨query, p, made, count, fits, nodup, reads, evaluates trustingConfig.hasher _ fits⟩

end AttestedQuery
