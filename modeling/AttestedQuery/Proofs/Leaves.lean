import AttestedQuery.Proofs.Evaluation

/-!
# The values that assertions read

The leaves of an assertion are the wires below its hashes. The combinators read nothing that their
parts do not read, and an assertion whose leaves can all be read is decided.
-/

set_option autoImplicit false

namespace AttestedQuery

/-- The wires that a wire hashes, or the wire itself. -/
def Wire.leaves : Wire → List Wire
  | .hash2 a b => a.leaves ++ b.leaves
  | .hash4 a b c d => a.leaves ++ b.leaves ++ c.leaves ++ d.leaves
  | leaf => [leaf]

theorem Wire.leaves_hash2 (a b : Wire) : (hash2 a b).leaves = a.leaves ++ b.leaves := rfl

theorem Wire.leaves_hash4 (a b c d : Wire) :
    (hash4 a b c d).leaves = a.leaves ++ b.leaves ++ c.leaves ++ d.leaves := rfl

namespace Assertion

mutual

def leaves : Assertion → List Wire
  | .true | .false => []
  | .eq a b => a.leaves ++ b.leaves
  | .compare _ left right => left.leaves ++ right.leaves
  | .not a => a.leaves
  | .and parts => leavesOfAll parts
  | .or parts => leavesOfAll parts

def leavesOfAll : List Assertion → List Wire
  | [] => []
  | part :: rest => part.leaves ++ leavesOfAll rest

end

theorem leaves_eq (a b : Wire) : (Assertion.eq a b).leaves = a.leaves ++ b.leaves := rfl

theorem leaves_compare (op : CompareOp) (a b : Wire) :
    (Assertion.compare op a b).leaves = a.leaves ++ b.leaves := rfl

theorem leavesOfAll_nil : leavesOfAll [] = [] := rfl

theorem leavesOfAll_cons (part : Assertion) (rest : List Assertion) :
    leavesOfAll (part :: rest) = part.leaves ++ leavesOfAll rest := rfl

theorem mem_leavesOfAll {leaf : Wire} {parts : List Assertion} :
    leaf ∈ leavesOfAll parts ↔ ∃ part ∈ parts, leaf ∈ part.leaves := by
  induction parts with
  | nil => simp [leavesOfAll_nil]
  | cons part rest induction => simp [leavesOfAll_cons, induction]

def Reads (wanted : Wire → Prop) (a : Assertion) : Prop := ∀ leaf ∈ a.leaves, wanted leaf

variable {wanted other : Wire → Prop}

theorem Reads.mono {a : Assertion} (reads : a.Reads wanted)
    (weaker : ∀ leaf, wanted leaf → other leaf) : a.Reads other :=
  fun leaf member => weaker leaf (reads leaf member)

theorem reads_ofBool (b : Bool) : (ofBool b).Reads wanted := by
  cases b <;> exact fun leaf member => nomatch member

theorem reads_negated {a : Assertion} (reads : a.Reads wanted) : a.negated.Reads wanted := by
  cases a with
  | true | false => exact fun leaf member => nomatch member
  | _ => exact reads

private theorem conjuncts_leaves {parts flat : List Assertion}
    (opened : conjuncts? parts = some flat) {leaf : Wire} (member : leaf ∈ leavesOfAll flat) :
    leaf ∈ leavesOfAll parts := by
  fun_induction conjuncts? parts generalizing flat with
  | case1 => simp_all
  | case2 rest induction => exact induction opened member
  | case3 rest => simp at opened
  | case4 inner rest induction =>
    obtain ⟨others, found, rfl⟩ := Option.map_eq_some_iff.1 opened
    obtain ⟨part, inside, below⟩ := mem_leavesOfAll.1 member
    rw [leavesOfAll_cons, List.mem_append]
    rcases List.mem_append.1 inside with inside | inside
    · exact Or.inl (mem_leavesOfAll.2 ⟨part, inside, below⟩)
    · exact Or.inr (induction found (mem_leavesOfAll.2 ⟨part, inside, below⟩))
  | case5 part rest _ _ _ induction =>
    obtain ⟨others, found, rfl⟩ := Option.map_eq_some_iff.1 opened
    rw [leavesOfAll_cons, List.mem_append] at member ⊢
    exact member.imp_right (induction found)

private theorem disjuncts_leaves {parts flat : List Assertion}
    (opened : disjuncts? parts = some flat) {leaf : Wire} (member : leaf ∈ leavesOfAll flat) :
    leaf ∈ leavesOfAll parts := by
  fun_induction disjuncts? parts generalizing flat with
  | case1 => simp_all
  | case2 rest induction => exact induction opened member
  | case3 rest => simp at opened
  | case4 inner rest induction =>
    obtain ⟨others, found, rfl⟩ := Option.map_eq_some_iff.1 opened
    obtain ⟨part, inside, below⟩ := mem_leavesOfAll.1 member
    rw [leavesOfAll_cons, List.mem_append]
    rcases List.mem_append.1 inside with inside | inside
    · exact Or.inl (mem_leavesOfAll.2 ⟨part, inside, below⟩)
    · exact Or.inr (induction found (mem_leavesOfAll.2 ⟨part, inside, below⟩))
  | case5 part rest _ _ _ induction =>
    obtain ⟨others, found, rfl⟩ := Option.map_eq_some_iff.1 opened
    rw [leavesOfAll_cons, List.mem_append] at member ⊢
    exact member.imp_right (induction found)

theorem reads_all {parts : List Assertion} (each : ∀ part ∈ parts, part.Reads wanted) :
    (all parts).Reads wanted := by
  intro leaf member
  have inside : leaf ∈ leavesOfAll parts := by
    unfold all at member
    split at member
    next => cases member
    next => cases member
    next single opened =>
      apply conjuncts_leaves opened
      simpa [leavesOfAll_cons, leavesOfAll_nil] using member
    next several _ _ opened => exact conjuncts_leaves opened member
  obtain ⟨part, found, below⟩ := mem_leavesOfAll.1 inside
  exact each part found leaf below

theorem reads_any {parts : List Assertion} (each : ∀ part ∈ parts, part.Reads wanted) :
    (any parts).Reads wanted := by
  intro leaf member
  have inside : leaf ∈ leavesOfAll parts := by
    unfold any at member
    split at member
    next => cases member
    next => cases member
    next single opened =>
      apply disjuncts_leaves opened
      simpa [leavesOfAll_cons, leavesOfAll_nil] using member
    next several _ _ opened => exact disjuncts_leaves opened member
  obtain ⟨part, found, below⟩ := mem_leavesOfAll.1 inside
  exact each part found leaf below

theorem reads_eq {a b : Wire} (left : ∀ leaf ∈ a.leaves, wanted leaf)
    (right : ∀ leaf ∈ b.leaves, wanted leaf) : (Assertion.eq a b).Reads wanted := by
  intro leaf member
  exact (List.mem_append.1 member).elim (left leaf) (right leaf)

theorem reads_compare (op : CompareOp) {a b : Wire} (left : ∀ leaf ∈ a.leaves, wanted leaf)
    (right : ∀ leaf ∈ b.leaves, wanted leaf) : (Assertion.compare op a b).Reads wanted := by
  intro leaf member
  exact (List.mem_append.1 member).elim (left leaf) (right leaf)

end Assertion

/-! ## Hints -/

theorem Wire.mem_hints {index : Nat} : (w : Wire) → index ∈ w.hints → .hint index ∈ w.leaves
  | .hint _, member => List.mem_singleton.1 member ▸ List.mem_singleton_self _
  | .hash2 a b, member => by
    rw [hints, List.mem_append] at member
    rw [leaves, List.mem_append]
    exact member.imp a.mem_hints b.mem_hints
  | .hash4 a b c d, member => by
    simp only [hints, List.mem_append] at member
    simp only [leaves_hash4, List.mem_append]
    exact member.imp (fun one => one.imp (fun two => two.imp a.mem_hints b.mem_hints) c.mem_hints)
      d.mem_hints
  | .slot _ _, member | .variable _, member | .const _, member => by simp [hints] at member

mutual

theorem Assertion.mem_hints {index : Nat} :
    (a : Assertion) → index ∈ a.hints → .hint index ∈ a.leaves
  | .true, member | .false, member => by simp [hints] at member
  | .eq a b, member | .compare _ a b, member => by
    simp only [hints, List.mem_append] at member
    simp only [leaves_eq, leaves_compare, List.mem_append]
    exact member.imp a.mem_hints b.mem_hints
  | .not a, member => by
    rw [hints] at member
    exact a.mem_hints member
  | .and parts, member | .or parts, member => by
    rw [hints] at member
    rw [leaves]
    exact mem_hintsOfAll parts member

theorem Assertion.mem_hintsOfAll {index : Nat} :
    (parts : List Assertion) → index ∈ hintsOfAll parts → .hint index ∈ leavesOfAll parts
  | [], member => by simp [hintsOfAll] at member
  | part :: rest, member => by
    rw [hintsOfAll, List.mem_append] at member
    rw [leavesOfAll_cons, List.mem_append]
    exact member.imp part.mem_hints (mem_hintsOfAll rest)

end

/-! ## Assertions that are decided -/

namespace View

variable {h : Hasher} {v : View}

/-- The value of a wire can be read. -/
def Readable (h : Hasher) (v : View) (w : Wire) : Prop := ∃ x, v.field h w = .ok x

theorem readable_of_leaves : (w : Wire) → (∀ leaf ∈ w.leaves, v.Readable h leaf) → v.Readable h w
  | .hash2 a b, each => by
    simp only [Wire.leaves_hash2, List.forall_mem_append] at each
    obtain ⟨x, first⟩ := readable_of_leaves a each.1
    obtain ⟨y, second⟩ := readable_of_leaves b each.2
    exact ⟨h.pair x y, by simp [field, first, second, bind, Except.bind, pure, Except.pure]⟩
  | .hash4 a b c d, each => by
    simp only [Wire.leaves_hash4, List.forall_mem_append] at each
    obtain ⟨x, first⟩ := readable_of_leaves a each.1.1.1
    obtain ⟨y, second⟩ := readable_of_leaves b each.1.1.2
    obtain ⟨z, third⟩ := readable_of_leaves c each.1.2
    obtain ⟨w, fourth⟩ := readable_of_leaves d each.2
    exact ⟨h.quadruple x y z w, by
      simp [field, first, second, third, fourth, bind, Except.bind, pure, Except.pure]⟩
  | .slot _ _, each | .variable _, each | .hint _, each | .const _, each =>
    each _ List.mem_cons_self

mutual

theorem exists_holds : (a : Assertion) → a.Reads (v.Readable h) → ∃ b, v.holds h a = .ok b
  | .true, _ => ⟨true, rfl⟩
  | .false, _ => ⟨false, rfl⟩
  | .eq a b, reads => by
    simp only [Assertion.Reads, Assertion.leaves_eq, List.forall_mem_append] at reads
    obtain ⟨x, first⟩ := readable_of_leaves a reads.1
    obtain ⟨y, second⟩ := readable_of_leaves b reads.2
    exact ⟨x == y, by simp [holds, first, second, bind, Except.bind, pure, Except.pure]⟩
  | .compare op a b, reads => by
    simp only [Assertion.Reads, Assertion.leaves_compare, List.forall_mem_append] at reads
    obtain ⟨x, first⟩ := readable_of_leaves a reads.1
    obtain ⟨y, second⟩ := readable_of_leaves b reads.2
    exact ⟨compares op x y, by simp [holds, first, second, bind, Except.bind, pure, Except.pure]⟩
  | .not a, reads => by
    obtain ⟨b, read⟩ := exists_holds a reads
    exact ⟨!b, by simp [holds, read, Except.map]⟩
  | .and parts, reads => by
    rw [holds]
    exact exists_allHold parts reads
  | .or parts, reads => by
    rw [holds]
    exact exists_anyHolds parts reads

theorem exists_allHold : (parts : List Assertion) →
    (∀ leaf ∈ Assertion.leavesOfAll parts, v.Readable h leaf) → ∃ b, v.allHold h parts = .ok b
  | [], _ => ⟨true, rfl⟩
  | part :: rest, reads => by
    rw [Assertion.leavesOfAll_cons, List.forall_mem_append] at reads
    obtain ⟨b, first⟩ := exists_holds part reads.1
    obtain ⟨c, later⟩ := exists_allHold rest reads.2
    cases b with
    | false => exact ⟨false, by simp [allHold, first, bind, Except.bind, pure, Except.pure]⟩
    | true => exact ⟨c, by simp [allHold, first, later, bind, Except.bind]⟩

theorem exists_anyHolds : (parts : List Assertion) →
    (∀ leaf ∈ Assertion.leavesOfAll parts, v.Readable h leaf) → ∃ b, v.anyHolds h parts = .ok b
  | [], _ => ⟨false, rfl⟩
  | part :: rest, reads => by
    rw [Assertion.leavesOfAll_cons, List.forall_mem_append] at reads
    obtain ⟨b, first⟩ := exists_holds part reads.1
    obtain ⟨c, later⟩ := exists_anyHolds rest reads.2
    cases b with
    | false => exact ⟨c, by simp [anyHolds, first, later, bind, Except.bind]⟩
    | true => exact ⟨true, by simp [anyHolds, first, bind, Except.bind, pure, Except.pure]⟩

end

theorem decides_of_reads {a : Assertion} (reads : a.Reads (v.Readable h)) : v.Decides h a := by
  obtain ⟨b, read⟩ := exists_holds a reads
  exact decides_of_holds read

end View

end AttestedQuery
