import AttestedQuery.Proofs.Openings
import Mathlib.Data.Nat.Bitwise

/-!
# The dense tree

The perfect binary tree over all places of a depth, with zeros where there is no leaf. It is cut
from the top: a tree is its two halves. A commitment tree is built from the bottom and stores only
the occupied beginning of each level; its root and its openings are those of the dense tree.
-/

set_option autoImplicit false

namespace AttestedQuery.Commitment

/-- The leaves, and zeros at all other places of a depth. -/
def padded (depth : Nat) (leaves : List Field) : List Field :=
  leaves ++ List.replicate (2 ^ depth - leaves.length) Field.zero

/-- The root of the perfect tree of some height over a row. -/
def denseRoot (h : Hasher) : Nat → List Field → Field
  | 0, row => row.headD Field.zero
  | height + 1, row =>
    h.pair (denseRoot h height (row.take (2 ^ height))) (denseRoot h height (row.drop (2 ^ height)))

/-- The part of a row that lies below a node. -/
def under (row : List Field) (height place : Nat) : List Field :=
  (row.drop (place * 2 ^ height)).take (2 ^ height)

/-- The siblings that the way up from a place passes. -/
def denseSiblings (h : Hasher) (depth : Nat) (row : List Field) (place : Nat) : List Field :=
  (List.range depth).map fun height =>
    denseRoot h height (under row height ((place / 2 ^ height) ^^^ 1))

/-! ## Nodes -/

theorem length_padded {depth : Nat} {leaves : List Field} (fits : leaves.length ≤ 2 ^ depth) :
    (padded depth leaves).length = 2 ^ depth := by
  rw [padded, List.length_append, List.length_replicate]
  omega

theorem getD_padded (depth : Nat) (leaves : List Field) (place : Nat) :
    (padded depth leaves).getD place Field.zero = leaves.getD place Field.zero := by
  simp only [padded, List.getD_eq_getElem?_getD]
  by_cases inside : place < leaves.length
  · rw [List.getElem?_append_left inside]
  · have past : leaves.length ≤ place := Nat.not_lt.1 inside
    rw [List.getElem?_append_right past, List.getElem?_eq_none past, List.getElem?_replicate]
    split <;> rfl

theorem under_left (row : List Field) (height place : Nat) :
    (under row (height + 1) place).take (2 ^ height) = under row height (2 * place) := by
  have start : place * 2 ^ (height + 1) = 2 * place * 2 ^ height := by
    rw [Nat.pow_succ]
    ring
  have half : 2 ^ height ≤ 2 ^ (height + 1) := Nat.pow_le_pow_right (by decide) (Nat.le_succ _)
  rw [under, under, List.take_take, Nat.min_eq_left half, start]

theorem under_right (row : List Field) (height place : Nat) :
    (under row (height + 1) place).drop (2 ^ height) = under row height (2 * place + 1) := by
  have start : place * 2 ^ (height + 1) + 2 ^ height = (2 * place + 1) * 2 ^ height := by
    rw [Nat.pow_succ]
    ring
  have half : 2 ^ (height + 1) - 2 ^ height = 2 ^ height := by
    rw [Nat.pow_succ]
    omega
  rw [under, under, List.drop_take, List.drop_drop, start, half]

/-- The nodes counted from the bottom are the roots of what lies below them. -/
theorem denseRoot_under (h : Hasher) (row : List Field) (height place : Nat) :
    denseRoot h height (under row height place) =
      node h (fun place => row.getD place Field.zero) height place := by
  induction height generalizing place with
  | zero =>
    rw [under, denseRoot, node, List.headD_eq_head?_getD, List.head?_take, if_neg (by decide),
      List.head?_drop, List.getD_eq_getElem?_getD]
    simp
  | succ height induction =>
    rw [denseRoot, node, under_left, under_right, induction, induction]

theorem denseRoot_padded (h : Hasher) {depth : Nat} {leaves : List Field}
    (fits : leaves.length ≤ 2 ^ depth) :
    denseRoot h depth (padded depth leaves) =
      node h (fun place => leaves.getD place Field.zero) depth 0 := by
  have whole : under (padded depth leaves) depth 0 = padded depth leaves := by
    rw [under, Nat.zero_mul, List.drop_zero]
    exact List.take_of_length_le (length_padded fits).le
  rw [← whole, denseRoot_under]
  simp only [getD_padded]

theorem siblingIndex_eq_xor (place : Nat) : Tree.siblingIndex place = place ^^^ 1 := by
  by_cases even : place % 2 = 0
  · rw [Tree.siblingIndex, if_pos even, Nat.xor_one_of_even (Nat.even_iff.2 even)]
  · rw [Tree.siblingIndex, if_neg even, Nat.xor_one_of_odd (Nat.odd_iff.2 (by omega))]

theorem turns_eq_bits (depth place : Nat) :
    turns depth place = (List.range depth).map place.testBit := by
  apply List.ext_getElem?
  intro height
  by_cases below : height < depth
  · rw [getElem_turns below, List.getElem?_map, List.getElem?_range below, Option.map_some,
      Nat.testBit_eq_decide_div_mod_eq]
    rfl
  · rw [List.getElem?_eq_none, List.getElem?_eq_none]
    · rw [List.length_map, List.length_range]
      omega
    · rw [length_turns]
      omega

/-! ## Built trees -/

section Built

variable {h : Hasher} {depth : Nat} {leaves : List Field} {t : Tree}
  (built : Tree.build h depth leaves = .ok t)
include built

theorem Tree.bottom_eq_getD : t.bottom = fun place => leaves.getD place Field.zero := by
  funext place
  rw [(build_ok_iff.1 built).2.2, bottom, nodeAt, List.getD_eq_getElem?_getD]

theorem Tree.root_eq_dense : t.root = denseRoot h depth (padded depth leaves) := by
  rw [root_eq_node built, denseRoot_padded h (build_ok_iff.1 built).2.1, bottom_eq_getD built]

theorem Tree.node_eq_dense (height place : Nat) :
    node h t.bottom height place = denseRoot h height (under (padded depth leaves) height place) := by
  rw [denseRoot_under, bottom_eq_getD built]
  simp only [getD_padded]

theorem Tree.siblings_path (place : Nat) :
    (path (t.levels.take t.depth) place).map Prod.fst =
      denseSiblings h depth (padded depth leaves) place := by
  apply List.ext_getElem?
  intro height
  by_cases below : height < depth
  · rw [List.getElem?_map, getElem_path_of_build built place below, denseSiblings,
      List.getElem?_map, List.getElem?_range below, Option.map_some, Option.map_some,
      node_eq_dense built, siblingIndex_eq_xor]
  · rw [List.getElem?_eq_none, List.getElem?_eq_none]
    · rw [denseSiblings, List.length_map, List.length_range]
      omega
    · rw [List.length_map, length_path_of_build built]
      omega

theorem Tree.opening_eq_dense {place : Nat} (inside : place < leaves.length) :
    t.opening? place = some ⟨place, denseSiblings h depth (padded depth leaves) place,
      (List.range depth).map place.testBit⟩ := by
  have size : t.size = leaves.length := by rw [(build_ok_iff.1 built).2.2, Tree.size]
  have siblings := siblings_path built place
  have directions := (turns_path built place).trans (turns_eq_bits depth place)
  rw [← siblings, ← directions]
  exact if_pos (size ▸ inside)

theorem Tree.opening_none {place : Nat} (past : leaves.length ≤ place) : t.opening? place = none := by
  have size : t.size = leaves.length := by rw [(build_ok_iff.1 built).2.2, Tree.size]
  apply if_neg
  omega

end Built

/-- A tree can be built over all leaves that its depth has room for. Its root is that of the dense
tree over the leaves and zeros after them. Every leaf has an opening with the dense tree's siblings,
whose directions are the binary digits of its place, and which leads to the root; places past the
last leaf have none. -/
theorem stored_tree_is_dense (h : Hasher) (depth : Nat) (leaves : List Field)
    (range : 1 ≤ depth ∧ depth ≤ 32) (fits : leaves.length ≤ 2 ^ depth) :
    ∃ t, Tree.build h depth leaves = .ok t ∧
      t.root = denseRoot h depth (padded depth leaves) ∧
      (∀ place leaf, leaves[place]? = some leaf →
        ∃ o, t.opening? place = some o ∧ t.leaf? place = some leaf ∧ o.index = place ∧
          o.siblings.length = depth ∧
          o.siblings = denseSiblings h depth (padded depth leaves) place ∧
          o.directions.length = depth ∧ o.directions = (List.range depth).map place.testBit ∧
          o.verifies h leaf t.root = true) ∧
      ∀ place, leaves.length ≤ place → t.opening? place = none := by
  have built : Tree.build h depth leaves =
      .ok ⟨depth, leaves, levelsAbove h depth Field.zero leaves⟩ :=
    Tree.build_ok_iff.2 ⟨range, fits, rfl⟩
  refine ⟨_, built, Tree.root_eq_dense built, ?_, ?_⟩
  · intro place leaf found
    have inside : place < leaves.length := (List.getElem?_eq_some_iff.1 found).1
    have opened := Tree.opening_eq_dense built inside
    obtain ⟨o, given, _, verifies⟩ := Tree.opening_verifies built found
    rw [opened] at given
    obtain rfl := Option.some.inj given
    refine ⟨_, opened, found, rfl, ?_, rfl, ?_, rfl, verifies⟩
    · rw [denseSiblings, List.length_map, List.length_range]
    · rw [List.length_map, List.length_range]
  · intro place past
    exact Tree.opening_none built past

def sampleLeaves : List Field := (List.range 5).map Field.ofNat

/-- A tree of depth three over five leaves, the last of which has no neighbour. -/
theorem stored_tree_is_dense_sample :
    (1 ≤ 3 ∧ 3 ≤ 32) ∧ sampleLeaves.length ≤ 2 ^ 3 ∧
    ∃ t, Tree.build HashSuite.blake3.hasher 3 sampleLeaves = .ok t ∧
      t.root = denseRoot HashSuite.blake3.hasher 3 (padded 3 sampleLeaves) ∧
      (∃ o, t.opening? 4 = some o ∧ o.directions = [false, false, true] ∧
        o.siblings = denseSiblings HashSuite.blake3.hasher 3 (padded 3 sampleLeaves) 4 ∧
        o.verifies HashSuite.blake3.hasher (Field.ofNat 4) t.root = true) ∧
      t.opening? 5 = none := by
  have fits : sampleLeaves.length ≤ 2 ^ 3 := by decide
  obtain ⟨t, built, root, openings, past⟩ :=
    stored_tree_is_dense HashSuite.blake3.hasher 3 sampleLeaves (by decide) fits
  obtain ⟨o, opened, _, _, _, siblings, _, directions, verifies⟩ :=
    openings 4 (Field.ofNat 4) (by decide)
  exact ⟨by decide, fits, t, built, root, ⟨o, opened, directions, siblings, verifies⟩,
    past 5 (by decide)⟩

end AttestedQuery.Commitment
