import AttestedQuery.Commitment
import AttestedQuery.Proofs.Outcome
import Mathlib.Data.List.Basic

/-!
# The tree that a commitment stands for

The stored levels are the occupied beginning of a full binary tree over the leaves and zeros after
them. The nodes of that tree are a function of their height and their number; the stored levels,
the root and the siblings of an opening are read off it, and every opening leads to the root.
-/

set_option autoImplicit false

namespace AttestedQuery.Commitment

/-- The node of a level at some place: past the stored ones the root of an empty subtree. -/
def nodeAt (level : List Field × Field) (place : Nat) : Field :=
  level.1[place]?.getD level.2

/-- The nodes of the full tree over a bottom row, by height and number. -/
def node (h : Hasher) (bottom : Nat → Field) : Nat → Nat → Field
  | 0, place => bottom place
  | height + 1, place =>
    h.pair (node h bottom height (2 * place)) (node h bottom height (2 * place + 1))

theorem node_above (h : Hasher) (bottom : Nat → Field) (height place : Nat) :
    node h (node h bottom 1) height place = node h bottom (height + 1) place := by
  induction height generalizing place with
  | zero => rfl
  | succ height induction => rw [node, induction, induction, ← node]

/-- Levels that hold the nodes of the full tree, from its bottom row on. -/
def Spells (h : Hasher) (bottom : Nat → Field) : List (List Field × Field) → Prop
  | [] => True
  | level :: above => nodeAt level = bottom ∧ Spells h (node h bottom 1) above

theorem nodeAt_levelAbove (h : Hasher) (absent : Field) (nodes : List Field) :
    nodeAt (levelAbove h absent nodes, h.pair absent absent) = node h (nodeAt (nodes, absent)) 1 := by
  funext place
  simp only [node, nodeAt]
  fun_induction levelAbove h absent nodes generalizing place with
  | case1 left right rest induction =>
    cases place with
    | zero => simp
    | succ place =>
      have first : 2 * (place + 1) = 2 * place + 1 + 1 := by omega
      simp only [first, List.getElem?_cons_succ]
      exact induction place
  | case2 left =>
    cases place with
    | zero => simp
    | succ place =>
      have first : 2 * (place + 1) = 2 * place + 1 + 1 := by omega
      simp [first]
  | case3 => simp

theorem spells_levelsAbove (h : Hasher) (count : Nat) (absent : Field) (nodes : List Field) :
    Spells h (node h (nodeAt (nodes, absent)) 1) (levelsAbove h count absent nodes) := by
  induction count generalizing absent nodes with
  | zero => trivial
  | succ count induction =>
    refine ⟨nodeAt_levelAbove h absent nodes, ?_⟩
    rw [← nodeAt_levelAbove h absent nodes]
    exact induction (h.pair absent absent) (levelAbove h absent nodes)

theorem length_levelsAbove (h : Hasher) (count : Nat) (absent : Field) (nodes : List Field) :
    (levelsAbove h count absent nodes).length = count := by
  induction count generalizing absent nodes with
  | zero => rfl
  | succ count induction => rw [levelsAbove, List.length_cons, induction]

theorem nodeAt_of_spells {h : Hasher} {bottom : Nat → Field} {levels : List (List Field × Field)}
    (spells : Spells h bottom levels) {height : Nat} {level : List Field × Field}
    (found : levels[height]? = some level) : nodeAt level = node h bottom height := by
  induction levels generalizing bottom height with
  | nil => simp at found
  | cons first above induction =>
    cases height with
    | zero =>
      obtain rfl : first = level := by simpa using found
      exact spells.1
    | succ height =>
      rw [induction spells.2 (by simpa using found)]
      funext place
      exact node_above h bottom height place

theorem spells_take {h : Hasher} {bottom : Nat → Field} {levels : List (List Field × Field)}
    (spells : Spells h bottom levels) (count : Nat) : Spells h bottom (levels.take count) := by
  induction levels generalizing bottom count with
  | nil => simp [Spells]
  | cons first above induction =>
    cases count with
    | zero => trivial
    | succ count => exact ⟨spells.1, induction spells.2 count⟩

/-! ## Paths -/

theorem step_sibling (h : Hasher) (bottom : Nat → Field) (place : Nat) :
    Opening.step h (bottom place) (bottom (Tree.siblingIndex place), place % 2 == 1) =
      node h bottom 1 (place / 2) := by
  simp only [Opening.step, node, Tree.siblingIndex]
  rcases Nat.mod_two_eq_zero_or_one place with even | odd
  · have whole : 2 * (place / 2) = place := by omega
    simp [even, whole]
  · have whole : 2 * (place / 2) = place - 1 := by omega
    have back : place - 1 + 1 = place := by omega
    simp [odd, whole, back]

/-- A path leads from any place of the bottom row to the node above it. -/
theorem foldl_path {h : Hasher} {bottom : Nat → Field} {levels : List (List Field × Field)}
    (spells : Spells h bottom levels) (place : Nat) :
    (Tree.path levels place).foldl (Opening.step h) (bottom place) =
      node h bottom levels.length (place / Nat.pow 2 levels.length) := by
  induction levels generalizing bottom place with
  | nil => simp [Tree.path, node]
  | cons level above induction =>
    have here : nodeAt level = bottom := spells.1
    have sibling : level.1[Tree.siblingIndex place]?.getD level.2 =
        bottom (Tree.siblingIndex place) := by
      rw [← here]
      rfl
    have power : Nat.pow 2 (above.length + 1) = 2 * Nat.pow 2 above.length := Nat.mul_comm _ _
    rw [Tree.path, List.foldl_cons, sibling, step_sibling, induction spells.2 (place / 2),
      node_above, List.length_cons, Nat.div_div_eq_div_mul, power]

theorem length_path (levels : List (List Field × Field)) (place : Nat) :
    (Tree.path levels place).length = levels.length := by
  induction levels generalizing place with
  | nil => rfl
  | cons level above induction => rw [Tree.path, List.length_cons, induction, List.length_cons]

/-! ## Built trees -/

namespace Tree

def bottom (t : Tree) (place : Nat) : Field :=
  nodeAt (t.leaves, Field.zero) place

theorem build_ok_iff {h : Hasher} {depth : Nat} {leaves : List Field} {t : Tree} :
    build h depth leaves = .ok t ↔
      (0 < depth ∧ depth ≤ maxDepth) ∧ leaves.length ≤ Nat.pow 2 depth ∧
        t = ⟨depth, leaves, levelsAbove h depth Field.zero leaves⟩ := by
  unfold build
  split
  next outside => 
    simp only [reduceCtorEq, false_iff]
    omega
  next inside =>
    have shallow : depth < 64 := by
      unfold maxDepth at inside
      omega
    simp only [capacity, if_pos shallow]
    split
    next full =>
      simp only [reduceCtorEq, false_iff]
      exact fun built => absurd built.2.1 (Nat.not_le.2 full)
    next fits =>
      simp only [Except.ok.injEq]
      constructor
      · rintro rfl
        exact ⟨by omega, Nat.not_lt.1 fits, rfl⟩
      · rintro ⟨_, _, rfl⟩
        rfl

section Built

variable {h : Hasher} {depth : Nat} {leaves : List Field} {t : Tree}

theorem levels_spell (built : build h depth leaves = .ok t) : Spells h t.bottom t.levels := by
  obtain ⟨_, _, rfl⟩ := build_ok_iff.1 built
  exact ⟨rfl, spells_levelsAbove h depth Field.zero leaves⟩

theorem length_levels (built : build h depth leaves = .ok t) : t.levels.length = depth + 1 := by
  obtain ⟨_, _, rfl⟩ := build_ok_iff.1 built
  rw [levels, List.length_cons, length_levelsAbove]

theorem root_eq_node (built : build h depth leaves = .ok t) : t.root = node h t.bottom depth 0 := by
  have length := length_levels built
  have inside : depth < t.levels.length := by omega
  have found : t.levels[depth]? = some t.levels[depth] := List.getElem?_eq_getElem inside
  have last : t.levels.getLast? = t.levels[depth]? := by
    rw [List.getLast?_eq_getElem?, length]
    rfl
  rw [← nodeAt_of_spells (levels_spell built) found, root, last, found]
  simp only [nodeAt, List.headD_eq_head?_getD, List.head?_eq_getElem?]

/-- Every leaf has an opening, which leads from it to the root in as many steps as the tree is
deep. -/
theorem opening_verifies (built : build h depth leaves = .ok t) {place : Nat} {leaf : Field}
    (found : leaves[place]? = some leaf) :
    ∃ opening, t.opening? place = some opening ∧ opening.siblings.length = depth ∧
      opening.verifies h leaf t.root = true := by
  have shape := build_ok_iff.1 built
  have same : t.leaves = leaves := by rw [shape.2.2]
  have tall : t.depth = depth := by rw [shape.2.2]
  have inside : place < t.size := by
    rw [size, same]
    exact (List.getElem?_eq_some_iff.1 found).1
  have below : place / Nat.pow 2 depth = 0 := by
    apply Nat.div_eq_of_lt
    have fits := shape.2.1
    rw [size, same] at inside
    omega
  have start : t.bottom place = leaf := by
    simp [bottom, nodeAt, same, found]
  have taken : (t.levels.take t.depth).length = depth := by
    rw [List.length_take, length_levels built, tall]
    omega
  refine ⟨_, if_pos inside, ?_, ?_⟩
  · rw [List.length_map, length_path, taken]
  · have climbed := foldl_path (spells_take (levels_spell built) t.depth) place
    rw [taken, below, start, ← root_eq_node built] at climbed
    simp only [Opening.verifies, Opening.rootFrom, List.length_map, beq_self_eq_true,
      Bool.true_and, beq_iff_eq]
    rw [← List.unzip_fst, ← List.unzip_snd, List.zip_unzip, climbed]

end Built

end Tree

end AttestedQuery.Commitment
