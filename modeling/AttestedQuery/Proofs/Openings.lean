import AttestedQuery.Proofs.Collision
import Mathlib.Tactic.Ring

/-!
# What the openings of all leaves prove

Paths from the first places of a row, one from each, that all lead to one root: where two of them
pass through one node, they hash the same input there, unless two inputs collide. So they agree on
the nodes between, and with nothing but empty subtrees to the right of the last path they are the
paths of the tree over the row.
-/

set_option autoImplicit false

namespace AttestedQuery

def Opening.sides (o : Opening) : List (Field × Bool) := o.siblings.zip o.directions

theorem Opening.sides_mk (index : Nat) (sides : List (Field × Bool)) :
    Opening.sides ⟨index, sides.map (·.1), sides.map (·.2)⟩ = sides := by
  rw [Opening.sides, ← List.unzip_fst, ← List.unzip_snd, List.zip_unzip]

theorem Opening.verifies_iff {h : Hasher} {o : Opening} {leaf root : Field} :
    o.verifies h leaf root = true ↔
      o.siblings.length = o.directions.length ∧ o.sides.foldl (step h) leaf = root := by
  rw [verifies, Bool.and_eq_true, beq_iff_eq, beq_iff_eq]
  rfl

theorem Opening.verifies_left (h : Hasher) (leaf sibling : Field) :
    verifies h ⟨0, [sibling], [false]⟩ leaf (h.pair leaf sibling) = true := by
  simp [verifies, rootFrom, step]

theorem Opening.map_sides {o : Opening} (paired : o.siblings.length = o.directions.length) :
    o.sides.map (·.1) = o.siblings ∧ o.sides.map (·.2) = o.directions :=
  ⟨List.map_fst_zip paired.le, List.map_snd_zip paired.ge⟩

theorem Opening.stepInput_inj {a b s r : Field} {t u : Bool}
    (same : stepInput a (s, t) = stepInput b (r, u)) :
    (t = u → a = b ∧ s = r) ∧ (t ≠ u → a = r ∧ s = b) := by
  cases t <;> cases u <;> simp_all [stepInput]

namespace Commitment

/-! ## Turns -/

/-- The sides on which the nodes above a place stand, true for a right child. -/
def turns : Nat → Nat → List Bool
  | 0, _ => []
  | depth + 1, place => (place % 2 == 1) :: turns depth (place / 2)

theorem getElem_turns {depth height : Nat} (below : height < depth) (place : Nat) :
    (turns depth place)[height]? = some (place / 2 ^ height % 2 == 1) := by
  induction depth generalizing height place with
  | zero => omega
  | succ depth induction =>
    cases height with
    | zero => simp [turns]
    | succ height =>
      rw [turns, List.getElem?_cons_succ, induction (by omega), Nat.div_div_eq_div_mul,
        Nat.pow_succ, Nat.mul_comm]

theorem length_turns (depth place : Nat) : (turns depth place).length = depth := by
  induction depth generalizing place with
  | zero => rfl
  | succ depth induction => rw [turns, List.length_cons, induction]

theorem exists_side {sides : List (Field × Bool)} {depth place height : Nat}
    (turned : sides.map Prod.snd = turns depth place) (below : height < depth) :
    ∃ sibling, sides[height]? = some (sibling, place / 2 ^ height % 2 == 1) := by
  have turn : (sides.map Prod.snd)[height]? = some (place / 2 ^ height % 2 == 1) := by
    rw [turned, getElem_turns below]
  rw [List.getElem?_map, Option.map_eq_some_iff] at turn
  obtain ⟨⟨sibling, _⟩, found, rfl⟩ := turn
  exact ⟨sibling, found⟩

theorem siblingIndex_half (place : Nat) : Tree.siblingIndex place / 2 = place / 2 := by
  unfold Tree.siblingIndex
  split <;> omega

theorem siblingIndex_side (place : Nat) :
    (Tree.siblingIndex place % 2 == 1) ≠ (place % 2 == 1) := by
  unfold Tree.siblingIndex
  rcases Nat.mod_two_eq_zero_or_one place with even | odd
  · have next : (place + 1) % 2 = 1 := by omega
    simp [even, next]
  · have back : (place - 1) % 2 = 0 := by omega
    simp [odd, back]

theorem div_two_pow_succ (place height : Nat) :
    place / 2 ^ (height + 1) = place / 2 ^ height / 2 := by
  rw [Nat.pow_succ, Nat.div_div_eq_div_mul]

/-- A sibling with no place of a row below it is on the right and past the end of the row. -/
theorem past_of_free {count i height : Nat} (inside : i < count)
    (free : ∀ j < count, j / 2 ^ height ≠ Tree.siblingIndex (i / 2 ^ height)) :
    i / 2 ^ height % 2 = 0 ∧ count ≤ (i / 2 ^ height + 1) * 2 ^ height := by
  have width : 0 < 2 ^ height := Nat.two_pow_pos height
  have even : i / 2 ^ height % 2 = 0 := by
    by_contra odd
    have before : (i / 2 ^ height - 1) * 2 ^ height ≤ i :=
      (Nat.mul_le_mul_right _ (Nat.sub_le _ _)).trans (Nat.div_mul_le_self _ _)
    refine free _ (before.trans_lt inside) ?_
    rw [Nat.mul_div_cancel _ width, Tree.siblingIndex, if_neg odd]
  refine ⟨even, ?_⟩
  by_contra short
  refine free _ (Nat.not_le.1 short) ?_
  rw [Nat.mul_div_cancel _ width, Tree.siblingIndex, if_pos even]

theorem node_past (h : Hasher) {bottom : Nat → Field} {count : Nat}
    (ends : ∀ place, count ≤ place → bottom place = Field.zero) {height place : Nat}
    (past : count ≤ place * 2 ^ height) : node h bottom height place = emptyRoot h height := by
  induction height generalizing place with
  | zero => exact ends place (by simpa using past)
  | succ height induction =>
    have double : place * 2 ^ (height + 1) = 2 * place * 2 ^ height := by
      rw [Nat.pow_succ]
      ring
    have left : count ≤ 2 * place * 2 ^ height := double ▸ past
    have right : count ≤ (2 * place + 1) * 2 ^ height :=
      left.trans (Nat.mul_le_mul_right _ (by omega))
    rw [node, induction left, induction right, emptyRoot]

/-! ## Paths -/

section Paths

variable {h : Hasher}

def reached (h : Hasher) (leaf : Field) (sides : List (Field × Bool)) (height : Nat) : Field :=
  (sides.take height).foldl (Opening.step h) leaf

theorem reached_succ (h : Hasher) (leaf : Field) {sides : List (Field × Bool)} {height : Nat}
    {side : Field × Bool} (found : sides[height]? = some side) :
    reached h leaf sides (height + 1) =
      h.digest (Opening.stepInput (reached h leaf sides height) side) := by
  obtain ⟨inside, rfl⟩ := List.getElem?_eq_some_iff.1 found
  rw [reached, List.take_succ_eq_append_getElem inside, List.foldl_append,
    Opening.digest_stepInput]
  rfl

theorem stepInput_mem (h : Hasher) (leaf : Field) {sides : List (Field × Bool)} {height : Nat}
    {side : Field × Bool} (found : sides[height]? = some side) :
    Opening.stepInput (reached h leaf sides height) side ∈ Opening.pathInputs h leaf sides := by
  induction sides generalizing leaf height with
  | nil => cases found
  | cons first rest induction =>
    cases height with
    | zero =>
      obtain rfl : first = side := by simpa using found
      exact List.mem_cons_self
    | succ height => exact List.mem_cons_of_mem _ (induction _ (by simpa using found))

def EmptyOnRight (h : Hasher) (sides : List (Field × Bool)) : Prop :=
  ∀ height sibling, sides[height]? = some (sibling, false) → sibling = emptyRoot h height

/-- Paths from the first places of a row, one from each, that all lead to one root over listed inputs
that do not collide. -/
structure Converges (h : Hasher) (inputs : List Preimage) (depth count : Nat) (bottom : Nat → Field)
    (paths : Nat → List (Field × Bool)) (root : Field) : Prop where
  turns : ∀ i < count, (paths i).map Prod.snd = turns depth i
  root : ∀ i < count, (paths i).foldl (Opening.step h) (bottom i) = root
  hashed : ∀ i < count, ∀ input ∈ Opening.pathInputs h (bottom i) (paths i), input ∈ inputs
  clear : ¬ h.Collides inputs

namespace Converges

variable {inputs : List Preimage} {depth count : Nat} {bottom : Nat → Field}
  {paths : Nat → List (Field × Bool)} {root : Field}
  (c : Converges h inputs depth count bottom paths root)
include c

theorem side {i height : Nat} (inside : i < count) (below : height < depth) :
    ∃ sibling, (paths i)[height]? = some (sibling, i / 2 ^ height % 2 == 1) :=
  exists_side (c.turns i inside) below

theorem length {i : Nat} (inside : i < count) : (paths i).length = depth := by
  rw [← length_turns depth i, ← c.turns i inside, List.length_map]

theorem reached_root {i : Nat} (inside : i < count) :
    reached h (bottom i) (paths i) depth = root := by
  rw [reached, ← c.length inside, List.take_length, c.root i inside]

theorem inputs_eq {i j height : Nat} (first : i < count) (second : j < count)
    (same : reached h (bottom i) (paths i) (height + 1) =
      reached h (bottom j) (paths j) (height + 1)) {s r : Field × Bool}
    (left : (paths i)[height]? = some s) (right : (paths j)[height]? = some r) :
    Opening.stepInput (reached h (bottom i) (paths i) height) s =
      Opening.stepInput (reached h (bottom j) (paths j) height) r := by
  rw [reached_succ h _ left, reached_succ h _ right] at same
  exact Hasher.eq_of_digest c.clear (c.hashed i first _ (stepInput_mem h _ left))
    (c.hashed j second _ (stepInput_mem h _ right)) same

theorem reached_eq {height : Nat} (within : height ≤ depth) {i j : Nat}
    (first : i < count) (second : j < count) (below : i / 2 ^ height = j / 2 ^ height) :
    reached h (bottom i) (paths i) height = reached h (bottom j) (paths j) height := by
  -- All paths reach the root. Down from there, equal digests have equal inputs.
  obtain ⟨steps, total⟩ := Nat.exists_eq_add_of_le within
  induction steps generalizing height with
  | zero =>
    obtain rfl : height = depth := total.symm
    rw [c.reached_root first, c.reached_root second]
  | succ steps induction =>
    have above : i / 2 ^ (height + 1) = j / 2 ^ (height + 1) := by
      rw [div_two_pow_succ, div_two_pow_succ, below]
    obtain ⟨s, left⟩ := c.side first (show height < depth by omega)
    obtain ⟨r, right⟩ := c.side second (show height < depth by omega)
    have inputs := c.inputs_eq first second (induction (by omega) above (by omega)) left right
    exact ((Opening.stepInput_inj inputs).1 (by rw [below])).1

theorem inputs_beside {i j height : Nat} (below : height < depth) (first : i < count)
    (second : j < count) (parent : i / 2 ^ height / 2 = j / 2 ^ height / 2)
    {s r : Field × Bool} (left : (paths i)[height]? = some s)
    (right : (paths j)[height]? = some r) :
    Opening.stepInput (reached h (bottom i) (paths i) height) s =
      Opening.stepInput (reached h (bottom j) (paths j) height) r := by
  refine c.inputs_eq first second (c.reached_eq below first second ?_) left right
  rw [div_two_pow_succ, div_two_pow_succ, parent]

theorem sibling_taken {i j height : Nat} (below : height < depth) (first : i < count)
    (second : j < count) (place : j / 2 ^ height = Tree.siblingIndex (i / 2 ^ height))
    {sibling : Field}
    (found : (paths i)[height]? = some (sibling, i / 2 ^ height % 2 == 1)) :
    sibling = reached h (bottom j) (paths j) height := by
  obtain ⟨other, right⟩ := c.side second below
  have parent : i / 2 ^ height / 2 = j / 2 ^ height / 2 := by rw [place, siblingIndex_half]
  have crossed := (Opening.stepInput_inj (c.inputs_beside below first second parent found right)).2
  refine (crossed ?_).2
  rw [place]
  exact (siblingIndex_side _).symm

/-- What a path passes on its right past the end of the row is empty, since the last path passes the
same. -/
theorem sibling_edge (edge : EmptyOnRight h (paths (count - 1))) {i height : Nat}
    (below : height < depth) (inside : i < count) (even : i / 2 ^ height % 2 = 0) (past : count ≤ (i / 2 ^ height + 1) * 2 ^ height)
    {sibling : Field} (found : (paths i)[height]? = some (sibling, i / 2 ^ height % 2 == 1)) :
    sibling = emptyRoot h height := by
  have last : (count - 1) / 2 ^ height = i / 2 ^ height :=
    Nat.div_eq_of_lt_le ((Nat.div_mul_le_self _ _).trans (by omega))
      (Nat.lt_of_lt_of_le (by omega) past)
  have final : count - 1 < count := by omega
  obtain ⟨other, right⟩ := c.side final below
  have inputs := c.inputs_beside below inside final (by rw [last]) found right
  have same := ((Opening.stepInput_inj inputs).1 (by rw [last])).2
  rw [same]
  exact edge height other (by rw [right, last, even]; rfl)

/-- Where all paths reach the nodes of the tree at a height, the siblings that they pass are nodes of
the tree as well. -/
theorem sibling_eq (ends : ∀ place, count ≤ place → bottom place = Field.zero)
    (edge : EmptyOnRight h (paths (count - 1))) {height : Nat} (below : height < depth)
    (nodes : ∀ i < count, reached h (bottom i) (paths i) height =
      node h bottom height (i / 2 ^ height)) {i : Nat} (inside : i < count) {sibling : Field}
    (found : (paths i)[height]? = some (sibling, i / 2 ^ height % 2 == 1)) :
    sibling = node h bottom height (Tree.siblingIndex (i / 2 ^ height)) := by
  by_cases taken : ∃ j < count, j / 2 ^ height = Tree.siblingIndex (i / 2 ^ height)
  · obtain ⟨j, second, place⟩ := taken
    rw [c.sibling_taken below inside second place found, nodes j second, place]
  · obtain ⟨even, past⟩ := past_of_free inside fun j second place => taken ⟨j, second, place⟩
    rw [c.sibling_edge edge below inside even past found, Tree.siblingIndex, if_pos even,
      node_past h ends past]

theorem reached_node (ends : ∀ place, count ≤ place → bottom place = Field.zero)
    (edge : EmptyOnRight h (paths (count - 1))) {height : Nat} (within : height ≤ depth) {i : Nat}
    (inside : i < count) :
    reached h (bottom i) (paths i) height = node h bottom height (i / 2 ^ height) := by
  induction height generalizing i with
  | zero => simp [reached, node]
  | succ height induction =>
    obtain ⟨sibling, found⟩ := c.side inside (show height < depth by omega)
    -- A sibling may be any other path's node, so all paths go up together.
    have nodes : ∀ j < count, reached h (bottom j) (paths j) height =
        node h bottom height (j / 2 ^ height) := fun j second => induction (by omega) second
    have equal := c.sibling_eq ends edge (by omega) nodes inside found
    rw [reached_succ h _ found, Opening.digest_stepInput, nodes i inside, equal,
      step_sibling h (node h bottom height), div_two_pow_succ]
    rfl

theorem paths_eq (ends : ∀ place, count ≤ place → bottom place = Field.zero)
    (edge : EmptyOnRight h (paths (count - 1))) {i height : Nat} (inside : i < count) (below : height < depth) :
    (paths i)[height]? = some (node h bottom height (Tree.siblingIndex (i / 2 ^ height)),
      i / 2 ^ height % 2 == 1) := by
  obtain ⟨sibling, found⟩ := c.side inside below
  have nodes : ∀ j < count, reached h (bottom j) (paths j) height =
      node h bottom height (j / 2 ^ height) :=
    fun j second => c.reached_node ends edge (by omega) second
  rw [found, c.sibling_eq ends edge below nodes inside found]

end Converges

end Paths

/-! ## The openings of a tree -/

theorem getElem_path (levels : List (List Field × Field)) (place height : Nat) :
    (Tree.path levels place)[height]? = levels[height]?.map fun level =>
      (nodeAt level (Tree.siblingIndex (place / 2 ^ height)), place / 2 ^ height % 2 == 1) := by
  induction levels generalizing place height with
  | nil => rfl
  | cons level above induction =>
    cases height with
    | zero => simp [Tree.path, nodeAt]
    | succ height =>
      rw [Tree.path, List.getElem?_cons_succ, induction, List.getElem?_cons_succ,
        Nat.div_div_eq_div_mul, Nat.pow_succ, Nat.mul_comm]

theorem Tree.getElem_path_of_build {h : Hasher} {depth : Nat} {leaves : List Field} {t : Tree}
    (built : build h depth leaves = .ok t) (place : Nat) {height : Nat} (below : height < depth) :
    (path (t.levels.take t.depth) place)[height]? =
      some (node h t.bottom height (siblingIndex (place / 2 ^ height)),
        place / 2 ^ height % 2 == 1) := by
  have tall : t.depth = depth := by rw [(build_ok_iff.1 built).2.2]
  have length := length_levels built
  have inside : height < t.levels.length := by omega
  have found : t.levels[height]? = some t.levels[height] := List.getElem?_eq_getElem inside
  rw [getElem_path, tall, List.getElem?_take_of_lt below, found, Option.map_some,
    nodeAt_of_spells (levels_spell built) found]

theorem Tree.bottom_past (t : Tree) {place : Nat} (past : t.leaves.length ≤ place) :
    t.bottom place = Field.zero := by
  simp [bottom, nodeAt, List.getElem?_eq_none past]

theorem Tree.length_path_of_build {h : Hasher} {depth : Nat} {leaves : List Field} {t : Tree}
    (built : build h depth leaves = .ok t) (place : Nat) :
    (path (t.levels.take t.depth) place).length = depth := by
  have tall : t.depth = depth := by rw [(build_ok_iff.1 built).2.2]
  rw [length_path, List.length_take, length_levels built, tall]
  omega

theorem Tree.turns_path {h : Hasher} {depth : Nat} {leaves : List Field} {t : Tree}
    (built : build h depth leaves = .ok t) (place : Nat) :
    (path (t.levels.take t.depth) place).map Prod.snd = turns depth place := by
  apply List.ext_getElem?
  intro height
  by_cases below : height < depth
  · rw [List.getElem?_map, getElem_path_of_build built place below, getElem_turns below]
    rfl
  · rw [List.getElem?_eq_none, List.getElem?_eq_none]
    · rw [length_turns]
      omega
    · rw [List.length_map, length_path_of_build built]
      omega

/-- The path from the last leaf of a tree, or from past it, has nothing on its right. -/
theorem Tree.emptyOnRight_path {h : Hasher} {depth : Nat} {leaves : List Field} {t : Tree}
    (built : build h depth leaves = .ok t) {count place : Nat}
    (ends : ∀ place, count ≤ place → t.bottom place = Field.zero) (last : count ≤ place + 1) :
    EmptyOnRight h (path (t.levels.take t.depth) place) := by
  intro height sibling found
  have below : height < depth := by
    rw [← length_path_of_build built place]
    exact (List.getElem?_eq_some_iff.1 found).1
  rw [getElem_path_of_build built place below, Option.some.injEq, Prod.mk.injEq,
    beq_eq_false_iff_ne] at found
  obtain ⟨rfl, turn⟩ := found
  have even : place / 2 ^ height % 2 = 0 := by omega
  have after : place < 2 ^ height * (place / 2 ^ height + 1) :=
    Nat.lt_mul_div_succ place (Nat.two_pow_pos height)
  rw [Nat.mul_comm] at after
  rw [siblingIndex, if_pos even]
  exact node_past h ends (by omega)

theorem Converges.path_eq {h : Hasher} {inputs : List Preimage} {depth count : Nat}
    {paths : Nat → List (Field × Bool)} {root : Field} {leaves : List Field} {t : Tree}
    (built : Tree.build h depth leaves = .ok t)
    (c : Converges h inputs depth count t.bottom paths root)
    (ends : ∀ place, count ≤ place → t.bottom place = Field.zero)
    (edge : EmptyOnRight h (paths (count - 1))) {i : Nat} (inside : i < count) :
    paths i = Tree.path (t.levels.take t.depth) i := by
  apply List.ext_getElem?
  intro height
  by_cases below : height < depth
  · rw [c.paths_eq ends edge inside below, Tree.getElem_path_of_build built i below]
  · rw [List.getElem?_eq_none, List.getElem?_eq_none]
    · rw [Tree.length_path_of_build built]
      omega
    · rw [c.length inside]
      omega

end Commitment

end AttestedQuery
