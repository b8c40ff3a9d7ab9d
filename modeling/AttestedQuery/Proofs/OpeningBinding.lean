import AttestedQuery.Proofs.DenseTree
import Mathlib.Data.Nat.Digits.Defs

/-!
# Openings are binding

An opening with as many siblings as a tree is deep that leads to the root of the tree follows one of
its paths from the root down: at each node it has hashed what the tree has hashed there, or two
different pairs have one hash. So it starts at the leaf of the place that its directions spell, and
passes the siblings of that place. Neighbours that are equal can be exchanged, and a direction
turned between them is no edit that any check could see.
-/

set_option autoImplicit false

namespace AttestedQuery

/-- The place that the directions of an opening spell, the lowest digit first. -/
def Opening.place (o : Opening) : Nat := Nat.ofDigits 2 (o.directions.map Bool.toNat)

namespace Commitment

/-- Two different pairs with one hash, one hashed on the way up from a leaf, the other in a tree. -/
def Tree.Collides (h : Hasher) (t : Tree) (o : Opening) (leaf : Field) : Prop :=
  ∃ a b c d, Preimage.pair a b ∈ o.inputs h leaf ∧ Preimage.pair c d ∈ t.inputs ∧
    (a, b) ≠ (c, d) ∧ h.pair a b = h.pair c d

/-! ## Places -/

theorem ofDigits_cons_toNat (turn : Bool) (rest : List Bool) :
    Nat.ofDigits 2 ((turn :: rest).map Bool.toNat) =
      turn.toNat + 2 * Nat.ofDigits 2 (rest.map Bool.toNat) :=
  Nat.ofDigits_cons

theorem turns_ofDigits (directions : List Bool) :
    turns directions.length (Nat.ofDigits 2 (directions.map Bool.toNat)) = directions := by
  induction directions with
  | nil => rfl
  | cons turn rest induction =>
    have small := turn.toNat_lt
    have half : (turn.toNat + 2 * Nat.ofDigits 2 (rest.map Bool.toNat)) / 2 =
        Nat.ofDigits 2 (rest.map Bool.toNat) := by omega
    have digit : (turn.toNat + 2 * Nat.ofDigits 2 (rest.map Bool.toNat)) % 2 = turn.toNat := by omega
    rw [ofDigits_cons_toNat, List.length_cons, turns, half, digit, induction]
    cases turn <;> rfl

theorem ofDigits_turns {depth place : Nat} (inside : place < 2 ^ depth) :
    Nat.ofDigits 2 ((turns depth place).map Bool.toNat) = place := by
  induction depth generalizing place with
  | zero =>
    have only : place = 0 := by simpa using inside
    rw [only]
    rfl
  | succ depth induction =>
    have half : place / 2 < 2 ^ depth := by
      rw [Nat.pow_succ] at inside
      omega
    have digit : (place % 2 == 1).toNat = place % 2 := by
      rcases Nat.mod_two_eq_zero_or_one place with even | odd
      · rw [even]
        rfl
      · rw [odd]
        rfl
    rw [turns, ofDigits_cons_toNat, induction half, digit]
    omega

theorem ofDigits_lt (directions : List Bool) :
    Nat.ofDigits 2 (directions.map Bool.toNat) < 2 ^ directions.length := by
  induction directions with
  | nil => decide
  | cons turn rest induction =>
    have small := turn.toNat_lt
    rw [ofDigits_cons_toNat, List.length_cons, Nat.pow_succ]
    omega

/-! ## The way down -/

theorem stepInput_pair (node : Field) (side : Field × Bool) :
    ∃ a b, Opening.stepInput node side = .pair a b := by
  unfold Opening.stepInput
  split
  · exact ⟨_, _, rfl⟩
  · exact ⟨_, _, rfl⟩

theorem stepInput_parent {h : Hasher} {bottom : Nat → Field} {a sibling : Field} {height place : Nat}
    (same : Opening.stepInput a (sibling, place % 2 == 1) =
      .pair (node h bottom height (2 * (place / 2))) (node h bottom height (2 * (place / 2) + 1))) :
    a = node h bottom height place ∧ sibling = node h bottom height (Tree.siblingIndex place) := by
  rcases Nat.mod_two_eq_zero_or_one place with even | odd
  · have here : 2 * (place / 2) = place := by omega
    rw [here] at same
    simp only [Opening.stepInput, even] at same
    rw [Tree.siblingIndex, if_pos even]
    simpa using same
  · have here : 2 * (place / 2) + 1 = place := by omega
    have beside : 2 * (place / 2) = place - 1 := by omega
    rw [here, beside] at same
    simp only [Opening.stepInput, odd] at same
    rw [Tree.siblingIndex, if_neg (by omega)]
    have both : sibling = node h bottom height (place - 1) ∧ a = node h bottom height place := by
      simpa using same
    exact both.symm

section Descent

variable {h : Hasher} {depth : Nat} {leaves : List Field} {t : Tree}
  (built : Tree.build h depth leaves = .ok t) {o : Opening} {leaf : Field}
  (clear : ¬ t.Collides h o leaf)
include built clear

/-- Below a node that a path and the tree share they share both children. -/
theorem shared_below {height place : Nat} (below : height < depth) {sibling : Field}
    (found : o.sides[height]? = some (sibling, place / 2 ^ height % 2 == 1))
    (above : reached h leaf o.sides (height + 1) =
      node h t.bottom (height + 1) (place / 2 ^ (height + 1))) :
    reached h leaf o.sides height = node h t.bottom height (place / 2 ^ height) ∧
      sibling = node h t.bottom height (Tree.siblingIndex (place / 2 ^ height)) := by
  apply stepInput_parent
  have hashed := stepInput_mem h leaf found
  have inTree := Tree.mem_inputs built below (place / 2 ^ height / 2)
  rw [reached_succ h leaf found, div_two_pow_succ, node] at above
  obtain ⟨a, b, pair⟩ :=
    stepInput_pair (reached h leaf o.sides height) (sibling, place / 2 ^ height % 2 == 1)
  rw [pair] at hashed above ⊢
  by_contra different
  apply clear
  refine ⟨a, b, _, _, hashed, inTree, ?_, above⟩
  intro same
  obtain ⟨left, right⟩ := Prod.mk.inj same
  rw [left, right] at different
  exact different rfl

variable {place : Nat} (inside : place < 2 ^ depth)
  (turned : o.sides.map Prod.snd = turns depth place)
  (leads : o.sides.foldl (Opening.step h) leaf = t.root)
include inside turned leads

/-- A path to the root of a tree goes through the nodes of the tree. -/
theorem reached_node_of_leads {height : Nat} (within : height ≤ depth) :
    reached h leaf o.sides height = node h t.bottom height (place / 2 ^ height) := by
  obtain ⟨steps, total⟩ := Nat.exists_eq_add_of_le within
  -- The induction is on the distance from the root, where path and tree are known to agree.
  induction steps generalizing height with
  | zero =>
    obtain rfl : depth = height := by omega
    have length : o.sides.length = depth := by
      rw [← length_turns depth place, ← turned, List.length_map]
    rw [Nat.div_eq_of_lt inside, ← Tree.root_eq_node built, ← leads, reached]
    exact congrArg _ (List.take_of_length_le length.le)
  | succ steps induction =>
    have below : height < depth := by omega
    obtain ⟨sibling, found⟩ := exists_side turned below
    exact (shared_below built clear below found (induction (by omega) (by omega))).1

theorem sides_eq_path : o.sides = Tree.path (t.levels.take t.depth) place := by
  apply List.ext_getElem?
  intro height
  by_cases below : height < depth
  · obtain ⟨sibling, found⟩ := exists_side turned below
    have within : height + 1 ≤ depth := below
    have above := reached_node_of_leads built clear inside turned leads within
    have passed := (shared_below built clear below found above).2
    rw [found, passed, Tree.getElem_path_of_build built place below]
  · rw [List.getElem?_eq_none, List.getElem?_eq_none]
    · rw [Tree.length_path_of_build built]
      omega
    · rw [← List.length_map (f := Prod.snd), turned, length_turns]
      omega

end Descent

section Built

variable {h : Hasher} {depth : Nat} {leaves : List Field} {t : Tree}
  (built : Tree.build h depth leaves = .ok t)
include built

theorem opens_place {o : Opening} {leaf : Field} (clear : ¬ t.Collides h o leaf)
    (length : o.siblings.length = depth) (verifies : o.verifies h leaf t.root = true) :
    leaf = leaves.getD o.place Field.zero ∧
      o.siblings = denseSiblings h depth (padded depth leaves) o.place := by
  obtain ⟨paired, leads⟩ := Opening.verifies_iff.1 verifies
  obtain ⟨siblings, directions⟩ := Opening.map_sides paired
  have turned : o.sides.map Prod.snd = turns depth o.place := by
    rw [directions, ← length, paired]
    exact (turns_ofDigits o.directions).symm
  have inside : o.place < 2 ^ depth := by
    rw [← length, paired]
    exact ofDigits_lt o.directions
  constructor
  · have start :=
      reached_node_of_leads built clear inside turned leads (Nat.zero_le depth)
    rw [Nat.pow_zero, Nat.div_one, node, Tree.bottom_eq_getD built] at start
    exact start
  · rw [← siblings, ← Tree.siblings_path built o.place]
    rw [sides_eq_path built clear inside turned leads]

theorem place_opening {place : Nat} {o : Opening} (opened : t.opening? place = some o) :
    o.place = place ∧ o.siblings = denseSiblings h depth (padded depth leaves) place := by
  have inside : place < leaves.length := by
    by_contra past
    rw [Tree.opening_none built (Nat.not_lt.1 past)] at opened
    cases opened
  rw [Tree.opening_eq_dense built inside] at opened
  obtain rfl := Option.some.inj opened
  have room : place < 2 ^ depth :=
    Nat.lt_of_lt_of_le inside (Tree.build_ok_iff.1 built).2.1
  constructor
  · rw [Opening.place, ← turns_eq_bits, ofDigits_turns room]
  · rfl

end Built

/-- An opening of any siblings and directions, as many as the tree is deep, that leads from a value to
the root of a tree, leads there from the leaf of the place that its directions spell, zero past the
last leaf, and passes the siblings of the dense tree, or two different pairs with one hash are among
what was hashed. So neither another sibling nor a place of another value passes in the opening of a
leaf. -/
theorem opening_binds_place (h : Hasher) (depth : Nat) (leaves : List Field) (t : Tree)
    (built : Tree.build h depth leaves = .ok t) :
    (∀ leaf (o : Opening), o.siblings.length = depth → o.verifies h leaf t.root = true →
      (leaf = leaves.getD o.place Field.zero ∧
        o.siblings = denseSiblings h depth (padded depth leaves) o.place) ∨
      t.Collides h o leaf) ∧
    ∀ place leaf o, leaves[place]? = some leaf → t.opening? place = some o →
      (∀ edited : Opening, edited.directions = o.directions → edited.siblings ≠ o.siblings →
        edited.siblings.length = depth → edited.verifies h leaf t.root = true →
          t.Collides h edited leaf) ∧
      ∀ moved : Opening, leaves.getD moved.place Field.zero ≠ leaf →
        moved.siblings.length = depth → moved.verifies h leaf t.root = true →
          t.Collides h moved leaf := by
  refine ⟨?_, ?_⟩
  · intro leaf o length verifies
    by_cases collides : t.Collides h o leaf
    · exact Or.inr collides
    · exact Or.inl (opens_place built collides length verifies)
  · intro place leaf o found opened
    constructor
    · intro edited directions different length verifies
      by_contra clear
      have siblings := (opens_place built clear length verifies).2
      have here : edited.place = o.place := by rw [Opening.place, directions, Opening.place]
      obtain ⟨spelled, own⟩ := place_opening built opened
      rw [here, spelled, ← own] at siblings
      exact different siblings
    · intro moved different length verifies
      by_contra clear
      exact different (opens_place built clear length verifies).1.symm

def constantHasher : Hasher := ⟨fun _ => .zero, fun _ _ => .zero, fun _ _ _ _ => .zero⟩

/-- The opening of the last of five leaves is bound to its place, and where all hashes are equal an
edited sibling passes and shows a collision. -/
theorem opening_binds_place_sample :
    (∃ t o, Tree.build HashSuite.blake3.hasher 3 sampleLeaves = .ok t ∧ t.opening? 4 = some o ∧
      o.siblings.length = 3 ∧ o.verifies HashSuite.blake3.hasher (Field.ofNat 4) t.root = true ∧
      ((Field.ofNat 4 = sampleLeaves.getD o.place Field.zero ∧
        o.siblings = denseSiblings HashSuite.blake3.hasher 3 (padded 3 sampleLeaves) o.place) ∨
        t.Collides HashSuite.blake3.hasher o (Field.ofNat 4))) ∧
    ∃ t o, Tree.build constantHasher 1 [Field.ofNat 1] = .ok t ∧ t.opening? 0 = some o ∧
      o.siblings = [Field.zero] ∧
      (⟨0, [Field.ofNat 1], o.directions⟩ : Opening).verifies constantHasher (Field.ofNat 1) t.root =
        true ∧
      t.Collides constantHasher ⟨0, [Field.ofNat 1], o.directions⟩ (Field.ofNat 1) := by
  constructor
  · have built : Tree.build HashSuite.blake3.hasher 3 sampleLeaves =
        .ok ⟨3, sampleLeaves, levelsAbove HashSuite.blake3.hasher 3 Field.zero sampleLeaves⟩ :=
      Tree.build_ok_iff.2 ⟨by decide, by decide, rfl⟩
    have last : sampleLeaves[4]? = some (Field.ofNat 4) := by decide
    obtain ⟨o, opened, length, verifies⟩ := Tree.opening_verifies built last
    have binds := opening_binds_place HashSuite.blake3.hasher 3 sampleLeaves _ built
    exact ⟨_, o, built, opened, length, verifies, binds.1 (Field.ofNat 4) o length verifies⟩
  · have built : Tree.build constantHasher 1 [Field.ofNat 1] =
        .ok ⟨1, [Field.ofNat 1], levelsAbove constantHasher 1 Field.zero [Field.ofNat 1]⟩ := rfl
    have binds := (opening_binds_place constantHasher 1 [Field.ofNat 1] _ built).2 0
      (Field.ofNat 1) ⟨0, [Field.zero], [false]⟩ rfl rfl
    exact ⟨_, ⟨0, [Field.zero], [false]⟩, built, rfl, rfl, rfl,
      binds.1 ⟨0, [Field.ofNat 1], [false]⟩ rfl (by decide) rfl rfl⟩

end Commitment

end AttestedQuery
