import AttestedQuery.Hasher

/-!
# Commitment trees

A binary hash tree of fixed depth over a list of field elements. The leaves keep their order;
positions past the last leaf hold zero, and an inner node is the hash of its two children. Only
the occupied beginning of each level is stored: to its right lie empty subtrees, whose roots
depend on their height alone.
-/

set_option autoImplicit false

namespace AttestedQuery

/-- The sibling path from one leaf to the root. A direction is true when the node on the path is
a right child, so that its sibling stands on the left. -/
structure Opening where
  index : Nat
  siblings : List Field
  directions : List Bool
  deriving DecidableEq

namespace Opening

def step (h : Hasher) (node : Field) (side : Field × Bool) : Field :=
  if side.2 then h.pair side.1 node else h.pair node side.1

/-- The root reached from a leaf. Siblings and directions are taken in pairs, as far as both go. -/
def rootFrom (h : Hasher) (o : Opening) (leaf : Field) : Field :=
  (o.siblings.zip o.directions).foldl (step h) leaf

def verifies (h : Hasher) (o : Opening) (leaf root : Field) : Bool :=
  o.siblings.length == o.directions.length && o.rootFrom h leaf == root

end Opening

namespace Commitment

/-- The number of leaves of a tree of some depth, as an unsigned 64-bit integer; from depth 64 on
the largest such integer. -/
def capacity (depth : Nat) : Nat :=
  if depth < 64 then Nat.pow 2 depth else Nat.pow 2 64 - 1

def emptyRoot (h : Hasher) : Nat → Field
  | 0 => Field.zero
  | height + 1 =>
    let below := emptyRoot h height
    h.pair below below

/-- The level above: adjacent nodes are paired, and a last node without a partner is paired with
an empty subtree. -/
def levelAbove (h : Hasher) (absent : Field) : List Field → List Field
  | left :: right :: rest => h.pair left right :: levelAbove h absent rest
  | [left] => [h.pair left absent]
  | [] => []

/-- The levels above a level, with the root of the empty subtree beside each: the given number of
them, the lowest first. -/
def levelsAbove (h : Hasher) : Nat → Field → List Field → List (List Field × Field)
  | 0, _, _ => []
  | count + 1, absent, nodes =>
    let above := levelAbove h absent nodes
    let absentAbove := h.pair absent absent
    (above, absentAbove) :: levelsAbove h count absentAbove above

/-- A tree: its leaves and the levels above them, each with the root of the empty subtrees to its
right. -/
structure Tree where
  depth : Nat
  leaves : List Field
  above : List (List Field × Field)

namespace Tree

/-- Builds the tree of some depth over the leaves. The depth is checked before their number. -/
def build (h : Hasher) (depth : Nat) (leaves : List Field) : Result Tree :=
  if depth = 0 ∨ maxDepth < depth then .error (.config (.treeDepth depth))
  else if capacity depth < leaves.length then
    .error (.treeFull leaves.length (capacity depth))
  else .ok ⟨depth, leaves, levelsAbove h depth Field.zero leaves⟩

def levels (t : Tree) : List (List Field × Field) :=
  (t.leaves, Field.zero) :: t.above

def size (t : Tree) : Nat := t.leaves.length

/-- The first node of the last level; of a tree without leaves the root of the empty subtree. -/
def root (t : Tree) : Field :=
  match t.levels.getLast? with
  | some (nodes, absent) => nodes.headD absent
  | none => Field.zero

def leaf? (t : Tree) (index : Nat) : Option Field :=
  t.leaves[index]?

def siblingIndex (index : Nat) : Nat :=
  if index % 2 = 0 then index + 1 else index - 1

/-- The siblings on the way up from a node, and on which side the node stands at each level. -/
def path : List (List Field × Field) → Nat → List (Field × Bool)
  | [], _ => []
  | (nodes, absent) :: rest, index =>
    (nodes[siblingIndex index]?.getD absent, index % 2 == 1) :: path rest (index / 2)

/-- The opening of a leaf's position; there is none past the last leaf. -/
def opening? (t : Tree) (index : Nat) : Option Opening :=
  if index < t.size then
    let sides := path (t.levels.take t.depth) index
    some ⟨index, sides.map (·.1), sides.map (·.2)⟩
  else none

end Tree

end Commitment

end AttestedQuery
