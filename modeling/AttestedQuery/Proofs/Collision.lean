import AttestedQuery.Dataset
import AttestedQuery.Proofs.Tree
import Mathlib.Data.List.Nodup

/-!
# What an opening of any length proves

The inputs of the hash functions are pairs and quadruples of field elements. A path of any length
that leads from a quadruple to the root of a tree starts at one of its leaves, unless two different
inputs among those of the tree and of the path have one digest, or one of these inputs has the
digest zero. The inputs are listed, so that the exception is something to be shown.
-/

set_option autoImplicit false

namespace AttestedQuery

/-- An input of a hash function on field elements. -/
inductive Preimage where
  | pair (a b : Field)
  | quadruple (a b c d : Field)
  deriving DecidableEq

namespace Preimage

def ofQuad (q : QuadOf Field) : Preimage :=
  .quadruple q.subject q.predicate q.object q.graph

theorem ofQuad_injective {q r : QuadOf Field} (same : ofQuad q = ofQuad r) : q = r := by
  obtain ⟨_, _, _, _⟩ := q
  obtain ⟨_, _, _, _⟩ := r
  simpa [ofQuad] using same

end Preimage

namespace Hasher

variable (h : Hasher)

def digest : Preimage → Field
  | .pair a b => h.pair a b
  | .quadruple a b c d => h.quadruple a b c d

/-- Two different inputs of a list have one digest. -/
def Collides (inputs : List Preimage) : Prop :=
  ∃ a ∈ inputs, ∃ b ∈ inputs, a ≠ b ∧ h.digest a = h.digest b

/-- An input of a list has the digest zero. -/
def Vanishes (inputs : List Preimage) : Prop :=
  ∃ a ∈ inputs, h.digest a = Field.zero

structure Separates (inputs : List Preimage) : Prop where
  injective : ∀ a ∈ inputs, ∀ b ∈ inputs, h.digest a = h.digest b → a = b
  nonzero : ∀ a ∈ inputs, h.digest a ≠ Field.zero

variable {h} in
theorem eq_of_digest {inputs : List Preimage} (clear : ¬ h.Collides inputs) {a b : Preimage}
    (insideA : a ∈ inputs) (insideB : b ∈ inputs) (same : h.digest a = h.digest b) : a = b := by
  by_contra different
  exact clear ⟨a, insideA, b, insideB, different, same⟩

variable {h} in
theorem clear_of_nodup {inputs listed : List Preimage} (subset : ∀ input ∈ inputs, input ∈ listed)
    (distinct : (listed.map h.digest).Nodup) : ¬ h.Collides inputs := by
  rintro ⟨a, insideA, b, insideB, different, same⟩
  exact different (List.inj_on_of_nodup_map distinct (subset a insideA) (subset b insideB) same)

theorem separates_or (inputs : List Preimage) :
    h.Separates inputs ∨ h.Collides inputs ∨ h.Vanishes inputs := by
  by_cases collides : h.Collides inputs
  · exact Or.inr (Or.inl collides)
  by_cases vanishes : h.Vanishes inputs
  · exact Or.inr (Or.inr vanishes)
  exact Or.inl ⟨fun _ insideA _ insideB => eq_of_digest collides insideA insideB,
    fun a inside zero => vanishes ⟨a, inside, zero⟩⟩

end Hasher

/-! ## The inputs of paths and trees -/

namespace Opening

def stepInput (node : Field) (side : Field × Bool) : Preimage :=
  if side.2 then .pair side.1 node else .pair node side.1

theorem digest_stepInput (h : Hasher) (node : Field) (side : Field × Bool) :
    h.digest (stepInput node side) = step h node side := by
  unfold stepInput step
  split <;> rfl

def pathInputs (h : Hasher) : Field → List (Field × Bool) → List Preimage
  | _, [] => []
  | node, side :: rest => stepInput node side :: pathInputs h (step h node side) rest

theorem pathInputs_append (h : Hasher) (node : Field) (sides : List (Field × Bool))
    (last : Field × Bool) : pathInputs h node (sides ++ [last]) =
      pathInputs h node sides ++ [stepInput (sides.foldl (step h) node) last] := by
  induction sides generalizing node with
  | nil => rfl
  | cons side rest induction =>
    rw [List.cons_append, pathInputs, induction, pathInputs, List.cons_append, List.foldl_cons]

/-- The inputs hashed when an opening is checked. -/
def inputs (h : Hasher) (o : Opening) (leaf : Field) : List Preimage :=
  pathInputs h leaf (o.siblings.zip o.directions)

end Opening

namespace Commitment

def levelInputs (absent : Field) : List Field → List Preimage
  | left :: right :: rest => .pair left right :: levelInputs absent rest
  | [left] => [.pair left absent]
  | [] => []

theorem mem_levelInputs (absent : Field) (nodes : List Field) (place : Nat) :
    Preimage.pair (nodeAt (nodes, absent) (2 * place)) (nodeAt (nodes, absent) (2 * place + 1)) ∈
      levelInputs absent nodes ++ [.pair absent absent] := by
  simp only [nodeAt]
  fun_induction levelInputs absent nodes generalizing place with
  | case1 left right rest induction =>
    cases place with
    | zero => simp
    | succ place =>
      have next : 2 * (place + 1) = 2 * place + 1 + 1 := by omega
      simp only [next, List.getElem?_cons_succ, List.cons_append]
      exact List.mem_cons_of_mem _ (induction place)
  | case2 left =>
    cases place with
    | zero => simp
    | succ place =>
      have next : 2 * (place + 1) = 2 * place + 1 + 1 := by omega
      simp [next]
  | case3 => simp

/-- The inputs hashed to build a tree from its leaves. -/
def Tree.inputs (t : Tree) : List Preimage :=
  (t.levels.take t.depth).flatMap fun (nodes, absent) =>
    levelInputs absent nodes ++ [.pair absent absent]

theorem Tree.mem_inputs {h : Hasher} {depth : Nat} {leaves : List Field} {t : Tree}
    (built : build h depth leaves = .ok t) {height : Nat} (below : height < depth) (place : Nat) :
    Preimage.pair (node h t.bottom height (2 * place)) (node h t.bottom height (2 * place + 1)) ∈
      t.inputs := by
  have tall : t.depth = depth := by rw [(build_ok_iff.1 built).2.2]
  have length := length_levels built
  have inside : height < t.levels.length := by omega
  have found : t.levels[height]? = some t.levels[height] := List.getElem?_eq_getElem inside
  rw [← nodeAt_of_spells (levels_spell built) found]
  refine List.mem_flatMap.2 ⟨t.levels[height], ?_, mem_levelInputs _ _ place⟩
  rw [tall]
  exact List.mem_take_iff_getElem.2 ⟨height, by omega, rfl⟩

/-! ## The descent -/

/-- A path that leads from a quadruple to a node of a tree leads to the bottom row: the quadruple is
that of a leaf. -/
theorem reaches_leaf {h : Hasher} {inputs : List Preimage} {rows : List (QuadOf Field)}
    {bottom : Nat → Field} {depth : Nat} (separates : h.Separates inputs)
    (inner : ∀ height < depth, ∀ place, Preimage.pair (node h bottom height (2 * place))
      (node h bottom height (2 * place + 1)) ∈ inputs)
    (bottomRow : ∀ place, bottom place = Field.zero ∨ ∃ row ∈ rows, bottom place = h.onQuad row)
    (leaves : ∀ row ∈ rows, Preimage.ofQuad row ∈ inputs)
    {terms : QuadOf Field} (termsInput : Preimage.ofQuad terms ∈ inputs)
    (height place : Nat) (within : height ≤ depth) (sides : List (Field × Bool))
    (path : ∀ input ∈ Opening.pathInputs h (h.onQuad terms) sides, input ∈ inputs)
    (leads : sides.foldl (Opening.step h) (h.onQuad terms) = node h bottom height place) :
    terms ∈ rows := by
  have start : h.digest (.ofQuad terms) = h.onQuad terms := rfl
  induction height generalizing place sides with
  | zero =>
    rcases sides.eq_nil_or_concat with rfl | ⟨before, last, rfl⟩
    · -- The path is empty, so that the quadruple itself stands in the bottom row.
      rcases bottomRow place with zero | ⟨row, member, leaf⟩
      · exact absurd (leads.trans zero) (separates.nonzero _ termsInput)
      · have same := separates.injective _ termsInput _ (leaves row member) (leads.trans leaf)
        rw [Preimage.ofQuad_injective same]
        exact member
    · -- The last step hashes a pair, which is neither a leaf nor zero.
      rw [List.concat_eq_append, Opening.pathInputs_append] at path
      rw [List.concat_eq_append, List.foldl_append, List.foldl_cons, List.foldl_nil,
        ← Opening.digest_stepInput] at leads
      have hashed := path _ (List.mem_append_right _ List.mem_cons_self)
      rcases bottomRow place with zero | ⟨row, member, leaf⟩
      · exact absurd (leads.trans zero) (separates.nonzero _ hashed)
      · have same := separates.injective _ hashed _ (leaves row member) (leads.trans leaf)
        unfold Opening.stepInput at same
        split at same <;> cases same
  | succ height induction =>
    have parent := inner height (by omega) place
    rcases sides.eq_nil_or_concat with rfl | ⟨before, last, rfl⟩
    · have same := separates.injective _ termsInput _ parent leads
      cases same
    · rw [List.concat_eq_append, Opening.pathInputs_append] at path
      rw [List.concat_eq_append, List.foldl_append, List.foldl_cons, List.foldl_nil,
        ← Opening.digest_stepInput] at leads
      have hashed := path _ (List.mem_append_right _ List.mem_cons_self)
      have same := separates.injective _ hashed _ parent leads
      have earlier (input : Preimage)
          (member : input ∈ Opening.pathInputs h (h.onQuad terms) before) : input ∈ inputs :=
        path input (List.mem_append_left _ member)
      -- The last step joins the two children, so that the path before it leads to one of them.
      unfold Opening.stepInput at same
      split at same
      · exact induction (2 * place + 1) (by omega) before earlier (Preimage.pair.inj same).2
      · exact induction (2 * place) (by omega) before earlier (Preimage.pair.inj same).1

end Commitment

end AttestedQuery
