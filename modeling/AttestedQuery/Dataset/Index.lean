import AttestedQuery.Dataset
import Std.Data.HashMap

/-!
# Looking up quads

For each position of a quad, the list of the quads that have a value there. A lookup with fixed
positions takes the shortest of their lists and tests the rest of the positions.
-/

set_option autoImplicit false

namespace AttestedQuery.Dataset

/-- The quads that have a value at some position, by that value, in increasing order. -/
abbrev Postings := Std.HashMap Field (List Nat)

/-- Adds a quad after those already listed under a value. -/
def addPosting (postings : Postings) (value : Field) (index : Nat) : Postings :=
  postings.insert value (postings.getD value [] ++ [index])

structure Index where
  dataset : Dataset
  postings : QuadOf Postings

namespace Index

def addQuad (postings : QuadOf Postings) (entry : QuadOf Field × Nat) : QuadOf Postings :=
  (postings.zip entry.1).map fun (list, value) => addPosting list value entry.2

def ofDataset (d : Dataset) : Index where
  dataset := d
  postings := d.encoded.zipIdx.foldl addQuad ⟨{}, {}, {}, {}⟩

def fixedLists (index : Index) (fixed : QuadOf (Option Field)) : List (List Nat) :=
  (index.postings.zip fixed).toList.filterMap fun (postings, value) =>
    value.map fun value => postings.getD value []

def shortest : List (List Nat) → Option (List Nat)
  | [] => none
  | list :: rest =>
    match shortest rest with
    | none => some list
    | some other => if other.length < list.length then some other else some list

def agrees (fixed : QuadOf (Option Field)) (encoded : QuadOf Field) : Bool :=
  (fixed.zip encoded).toList.all fun (want, held) => want.all (· == held)

/-- The quads whose encodings agree with every fixed position, in increasing order. -/
def candidates (index : Index) (fixed : QuadOf (Option Field)) : List Nat :=
  match shortest (index.fixedLists fixed) with
  | none => List.range index.dataset.quads.length
  | some list => list.filter fun i => index.dataset.encoded[i]?.any (agrees fixed)

end Index

end AttestedQuery.Dataset
