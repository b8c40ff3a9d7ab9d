import AttestedQuery.Proof

/-!
# Batches of proofs

Every witness of a batch is proved on its own: a failure is recorded in its item and does not
touch the others.
-/

set_option autoImplicit false

namespace AttestedQuery

/-- How far each witness is taken. -/
inductive ProofMode where
  /-- The witness is only checked. -/
  | witnessOnly
  | prove
  | proveAndVerify
  deriving DecidableEq

namespace Batch

structure Item where
  /-- The place of the witness in the list. -/
  index : Nat
  branch : Nat
  /-- The proof in hexadecimal. -/
  proof : Option String
  publicInputs : List Field
  milliseconds : Nat
  error : Option String
  /-- The outcome of the check, if the proof was checked. -/
  verified : Option Bool
  deriving DecidableEq

structure Summary where
  total : Nat
  succeeded : Nat
  failed : Nat
  witnessOnly : Bool
  deriving DecidableEq

namespace Item

/-- The item of a witness of which nothing is known yet. -/
def start (index branch : Nat) : Item where
  index := index
  branch := branch
  proof := none
  publicInputs := []
  milliseconds := 0
  error := none
  verified := none

def withError (item : Item) (e : Error) : Item := { item with error := some e.message }

def checked (item : Item) : Result Bool → Item
  | .ok true => { item with verified := some true }
  | .ok false => { item with verified := some false }.withError (.tool .unverified)
  | .error e => item.withError e

def run {m : Type → Type} [Monad m] (prover : Prover m) (p : Program) (mode : ProofMode)
    (index : Nat) (w : Witness) : m Item := do
  let item := start index w.branch
  match ← prover.execute p w with
  | .error e => return item.withError e
  | .ok trace =>
    let item := { item with publicInputs := trace.publicInputs }
    if mode = .witnessOnly then return item
    match ← prover.prove p trace with
    | .error e => return item.withError e
    | .ok proof =>
      let item := { item with proof := some proof.toHex }
      if mode = .prove then return item
      return item.checked (← prover.verify p proof trace.publicInputs)

def verifies {m : Type → Type} [Monad m] (prover : Prover m) (p : Program) (item : Item) :
    m Bool :=
  match item.proof.map Proof.ofHex with
  | some (.ok proof) => do
    match ← prover.verify p proof item.publicInputs with
    | .ok verified => return verified
    | .error _ => return false
  | _ => return false

end Item

end Batch

structure Batch where
  items : List Batch.Item
  summary : Batch.Summary
  deriving DecidableEq

structure Verification where
  verified : Nat
  total : Nat
  deriving DecidableEq

namespace Verification

def failed (v : Verification) : Nat := v.total - v.verified

def succeeds (v : Verification) : Bool := v.verified == v.total

end Verification

namespace Batch

def ofItems (mode : ProofMode) (items : List Item) : Batch :=
  let failed := items.countP fun item => item.error.isSome
  ⟨items, ⟨items.length, items.length - failed, failed, mode == .witnessOnly⟩⟩

def run {m : Type → Type} [Monad m] (prover : Prover m) (p : Program) (witnesses : List Witness)
    (mode : ProofMode) : m Batch := do
  let items ← witnesses.zipIdx.mapM fun (w, index) => Item.run prover p mode index w
  return ofItems mode items

def verify {m : Type → Type} [Monad m] (prover : Prover m) (p : Program) (b : Batch) :
    m Verification := do
  let outcomes ← b.items.mapM fun item => item.verifies prover p
  return ⟨outcomes.countP id, outcomes.length⟩

end Batch

end AttestedQuery
