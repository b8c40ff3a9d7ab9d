import AttestedQuery.Proof

/-!
# Checking without secrecy

A prover that checks a witness itself: all that the circuit checks, in the open. Its proof is a
digest of the program's fingerprint, its projected variables and the public values, and so ties
these together but hides nothing.
-/

set_option autoImplicit false

namespace AttestedQuery.Checker

/-- What the digest covers: the fingerprint, each projected variable followed by a zero, and each
public value in 32 octets. -/
def material (p : Program) (inputs : List Field) : Octets :=
  Octets.ofString p.fingerprint
    ++ p.projected.flatMap (fun name => Octets.ofString name ++ [0])
    ++ inputs.flatMap Field.toBigEndian

def digest (p : Program) (inputs : List Field) : Octets := Digest.blake3 (material p inputs)

def checkShape (p : Program) (w : Witness) : Result Unit :=
  if w.slots.length ≠ p.width then .error (.unmet (.slotCount p.width w.slots.length))
  else if w.hints.length ≠ p.hints.length then
    .error (.unmet (.hintCount p.hints.length w.hints.length))
  else .ok ()

def checkOpenings (h : Hasher) (root : Field) : Nat → List Slot → Result Unit
  | _, [] => .ok ()
  | index, slot :: rest =>
    if slot.opening.verifies h (h.onQuad slot.terms) root then checkOpenings h root (index + 1) rest
    else .error (.unmet (.slotOpening index))

def checkCommitment (h : Hasher) (w : Witness) : Result Unit := do
  let publicKey ← Signer.octetsOfHex w.publicKey
  let signature ← Signer.octetsOfHex w.signature
  if w.scheme.verifies publicKey w.root.toBigEndian signature then
    checkOpenings h w.root 0 w.slots
  else .error (.unmet .rootSignature)

def check (h : Hasher) (p : Program) (w : Witness) : Result Unit :=
  match p.branches[w.branch]? with
  | none => .error (.unmet (.missingBranch w.branch))
  | some branch => do
    checkShape p w
    if !p.skipSigning then checkCommitment h w
    w.view.check h branch.assertion

def execute (h : Hasher) (p : Program) (w : Witness) : Result Trace := do
  check h p w
  let inputs := w.publicInputs p
  return ⟨w.branch, inputs, digest p inputs⟩

def verify (p : Program) (proof : Proof) (inputs : List Field) : Bool :=
  proof.octets == digest p inputs

def prover (h : Hasher) : Prover Id where
  execute := execute h
  prove := fun _ trace => .ok ⟨trace.payload⟩
  verify := fun p proof inputs => .ok (verify p proof inputs)

end AttestedQuery.Checker
