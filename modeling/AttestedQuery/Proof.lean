import AttestedQuery.Witness

/-!
# Proofs and what makes them

A prover solves a program for a witness, turns the solution into a proof, and checks proofs
against public values. What else a prover does, such as running programs, is left to its monad.
-/

set_option autoImplicit false

namespace AttestedQuery

structure Trace where
  branch : Nat
  publicInputs : List Field
  /-- The solution, in a form that only its prover reads. -/
  payload : Octets
  deriving DecidableEq

structure Proof where
  octets : Octets
  deriving DecidableEq

namespace Proof

def toHex (proof : Proof) : String := Hex.ofOctets proof.octets

/-- Reads a proof in hexadecimal; every leading `0x` is dropped. -/
def ofHex (text : String) : Result Proof :=
  match Hex.toOctets (Signer.withoutMarks text.toList) with
  | .ok octets => .ok ⟨octets⟩
  | .error fault => .error (.tool (.badProofHex fault))

end Proof

structure Prover (m : Type → Type) where
  /-- Solves the program; a witness that does not satisfy it is refused. -/
  execute : Program → Witness → m (Result Trace)
  prove : Program → Trace → m (Result Proof)
  /-- Whether a proof holds for these public values. -/
  verify : Program → Proof → List Field → m (Result Bool)

end AttestedQuery
