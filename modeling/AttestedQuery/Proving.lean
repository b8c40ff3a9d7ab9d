import AttestedQuery.Batch
import AttestedQuery.Resolution

/-!
# Proving the answers of a query

Resolving a program and proving every row, and checking such a batch. Both refuse a program that
was compiled under another configuration.
-/

set_option autoImplicit false

namespace AttestedQuery.Program

def checkConfig (p : Program) (config : Config) : Result Unit :=
  if p.fingerprint = config.fingerprint then .ok () else .error (.config .otherProgram)

def witnesses (p : Program) (d : Dataset) (config : Config) : Result (List Witness) := do
  p.checkConfig config
  let resolver ← Resolver.ofDataset d config
  return (← resolver.resolve p).witnesses

def proveAll {m : Type → Type} [Monad m] (p : Program) (d : Dataset) (prover : Prover m)
    (config : Config) (mode : ProofMode) : m (Result Batch) :=
  match p.witnesses d config with
  | .ok witnesses => do return .ok (← Batch.run prover p witnesses mode)
  | .error e => return .error e

def verifyBatch {m : Type → Type} [Monad m] (p : Program) (b : Batch) (prover : Prover m)
    (config : Config) : m (Result Verification) :=
  match p.checkConfig config with
  | .ok () => do return .ok (← b.verify prover p)
  | .error e => return .error e

end AttestedQuery.Program
