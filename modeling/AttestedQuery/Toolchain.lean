import AttestedQuery.Machine
import AttestedQuery.Proof
import AttestedQuery.Witness.ProverInput

/-!
# The proving toolchain

A prover that hands its work to two programs: a solver of circuits and a maker of proofs. They
run beside a circuit directory, in which every call leaves files under a number of its own, to be
removed at its end. The key that checks proofs is made once.
-/

set_option autoImplicit false

namespace AttestedQuery

structure Toolchain where
  /-- The directory of the circuit. -/
  circuit : String
  /-- The program that solves a circuit. -/
  solver : String
  /-- The program that makes and checks proofs. -/
  maker : String

namespace Toolchain

structure State where
  /-- The number of calls so far. -/
  calls : Nat
  /-- The file of the key that checks proofs, once it is made. -/
  key : Option String

def State.start : State := ⟨0, none⟩

/-- A piece of work that may fail. What it has done by then stays done. -/
abbrev Work (m : Type → Type) := ExceptT Error (StateT State m)

variable {m : Type → Type} [Monad m]

def ask {α : Type} (request : m α) : Work m α :=
  ExceptT.lift (StateT.lift request)

def askFile {α : Type} (request : m (Except FileFault α)) : Work m α :=
  Machine.granted (StateT.lift request)

def nextCall : Work m Nat := do
  let s ← get
  set { s with calls := s.calls + 1 }
  return s.calls

/-- A piece of work whose scratch file is removed at its end, however it ends. -/
def removing {α : Type} (machine : Machine m) (path : String) (work : Work m α) : Work m α := do
  let result ← ExceptT.lift work.run
  ask (machine.remove path)
  match result with
  | .ok a => return a
  | .error e => throw e

def run (machine : Machine m) (program : String) (arguments : List String) : Work m Outcome := do
  match ← ask (machine.run program arguments) with
  | .ok outcome => return outcome
  | .error fault => throw (.tool (.notStarted program fault))

def runSuccessfully (machine : Machine m) (program : String) (arguments : List String) :
    Work m Unit := do
  let outcome ← run machine program arguments
  if outcome.succeeds then return ()
  else throw (.tool (.failed program (Utf8.lenient outcome.errors)))

/-- Why the solver failed: an assertion of the circuit does not hold, or something else is
wrong. -/
def solvingError (errors : String) : Error :=
  if Text.occursIn "Failed assertion".toList errors.toList then
    .unmet (.reported (String.ofList (Text.trim errors.toList)))
  else .tool (.solvingFailed errors)

def target (t : Toolchain) : String := Path.join t.circuit "target"

def bytecode (t : Toolchain) : String := Path.join t.target "sparql_proof.json"

/-- Writes the input file of a witness and has the solver work on it. The solution is a file of the
target directory. -/
def execute (t : Toolchain) (machine : Machine m) (p : Program) (w : Witness) :
    Work m Trace := do
  let call := shownNat (← nextCall)
  let input := Path.join t.circuit ("Prover_" ++ call ++ ".toml")
  let content ← MonadExcept.ofExcept (w.proverInput p)
  askFile (machine.writeText input content.text)
  let outcome ← removing machine input
    (run machine t.solver
      ["execute", "--program-dir", t.circuit, "-p", "Prover_" ++ call, "w" ++ call])
  if !outcome.succeeds then throw (solvingError (Utf8.lenient outcome.errors))
  let solution := Path.join t.target ("w" ++ call ++ ".gz")
  let payload ← askFile (machine.read solution)
  ask (machine.remove solution)
  return ⟨w.branch, w.publicInputs p, payload⟩

def prove (t : Toolchain) (machine : Machine m) (trace : Trace) : Work m Proof := do
  let call := shownNat (← nextCall)
  let work := Path.join t.target ("prove_" ++ call)
  askFile (machine.makeDirectories work)
  let solution := Path.join work "witness.gz"
  askFile (machine.write solution trace.payload)
  let octets ← removing machine work do
    runSuccessfully machine t.maker ["prove", "-b", t.bytecode, "-w", solution, "-o", work]
    askFile (machine.read (Path.join work "proof"))
  return ⟨octets⟩

/-- The file of the key that checks proofs. It is made by the first call that succeeds. -/
def checkingKey (t : Toolchain) (machine : Machine m) : Work m String := do
  match (← get).key with
  | some key => return key
  | none =>
    let directory := Path.join t.target "vk"
    askFile (machine.makeDirectories directory)
    runSuccessfully machine t.maker ["write_vk", "-b", t.bytecode, "-o", directory]
    let key := Path.join directory "vk"
    modify fun s => { s with key := some key }
    return key

/-- Has a proof checked against public values. A checker that fails refuses the proof. -/
def verify (t : Toolchain) (machine : Machine m) (proof : Proof) (inputs : List Field) :
    Work m Bool := do
  let key ← t.checkingKey machine
  let call := shownNat (← nextCall)
  let work := Path.join t.target ("verify_" ++ call)
  askFile (machine.makeDirectories work)
  let proofFile := Path.join work "proof"
  let inputsFile := Path.join work "public_inputs"
  askFile (machine.write proofFile proof.octets)
  askFile (machine.write inputsFile (inputs.flatMap Field.toBigEndian))
  let outcome ← removing machine work
    (run machine t.maker ["verify", "-k", key, "-p", proofFile, "-i", inputsFile])
  return outcome.succeeds

def prover (t : Toolchain) (machine : Machine m) : Prover (StateT State m) where
  execute p w := (t.execute machine p w).run
  prove _ trace := (t.prove machine trace).run
  verify _ proof inputs := (t.verify machine proof inputs).run

end Toolchain

end AttestedQuery
