import AttestedQuery.Batch.Json
import AttestedQuery.Checker
import AttestedQuery.Circuit
import AttestedQuery.CommandLine.Arguments
import AttestedQuery.Dataset.Json
import AttestedQuery.Program.Json
import AttestedQuery.Program.OfQuery
import AttestedQuery.Proving
import AttestedQuery.Rdf.Format
import AttestedQuery.Toolchain

/-!
# The command line

What each command does on a machine, what it prints and with which code it ends: zero for success,
one for a failure and two for arguments that ask for nothing. A failed command prints nothing,
except that `verify` prints what it found in either case.
-/

set_option autoImplicit false

namespace AttestedQuery.CommandLine

structure Answer where
  code : Nat
  output : String
  errors : String
  deriving DecidableEq

def Answer.success (output : String) : Answer := ⟨0, output, ""⟩

/-- Work on a machine that may fail. -/
abbrev Task (m : Type → Type) := ExceptT Error m

variable {m : Type → Type} [Monad m]

def text (machine : Machine m) (path : String) : Task m String :=
  Machine.granted (machine.readText path)

def save (machine : Machine m) (path content : String) : Task m Unit :=
  Machine.granted (machine.writeText path content)

def configOf (machine : Machine m) (processors : Nat) : Option String → Task m Config
  | some path => do MonadExcept.ofExcept (Config.ofToml processors (← text machine path))
  | none => return Config.default processors

def programOf (machine : Machine m) (config : Config) (query : String) : Task m Program := do
  let isFile ← ExceptT.lift (machine.isFile query)
  let query ← if isFile then text machine query else pure query
  MonadExcept.ofExcept (Program.compile config query)

def datasetOf (machine : Machine m) (path : String) : Task m Dataset := do
  MonadExcept.ofExcept (Dataset.ofText (← text machine path))

def signerOf : Option String → Option String → Option (Result Signer)
  | some key, _ => some (Signer.ofHex key)
  | none, some seed => some (Signer.ofSeed (Octets.ofString seed))
  | none, none => none

def sign (machine : Machine m) (config : Config) (data : String) (key seed : Option String)
    (out : String) : Task m Answer := do
  match signerOf key seed with
  | none => return ⟨1, "", "either --key or --seed is required"⟩
  | some signer =>
    let signer ← MonadExcept.ofExcept signer
    let content : Result String ← ExceptT.lift (text machine data).run
    let quads ← MonadExcept.ofExcept (Rdf.quadsOfFile data content)
    let dataset ← MonadExcept.ofExcept (Dataset.sign quads config signer)
    save machine out dataset.text
    return .success ("Signed " ++ shownNat dataset.quads.length ++ " quads, root "
      ++ dataset.root.toHex ++ ": " ++ out ++ "\n")

def compile (machine : Machine m) (config : Config) (query out : String) : Task m Answer := do
  let p ← programOf machine config query
  Machine.granted (machine.makeDirectories (Path.join out "src"))
  for (place, text) in (Circuit.ofProgram p).files do
    save machine (Path.join out place) text
  return .success ("Generated circuit in " ++ out ++ "\n")

def inputName (index : Nat) : String :=
  if index = 0 then "Prover.toml" else "Prover_" ++ shownNat index ++ ".toml"

def writeWitnesses (machine : Machine m) (config : Config) (query dataset out : String) :
    Task m Answer := do
  let p ← programOf machine config query
  let d ← datasetOf machine dataset
  let resolver ← MonadExcept.ofExcept (Resolver.ofDataset d config)
  let witnesses := (← MonadExcept.ofExcept (resolver.resolve p)).witnesses
  if witnesses.isEmpty then return .success "No binding satisfies the query\n"
  Machine.granted (machine.makeDirectories out)
  for (w, index) in witnesses.zipIdx do
    let input ← MonadExcept.ofExcept (w.proverInput p)
    save machine (Path.join out (inputName index)) input.text
  return .success ("Wrote " ++ shownNat witnesses.length ++ " witnesses to " ++ out ++ "\n")

def toolchain (circuit : String) : Toolchain := ⟨circuit, "nargo", "bb"⟩

def withProver {α : Type} (machine : Machine m) (config : Config) (choice : ProverChoice)
    (work : {n : Type → Type} → [Monad n] → Prover n → n (Result α)) : Task m α :=
  match choice with
  | .checker => MonadExcept.ofExcept (Id.run (work (Checker.prover config.hasher)))
  | .toolchain circuit => ExceptT.mk do
    let (result, _) ← (work ((toolchain circuit).prover machine)).run .start
    return result

def prove (machine : Machine m) (config : Config) (query dataset : String) (mode : ProofMode)
    (choice : ProverChoice) (out : String) : Task m Answer := do
  let p ← programOf machine config query
  let d ← datasetOf machine dataset
  let batch ← withProver machine config choice fun prover => p.proveAll d prover config mode
  save machine out batch.text
  return .success (shownNat batch.summary.succeeded ++ " of " ++ shownNat batch.summary.total
    ++ " bindings proved: " ++ out ++ "\n")

def verify (machine : Machine m) (config : Config) (query batch : String)
    (choice : ProverChoice) : Task m Answer := do
  let p ← programOf machine config query
  let b ← MonadExcept.ofExcept (Batch.ofText (← text machine batch))
  let v ← withProver machine config choice fun prover => p.verifyBatch b prover config
  let output := v.toJson.pretty ++ "\n"
  if v.succeeds then return .success output
  return ⟨1, output, shownNat v.failed ++ " of " ++ shownNat v.total ++ " proofs failed"⟩

def perform (machine : Machine m) (config : Config) : Request → Task m Answer
  | .sign data key seed out => sign machine config data key seed out
  | .compile query out => compile machine config query out
  | .witness query dataset out => writeWitnesses machine config query dataset out
  | .prove query dataset mode choice out => prove machine config query dataset mode choice out
  | .verify query batch choice => verify machine config query batch choice

/-- How a command line that asks for nothing ends. -/
def Stop.answer : Stop → Answer
  | .usage => ⟨2, "", "Usage: sparql-proof [--config FILE] COMMAND [OPTIONS]"⟩
  | .help => .success "Usage: sparql-proof [--config FILE] COMMAND [OPTIONS]\n"
  | .version => .success "sparql-proof 0.1.0\n"

/-- Runs a command line on a machine with some number of processors. The configuration is read
before anything else. -/
def run (machine : Machine m) (processors : Nat) (arguments : List String) : m Answer := do
  match Invocation.read arguments with
  | .error stop => return stop.answer
  | .ok invocation =>
    let task : Task m Answer := do
      let config ← configOf machine processors invocation.config
      perform machine config invocation.request
    match ← task.run with
    | .ok answer => return answer
    | .error e => return ⟨1, "", e.message⟩

end AttestedQuery.CommandLine
