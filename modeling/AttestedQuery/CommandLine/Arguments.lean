import AttestedQuery.Batch
import AttestedQuery.KeyMap
import AttestedQuery.Text.Pieces

/-!
# Command-line arguments

The options of every command, and what the arguments ask for. Options may stand in any order after
their command; the configuration may stand before it as well. An option takes the next argument
for its value, or what follows its name at once or after an equals sign.
-/

set_option autoImplicit false

namespace AttestedQuery.CommandLine

inductive ValueKind where
  | text
  /-- A path, which is not empty. -/
  | path
  | oneOf (names : List String)
  deriving DecidableEq

def ValueKind.admits : ValueKind → String → Bool
  | .text, _ => true
  | .path, value => !value.isEmpty
  | .oneOf names, value => names.contains value

structure Switch where
  name : String
  /-- The letter that stands for the name. -/
  letter : Option Char
  kind : ValueKind
  isRequired : Bool
  deriving DecidableEq

/-- What a command line may name. -/
inductive Command where
  | sign
  | compile
  | witness
  | prove
  | verify
  deriving DecidableEq

namespace Command

def all : List Command := [.sign, .compile, .witness, .prove, .verify]

def name : Command → String
  | .sign => "sign"
  | .compile => "compile"
  | .witness => "witness"
  | .prove => "prove"
  | .verify => "verify"

def ofName? (name : String) : Option Command := all.find? fun c => c.name == name

end Command

namespace Switch

def config : Switch := ⟨"config", none, .path, false⟩

def data : Switch := ⟨"data", some 'd', .path, true⟩

def key : Switch := ⟨"key", none, .text, false⟩

def seed : Switch := ⟨"seed", none, .text, false⟩

def out : Switch := ⟨"out", some 'o', .path, false⟩

def query : Switch := ⟨"query", some 'q', .text, true⟩

def dataset : Switch := ⟨"dataset", some 'd', .path, true⟩

def batch : Switch := ⟨"batch", some 'b', .path, true⟩

def mode : Switch := ⟨"mode", none, .oneOf ["witness-only", "prove", "prove-and-verify"], false⟩

def backend : Switch := ⟨"backend", none, .oneOf ["checking", "nargo"], false⟩

def circuit : Switch := ⟨"circuit", none, .path, false⟩

def ofCommand : Command → List Switch
  | .sign => [config, data, key, seed, out]
  | .compile => [config, query, out]
  | .witness => [config, query, dataset, out]
  | .prove => [config, query, dataset, mode, backend, circuit, out]
  | .verify => [config, query, batch, backend, circuit]

end Switch

/-- Why arguments ask for nothing to be done. -/
inductive Stop where
  | usage
  | help
  | version
  deriving DecidableEq

abbrev Values := KeyMap String

def Values.take (values : Values) (switch : Switch) (value : String) : Except Stop Values :=
  if values.contains switch.name ∨ !switch.kind.admits value then .error .usage
  else .ok (values.insert switch.name value)

inductive Argument where
  /-- The mark after which no options stand. -/
  | divider
  /-- The name of a switch, and a value after an equals sign. -/
  | long (name : String) (value : Option String)
  /-- The letter of a switch, and what follows it. -/
  | short (letter : Char) (rest : List Char)
  | word (text : String)

def Argument.ofText (text : String) : Argument :=
  match text.toList with
  | ['-', '-'] => .divider
  | '-' :: '-' :: rest =>
    match rest.span (· ≠ '=') with
    | (name, _ :: value) => .long (String.ofList name) (some (String.ofList value))
    | (name, []) => .long (String.ofList name) none
  | '-' :: letter :: rest => .short letter rest
  | _ => .word text

/-- What follows the letter of a switch as its value, if anything does. -/
def attached : List Char → Option String
  | [] => none
  | '=' :: value => some (String.ofList value)
  | value => some (String.ofList value)

/-- A level of the command line: the switches there, and whether it is the first, at which the
commands and the version are known. -/
structure Level where
  switches : List Switch
  isFirst : Bool

/-- A switch was named: its value follows at once, or is the next argument. -/
def named (values : Values) (switch : Switch) : Option String → Except Stop (Values × Option Switch)
  | some value => (values.take switch value).map fun values => (values, none)
  | none => .ok (values, some switch)

def Level.option (level : Level) (values : Values) :
    Argument → Except Stop (Values × Option Switch)
  | .long "help" none => .error .help
  | .long "version" none => .error (if level.isFirst then .version else .usage)
  | .long name value =>
    match level.switches.find? fun switch => switch.name == name with
    | some switch => named values switch value
    | none => .error .usage
  | .short 'h' _ => .error .help
  | .short letter rest =>
    if letter = 'V' ∧ level.isFirst then .error .version
    else
      match level.switches.find? fun switch => switch.letter == some letter with
      | some switch => named values switch (attached rest)
      | none => .error .usage
  | _ => .error .usage

/-- Reads the arguments of a level: the values, and the command with the arguments after it. A
switch may be waiting for its value. -/
def Level.read (level : Level) (values : Values) :
    Option Switch → List String → Except Stop (Values × Option (String × List String))
  | none, [] => .ok (values, none)
  | some _, [] => .error .usage
  | waiting, text :: rest =>
    match Argument.ofText text, waiting with
    | .word value, some switch =>
      match values.take switch value with
      | .ok values => level.read values none rest
      | .error stop => .error stop
    | .word name, none => if level.isFirst then .ok (values, some (name, rest)) else .error .usage
    | .divider, none => if rest.isEmpty then .ok (values, none) else .error .usage
    | .divider, some _ => .error .usage
    | argument, none =>
      match level.option values argument with
      | .ok (values, waiting) => level.read values waiting rest
      | .error stop => .error stop
    | _, some _ => .error .usage

inductive ProverChoice where
  | checker
  /-- The toolchain, on the circuit in a directory. -/
  | toolchain (circuit : String)
  deriving DecidableEq

inductive Request where
  | sign (data : String) (key seed : Option String) (out : String)
  | compile (query out : String)
  | witness (query dataset out : String)
  | prove (query dataset : String) (mode : ProofMode) (prover : ProverChoice) (out : String)
  | verify (query batch : String) (prover : ProverChoice)
  deriving DecidableEq

structure Invocation where
  /-- The file of the configuration, if one is named. -/
  config : Option String
  request : Request
  deriving DecidableEq

namespace Values

def getD (values : Values) (switch : Switch) (unset : String) : String :=
  (values.get? switch.name).getD unset

def mode (values : Values) : ProofMode :=
  match values.getD .mode "prove" with
  | "witness-only" => .witnessOnly
  | "prove-and-verify" => .proveAndVerify
  | _ => .prove

def prover (values : Values) : ProverChoice :=
  if values.getD .backend "checking" = "nargo" then
    .toolchain (values.getD .circuit "noir_prove")
  else .checker

def request (values : Values) : Command → Request
  | .sign => .sign (values.getD .data "") (values.get? "key") (values.get? "seed")
      (values.getD .out "dataset.json")
  | .compile => .compile (values.getD .query "") (values.getD .out "noir_prove")
  | .witness =>
      .witness (values.getD .query "") (values.getD .dataset "") (values.getD .out "noir_prove")
  | .prove => .prove (values.getD .query "") (values.getD .dataset "") values.mode values.prover
      (values.getD .out "batch.json")
  | .verify => .verify (values.getD .query "") (values.getD .batch "") values.prover

end Values

/-- Reads the arguments of a command. Every required value must be there, and a key and a seed
exclude one another. -/
def readCommand (outer : Values) (command : Command) (arguments : List String) :
    Except Stop Invocation := do
  let switches := Switch.ofCommand command
  let (values, _) ← Level.read ⟨switches, false⟩ KeyMap.empty none arguments
  if switches.any fun switch => switch.isRequired && !values.contains switch.name then
    throw .usage
  if values.contains "key" && values.contains "seed" then throw .usage
  return ⟨(values.get? "config").or (outer.get? "config"), values.request command⟩

/-- Reads arguments. The word `help` asks for help on a command. -/
def Invocation.read (arguments : List String) : Except Stop Invocation := do
  let (values, command) ← Level.read ⟨[.config], true⟩ KeyMap.empty none arguments
  match command with
  | none => throw .usage
  | some ("help", []) => throw .help
  | some ("help", [topic]) =>
    throw (if topic = "help" ∨ (Command.ofName? topic).isSome then .help else .usage)
  | some (name, rest) =>
    match Command.ofName? name with
    | some command => readCommand values command rest
    | none => throw .usage

end AttestedQuery.CommandLine
