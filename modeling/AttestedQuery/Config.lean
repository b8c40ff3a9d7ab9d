import AttestedQuery.Encoder
import AttestedQuery.Text.Hex
import AttestedQuery.Toml.Parser
import AttestedQuery.Toml.Printer

/-!
# Deployment configuration

One record given to every operation. The encoding section, the depth of the tree, the bound on
paths and whether signing is skipped decide what is signed and compiled; the fingerprint is a
digest of exactly these.
-/

set_option autoImplicit false

namespace AttestedQuery

structure Config where
  hashSuite : HashSuite
  maxLiteralBytes : Nat
  treeDepth : Nat
  /-- How many steps a repeated path may take. -/
  maxPathHops : Nat
  workers : Nat
  /-- Whether circuits leave out the signature and the openings. -/
  skipSigning : Bool
  deriving DecidableEq

namespace Config

/-- The configuration of a machine with some number of processors, when nothing is set. -/
def default (processors : Nat) : Config where
  hashSuite := .blake2s
  maxLiteralBytes := 1024
  treeDepth := 11
  maxPathHops := 3
  workers := processors
  skipSigning := false

def validate (c : Config) : Result Unit :=
  if c.treeDepth = 0 ∨ maxDepth < c.treeDepth then .error (.config (.configuredDepth c.treeDepth))
  else if c.maxPathHops = 0 then .error (.config .noHops)
  else if c.workers = 0 then .error (.config .noWorkers)
  else if c.maxLiteralBytes = 0 then .error (.config .noLiteralBytes)
  else .ok ()

def hasher (c : Config) : Hasher := c.hashSuite.hasher

def encoder (c : Config) : Encoder := ⟨c.hasher, c.maxLiteralBytes⟩

/-- The text whose digest is the fingerprint. -/
def material (c : Config) : String :=
  "suite=" ++ c.hashSuite.name ++ ";max_literal_bytes=" ++ shownNat c.maxLiteralBytes
    ++ ";tree_depth=" ++ shownNat c.treeDepth ++ ";max_path_hops=" ++ shownNat c.maxPathHops
    ++ ";skip_signing=" ++ (if c.skipSigning then "true" else "false")

/-- The digest of everything that affects compiled programs. -/
def fingerprint (c : Config) : String :=
  Hex.ofOctets (Digest.blake3 (Octets.ofString c.material))

/-! ## TOML form -/

def naturalOf : Toml → Option Nat
  | .whole (.ofNat n) => some n
  | _ => none

def boolOf : Toml → Option Bool
  | .bool b => some b
  | _ => none

def suiteOfName : String → Option HashSuite
  | "blake2s" => some .blake2s
  | "blake3" => some .blake3
  | _ => none

/-- A suite by its name, or as a table whose only key is the name and which holds nothing. -/
def suiteOf : Toml → Option HashSuite
  | .text name => suiteOfName name
  | .table [(name, .table [])] => suiteOfName name
  | .table [(name, .list [])] => suiteOfName name
  | _ => none

/-- The fields of a section by name; unknown names are refused. A list gives them in order. -/
def sectionFields (names : List String) : Toml → Option (List (Option Toml))
  | .table entries =>
    if entries.all fun entry => names.contains entry.1 then
      some (names.map fun name => Toml.find? name entries)
    else none
  | .list items => some (names.zipIdx.map fun (_, place) => items[place]?)
  | _ => none

def setting {α : Type} (read : Toml → Option α) (unset : α) : Option Toml → Option α
  | none => some unset
  | some value => read value

def withEncoding (c : Config) (value : Toml) : Option Config := do
  match ← sectionFields ["hash_suite", "max_literal_bytes"] value with
  | [suite, bytes] =>
    let suite ← setting suiteOf c.hashSuite suite
    let bytes ← setting naturalOf c.maxLiteralBytes bytes
    return { c with hashSuite := suite, maxLiteralBytes := bytes }
  | _ => none

def withRender (c : Config) (value : Toml) : Option Config := do
  match ← sectionFields ["skip_signing"] value with
  | [skip] => return { c with skipSigning := ← setting boolOf c.skipSigning skip }
  | _ => none

def withEntry (c : Config) (entry : String × Toml) : Option Config :=
  match entry.1 with
  | "encoding" => c.withEncoding entry.2
  | "render" => c.withRender entry.2
  | "tree_depth" => (naturalOf entry.2).map fun n => { c with treeDepth := n }
  | "max_path_hops" => (naturalOf entry.2).map fun n => { c with maxPathHops := n }
  | "workers" => (naturalOf entry.2).map fun n => { c with workers := n }
  | _ => none

def ofToml (processors : Nat) (text : String) : Result Config :=
  match Toml.parse text >>= fun entries => entries.foldlM withEntry (default processors) with
  | none => .error .badToml
  | some c => c.validate.map fun _ => c

def toToml (c : Config) : String :=
  Toml.Document.text {
    entries := [("tree_depth", .whole c.treeDepth), ("max_path_hops", .whole c.maxPathHops),
      ("workers", .whole c.workers)]
    sections := [
      ⟨"encoding", false, [("hash_suite", .text c.hashSuite.name),
        ("max_literal_bytes", .whole c.maxLiteralBytes)]⟩,
      ⟨"render", false, [("skip_signing", .bool c.skipSigning)]⟩] }

end Config

end AttestedQuery
