import AttestedQuery.FileTree
import AttestedQuery.Text.Utf8

/-!
# Machines

What the toolchain and the command line ask of the machine they run on: files, directories and
programs. A file tree is such a machine; how its programs behave is a parameter.
-/

set_option autoImplicit false

namespace AttestedQuery

structure Outcome where
  status : Nat
  output : Octets
  errors : Octets
  deriving DecidableEq

def Outcome.succeeds (o : Outcome) : Bool := o.status == 0

structure Machine (m : Type → Type) where
  read : String → m (Except FileFault Octets)
  /-- Writes a file, new or in the place of an old one. -/
  write : String → Octets → m (Except FileFault Unit)
  /-- Makes a directory and those that lead to it. -/
  makeDirectories : String → m (Except FileFault Unit)
  /-- Removes a file, or a directory with all below it; what cannot be removed stays. -/
  remove : String → m Unit
  isFile : String → m Bool
  /-- Runs a program with arguments and waits for its end; a fault says that it did not start. -/
  run : String → List String → m (Except FileFault Outcome)

namespace Machine

variable {m : Type → Type} [Monad m]

def granted {α : Type} (request : m (Except FileFault α)) : ExceptT Error m α := do
  match ← ExceptT.lift request with
  | .ok a => return a
  | .error fault => throw (.file fault)

def readText (machine : Machine m) (path : String) : m (Except FileFault String) := do
  match ← machine.read path with
  | .error fault => return .error fault
  | .ok octets =>
    match Utf8.text? octets with
    | some text => return .ok text
    | none => return .error .notUtf8

def writeText (machine : Machine m) (path text : String) : m (Except FileFault Unit) :=
  machine.write path (Octets.ofString text)

end Machine

namespace FileTree

abbrev Programs := String → List String → FileTree → Except FileFault Outcome × FileTree

def noPrograms : Programs := fun _ _ t => (.error .notFound, t)

def attempt (change : FileTree → Except FileFault FileTree) :
    StateM FileTree (Except FileFault Unit) := fun t =>
  match change t with
  | .ok changed => (.ok (), changed)
  | .error fault => (.error fault, t)

def machine (programs : Programs) : Machine (StateM FileTree) where
  read path := return (← get).read path
  write path content := attempt fun t => t.write path content
  makeDirectories path := attempt fun t => t.makeDirectories path
  remove path := do let _ ← attempt fun t => t.remove path
  isFile path := return (← get).isFile path
  run program arguments := programs program arguments

end FileTree

end AttestedQuery
