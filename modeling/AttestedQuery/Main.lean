import AttestedQuery.CommandLine

/-!
# The program

The command line on the real machine. It starts no programs: a request for one is answered as if
the program were not there.
-/

set_option autoImplicit false

namespace AttestedQuery

def faultOf : IO.Error → FileFault
  | .noFileOrDirectory .. => .notFound
  | .permissionDenied .. => .denied
  | .inappropriateType .. => .notDirectory
  | .alreadyExists .. => .exists
  | _ => .badFormat

def attempted {α : Type} (request : IO α) : IO (Except FileFault α) := do
  match ← request.toBaseIO with
  | .ok a => return .ok a
  | .error e => return .error (faultOf e)

def removeAll (path : String) : IO Unit := do
  if ← (← IO.FS.realPath path).isDir then IO.FS.removeDirAll path else IO.FS.removeFile path

def isPlainFile (path : String) : IO Bool := do
  return (← (← IO.FS.realPath path).metadata).type matches .file

def systemMachine : Machine IO where
  read path := attempted do return (← IO.FS.readBinFile path).toList
  write path content := attempted (IO.FS.writeBinFile path ⟨content.toArray⟩)
  makeDirectories path := attempted (IO.FS.createDirAll path)
  remove path := do let _ ← attempted (removeAll path)
  isFile path := do return (← attempted (isPlainFile path)).toOption.getD false
  run _ _ := return .error .notFound

end AttestedQuery

def main (arguments : List String) : IO UInt32 := do
  let answer ← AttestedQuery.CommandLine.run AttestedQuery.systemMachine 1 arguments
  IO.print answer.output
  unless answer.errors.isEmpty do IO.eprintln answer.errors
  return UInt32.ofNat answer.code
