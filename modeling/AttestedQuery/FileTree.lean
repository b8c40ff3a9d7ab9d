import AttestedQuery.Error
import AttestedQuery.KeyMap
import AttestedQuery.Text.Pieces

/-!
# File trees

Directories and files in memory, under the paths that a program would use for them. A path leads
from the working directory, or from the root when it starts with a slash; `.` stays and `..` goes
up.
-/

set_option autoImplicit false

namespace AttestedQuery

namespace Path

def join (base name : String) : String :=
  if base.isEmpty then name
  else if base.toList.getLast? = some '/' then base ++ name
  else base ++ "/" ++ name

/-- The names on the way of a path. A slash at the end asks for a directory, as `.` does, and one
at the start is a name of its own. -/
def names (path : String) : List String :=
  let pieces := (Text.piecesAt '/' path.toList).map String.ofList
  let root := if path.toList.head? = some '/' then ["/"] else []
  let last := if pieces.getLast? = some "" ∧ 1 < pieces.length then ["."] else []
  root ++ pieces.filter (· ≠ "") ++ last

/-- The path up to its last slash; nothing where there is none. -/
def parent (path : String) : String :=
  String.ofList (Text.joinWith '/' (Text.piecesAt '/' path.toList).dropLast)

end Path

inductive FileNode where
  | directory
  | file (content : Octets)
  /-- A file that keeps nothing of what is written to it. -/
  | sink
  deriving DecidableEq

/-- Directories and files by their places; a place is the names that lead to it, each after a
slash. -/
structure FileTree where
  nodes : KeyMap FileNode

namespace FileTree

/-- A way from the working directory, the last name first. -/
abbrev Way := List String

def place (way : Way) : String :=
  way.foldr (fun name shown => shown ++ "/" ++ name) ""

/-- The empty working directory; the root holds only the device that keeps nothing. -/
def empty : FileTree :=
  ⟨KeyMap.ofList [(place ["/"], .directory), (place ["dev", "/"], .directory),
    (place ["null", "dev", "/"], .sink)]⟩

def node? (t : FileTree) : Way → Option FileNode
  | [] => some .directory
  | way => t.nodes.get? (place way)

def put (t : FileTree) (way : Way) (node : FileNode) : FileTree :=
  ⟨t.nodes.insert (place way) node⟩

/-- The way of one step up; the working directory and the root have none. -/
def parent : Way → Way
  | ["/"] => ["/"]
  | way => way.tail

/-- The end of a way through names, all of which must exist. -/
def walk (t : FileTree) : Way → List String → Except FileFault Way
  | way, [] => .ok way
  | way, name :: rest =>
    match t.node? way with
    | none => .error .notFound
    | some .directory =>
      if name = "." then t.walk way rest
      else if name = ".." then t.walk (parent way) rest
      else if (t.node? (name :: way)).isSome then t.walk (name :: way) rest
      else .error .notFound
    | some _ => .error .notDirectory

def find (t : FileTree) (path : String) : Except FileFault Way :=
  match Path.names path with
  | [] => .error .notFound
  | names => t.walk [] names

def findNew (t : FileTree) (path : String) : Except FileFault Way := do
  match (Path.names path).getLast? with
  | none => .error .notFound
  | some last =>
    let base ← t.walk [] (Path.names path).dropLast
    if last = "." ∨ last = ".." ∨ last = "/" then t.walk base [last]
    else
      match t.node? base with
      | some .directory => return last :: base
      | _ => .error .notDirectory

def read (t : FileTree) (path : String) : Except FileFault Octets := do
  match t.node? (← t.find path) with
  | some (.file content) => return content
  | some .sink => return []
  | some .directory => .error .isDirectory
  | none => .error .notFound

def write (t : FileTree) (path : String) (content : Octets) : Except FileFault FileTree := do
  let way ← t.findNew path
  match t.node? way with
  | some .directory => .error .isDirectory
  | some .sink => return t
  | _ => return t.put way (.file content)

def makeFrom (t : FileTree) : Way → List String → Except FileFault FileTree
  | _, [] => .ok t
  | way, name :: rest =>
    if name = "." then t.makeFrom way rest
    else if name = ".." then t.makeFrom (parent way) rest
    else
      match t.node? (name :: way) with
      | some .directory => t.makeFrom (name :: way) rest
      | none => (t.put (name :: way) .directory).makeFrom (name :: way) rest
      | some _ => .error (if rest = [] then .exists else .notDirectory)

def makeDirectories (t : FileTree) (path : String) : Except FileFault FileTree :=
  t.makeFrom [] (Path.names path)

def install (t : FileTree) (path : String) (content : Octets) : Except FileFault FileTree := do
  (← t.makeDirectories (Path.parent path)).write path content

def without (t : FileTree) (way : Way) : FileTree :=
  let here := place way
  let below := (here ++ "/").toList
  ⟨t.nodes.restrict fun key => key ≠ here && (Text.afterPart below key.toList).isNone⟩

def remove (t : FileTree) (path : String) : Except FileFault FileTree := do
  return t.without (← t.find path)

def isFile (t : FileTree) (path : String) : Bool :=
  match t.find path with
  | .ok way => match t.node? way with
    | some (.file _) => true
    | _ => false
  | .error _ => false

def isDirectory (t : FileTree) (path : String) : Bool :=
  match t.find path with
  | .ok way => t.node? way = some .directory
  | .error _ => false

def namesIn (t : FileTree) (way : Way) : List String :=
  let below := (place way ++ "/").toList
  t.nodes.keys.filterMap fun key =>
    match Text.afterPart below key.toList with
    | some name => if name.contains '/' then none else some (String.ofList name)
    | none => none

def list (t : FileTree) (path : String) : List String :=
  if t.isDirectory path then
    match t.find path with
    | .ok way => t.namesIn way
    | .error _ => []
  else []

end FileTree

end AttestedQuery
