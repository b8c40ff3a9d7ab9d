import AttestedQuery.Program.OfQuery

/-!
# Compiled programs by their queries

Programs are kept under the text of the query and the fingerprint of the configuration, in the
order in which they were compiled. A query that does not compile leaves nothing.
-/

set_option autoImplicit false

namespace AttestedQuery

structure ProgramCache where
  entries : List ((String × String) × Program)

namespace ProgramCache

def empty : ProgramCache := ⟨[]⟩

def size (c : ProgramCache) : Nat := c.entries.length

def find? (c : ProgramCache) (text fingerprint : String) : Option Nat :=
  c.entries.findIdx? fun entry => entry.1 == (text, fingerprint)

/-- The program of a query with the number of its entry, compiled unless it is there already. -/
def getOrCompile (c : ProgramCache) (config : Config) (text : String) :
    Result (Nat × Program) × ProgramCache :=
  match (c.find? text config.fingerprint).bind fun i =>
      c.entries[i]?.map fun entry => (i, entry.2) with
  | some hit => (.ok hit, c)
  | none =>
    match Program.compile config text with
    | .ok program =>
      (.ok (c.size, program), ⟨c.entries ++ [((text, config.fingerprint), program)]⟩)
    | .error e => (.error e, c)

end ProgramCache

end AttestedQuery
