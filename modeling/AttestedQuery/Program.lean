import AttestedQuery.Config
import AttestedQuery.Hint

/-!
# Constraint programs

A compiled query: for each way in which its alternatives combine, the patterns whose quads fill
the slots of a witness and the assertions that the witness must satisfy.
-/

set_option autoImplicit false

namespace AttestedQuery

/-- Binds a key after the patterns are matched. -/
structure Extension where
  name : String
  source : Operand
  deriving DecidableEq

/-- A filter as it applies to one branch. Filters of two branches with one number were written once
above both. -/
structure NumberedFilter where
  number : Nat
  assertion : Assertion

structure Branch where
  /-- One pattern for each slot. -/
  patterns : List Pattern
  /-- Applied after the patterns, in order. -/
  extensions : List Extension
  /-- The public value of each projected variable is its source, or zero where it has none. -/
  bindings : List Assertion
  /-- Constants and repeated keys. -/
  equalities : List Assertion
  filters : List NumberedFilter
  /-- The hints that the filters read, in increasing order. -/
  hints : List Nat
  /-- The branches whose rows suppress the rows of this one that they extend. -/
  exclusiveOf : List Nat
  /-- Every key that the branch binds. -/
  bound : KeySet

namespace Branch

def slotCount (b : Branch) : Nat := b.patterns.length

def filterAssertion (b : Branch) : Assertion :=
  .all (b.filters.map (·.assertion))

def assertion (b : Branch) : Assertion :=
  .all (b.bindings ++ b.equalities ++ [b.filterAssertion])

end Branch

structure Program where
  form : QueryForm
  branches : List Branch
  hints : List Hint
  projected : List String
  modifiers : Modifiers
  hashSuite : HashSuite
  skipSigning : Bool
  /-- The fingerprint of the configuration. -/
  fingerprint : String

def Program.takesHints (p : Program) : Bool := !p.hints.isEmpty

/-- How many slots a witness has: enough for every branch, and at least one. -/
def Program.width (p : Program) : Nat :=
  p.branches.foldl (fun width branch => max width branch.slotCount) 1

end AttestedQuery
