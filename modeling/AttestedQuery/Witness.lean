import AttestedQuery.Commitment
import AttestedQuery.Constraint.Evaluation
import AttestedQuery.Program
import AttestedQuery.Signature

/-!
# Witnesses

The values under which the assertions of one branch hold: a committed quad for each slot, the
public values of the projected variables, the hints, and the signed root that ties the quads to
their dataset.
-/

set_option autoImplicit false

namespace AttestedQuery

structure Slot where
  quadIndex : Nat
  terms : QuadOf Field
  opening : Opening
  deriving DecidableEq

structure Witness where
  /-- The branch whose assertions this witness satisfies. -/
  branch : Nat
  /-- As many as the program is wide. Those past the patterns of the branch are padding. -/
  slots : List Slot
  /-- The encoding of every projected variable; zero stands for an unbound one. -/
  values : KeyMap Field
  /-- The terms of the projected variables that are bound. -/
  bindings : KeyMap Term
  /-- One value for each hint of the program. -/
  hints : List Field
  root : Field
  /-- The signature in hexadecimal. -/
  signature : String
  /-- The public key in hexadecimal. -/
  publicKey : String
  scheme : Scheme
  deriving DecidableEq

namespace Witness

def view (w : Witness) : View where
  slots := w.slots.map (·.terms)
  values := w.values
  hints := w.hints

def valueOf (w : Witness) (name : String) : Field :=
  (w.values.get? name).getD Field.zero

/-- The values that a verifier sees: the root, unless the program leaves out signatures, and then
the projected variables in their order. -/
def publicInputs (w : Witness) (p : Program) : List Field :=
  (if p.skipSigning then [] else [w.root]) ++ p.projected.map w.valueOf

end Witness

end AttestedQuery
