import AttestedQuery.Field
import AttestedQuery.Algebra

/-!
# Assertions over a witness

The language of constraints: wires are field-valued expressions over the values of a witness, and
assertions are propositions over wires. The combinators drop trivial parts, so that a tree built
with them has no constants below its root, no list of fewer than two parts and no double negation.
-/

set_option autoImplicit false

namespace AttestedQuery

/-- A field-valued expression over a witness. -/
inductive Wire where
  /-- A term of the quad in a slot. -/
  | slot (slot position : Nat)
  /-- The public value of a projected variable. -/
  | variable (name : String)
  /-- A value supplied by the prover. -/
  | hint (index : Nat)
  | const (value : Field)
  | hash2 (a b : Wire)
  | hash4 (a b c d : Wire)
  deriving DecidableEq, Inhabited

namespace Wire

def ofNat (n : Nat) : Wire := .const (Field.ofNat n)

def hints : Wire → List Nat
  | .hint index => [index]
  | .hash2 a b => a.hints ++ b.hints
  | .hash4 a b c d => a.hints ++ b.hints ++ c.hints ++ d.hints
  | .slot .. | .variable _ | .const _ => []

end Wire

inductive Assertion where
  | true
  | false
  | eq (a b : Wire)
  /-- Order of two wires as signed 64-bit numbers. -/
  | compare (op : CompareOp) (left right : Wire)
  | not (a : Assertion)
  | and (parts : List Assertion)
  | or (parts : List Assertion)
  deriving Inhabited

namespace Assertion

def ofBool (b : Bool) : Assertion :=
  if b then .true else .false

/-- The parts of a conjunction with nested ones opened and truths dropped; none when a part is
false. -/
def conjuncts? : List Assertion → Option (List Assertion)
  | [] => some []
  | .true :: rest => conjuncts? rest
  | .false :: _ => none
  | .and inner :: rest => (conjuncts? rest).map (inner ++ ·)
  | part :: rest => (conjuncts? rest).map (part :: ·)

/-- The parts of a disjunction with nested ones opened and falsehoods dropped; none when a part is
true. -/
def disjuncts? : List Assertion → Option (List Assertion)
  | [] => some []
  | .false :: rest => disjuncts? rest
  | .true :: _ => none
  | .or inner :: rest => (disjuncts? rest).map (inner ++ ·)
  | part :: rest => (disjuncts? rest).map (part :: ·)

def all (parts : List Assertion) : Assertion :=
  match conjuncts? parts with
  | none => .false
  | some [] => .true
  | some [single] => single
  | some several => .and several

def any (parts : List Assertion) : Assertion :=
  match disjuncts? parts with
  | none => .true
  | some [] => .false
  | some [single] => single
  | some several => .or several

def negated : Assertion → Assertion
  | .true => .false
  | .false => .true
  | .not a => a
  | a => .not a

mutual

def hints : Assertion → List Nat
  | .true | .false => []
  | .eq a b => a.hints ++ b.hints
  | .compare _ left right => left.hints ++ right.hints
  | .not a => a.hints
  | .and parts => hintsOfAll parts
  | .or parts => hintsOfAll parts

def hintsOfAll : List Assertion → List Nat
  | [] => []
  | part :: rest => part.hints ++ hintsOfAll rest

end

end Assertion

/-- A list of numbers with one number put in order, once. -/
def insertSorted (n : Nat) : List Nat → List Nat
  | [] => [n]
  | m :: rest =>
    if n < m then n :: m :: rest
    else if n = m then m :: rest
    else m :: insertSorted n rest

def sortedUnique (numbers : List Nat) : List Nat :=
  numbers.foldl (fun sorted n => insertSorted n sorted) []

end AttestedQuery
