import AttestedQuery.Constraint.Assertion

/-!
# Conditions

A condition has three outcomes: true, false, and no value at all, because evaluation meets a type
error. It is a pair of assertions: that it has a value, and what the value is when it has one. The
connectives follow the three-valued tables, in which a false part of a conjunction and a true part
of a disjunction outweigh an error.
-/

set_option autoImplicit false

namespace AttestedQuery

structure Condition where
  /-- Holds where the condition has a value. -/
  defined : Assertion
  /-- The value, where there is one. -/
  value : Assertion

namespace Condition

def ofBool (b : Bool) : Condition := ⟨.true, .ofBool b⟩

def error : Condition := ⟨.false, .false⟩

def holds (c : Condition) : Assertion := .all [c.defined, c.value]

def negated (c : Condition) : Condition := ⟨c.defined, c.value.negated⟩

def both (a b : Condition) : Condition where
  defined := .any [
    .all [a.defined, b.defined],
    .all [a.defined, a.value.negated],
    .all [b.defined, b.value.negated]]
  value := .all [a.value, b.value]

def either (a b : Condition) : Condition :=
  let value := Assertion.any [.all [a.defined, a.value], .all [b.defined, b.value]]
  ⟨.any [value, .all [a.defined, b.defined]], value⟩

/-- The second condition where the first is true, the third where it is false. -/
def choose (c a b : Condition) : Condition where
  defined := .all [
    c.defined,
    .any [c.value.negated, a.defined],
    .any [c.value, b.defined]]
  value := .any [.all [c.value, a.value], .all [c.value.negated, b.value]]

end Condition

end AttestedQuery
