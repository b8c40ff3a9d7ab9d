import AttestedQuery.Constraint.Assertion
import AttestedQuery.Hasher

/-!
# The value of wires and assertions

Wires and assertions are evaluated over the values of a witness. A value that the witness does not
hold is an error. `holds` decides an assertion; `check` accepts exactly the assertions that hold
and names the first conjunct that does not.
-/

set_option autoImplicit false

namespace AttestedQuery

structure View where
  slots : List (QuadOf Field)
  values : KeyMap Field
  hints : List Field

namespace View

def slot? (v : View) (index position : Nat) : Option Field :=
  v.slots[index]? >>= fun quad => quad.get? position

def field (h : Hasher) (v : View) : Wire → Result Field
  | .slot index position =>
    match v.slot? index position with
    | some x => .ok x
    | none => .error (.unmet (.missingSlot index position))
  | .variable name =>
    match v.values.get? name with
    | some x => .ok x
    | none => .error (.unmet (.missingVariable name))
  | .hint index =>
    match v.hints[index]? with
    | some x => .ok x
    | none => .error (.unmet (.missingHint index))
  | .const value => .ok value
  | .hash2 a b => do
    let a ← field h v a
    let b ← field h v b
    return h.pair a b
  | .hash4 a b c d => do
    let a ← field h v a
    let b ← field h v b
    let c ← field h v c
    let d ← field h v d
    return h.quadruple a b c d

/-- The signed 64-bit number that an element stands for. -/
def asInt64 (x : Field) : Option Int :=
  x.toSigned.filter Decimal.fitsInt64

/-- Whether two elements compare as numbers; elements that stand for none never do. -/
def compares (op : CompareOp) (left right : Field) : Bool :=
  match asInt64 left, asInt64 right with
  | some l, some r => op.accepts (compare l r)
  | _, _ => false

mutual

/-- Whether an assertion holds. Lists are read from the left and only as far as needed. -/
def holds (h : Hasher) (v : View) : Assertion → Result Bool
  | .true => .ok true
  | .false => .ok false
  | .eq a b => do
    let a ← field h v a
    let b ← field h v b
    return a == b
  | .compare op left right => do
    let left ← field h v left
    let right ← field h v right
    return compares op left right
  | .not a => (holds h v a).map (!·)
  | .and parts => allHold h v parts
  | .or parts => anyHolds h v parts

def allHold (h : Hasher) (v : View) : List Assertion → Result Bool
  | [] => .ok true
  | part :: rest => do
    if ← holds h v part then allHold h v rest else return false

def anyHolds (h : Hasher) (v : View) : List Assertion → Result Bool
  | [] => .ok false
  | part :: rest => do
    if ← holds h v part then return true else anyHolds h v rest

end

mutual

/-- Accepts an assertion that holds. The parts of a conjunction are checked one by one. -/
def check (h : Hasher) (v : View) : Assertion → Result Unit
  | .and parts => checkAll h v parts
  | a => do
    if ← holds h v a then return () else .error (.unmet (.assertion a))

def checkAll (h : Hasher) (v : View) : List Assertion → Result Unit
  | [] => .ok ()
  | part :: rest => do
    check h v part
    checkAll h v rest

end

end View

end AttestedQuery
