import AttestedQuery.Error
import AttestedQuery.Literal.Special
import AttestedQuery.Number.Binary64

/-!
# Comparing constants

Equality, order and truth of constant terms, decided while a query is compiled. Literals compare
as values within one space of values and as terms across spaces. Floating-point numbers follow
their own rules: no number equals or precedes one that is none, and infinities bound all others.
-/

set_option autoImplicit false

namespace AttestedQuery

/-- The spaces of values in which literals compare. -/
inductive ValueSpace where
  | numeric
  | string
  | boolean
  | dateTime
  deriving DecidableEq

namespace ValueSpace

def stringTypes : List String :=
  ["string", "normalizedString", "token", "language", "Name", "NCName", "NMTOKEN"]

def ofDatatype? (datatype : String) : Option ValueSpace :=
  if isXsdType numericTypes datatype then some .numeric
  else if isXsdType stringTypes datatype then some .string
  else if isXsdType ["boolean"] datatype then some .boolean
  else if isXsdType ["dateTime", "date", "time"] datatype then some .dateTime
  else none

/-- The datatypes whose literals a variable is required to have, for comparison in a space. -/
def comparedTypes : ValueSpace → List String
  | .numeric => integerTypes
  | .string => ["string"]
  | .boolean => ["boolean"]
  | .dateTime => ["dateTime"]

end ValueSpace

namespace Constant

/-- A literal without a language tag, as its lexical form and datatype. -/
def plain? : Term → Option (String × String)
  | .literal value none datatype => some (value, datatype)
  | _ => none

/-! ## Floating-point constants -/

/-- The kinds of floating-point constants that have rules of their own. -/
inductive Floating where
  | notANumber
  | unbounded (negative : Bool)
  | zero
  | number (value : Binary64)

/-- The kind of a lexical form. A form that names no value counts as no number. -/
def Floating.ofText (text : String) : Floating :=
  let text := Text.trim text.toList
  let word := String.ofList text
  if word = "NaN" then .notANumber
  else if word = "INF" ∨ word = "+INF" then .unbounded false
  else if word = "-INF" then .unbounded true
  else match Binary64.read? text with
    | none => .notANumber
    | some value => if value.isZero then .zero else .number value

def Floating.less : Floating → Floating → Bool
  | .notANumber, _ | _, .notANumber => false
  | .unbounded true, .unbounded true => false
  | .unbounded true, _ => true
  | _, .unbounded true => false
  | .unbounded false, _ => false
  | _, .unbounded false => true
  | .zero, .zero => false
  | .number x, .number y => x.order? y == some .lt
  | .zero, .number y => (Binary64.finite false 0).order? y == some .lt
  | .number x, .zero => x.order? (.finite false 0) == some .lt

def Floating.equal : Floating → Floating → Bool
  | .unbounded a, .unbounded b => a == b
  | .zero, .zero => true
  | .number x, .number y => x.order? y == some .eq
  | _, _ => false

def Floating.compares (op : CompareOp) (x y : Floating) : Bool :=
  match op with
  | .lt => x.less y
  | .le => x.less y || x.equal y
  | .gt => y.less x
  | .ge => y.less x || x.equal y

def isFloating (datatype : String) : Bool := isXsdType ["float", "double"] datatype

/-! ## Numbers -/

def integer? : Term → Option Int
  | .literal value _ datatype =>
    match Special.ofLiteral value datatype with
    | .integer n => some n
    | _ => none
  | _ => none

def binary64? (value : String) : Option Binary64 := Binary64.read? (Text.trim value.toList)

def numericOrder? (value datatype value' datatype' : String) : Option Ordering :=
  match Special.ofLiteral value datatype, Special.ofLiteral value' datatype' with
  | .integer n, .integer n' => some (compare n n')
  | _, _ => do (← binary64? value).order? (← binary64? value')

/-! ## Equality, order and truth -/

def equal (x y : Term) : Bool :=
  match plain? x, plain? y with
  | some (value, datatype), some (value', datatype') =>
    match ValueSpace.ofDatatype? datatype, ValueSpace.ofDatatype? datatype' with
    | some .numeric, some .numeric =>
      if isFloating datatype || isFloating datatype' then
        (Floating.ofText value).equal (Floating.ofText value')
      else numericOrder? value datatype value' datatype' == some .eq
    | some .boolean, some .boolean => sameSpecial value datatype value' datatype'
    | some .dateTime, some .dateTime => sameSpecial value datatype value' datatype'
    | _, _ => x == y
  | _, _ => x == y
where
  /-- Literals without a special value are equal only as terms. -/
  sameSpecial (value datatype value' datatype' : String) : Bool :=
    match Special.ofLiteral value datatype, Special.ofLiteral value' datatype' with
    | .raw, _ | _, .raw => x == y
    | special, special' => special == special'

/-- The number by which booleans and points in time compare. -/
def rank? (value datatype : String) : Option Int :=
  match Special.ofLiteral value datatype with
  | .boolean b => some (if b then 1 else 0)
  | .millis n => some n
  | _ => none

def compare? (op : CompareOp) (x y : Term) : Option Bool := do
  let (value, datatype) ← plain? x
  let (value', datatype') ← plain? y
  match ValueSpace.ofDatatype? datatype, ValueSpace.ofDatatype? datatype' with
  | some .numeric, some .numeric =>
    if isFloating datatype || isFloating datatype' then
      return Floating.compares op (Floating.ofText value) (Floating.ofText value')
    else return op.accepts (← numericOrder? value datatype value' datatype')
  | some .string, some .string => return op.accepts (compare value value')
  | some .boolean, some .boolean | some .dateTime, some .dateTime =>
    return op.accepts (compare (← rank? value datatype) (← rank? value' datatype'))
  | _, _ => none

def truth? : Term → Option Bool
  | .literal value (some _) _ => some (value != "")
  | .literal value none datatype =>
    match ValueSpace.ofDatatype? datatype with
    | some .boolean => some (Special.ofLiteral value datatype == .boolean true)
    | some .numeric =>
      match Special.ofLiteral value datatype with
      | .integer n => some (n != 0)
      | _ => match binary64? value with
        | some x => some (x != .nan && !x.isZero)
        | none => some false
    | some .string => some (value != "")
    | some .dateTime | none => none
  | _ => none

/-- The number by which a constant compares with a variable in a space. A number that is not an
integer has none, and is refused. -/
def ordinal? (space : ValueSpace) (t : Term) : Result (Option Field) :=
  match plain? t with
  | none => .ok none
  | some (value, datatype) =>
    if ValueSpace.ofDatatype? datatype = some space then
      match Special.ofLiteral value datatype with
      | .integer n | .millis n => .ok (some (Field.ofInt n))
      | .boolean b => .ok (some (Field.ofBool b))
      | .raw =>
        if space = .numeric then .error (.unsupported (.orderAgainst value)) else .ok none
    else .ok none

end Constant

end AttestedQuery
