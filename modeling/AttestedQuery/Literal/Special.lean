import AttestedQuery.Hasher
import AttestedQuery.Literal.Instant

/-!
# The special value of a literal

Literals of some datatypes denote a number that constraints can compare: booleans, the integer
family within 64 bits, and points in time within 64-bit milliseconds. All others are raw and are
represented by the hash of their lexical form.
-/

set_option autoImplicit false

namespace AttestedQuery

def integerTypes : List String :=
  ["integer", "int", "long", "short", "byte", "nonNegativeInteger", "positiveInteger",
   "negativeInteger", "nonPositiveInteger", "unsignedInt", "unsignedLong", "unsignedShort",
   "unsignedByte"]

def numericTypes : List String :=
  integerTypes ++ ["decimal", "float", "double"]

/-- The rest of a datatype's name after the namespace of XML Schema. -/
def xsdLocalName? (datatype : String) : Option String :=
  (Text.afterPart xsd.toList datatype.toList).map String.ofList

def isXsdType (names : List String) (datatype : String) : Bool :=
  match xsdLocalName? datatype with
  | some name => names.contains name
  | none => false

/-- What a literal denotes, as far as constraints can compare it. -/
inductive Special where
  | boolean (b : Bool)
  | integer (n : Int)
  /-- Milliseconds since 1970-01-01T00:00:00Z. -/
  | millis (n : Int)
  | raw
  deriving DecidableEq, Repr

namespace Special

def ofBoolean (value : String) : Special :=
  if value = "true" ∨ value = "1" then .boolean true
  else if value = "false" ∨ value = "0" then .boolean false
  else .raw

def ofInteger (value : String) : Special :=
  match Decimal.toInt64? value.toList with
  | some n => .integer n
  | none => .raw

def ofDateTime (value : String) : Special :=
  match (Instant.parse value.toList).map Instant.millis with
  | some n => if Decimal.fitsInt64 n then .millis n else .raw
  | none => .raw

def ofLiteral (value datatype : String) : Special :=
  match xsdLocalName? datatype with
  | none => .raw
  | some name =>
    if name = "boolean" then ofBoolean value
    else if integerTypes.contains name then ofInteger value
    else if name = "dateTime" then ofDateTime value
    else .raw

def toField (special : Special) (h : Hasher) (value : String) : Field :=
  match special with
  | .boolean b => Field.ofBool b
  | .integer n => Field.ofInt n
  | .millis n => Field.ofInt n
  | .raw => h.onText value

end Special

end AttestedQuery
