import AttestedQuery.Number.Decimal

/-!
# JSON values

The data of a JSON text. Members keep their order and may repeat a key; readers of records decide
what a repeated key means. Only whole numbers within 64 bits are numbers here: any other numeral
is kept as its text.
-/

set_option autoImplicit false

namespace AttestedQuery

inductive Json where
  | null
  | bool (b : Bool)
  | whole (n : Int)
  /-- A numeral with a fraction or an exponent, outside 64 bits, or a negative zero. -/
  | real (numeral : String)
  | text (s : String)
  | list (items : List Json)
  | object (members : List (String × Json))
  deriving Inhabited

namespace Json

def ofNat (n : Nat) : Json := .whole n

def texts (items : List String) : Json := .list (items.map .text)

def optional {α : Type} (write : α → Json) : Option α → Json
  | none => .null
  | some a => write a

def toText? : Json → Option String
  | .text s => some s
  | _ => none

def toBool? : Json → Option Bool
  | .bool b => some b
  | _ => none

/-- A whole number in the range of unsigned 64-bit integers. -/
def toNat? : Json → Option Nat
  | .whole (.ofNat n) => if Decimal.fitsUInt64 n then some n else none
  | _ => none

def toList? : Json → Option (List Json)
  | .list items => some items
  | _ => none

def toListOf? {α : Type} (read : Json → Option α) (j : Json) : Option (List α) :=
  j.toList? >>= fun items => items.mapM read

/-- Reads `null` as none and anything else as a value. -/
def toOptional? {α : Type} (read : Json → Option α) : Json → Option (Option α)
  | .null => some none
  | j => (read j).map some

def get? (key : String) : Json → Option Json
  | .object members => (members.reverse.find? fun member => member.1 == key).map (·.2)
  | _ => none

def countKey (key : String) (members : List (String × Json)) : Nat :=
  (members.filter fun member => member.1 == key).length

/-- The values of a record's fields, in the order of their names. As an object, each name occurs
at most once and other keys are ignored; a missing field is none. As a list, the items are the
fields in order, of which only the last `omissible` may be left off. -/
def fields? (names : List String) (omissible : Nat) : Json → Option (List (Option Json))
  | .object members =>
    if names.all fun name => countKey name members ≤ 1 then
      some (names.map fun name => (members.find? fun member => member.1 == name).map (·.2))
    else none
  | .list items =>
    if items.length ≤ names.length ∧ names.length ≤ items.length + omissible then
      some (items.map some ++ List.replicate (names.length - items.length) none)
    else none
  | _ => none

/-- The name of a variant without content: its text, or an object whose only member has that key
and `null`. -/
def variantName? : Json → Option String
  | .text s => some s
  | .object [(name, .null)] => some name
  | _ => none

end Json

end AttestedQuery
