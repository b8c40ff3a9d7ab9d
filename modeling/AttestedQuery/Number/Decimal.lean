/-!
# Decimal numerals

Whole numbers in base ten. Reading takes an optional sign and at least one digit, and nothing
else; the ranges of fixed-width integers are a separate condition.
-/

set_option autoImplicit false

namespace AttestedQuery.Decimal

/-- The decimal digits of a number, without leading zeros. -/
def ofNat (n : Nat) : List Char :=
  Nat.toDigits 10 n

def ofInt (n : Int) : List Char :=
  if n < 0 then '-' :: ofNat n.natAbs else ofNat n.natAbs

def textOfInt (n : Int) : String :=
  String.ofList (ofInt n)

def value (digits : List Char) : Nat :=
  Nat.ofDigitChars 10 digits 0

def isNumeral (text : List Char) : Bool :=
  !text.isEmpty && text.all Char.isDigit

def toNat? (text : List Char) : Option Nat :=
  if isNumeral text then some (value text) else none

/-- Reads a number with an optional sign of either kind. -/
def toInt? : List Char → Option Int
  | '-' :: digits => (toNat? digits).map fun n => -(n : Int)
  | '+' :: digits => (toNat? digits).map fun n => (n : Int)
  | digits => (toNat? digits).map fun n => (n : Int)

/-- The range of signed 64-bit integers. -/
def fitsInt64 (n : Int) : Bool :=
  -(Nat.pow 2 63 : Int) ≤ n && n < (Nat.pow 2 63 : Int)

/-- The range of unsigned 64-bit integers. -/
def fitsUInt64 (n : Nat) : Bool :=
  n < Nat.pow 2 64

/-- Reads a signed 64-bit integer. -/
def toInt64? (text : List Char) : Option Int :=
  (toInt? text).filter fitsInt64

theorem value_ofNat (n : Nat) : value (ofNat n) = n :=
  Nat.ofDigitChars_toDigits (by decide) (by decide)

theorem isNumeral_ofNat (n : Nat) : isNumeral (ofNat n) = true := by
  have nonempty : ofNat n ≠ [] := Nat.toDigits_ne_nil
  have digits : ∀ c ∈ ofNat n, c.isDigit = true := fun c mem =>
    Nat.isDigit_of_mem_toDigits (by decide) (by decide) mem
  simpa [isNumeral, nonempty, List.all_eq_true] using digits

theorem toNat_ofNat (n : Nat) : toNat? (ofNat n) = some n := by
  simp [toNat?, isNumeral_ofNat, value_ofNat]

end AttestedQuery.Decimal
