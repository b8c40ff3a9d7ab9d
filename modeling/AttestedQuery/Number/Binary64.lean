import AttestedQuery.Number.Decimal

/-!
# Floating-point numbers with 64 bits

The values of the binary format with 53 significant bits, as exact whole numbers of the smallest
positive value `2 ^ -1074`. A decimal numeral names the nearest value, and of two equally near ones
that with an even significand. Infinities and values that are no number may be written as words in
either letter case.
-/

set_option autoImplicit false

namespace AttestedQuery

inductive Binary64 where
  | nan
  | infinite (negative : Bool)
  /-- The number of units of `2 ^ -1074`, and the sign, which zero has too. -/
  | finite (negative : Bool) (units : Nat)
  deriving DecidableEq

namespace Binary64

/-- One more than the number of units of the largest finite value, rounded up to a power of two. -/
def overflow : Nat := Nat.pow 2 2098

/-- A quotient rounded to the nearest whole number, halves to the even neighbour. -/
def roundedQuotient (numerator denominator : Nat) : Nat :=
  let down := numerator / denominator
  let twice := 2 * (numerator % denominator)
  if twice < denominator then down
  else if denominator < twice then down + 1
  else if down % 2 = 0 then down else down + 1

/-- The distance of neighbouring values about a number of units, as a power of two. -/
def spacing (units : Nat) : Nat := Nat.log2 units - 52

def ofQuotient (negative : Bool) (numerator denominator : Nat) : Binary64 :=
  let scaled := numerator * Nat.pow 2 1074
  let step := Nat.pow 2 (spacing (scaled / denominator))
  let units := roundedQuotient scaled (denominator * step) * step
  if units < overflow then .finite negative units else .infinite negative

/-- Decimal exponents beyond which every value is infinite or zero. -/
def exponentLimit : Int := 400

def ofDecimal (negative : Bool) (digits : List Char) (exponent : Int) : Binary64 :=
  let digits := digits.dropWhile (· == '0')
  let magnitude := exponent + digits.length
  if digits = [] ∨ magnitude < -exponentLimit then .finite negative 0
  else if exponentLimit < magnitude then .infinite negative
  else if 0 ≤ exponent then ofQuotient negative (Decimal.value digits * Nat.pow 10 exponent.toNat) 1
  else ofQuotient negative (Decimal.value digits) (Nat.pow 10 (-exponent).toNat)

/-- The exponent of a numeral, where nothing stands for zero. -/
def readExponent : List Char → Option Int
  | [] => some 0
  | c :: rest => if c = 'e' ∨ c = 'E' then Decimal.toInt? rest else none

/-- A numeral without its sign: digits with at most one point among them, and an exponent. -/
def readMagnitude (negative : Bool) (text : List Char) : Option Binary64 :=
  let (whole, rest) := text.span Char.isDigit
  let (fraction, rest) := match rest with
    | '.' :: rest => rest.span Char.isDigit
    | rest => ([], rest)
  if whole = [] ∧ fraction = [] then none
  else do
    let exponent ← readExponent rest
    return ofDecimal negative (whole ++ fraction) (exponent - fraction.length)

/-- A numeral or a word without its sign. -/
def readUnsigned (negative : Bool) (text : List Char) : Option Binary64 :=
  let word := String.ofList (text.map Char.toLower)
  if word = "inf" ∨ word = "infinity" then some (.infinite negative)
  else if word = "nan" then some .nan
  else readMagnitude negative text

def read? : List Char → Option Binary64
  | '-' :: rest => readUnsigned true rest
  | '+' :: rest => readUnsigned false rest
  | text => readUnsigned false text

def isZero : Binary64 → Bool
  | .finite _ units => units == 0
  | _ => false

/-- The order key of a value: beyond every finite value for infinities. -/
def rank? : Binary64 → Option Int
  | .nan => none
  | .infinite negative => some (if negative then -(overflow : Int) else overflow)
  | .finite negative units => some (if negative then -(units : Int) else units)

/-- The order of two values, which only numbers have. -/
def order? (x y : Binary64) : Option Ordering := do
  return compare (← x.rank?) (← y.rank?)

end Binary64

end AttestedQuery
