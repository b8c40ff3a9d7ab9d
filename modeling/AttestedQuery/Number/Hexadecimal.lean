/-!
# Hexadecimal numerals

Numbers written with the digits `0`–`9` and `a`–`f`; digits are read in either letter case.
-/

set_option autoImplicit false

namespace AttestedQuery.Hex

def digitChar (digit : Nat) : Char :=
  if digit < 10 then Char.ofNat (48 + digit) else Char.ofNat (87 + digit)

def digitValue (c : Char) : Option Nat :=
  if '0' ≤ c ∧ c ≤ '9' then some (c.toNat - 48)
  else if 'a' ≤ c ∧ c ≤ 'f' then some (c.toNat - 87)
  else if 'A' ≤ c ∧ c ≤ 'F' then some (c.toNat - 55)
  else none

/-- The lowest `width` base-16 digits of a number, most significant first. -/
def digits : Nat → Nat → List Nat
  | 0, _ => []
  | width + 1, number => digits width (number / 16) ++ [number % 16]

/-- The base-16 text of a number below `16 ^ width`, without leading zeros; zero is `0`. -/
def ofNat (width number : Nat) : List Char :=
  match (digits width number).dropWhile (· == 0) with
  | [] => ['0']
  | significant => significant.map digitChar

/-- The base-16 text of a Unicode scalar value. -/
def ofScalar (c : Char) : List Char :=
  ofNat 6 c.toNat

end AttestedQuery.Hex
