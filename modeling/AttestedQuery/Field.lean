import AttestedQuery.Number.Hexadecimal
import AttestedQuery.Octets
import AttestedQuery.Text.Pieces

/-!
# Field elements

The scalar field of the curve BN254. Every encoded term, tree node and hint is one of its
elements. The value is kept below the modulus by the type, so equality of elements is equality
modulo the prime.

The written form is `0x` and lower-case digits without leading zeros. Reading is more lenient: it
trims white space, drops every leading `0x`, takes digits of either case, ignores underscores
after the first digit, and reduces the value.
-/

set_option autoImplicit false

namespace AttestedQuery

def modulus : Nat :=
  0x30644e72e131a029b85045b68181585d2833e84879b9709143e1f593f0000001

theorem modulus_pos : 0 < modulus := by decide

structure Field where
  val : Nat
  val_lt : val < modulus
  deriving DecidableEq

namespace Field

def ofNat (n : Nat) : Field :=
  ⟨n % modulus, Nat.mod_lt n modulus_pos⟩

def zero : Field := ⟨0, modulus_pos⟩

instance : Inhabited Field := ⟨zero⟩

instance : Hashable Field := ⟨fun x => hash x.val⟩

/-- Negative integers wrap: `-n` is the class of `p - n`. -/
def ofInt (n : Int) : Field :=
  let magnitude := ofNat n.natAbs
  if wraps : n < 0 ∧ magnitude.val ≠ 0 then
    ⟨modulus - magnitude.val, Nat.sub_lt modulus_pos (Nat.pos_of_ne_zero wraps.2)⟩
  else magnitude

def ofBool (b : Bool) : Field :=
  if b then ofNat 1 else zero

/-- The class of the number with these octets, least significant first. -/
def ofLittleEndian (octets : Octets) : Field :=
  ofNat octets.littleEndian

def toLittleEndian (x : Field) : Octets :=
  Octets.ofNatLittle 32 x.val

/-- The 32 octets of the value, most significant first. -/
def toBigEndian (x : Field) : Octets :=
  x.toLittleEndian.reverse

/-- `0x` and lower-case digits without leading zeros. -/
def toHex (x : Field) : String :=
  String.ofList ('0' :: 'x' :: Hex.ofNat 64 x.val)

def isZero (x : Field) : Bool :=
  x.val == 0

def signedLimit : Nat := Nat.pow 2 127 - 1

/-- The element as a signed integer: values above half the modulus stand for negative numbers.
There is no reading when the magnitude exceeds `signedLimit`. -/
def toSigned (x : Field) : Option Int :=
  if x.val ≤ modulus / 2 then
    if x.val ≤ signedLimit then some (x.val : Int) else none
  else
    if modulus - x.val ≤ signedLimit then some (-((modulus - x.val : Nat) : Int)) else none

/-- Why a text is no field element. -/
inductive ReadFault where
  | noDigits
  | badDigit
  deriving DecidableEq, Repr

def ReadFault.message : ReadFault → String
  | .noDigits => "cannot parse integer from empty string"
  | .badDigit => "invalid digit found in string"

def dropMarks : List Char → List Char
  | '0' :: 'x' :: rest => dropMarks rest
  | digits => digits

/-- The number written by base-16 digits, underscores ignored. -/
def digitsValue : Nat → List Char → Except ReadFault Nat
  | total, [] => .ok total
  | total, c :: rest =>
    if c = '_' then digitsValue total rest
    else match Hex.digitValue c with
      | some digit => digitsValue (total * 16 + digit) rest
      | none => .error .badDigit

/-- One leading plus sign is dropped, unless another follows it. -/
def dropPlus : List Char → List Char
  | '+' :: '+' :: rest => '+' :: '+' :: rest
  | '+' :: rest => rest
  | digits => digits

/-- Reads an element from the characters of its hexadecimal text. No digits at all after the
marks is zero. -/
def ofHexChars (text : List Char) : Except ReadFault Field :=
  match dropMarks (Text.trim text) with
  | [] => .ok zero
  | digits =>
    match dropPlus digits with
    | [] => .error .noDigits
    | '_' :: _ => .error .badDigit
    | rest => (digitsValue 0 rest).map ofNat

def ofHex (text : String) : Except ReadFault Field :=
  ofHexChars text.toList

end Field

end AttestedQuery
