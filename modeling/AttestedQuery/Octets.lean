/-!
# Octet strings

Octet strings are lists of octets. This module reads them as numbers in both byte orders, writes
numbers at a fixed width, and splits them into machine words.
-/

set_option autoImplicit false

namespace AttestedQuery

abbrev Octets := List UInt8

namespace Octets

def littleEndian : Octets → Nat
  | [] => 0
  | octet :: rest => octet.toNat + 256 * littleEndian rest

/-- The number whose base-256 digits are the octets, most significant first. -/
def bigEndian (octets : Octets) : Nat :=
  octets.foldl (fun total octet => total * 256 + octet.toNat) 0

/-- The lowest `width` base-256 digits of a number, least significant first. -/
def ofNatLittle : Nat → Nat → Octets
  | 0, _ => []
  | width + 1, number => UInt8.ofNat (number % 256) :: ofNatLittle width (number / 256)

/-- The lowest `width` base-256 digits of a number, most significant first. -/
def ofNatBig (width number : Nat) : Octets :=
  (ofNatLittle width number).reverse

def ofString (text : String) : Octets :=
  text.toUTF8.toList

/-- Consecutive blocks of `size` octets; the last block may be shorter. The count bounds the
number of blocks and is the length of the input in every use. -/
def blocksUpTo (size : Nat) : Nat → Octets → List Octets
  | 0, _ => []
  | _ + 1, [] => []
  | count + 1, octets => octets.take size :: blocksUpTo size count (octets.drop size)

/-- Consecutive blocks of `size` octets; the last block may be shorter. -/
def blocks (size : Nat) (octets : Octets) : List Octets :=
  blocksUpTo size octets.length octets

def padTo (width : Nat) (octets : Octets) : Octets :=
  octets ++ List.replicate (width - octets.length) 0

/-- Sixteen 32-bit words read from four octets each, in the byte order given by `value`; octets
past the end count as zero. -/
def words16 (value : Octets → Nat) (octets : Octets) : Vector UInt32 16 :=
  let all := ((blocks 4 (padTo 64 octets)).map fun block => UInt32.ofNat (value block)).toArray
  Vector.ofFn fun i => all.getD i.val 0

theorem length_ofNatLittle (width number : Nat) :
    (ofNatLittle width number).length = width := by
  induction width generalizing number with
  | zero => rfl
  | succ width ih => simp [ofNatLittle, ih]

theorem littleEndian_ofNatLittle (width number : Nat) :
    littleEndian (ofNatLittle width number) = number % Nat.pow 256 width := by
  induction width generalizing number with
  | zero => simp [ofNatLittle, littleEndian, Nat.mod_one]
  | succ width ih =>
    have octet : (UInt8.ofNat (number % 256)).toNat = number % 256 := by simp
    have power : Nat.pow 256 (width + 1) = 256 * Nat.pow 256 width := Nat.mul_comm _ _
    rw [ofNatLittle, littleEndian, ih, octet, power, Nat.mod_mul]

end Octets

end AttestedQuery
