import AttestedQuery.Proof
import Mathlib.Data.List.Basic
import Mathlib.Tactic.IntervalCases

/-!
# Numbers and octets written in hexadecimal

The digits of a number stand for it, up to the width they have. The text of an octet string reads
back as that string, and has no leading mark to drop.
-/

set_option autoImplicit false

namespace AttestedQuery

/-! ## The octets of a text -/

private theorem toList_loop (bytes : ByteArray) (i : Nat) (collected : List UInt8) :
    ByteArray.toList.loop bytes i collected = collected.reverse ++ bytes.data.toList.drop i := by
  fun_induction ByteArray.toList.loop bytes i collected with
  | case1 i collected inside induction =>
    have bound : i < bytes.data.toList.length := by simpa using inside
    have first : bytes.get! i = bytes.data.toList[i] := by
      have size : i < bytes.data.size := by simpa using bound
      simp only [ByteArray.get!, getElem!_pos bytes.data i size, Array.getElem_toList]
    rw [induction, List.drop_eq_getElem_cons bound, first]
    simp
  | case2 i collected outside =>
    have past : bytes.data.toList.length ≤ i := by simpa using outside
    rw [List.drop_eq_nil_of_le past, List.append_nil]

theorem byteArray_toList (bytes : ByteArray) : bytes.toList = bytes.data.toList := by
  rw [ByteArray.toList, toList_loop, List.reverse_nil, List.nil_append, List.drop_zero]

namespace Octets

theorem ofString_ofList (characters : List Char) :
    ofString (String.ofList characters) = characters.flatMap String.utf8EncodeChar := by
  rw [ofString, byteArray_toList]
  change (List.utf8Encode characters).data.toList = _
  rw [List.utf8Encode, List.toList_data_toByteArray]

end Octets

theorem Field.dropMarks_unmarked {text : List Char} (unmarked : ∀ rest, text ≠ '0' :: 'x' :: rest) :
    dropMarks text = text := by
  unfold dropMarks
  split
  next rest => exact absurd rfl (unmarked rest)
  next => rfl

namespace Hex

/-! ## Digits -/

theorem digitValue_digitChar {digit : Nat} (below : digit < 16) :
    digitValue (digitChar digit) = some digit := by
  interval_cases digit <;> rfl

theorem utf8EncodeChar_digitChar {digit : Nat} (below : digit < 16) :
    String.utf8EncodeChar (digitChar digit) = [UInt8.ofNat (digitChar digit).toNat] := by
  interval_cases digit <;> rfl

theorem digitChar_ofNat_toNat {digit : Nat} (below : digit < 16) :
    Char.ofNat (UInt8.ofNat (digitChar digit).toNat).toNat = digitChar digit := by
  interval_cases digit <;> rfl

theorem digitChar_ne_mark {digit : Nat} (below : digit < 16) : digitChar digit ≠ 'x' := by
  interval_cases digit <;> decide

/-! ## Numbers -/

theorem digits_lt {digit : Nat} :
    (width n : Nat) → digit ∈ digits width n → digit < 16
  | 0, _, member => by simp [digits] at member
  | width + 1, n, member => by
    rcases List.mem_append.1 member with early | last
    · exact digits_lt width (n / 16) early
    · rw [List.mem_singleton.1 last]
      omega

/-- The number that base-sixteen digits write. -/
def valueOf (digits : List Nat) : Nat :=
  digits.foldl (fun total digit => total * 16 + digit) 0

theorem valueOf_digits (width n : Nat) : valueOf (digits width n) = n % 16 ^ width := by
  induction width generalizing n with
  | zero => rw [Nat.pow_zero, Nat.mod_one]; rfl
  | succ width induction =>
    have last : valueOf (digits (width + 1) n)
        = valueOf (digits width (n / 16)) * 16 + n % 16 := by
      simp [digits, valueOf]
    rw [last, induction, Nat.pow_succ', Nat.mod_mul]
    omega

theorem valueOf_dropWhile (digits : List Nat) :
    valueOf (digits.dropWhile (· == 0)) = valueOf digits := by
  induction digits with
  | nil => rfl
  | cons digit rest induction =>
    by_cases zero : digit = 0
    · subst zero
      rw [List.dropWhile_cons_of_pos (by rfl), induction]
      rfl
    · rw [List.dropWhile_cons_of_neg (by simpa using zero)]

/-- The written digits of a number, of which there is at least one. -/
theorem exists_digits (width n : Nat) : ∃ digits : List Nat, digits ≠ [] ∧
    (∀ digit ∈ digits, digit < 16) ∧ ofNat width n = digits.map digitChar ∧
      valueOf digits = n % 16 ^ width := by
  have value := valueOf_dropWhile (digits width n)
  rw [valueOf_digits] at value
  unfold ofNat
  split
  next zero =>
    rw [zero] at value
    exact ⟨[0], by simp, by simp, rfl, value⟩
  next significant =>
    refine ⟨_, significant, fun digit member => ?_, rfl, value⟩
    exact digits_lt width n ((List.dropWhile_sublist _).subset member)

/-! ## Octet strings -/

def digitCodes (octet : UInt8) : Octets :=
  [UInt8.ofNat (digitChar (octet.toNat / 16)).toNat, UInt8.ofNat (digitChar (octet.toNat % 16)).toNat]

theorem ofString_ofOctets (octets : Octets) :
    Octets.ofString (ofOctets octets) = octets.flatMap digitCodes := by
  rw [ofOctets, Octets.ofString_ofList, List.flatMap_assoc]
  congr 1
  funext octet
  have high : octet.toNat / 16 < 16 := by have := octet.toNat_lt; omega
  have low : octet.toNat % 16 < 16 := by omega
  simp [digitCodes, utf8EncodeChar_digitChar high, utf8EncodeChar_digitChar low]

theorem readPairs_digitCodes (octets : Octets) (place : Nat) :
    readPairs place (octets.flatMap digitCodes) = .ok octets := by
  induction octets generalizing place with
  | nil => rfl
  | cons octet rest induction =>
    have high : octet.toNat / 16 < 16 := by have := octet.toNat_lt; omega
    have low : octet.toNat % 16 < 16 := by omega
    have whole : 16 * (octet.toNat / 16) + octet.toNat % 16 = octet.toNat := by omega
    rw [List.flatMap_cons]
    simp only [digitCodes, List.cons_append, List.nil_append, readPairs,
      digitChar_ofNat_toNat high, digitChar_ofNat_toNat low, digitValue_digitChar high,
      digitValue_digitChar low]
    rw [induction, whole, UInt8.ofNat_toNat]
    rfl

/-- The hexadecimal text of an octet string reads back as the string. -/
theorem toOctets_ofOctets (octets : Octets) : toOctets (ofOctets octets) = .ok octets := by
  have even : (octets.flatMap digitCodes).length % 2 = 0 := by
    induction octets with
    | nil => rfl
    | cons octet rest induction =>
      rw [List.flatMap_cons, List.length_append]
      simp only [digitCodes, List.length_cons, List.length_nil]
      omega
  have notOdd : ¬(octets.flatMap digitCodes).length % 2 = 1 := by omega
  simp only [toOctets, ofString_ofOctets]
  rw [if_neg notOdd, readPairs_digitCodes]

theorem withoutMarks_ofOctets (octets : Octets) :
    Signer.withoutMarks (ofOctets octets).toList = ofOctets octets := by
  cases octets with
  | nil => rfl
  | cons octet rest =>
    have low : digitChar (octet.toNat % 16) ≠ 'x' := digitChar_ne_mark (by omega)
    rw [Signer.withoutMarks, ofOctets, String.toList_ofList, List.flatMap_cons]
    simp only [List.cons_append, List.nil_append]
    rw [Field.dropMarks_unmarked fun rest marked => low (List.cons.inj (List.cons.inj marked).2).1]

end Hex

theorem Signer.octetsOfHex_ofOctets (octets : Octets) :
    octetsOfHex (Hex.ofOctets octets) = .ok octets := by
  rw [octetsOfHex, Hex.toOctets_ofOctets]

theorem Proof.ofHex_toHex (proof : Proof) : ofHex proof.toHex = .ok proof := by
  rw [ofHex, toHex, Hex.withoutMarks_ofOctets, Hex.toOctets_ofOctets]

end AttestedQuery
