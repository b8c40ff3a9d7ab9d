import AttestedQuery.Proofs.CheckedProofs
import AttestedQuery.Proofs.PrintedComparisons
import AttestedQuery.Proofs.StoredRecords
import Mathlib.Data.Int.ModEq
import Mathlib.Data.List.TakeWhile
import Mathlib.Data.Nat.Digits.Defs
import Mathlib.Data.Set.Function

/-!
# Numbers, octets and texts of field elements

Every way to make an element reduces a number modulo the prime, so elements are equal exactly where
their numbers are congruent. The octets and the hexadecimal text of an element are the digits of its
value, and are read back as the element. A text in hexadecimal digits is read as its number, with or
without a mark before it and whatever zeros it starts with.

A signed 128-bit number is encoded by its class, and read back as the number of least magnitude in
that class. The magnitude is compared with the greatest number of the range before the sign is put
back, so the least number of the range, whose magnitude is one more, is encoded and not read back.
-/

set_option autoImplicit false

namespace AttestedQuery

/-! ## Residues -/

namespace Field

/-- The element stands for a number: it is below the prime and congruent to the number. -/
structure IsResidue (x : Field) (n : Int) : Prop where
  reduced : x.val < modulus
  congruent : (x.val : Int) ≡ n [ZMOD modulus]

theorem isResidue_iff (x : Field) (n : Int) : x.IsResidue n ↔ (x.val : Int) = n % modulus := by
  have small : (x.val : Int) % modulus = x.val := by
    rw [← Int.natCast_mod, Nat.mod_eq_of_lt x.val_lt]
  constructor
  · intro residue
    rw [← small]
    exact residue.congruent
  · intro same
    exact ⟨x.val_lt, small.trans same⟩

theorem isResidue_ofNat (n : Nat) : (ofNat n).IsResidue n :=
  (isResidue_iff _ _).2 (Int.natCast_mod n modulus)

theorem isResidue_zero : zero.IsResidue 0 := (isResidue_iff _ _).2 rfl

theorem isResidue_ofInt (n : Int) : (ofInt n).IsResidue n := by
  refine (isResidue_iff _ _).2 ?_
  rw [val_ofInt]
  split
  all_goals
    simp only [modulus] at *
    omega

/-- Elements are equal exactly where the numbers that they stand for are congruent. -/
theorem IsResidue.eq_iff {x y : Field} {m n : Int} (first : x.IsResidue m) (second : y.IsResidue n) :
    x = y ↔ m ≡ n [ZMOD modulus] := by
  rw [isResidue_iff] at first second
  rw [Int.ModEq, ← first, ← second, Int.natCast_inj]
  exact ⟨congrArg val, ext_val⟩

end Field

/-! ## Octets -/

namespace Octets

theorem littleEndian_eq_ofDigits (octets : Octets) :
    octets.littleEndian = Nat.ofDigits 256 (octets.map UInt8.toNat) := by
  induction octets with
  | nil => rfl
  | cons octet rest induction =>
    rw [littleEndian, induction, List.map_cons, Nat.ofDigits_cons]

/-- Octets in the other order write the same number when they are read in the other order. -/
theorem bigEndian_reverse (octets : Octets) : bigEndian octets.reverse = octets.littleEndian := by
  rw [bigEndian, List.foldl_reverse]
  induction octets with
  | nil => rfl
  | cons octet rest induction =>
    rw [List.foldr_cons, induction, littleEndian]
    omega

end Octets

namespace Field

theorem isResidue_ofLittleEndian (octets : Octets) :
    (ofLittleEndian octets).IsResidue (Nat.ofDigits 256 (octets.map UInt8.toNat) : Nat) := by
  rw [ofLittleEndian, Octets.littleEndian_eq_ofDigits]
  exact isResidue_ofNat _

theorem ofNat_val (x : Field) : ofNat x.val = x := ext_val (Nat.mod_eq_of_lt x.val_lt)

theorem ofLittleEndian_toLittleEndian (x : Field) : ofLittleEndian x.toLittleEndian = x := by
  rw [ofLittleEndian, littleEndian_toLittleEndian, ofNat_val]

theorem bigEndian_toBigEndian (x : Field) : Octets.bigEndian x.toBigEndian = x.val := by
  rw [toBigEndian, Octets.bigEndian_reverse, littleEndian_toLittleEndian]

theorem toLittleEndian_injective : Function.Injective toLittleEndian :=
  Function.LeftInverse.injective ofLittleEndian_toLittleEndian

theorem toHex_injective : Function.Injective toHex := by
  intro x y same
  have read := ofHex_toHex x
  rw [same, ofHex_toHex] at read
  exact (Except.ok.inj read).symm

end Field

/-! ## Hexadecimal digits -/

namespace Hex

/-- A character is the digit of a value, in either letter case. -/
def Stands (c : Char) (digit : Nat) : Prop :=
  "0123456789abcdef".toList[digit]? = some c ∨ "0123456789ABCDEF".toList[digit]? = some c

theorem Stands.lt {c : Char} {digit : Nat} (stands : Stands c digit) : digit < 16 := by
  rcases stands with lower | upper
  · exact (List.getElem?_eq_some_iff.1 lower).1
  · exact (List.getElem?_eq_some_iff.1 upper).1

instance (c : Char) (digit : Nat) : Decidable (Stands c digit) := inferInstanceAs (Decidable (_ ∨ _))

theorem stands_of_digitValue {c : Char} {digit : Nat} (read : digitValue c = some digit) :
    Stands c digit := by
  -- The characters of a range are tried one by one.
  have range (low high : Char) (shift : Nat)
      (each : ∀ n, low.toNat ≤ n → n ≤ high.toNat → Stands (Char.ofNat n) (n - shift))
      (within : low ≤ c ∧ c ≤ high) : Stands c (c.toNat - shift) := by
    have found := each c.toNat within.1 within.2
    rwa [Char.ofNat_toNat] at found
  unfold digitValue at read
  split_ifs at read with decimal lower upper
  · obtain rfl := Option.some.inj read
    exact range '0' '9' 48 (by decide) decimal
  · obtain rfl := Option.some.inj read
    exact range 'a' 'f' 87 (by decide) lower
  · obtain rfl := Option.some.inj read
    exact range 'A' 'F' 55 (by decide) upper

theorem Stands.digitValue {c : Char} {digit : Nat} (stands : Stands c digit) :
    Hex.digitValue c = some digit := by
  have below := stands.lt
  rcases stands with found | found
  all_goals
    interval_cases digit <;> (obtain rfl := Option.some.inj found; rfl)

theorem Stands.unmarked {c : Char} {digit : Nat} (stands : Stands c digit) :
    Text.isBlank c = false ∧ c ≠ 'x' ∧ c ≠ '+' ∧ c ≠ '_' := by
  have below := stands.lt
  rcases stands with found | found
  all_goals
    interval_cases digit <;> (obtain rfl := Option.some.inj found; decide)

theorem unmarked_of_stand {digits : List Char} {values : List Nat}
    (stand : List.Forall₂ Stands digits values) :
    ∀ c ∈ digits, Text.isBlank c = false ∧ c ≠ 'x' ∧ c ≠ '+' ∧ c ≠ '_' :=
  ((List.forall₂_and_left digits values).1 (stand.imp fun _ _ stands => ⟨stands.unmarked, stands⟩)).1

theorem valueOf_eq_ofDigits (digits : List Nat) : valueOf digits = Nat.ofDigits 16 digits.reverse := by
  rw [valueOf, Nat.ofDigits_eq_foldr, List.foldr_reverse]
  simp only [Nat.cast_id, Nat.add_comm, Nat.mul_comm]

theorem significant_zero (width : Nat) : (digits width 0).dropWhile (· == 0) = [] := by
  induction width with
  | zero => rfl
  | succ width induction =>
    rw [digits, Nat.zero_div, List.dropWhile_append, induction]
    rfl

theorem significant_eq_toDigits (width n : Nat) (positive : 0 < n) (fits : n < 16 ^ width) :
    ((digits width n).dropWhile (· == 0)).map digitChar = Nat.toDigits 16 n := by
  have last {digit : Nat} (below : digit < 16) : digitChar digit = digit.digitChar := by
    interval_cases digit <;> rfl
  induction width generalizing n with
  | zero => omega
  | succ width induction =>
    rw [digits, List.dropWhile_append]
    by_cases small : n < 16
    · rw [Nat.div_eq_of_lt small, significant_zero, Nat.mod_eq_of_lt small,
        Nat.toDigits_of_lt_base small]
      simp [positive.ne', last small]
    · have front := induction (n / 16) (by omega) (by rw [Nat.pow_succ] at fits; omega)
      have filled : ((digits width (n / 16)).dropWhile (· == 0)).isEmpty = false := by
        rw [← List.isEmpty_map (f := digitChar), front]
        simp
      rw [filled, if_neg Bool.false_ne_true, List.map_append, front,
        Nat.toDigits_of_base_le (by decide) (Nat.le_of_not_lt small), List.map_singleton,
        last (Nat.mod_lt n (by decide))]

/-- A number is written with its digits in base sixteen and no zeros before them. -/
theorem ofNat_eq_toDigits {width n : Nat} (fits : n < 16 ^ width) :
    ofNat width n = Nat.toDigits 16 n := by
  unfold ofNat
  rcases Nat.eq_zero_or_pos n with rfl | positive
  · rw [significant_zero]
    rfl
  · have written := significant_eq_toDigits width n positive fits
    split
    next empty =>
      rw [empty] at written
      exact absurd written.symm Nat.toDigits_ne_nil
    next => exact written

end Hex

namespace Field

/-! ## Texts -/

theorem digitsValue_ok_iff (text : List Char) (total n : Nat) : digitsValue total text = .ok n ↔
    ∃ digits, List.Forall₂ Hex.Stands (text.filter (· ≠ '_')) digits ∧
      n = digits.foldl (fun total digit => total * 16 + digit) total := by
  induction text generalizing total with
  | nil => simp [digitsValue, eq_comm]
  | cons c rest induction =>
    rw [digitsValue]
    by_cases gap : c = '_'
    · rw [if_pos gap, induction, List.filter_cons_of_neg (by simpa using gap)]
    · rw [if_neg gap, List.filter_cons_of_pos (by simpa using gap)]
      constructor
      · intro read
        split at read
        next digit found =>
          obtain ⟨digits, stand, rfl⟩ := (induction _).1 read
          exact ⟨digit :: digits, .cons (Hex.stands_of_digitValue found) stand, rfl⟩
        next => cases read
      · rintro ⟨digits, stand, rfl⟩
        cases stand with
        | cons first others =>
          rw [first.digitValue]
          exact (induction _).2 ⟨_, others, rfl⟩

theorem toHex_eq_toDigits (x : Field) :
    x.toHex = "0x" ++ String.ofList (Nat.toDigits 16 x.val) := by
  rw [toHex, Hex.ofNat_eq_toDigits (x.val_lt.trans (by decide))]
  exact (String.ofList_append : String.ofList (['0', 'x'] ++ Nat.toDigits 16 x.val) = _)

/-- A text of digits behind marks and white space is read as its number. -/
theorem ofHexChars_digits {text digits : List Char} {values : List Nat}
    (bare : dropMarks (Text.trim text) = digits) (stand : List.Forall₂ Hex.Stands digits values) :
    ofHexChars text = .ok (ofNat (Nat.ofDigits 16 values.reverse)) := by
  rw [ofHexChars, bare]
  have unmarked := Hex.unmarked_of_stand stand
  have gapless : digits.filter (· ≠ '_') = digits :=
    List.filter_eq_self.2 fun c member => by simpa using (unmarked c member).2.2.2
  have read := (digitsValue_ok_iff digits 0 _).2 ⟨values, gapless.symm ▸ stand, rfl⟩
  cases digits with
  | nil => cases stand; rfl
  | cons c rest =>
    obtain ⟨_, _, noPlus, noGap⟩ := unmarked c List.mem_cons_self
    simp only [dropPlus_unsigned noPlus]
    split
    next empty => cases empty
    next gap => exact absurd (List.cons.inj gap).1 noGap
    next =>
      rw [read, ← Hex.valueOf_eq_ofDigits]
      rfl

/-- The number that a text is read as: white space around it, marks and a plus sign before it, and
underscores in it do not count. -/
def Spells (text : List Char) (n : Nat) : Prop :=
  ∃ (before sign digits after : List Char) (marks : Nat) (values : List Nat),
    text = before ++ ((List.replicate marks ['0', 'x']).flatten ++ (sign ++ digits)) ++ after ∧
    (∀ c ∈ before ++ after, Text.isBlank c = true) ∧ (sign = [] ∨ sign = ['+']) ∧
    List.Forall₂ Hex.Stands (digits.filter (· ≠ '_')) values ∧
    n = Nat.ofDigits 16 values.reverse

theorem exists_trim (text : List Char) : ∃ before after, text = before ++ Text.trim text ++ after ∧
    ∀ c ∈ before ++ after, Text.isBlank c = true := by
  have front := List.takeWhile_append_dropWhile (p := Text.isBlank) (l := text)
  have back := List.takeWhile_append_dropWhile (p := Text.isBlank)
    (l := (text.dropWhile Text.isBlank).reverse)
  refine ⟨text.takeWhile Text.isBlank,
    ((text.dropWhile Text.isBlank).reverse.takeWhile Text.isBlank).reverse, ?_, ?_⟩
  · rw [List.append_assoc, Text.trim, ← List.reverse_append, back, List.reverse_reverse, front]
  · refine List.forall_mem_append.2 ⟨fun c member => List.mem_takeWhile_imp member, fun c member => ?_⟩
    exact List.mem_takeWhile_imp (List.mem_reverse.1 member)

theorem exists_dropMarks (text : List Char) : ∃ marks,
    text = (List.replicate marks ['0', 'x']).flatten ++ dropMarks text := by
  fun_induction dropMarks text with
  | case1 rest induction =>
    obtain ⟨marks, same⟩ := induction
    refine ⟨marks + 1, ?_⟩
    rw [List.replicate_succ, List.flatten_cons, List.append_assoc, ← same]
    rfl
  | case2 digits => exact ⟨0, rfl⟩

theorem exists_dropPlus (text : List Char) : ∃ sign, text = sign ++ dropPlus text ∧
    (sign = [] ∨ sign = ['+']) := by
  unfold dropPlus
  split
  · exact ⟨[], rfl, Or.inl rfl⟩
  · exact ⟨['+'], rfl, Or.inr rfl⟩
  · exact ⟨[], rfl, Or.inl rfl⟩

theorem isResidue_of_ofHex {text : String} {x : Field} (read : ofHex text = .ok x) :
    ∃ n : Nat, Spells text.toList n ∧ x.IsResidue n := by
  obtain ⟨before, after, whole, blank⟩ := exists_trim text.toList
  obtain ⟨marks, marked⟩ := exists_dropMarks (Text.trim text.toList)
  rw [marked] at whole
  rw [ofHex, ofHexChars] at read
  split at read
  next bare =>
    obtain rfl := Except.ok.inj read
    rw [bare] at whole
    exact ⟨0, ⟨before, [], [], after, marks, [], whole, blank, Or.inl rfl, .nil, rfl⟩,
      isResidue_zero⟩
  next =>
    split at read
    next => cases read
    next => cases read
    next rest _ _ =>
      obtain ⟨sign, signed, plus⟩ := exists_dropPlus (dropMarks (Text.trim text.toList))
      obtain ⟨n, value, rfl⟩ := map_ok_iff.1 read
      obtain ⟨values, stand, rfl⟩ := (digitsValue_ok_iff _ 0 n).1 value
      rw [signed] at whole
      refine ⟨Nat.ofDigits 16 values.reverse,
        ⟨before, sign, _, after, marks, values, whole, blank, plus, stand, rfl⟩, ?_⟩
      rw [← Hex.valueOf_eq_ofDigits]
      exact isResidue_ofNat _

/-- Digits with a mark or without it are read as their number. -/
theorem ofHex_digits {digits : List Char} {values : List Nat}
    (stand : List.Forall₂ Hex.Stands digits values) {mark : String} (marked : mark ∈ ["", "0x"]) :
    ofHex (mark ++ String.ofList digits) = .ok (ofNat (Nat.ofDigits 16 values.reverse)) := by
  have unmarked := Hex.unmarked_of_stand stand
  have zero : Text.isBlank '0' = false := rfl
  have x : Text.isBlank 'x' = false := rfl
  have visible : ∀ c ∈ mark.toList ++ digits, Text.isBlank c = false := by
    refine List.forall_mem_append.2 ⟨?_, fun c member => (unmarked c member).1⟩
    rcases List.mem_pair.1 marked with rfl | rfl <;> simp [zero, x]
  have kept : dropMarks digits = digits := by
    refine dropMarks_unmarked fun rest same => ?_
    exact (unmarked 'x' (by simp [same])).2.1 rfl
  have bare : dropMarks (mark.toList ++ digits) = digits := by
    rcases List.mem_pair.1 marked with rfl | rfl
    · exact kept
    · exact kept
  rw [ofHex, String.toList_append, String.toList_ofList]
  exact ofHexChars_digits (by rw [Text.trim_visible visible, bare]) stand

/-! ## All codecs -/

/-- Elements are reduced however they are made, and equal exactly where their numbers are congruent;
their octets and texts are the digits of their values and are read back; and a text of digits is
read as its number. -/
theorem codecs_exact :
    (zero.IsResidue 0 ∧ (∀ n : Nat, (ofNat n).IsResidue n) ∧ (∀ n : Int, (ofInt n).IsResidue n) ∧
      (∀ octets : Octets,
        (ofLittleEndian octets).IsResidue (Nat.ofDigits 256 (octets.map UInt8.toNat) : Nat)) ∧
      (∀ (text : String) (x : Field), ofHex text = .ok x →
        ∃ n : Nat, Spells text.toList n ∧ x.IsResidue n) ∧
      ∀ (j : Json) (x : Field), ofJson? j = some x →
        ∃ (text : String) (n : Nat), j = .text text ∧ Spells text.toList n ∧ x.IsResidue n) ∧
    (∀ (x y : Field) (m n : Int), x.IsResidue m → y.IsResidue n →
      (x = y ↔ m ≡ n [ZMOD modulus])) ∧
    (∀ x : Field, ofHex x.toHex = .ok x ∧ ofJson? x.toJson = some x ∧
      ofLittleEndian x.toLittleEndian = x ∧ x.toBigEndian = x.toLittleEndian.reverse ∧
      x.toLittleEndian.length = 32 ∧ Octets.bigEndian x.toBigEndian = x.val ∧
      x.toHex = "0x" ++ String.ofList (Nat.toDigits 16 x.val)) ∧
    Function.Injective toHex ∧ Function.Injective toLittleEndian ∧
    ∀ (digits : List Char) (values : List Nat), List.Forall₂ Hex.Stands digits values →
      ∀ mark ∈ ["", "0x"], ∃ x, ofHex (mark ++ String.ofList digits) = .ok x ∧
        x.IsResidue (Nat.ofDigits 16 values.reverse : Nat) := by
  refine ⟨⟨isResidue_zero, isResidue_ofNat, isResidue_ofInt, isResidue_ofLittleEndian,
    fun text x => isResidue_of_ofHex, fun j x read => ?_⟩, fun x y m n first => first.eq_iff,
    fun x => ⟨ofHex_toHex x, ofJson_toJson x, ofLittleEndian_toLittleEndian x, rfl,
      Octets.length_ofNatLittle 32 x.val, bigEndian_toBigEndian x, toHex_eq_toDigits x⟩,
    toHex_injective, toLittleEndian_injective, fun digits values stand mark marked =>
      ⟨_, ofHex_digits stand marked, isResidue_ofNat _⟩⟩
  cases j with
  | text text =>
    obtain ⟨n, spells, residue⟩ := isResidue_of_ofHex (eq_ok_of_toOption read)
    exact ⟨text, n, rfl, spells, residue⟩
  | _ => cases read

theorem codecs_exact_sample :
    List.Forall₂ Hex.Stands ['0', 'f', 'F'] [0, 15, 15] ∧
      (∃ x, ofHex ("0x" ++ String.ofList ['0', 'f', 'F']) = .ok x ∧ x.IsResidue 255) ∧
      (ofNat 5).IsResidue 5 ∧ (ofNat (modulus + 5)).IsResidue (modulus + 5 : Nat) ∧
      ofNat 5 = ofNat (modulus + 5) := by
  obtain ⟨⟨_, numbers, _⟩, equal, _, _, _, texts⟩ := codecs_exact
  have stand : List.Forall₂ Hex.Stands ['0', 'f', 'F'] [0, 15, 15] :=
    .cons (by decide) (.cons (by decide) (.cons (by decide) .nil))
  refine ⟨stand, texts _ _ stand "0x" (by simp), numbers 5, numbers (modulus + 5), ?_⟩
  exact (equal _ _ 5 (modulus + 5 : Nat) (numbers 5) (numbers (modulus + 5))).2 (by decide)

end Field

/-! ## Signed numbers -/

/-- A number of the signed 128-bit range. -/
def IsInt128 (n : Int) : Prop := -2 ^ 127 ≤ n ∧ n < 2 ^ 127

theorem IsInt128.natAbs_le {n : Int} (ranges : IsInt128 n) : n.natAbs ≤ modulus / 2 := by
  obtain ⟨lower, upper⟩ := ranges
  simp only [modulus]
  omega

namespace Field

/-- The limit on the magnitude leaves out one number of the range. -/
theorem natAbs_le_signedLimit_iff (n : Int) :
    n.natAbs ≤ signedLimit ↔ IsInt128 n ∧ n ≠ -2 ^ 127 := by
  have limit : signedLimit = 2 ^ 127 - 1 := rfl
  rw [limit, IsInt128]
  omega

/-- A number is read off an element exactly where the element encodes it and its magnitude is
within the limit. -/
theorem toSigned_eq_some_iff {x : Field} {n : Int} :
    x.toSigned = some n ↔ n.natAbs ≤ signedLimit ∧ ofInt n = x := by
  rw [toSigned_eq]
  constructor
  · intro read
    split at read
    next within =>
      obtain rfl := Option.some.inj read
      exact ⟨within, ofInt_signed x⟩
    next => cases read
  · rintro ⟨within, rfl⟩
    have ranges := ((natAbs_le_signedLimit_iff n).1 within).1
    rw [signed_ofInt ranges.natAbs_le, if_pos within]

/-- Different numbers of the range have different encodings: each is the number of least magnitude
in its class. -/
theorem ofInt_injOn : Set.InjOn ofInt {n | IsInt128 n} := by
  intro m first n second same
  have signs := congrArg signed same
  rwa [signed_ofInt (IsInt128.natAbs_le first), signed_ofInt (IsInt128.natAbs_le second)] at signs

/-- A number is read off an element exactly where it is a signed 128-bit number other than the least
one and the element is its encoding; and the encodings of all signed 128-bit numbers, the least one
included, are different. -/
theorem signed_reading_inverts_unless_least (x : Field) (n : Int) :
    (x.toSigned = some n ↔ IsInt128 n ∧ n ≠ -2 ^ 127 ∧ ofInt n = x) ∧
      Set.InjOn ofInt {n | IsInt128 n} := by
  refine ⟨?_, ofInt_injOn⟩
  rw [toSigned_eq_some_iff, natAbs_le_signedLimit_iff, and_assoc]

/-- The least number of the range is encoded, and nothing is read off its encoding. -/
theorem least_not_read_back :
    IsInt128 (-2 ^ 127) ∧ (ofInt (-2 ^ 127)).toSigned = none := by
  refine ⟨⟨le_refl _, by decide⟩, by decide⟩

end Field

end AttestedQuery
