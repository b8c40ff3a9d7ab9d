import AttestedQuery.Algebra.OfQuery
import AttestedQuery.Proofs.HonestHints
import Mathlib.Data.List.TakeWhile
import Mathlib.Data.Rat.Cast.Order
import Mathlib.Tactic.Positivity

/-!
# Signs before numerals

The lexical forms of integers and decimals, of any length, and the exact number that each writes. A
sign before a literal of such a form becomes a part of it: the digits and the point stay, and the
sign is that of the new number, so that zero has none. An integer keeps a value that constraints can
compare exactly where the new number fits into 64 bits, at the least one as well.
-/

set_option autoImplicit false

namespace AttestedQuery

namespace Decimal

/-! ## What a lexical form says -/

/-- One digit or more with at most one point among them, and the number that they write. -/
inductive Unsigned : List Char → ℚ → Prop where
  | whole {digits : List Char} (filled : digits ≠ []) (all : ∀ c ∈ digits, c.isDigit = true) :
      Unsigned digits (value digits)
  | pointed {before after : List Char} (filled : before ++ after ≠ [])
      (all : ∀ c ∈ before ++ after, c.isDigit = true) :
      Unsigned (before ++ '.' :: after) (value (before ++ after) / 10 ^ after.length)

/-- No sign or one, and whether it stands for the opposite of what follows. -/
inductive Mark : List Char → Bool → Prop where
  | none : Mark [] false
  | plus : Mark ['+'] false
  | minus : Mark ['-'] true

/-- A number or its opposite. -/
def turned {α : Type} [Neg α] (negate : Bool) (a : α) : α := if negate then -a else a

/-- The lexical forms of integers and decimals, and the number that each writes. -/
inductive Written : List Char → ℚ → Prop where
  | signed {sign digits : List Char} {negative : Bool} {r : ℚ} (mark : Mark sign negative)
      (unsigned : Unsigned digits r) : Written (sign ++ digits) (turned negative r)

theorem turned_turned (negate negative : Bool) (q : ℚ) :
    turned negate (turned negative q) = turned (negative != negate) q := by
  cases negate <;> cases negative <;> simp [turned]

theorem turned_twice (negate : Bool) (q : ℚ) : turned negate (turned negate q) = q := by
  rw [turned_turned, bne_self_eq_false]
  rfl

theorem turned_neg_iff {negate : Bool} {q : ℚ} (nonneg : 0 ≤ q) :
    turned negate q < 0 ↔ negate = true ∧ 0 < q := by
  cases negate with
  | false => simp [turned, nonneg]
  | true => simp [turned]

theorem turned_eq_self {negate : Bool} {q : ℚ} (nonneg : 0 ≤ q)
    (notNegative : ¬turned negate q < 0) : turned negate q = q := by
  cases negate with
  | false => rfl
  | true =>
    have zero : q = 0 := le_antisymm (by simpa [turned] using notNegative) nonneg
    rw [zero]
    exact neg_zero

/-! ## Digits -/

theorem value_cons (c : Char) (rest : List Char) :
    value (c :: rest) = 10 ^ rest.length * (c.toNat - '0'.toNat) + value rest := by
  rw [value, Nat.ofDigitChars_cons, Nat.ofDigitChars_eq_ofDigitChars_zero, Nat.mul_zero,
    Nat.zero_add, value]

theorem digit_pos_iff {c : Char} (digit : c.isDigit = true) :
    0 < c.toNat - '0'.toNat ↔ c ≠ '0' := by
  have lower : '0'.toNat ≤ c.toNat := of_decide_eq_true (Bool.and_eq_true_iff.1 digit).1
  rw [Ne, ← Char.toNat_inj]
  omega

/-- Digits write a positive number exactly where one of them is not zero. -/
theorem any_nonzero_iff {digits : List Char} (all : ∀ c ∈ digits, c.isDigit = true) :
    digits.any (fun c => c.isDigit && c != '0') = true ↔ 0 < value digits := by
  induction digits with
  | nil => simp [value]
  | cons c rest ih =>
    have digit : c.isDigit = true := all c List.mem_cons_self
    rw [List.any_cons, Bool.or_eq_true, ih fun d member => all d (List.mem_cons_of_mem c member),
      digit, Bool.true_and, bne_iff_ne, ← digit_pos_iff digit, value_cons,
      Nat.add_pos_iff_pos_or_pos, Nat.mul_pos_iff_of_pos_left (by positivity)]

theorem point_not_mem {digits : List Char} (all : ∀ c ∈ digits, c.isDigit = true) : '.' ∉ digits :=
  fun member => absurd (all '.' member) (by decide)

def isSign (c : Char) : Bool := c == '+' || c == '-'

namespace Unsigned

variable {text : List Char} {q r : ℚ}

theorem nonneg (unsigned : Unsigned text q) : 0 ≤ q := by
  cases unsigned <;> positivity

/-- The number is positive exactly where some digit is not zero. -/
theorem pos_iff (unsigned : Unsigned text q) :
    0 < q ↔ text.any (fun c => c.isDigit && c != '0') = true := by
  cases unsigned with
  | whole _ all => rw [any_nonzero_iff all, Nat.cast_pos]
  | pointed _ all =>
    have point : ('.'.isDigit && '.' != '0') = false := rfl
    rw [List.any_append, List.any_cons, point, Bool.false_or, ← List.any_append,
      any_nonzero_iff all, div_pos_iff_of_pos_right (by positivity), Nat.cast_pos]

theorem digit_or_point (unsigned : Unsigned text q) {c : Char} (member : c ∈ text) :
    c.isDigit = true ∨ c = '.' := by
  cases unsigned with
  | whole _ all => exact Or.inl (all c member)
  | pointed _ all =>
    rcases List.mem_append.1 member with early | late
    · exact Or.inl (all c (List.mem_append_left _ early))
    · rcases List.mem_cons.1 late with point | late
      · exact Or.inr point
      · exact Or.inl (all c (List.mem_append_right _ late))

theorem not_isSign (unsigned : Unsigned text q) {c : Char} (member : c ∈ text) :
    isSign c = false := by
  rw [isSign, Bool.or_eq_false_iff, beq_eq_false_iff_ne, beq_eq_false_iff_ne]
  constructor <;> rintro rfl <;> exact absurd (unsigned.digit_or_point member) (by decide)

theorem head?_ne_minus (unsigned : Unsigned text q) : text.head? ≠ some '-' :=
  fun first => absurd (unsigned.not_isSign (List.mem_of_head? first)) (by decide)

/-- A text writes one number at most. -/
theorem unique (first : Unsigned text q) (second : Unsigned text r) : q = r := by
  generalize same : text = other at second
  cases first with
  | whole _ all =>
    cases second with
    | whole => rw [same]
    | pointed => exact absurd (same ▸ by simp) (point_not_mem all)
  | pointed _ all =>
    cases second with
    | whole _ all' => exact absurd (same ▸ by simp) (point_not_mem all')
    | pointed _ all' =>
      have pointless := not_or.1 (mt List.mem_append.2 (point_not_mem all))
      obtain ⟨rfl, _, rfl⟩ := (List.append_cons_inj_of_notMem pointless.1 pointless.2).1 same
      rfl

end Unsigned

namespace Written

variable {text : List Char} {q r : ℚ}

/-- The number is that of the digits behind the sign, and the opposite one behind a minus. -/
theorem parts (written : Written text q) : ∃ r, Unsigned (text.dropWhile isSign) r ∧
    q = turned (text.head? == some '-') r := by
  cases written with
  | @signed sign digits negative r mark unsigned =>
    have bare : digits.dropWhile isSign = digits := List.dropWhile_eq_self_iff.2 fun filled => by
      simp [unsigned.not_isSign (List.getElem_mem filled)]
    refine ⟨r, ?_⟩
    cases mark with
    | none =>
      rw [List.nil_append, bare, beq_eq_false_iff_ne.2 unsigned.head?_ne_minus]
      exact ⟨unsigned, rfl⟩
    | plus | minus =>
      rw [List.singleton_append, List.dropWhile_cons_of_pos (by decide), bare]
      exact ⟨unsigned, rfl⟩

/-- A text writes one number at most. -/
theorem unique (first : Written text q) (second : Written text r) : q = r := by
  obtain ⟨_, unsigned, rfl⟩ := first.parts
  obtain ⟨_, unsigned', rfl⟩ := second.parts
  rw [unsigned.unique unsigned']

theorem iff_eq (written : Written text q) (r : ℚ) : Written text r ↔ r = q :=
  ⟨fun other => other.unique written, fun same => same ▸ written⟩

theorem of_unsigned (unsigned : Unsigned text q) (negate : Bool) :
    Written (if turned negate q < 0 then '-' :: text else text) (turned negate q) := by
  split
  next negative =>
    obtain ⟨rfl, _⟩ := (turned_neg_iff unsigned.nonneg).1 negative
    exact .signed .minus unsigned
  next notNegative =>
    rw [turned_eq_self unsigned.nonneg notNegative]
    exact .signed .none unsigned

end Written

/-! ## Whole numbers -/

theorem toNat?_eq_some_iff (text : List Char) (n : Nat) :
    toNat? text = some n ↔ text ≠ [] ∧ (∀ c ∈ text, c.isDigit = true) ∧ value text = n := by
  rw [toNat?, Option.ite_none_right_eq_some, Option.some_inj, isNumeral, Bool.and_eq_true,
    Bool.not_eq_true', List.isEmpty_eq_false_iff, List.all_eq_true, and_assoc]

theorem cast_turned (negate : Bool) (n : Int) :
    ((turned negate n : Int) : ℚ) = turned negate (n : ℚ) := by
  cases negate with
  | false => rfl
  | true => exact Int.cast_neg n

/-- Natural numbers that are read become integers before they are turned. -/
theorem map_cast (f : Int → Int) (read : Option Nat) :
    (do let n ← read; pure (n : Int)).map f = read.map fun n : Nat => f n := by
  cases read <;> rfl

theorem toInt?_signed {sign digits : List Char} {negative : Bool} (mark : Mark sign negative)
    (bare : ∀ c ∈ digits, isSign c = false) :
    toInt? (sign ++ digits) = (toNat? digits).map fun n : Nat => turned negative (n : Int) := by
  cases mark with
  | plus | minus => exact map_cast _ _
  | none =>
    rw [List.nil_append]
    unfold toInt?
    split
    · exact absurd (bare '-' List.mem_cons_self) (by decide)
    · exact absurd (bare '+' List.mem_cons_self) (by decide)
    · exact map_cast _ _

/-- Whatever is read is digits behind one sign at most. -/
theorem exists_mark (text : List Char) : ∃ sign digits negative, Mark sign negative ∧
    text = sign ++ digits ∧
      toInt? text = (toNat? digits).map fun n : Nat => turned negative (n : Int) := by
  unfold toInt?
  split
  next digits => exact ⟨['-'], digits, true, .minus, rfl, map_cast _ _⟩
  next digits => exact ⟨['+'], digits, false, .plus, rfl, map_cast _ _⟩
  next => exact ⟨[], text, false, .none, rfl, map_cast _ _⟩

/-- A whole number is read off exactly the forms without a point. -/
theorem toInt?_eq_some_iff (text : List Char) (n : Int) :
    toInt? text = some n ↔ Written text n ∧ '.' ∉ text := by
  constructor
  · intro read
    obtain ⟨sign, digits, negative, mark, rfl, same⟩ := exists_mark text
    obtain ⟨_, found, rfl⟩ := Option.map_eq_some_iff.1 (same.symm.trans read)
    obtain ⟨filled, all, rfl⟩ := (toNat?_eq_some_iff _ _).1 found
    rw [cast_turned]
    refine ⟨.signed mark (.whole filled all), ?_⟩
    rw [List.mem_append, not_or]
    exact ⟨by cases mark <;> decide, point_not_mem all⟩
  · rintro ⟨written, pointless⟩
    -- The number is an index of the relation, which the case analysis has to vary.
    generalize same : (n : ℚ) = q at written
    obtain ⟨mark, unsigned⟩ := written
    rw [toInt?_signed mark fun _ => unsigned.not_isSign, Option.map_eq_some_iff]
    cases unsigned with
    | whole filled all =>
      refine ⟨_, (toNat?_eq_some_iff _ _).2 ⟨filled, all, rfl⟩, ?_⟩
      exact Int.cast_injective ((cast_turned _ _).trans same.symm)
    | pointed => simp at pointless

end Decimal

open Decimal

/-! ## Folding -/

namespace Special

theorem ofInteger_eq_integer_iff (text : String) (n : Int) : ofInteger text = .integer n ↔
    Written text.toList n ∧ '.' ∉ text.toList ∧ -2 ^ 63 ≤ n ∧ n < 2 ^ 63 := by
  have fits : fitsInt64 n = true ↔ -2 ^ 63 ≤ n ∧ n < 2 ^ 63 := by simp [fitsInt64]
  rw [← and_assoc, ← toInt?_eq_some_iff, ← fits, ← Option.filter_eq_some_iff, ← toInt64?]
  unfold ofInteger
  split
  next found => rw [found, Special.integer.injEq, Option.some_inj]
  next none => simp [none]

/-- Only a literal of an integer datatype has the value of an integer: the number that it writes,
where that fits into 64 bits. -/
theorem ofLiteral_eq_integer_iff (text name : String) (n : Int) :
    ofLiteral text (xsd ++ name) = .integer n ↔ name ∈ integerTypes ∧ Written text.toList n ∧
      '.' ∉ text.toList ∧ -2 ^ 63 ≤ n ∧ n < 2 ^ 63 := by
  rw [ofLiteral, xsdLocalName_iff.2 rfl]
  simp only [List.contains_iff_mem]
  split_ifs with boolean integer dateTime
  · subst boolean
    refine iff_of_false (fun read => ?_) fun kept => absurd kept.1 (by decide)
    unfold ofBoolean at read
    split_ifs at read
  · rw [ofInteger_eq_integer_iff, and_iff_right integer]
  · refine iff_of_false (fun read => ?_) fun kept => integer kept.1
    unfold ofDateTime at read
    split at read
    · split_ifs at read
    · cases read
  · exact iff_of_false (fun read => by cases read) fun kept => integer kept.1

end Special

namespace Normal

/-- Local names of the datatypes whose literals are exact decimal numbers. -/
def exactTypes : List String := integerTypes ++ ["decimal"]

/-- The local name of the datatype that a signed literal gets. -/
def foldedType (name : String) : String := if name ∈ integerTypes then "integer" else name

/-- The operator before a literal that is to be turned, or to be kept. -/
def signOf (negate : Bool) : Sparql.UnaryOp := if negate then .minus else .plus

theorem expression_sign (negate : Bool) (a : Sparql.Expression) :
    expression (.unary (signOf negate) a) = signedLiteral negate a := by
  cases negate <;> rfl

/-- The digits stay, behind a minus exactly where the number is negative. -/
theorem toList_signedValue (negate : Bool) {text : String} {q : ℚ}
    (written : Written text.toList q) : (signedValue negate false text).toList =
      if turned negate q < 0 then '-' :: text.toList.dropWhile isSign
      else text.toList.dropWhile isSign := by
  obtain ⟨r, unsigned, rfl⟩ := written.parts
  -- The minus is put where the number changes its sign from plus or keeps minus, and is not zero.
  have negative : ((text.toList.head? == some '-') != negate &&
      (text.toList.dropWhile isSign).any fun c => c.isDigit && c != '0') = true ↔
      turned negate (turned (text.toList.head? == some '-') r) < 0 := by
    rw [Bool.and_eq_true, ← unsigned.pos_iff, turned_turned, turned_neg_iff unsigned.nonneg]
  unfold signedValue
  rw [apply_ite String.toList, String.toList_ofList, String.toList_ofList, Bool.false_or]
  exact if_congr negative rfl rfl

theorem written_signedValue (negate : Bool) {text : String} {q : ℚ}
    (written : Written text.toList q) :
    Written (signedValue negate false text).toList (turned negate q) := by
  obtain ⟨r, unsigned, same⟩ := written.parts
  rw [toList_signedValue negate written, same, turned_turned]
  exact .of_unsigned unsigned _

theorem head?_signedValue (negate : Bool) {text : String} {q : ℚ}
    (written : Written text.toList q) :
    (signedValue negate false text).toList.head? = some '-' ↔ turned negate q < 0 := by
  obtain ⟨r, unsigned, _⟩ := written.parts
  rw [toList_signedValue negate written]
  split
  next negative => exact iff_of_true rfl negative
  next notNegative => exact iff_of_false unsigned.head?_ne_minus notNegative

theorem point_mem_signedValue (negate : Bool) {text : String} {q : ℚ}
    (written : Written text.toList q) :
    '.' ∈ (signedValue negate false text).toList ↔ '.' ∈ text.toList := by
  have behind : '.' ∈ text.toList.dropWhile isSign ↔ '.' ∈ text.toList := by
    conv_rhs => rw [← List.takeWhile_append_dropWhile (p := isSign) (l := text.toList)]
    rw [List.mem_append]
    exact (or_iff_right fun signs => absurd (List.mem_takeWhile_imp signs) (by decide)).symm
  rw [← behind, toList_signedValue negate written]
  split
  · exact List.mem_cons.trans (or_iff_right (by decide))
  · rfl

theorem foldedType_mem {name : String} (listed : name ∈ exactTypes) :
    foldedType name ∈ exactTypes := by
  unfold foldedType
  split
  · decide
  · exact listed

theorem foldedType_integer (name : String) :
    foldedType name ∈ integerTypes ↔ name ∈ integerTypes := by
  unfold foldedType
  split
  next integer => exact iff_of_true (by decide) integer
  next => rfl

theorem foldedType_foldedType (name : String) :
    foldedType (foldedType name) = foldedType name := by
  by_cases integer : name ∈ integerTypes
  · rw [foldedType, if_pos ((foldedType_integer name).2 integer), foldedType, if_pos integer]
  · rw [foldedType, if_neg (mt (foldedType_integer name).1 integer)]

theorem signedLiteral_eq (negate : Bool) {name : String} (listed : name ∈ exactTypes)
    (text : String) (lang : Option String) :
    signedLiteral negate (.const (.literal text lang (xsd ++ name))) =
      .ok (.const (.literal (signedValue negate false text) none (xsd ++ foldedType name))) := by
  have numeric : numericTypes.contains name = true := by
    revert name
    decide
  have notFloating : (name == "double" || name == "float") = false := by
    revert name
    decide
  have named : (xsdLocalName? (xsd ++ name)).filter numericTypes.contains = some name := by
    rw [xsdLocalName_iff.2 rfl, Option.filter_some, if_pos numeric]
  have datatype : (if integerTypes.contains name then xsdInteger else xsd ++ name) =
      xsd ++ foldedType name := by
    simp only [List.contains_iff_mem, foldedType, apply_ite (xsd ++ ·)]
    rfl
  simp only [signedLiteral, named, notFloating, datatype]

/-- A sign before an integer or a decimal of any length is folded into a literal of the integers or
the decimals, which writes the same number or the opposite one, and has a minus only where that is
negative. An integer is compared by the new number wherever that fits into 64 bits. Folding the sign
once more gives a literal that writes the first number. -/
theorem sign_folds_into_number (negate : Bool) {name text : String} {lang : Option String} {q : ℚ}
    (listed : name ∈ exactTypes) (written : Written text.toList q) :
    ∃ folded : String,
      expression (.unary (signOf negate) (.const (.literal text lang (xsd ++ name)))) =
        .ok (.const (.literal folded none (xsd ++ foldedType name))) ∧
      (∀ r, Written folded.toList r ↔ r = turned negate q) ∧
      (folded.toList.head? = some '-' ↔ turned negate q < 0) ∧
      (∀ n, Special.ofLiteral folded (xsd ++ foldedType name) = .integer n ↔
        name ∈ integerTypes ∧ (n : ℚ) = turned negate q ∧ '.' ∉ text.toList ∧
          -2 ^ 63 ≤ n ∧ n < 2 ^ 63) ∧
      ∃ again : String,
        expression (.unary (signOf negate)
            (.const (.literal folded none (xsd ++ foldedType name)))) =
          .ok (.const (.literal again none (xsd ++ foldedType name))) ∧
        ∀ r, Written again.toList r ↔ r = q := by
  have folds {name : String} (listed : name ∈ exactTypes) (text : String) (lang : Option String) :=
    (expression_sign negate _).trans (signedLiteral_eq negate listed text lang)
  have once := written_signedValue negate written
  have twice := written_signedValue negate once
  have kept := folds (foldedType_mem listed) (signedValue negate false text) none
  rw [foldedType_foldedType] at kept
  rw [turned_twice] at twice
  refine ⟨_, folds listed text lang, once.iff_eq, head?_signedValue negate written,
    fun n => ?_, _, kept, twice.iff_eq⟩
  rw [Special.ofLiteral_eq_integer_iff, once.iff_eq, foldedType_integer,
    point_mem_signedValue negate written]

/-- The least 64-bit integer, whose opposite is none, and a zero with a sign. -/
theorem sign_folds_into_number_sample :
    ("unsignedLong" ∈ exactTypes ∧ Written "9223372036854775808".toList (2 ^ 63) ∧
      ∃ folded : String,
        expression (.unary .minus
            (.const (.literal "9223372036854775808" none (xsd ++ "unsignedLong")))) =
          .ok (.const (.literal folded none (xsd ++ "integer"))) ∧
        Written folded.toList (-2 ^ 63) ∧
        Special.ofLiteral folded (xsd ++ "integer") = .integer (-2 ^ 63)) ∧
    "decimal" ∈ exactTypes ∧ Written "-0.00".toList 0 ∧
      ∃ folded : String,
        expression (.unary .plus (.const (.literal "-0.00" none (xsd ++ "decimal")))) =
          .ok (.const (.literal folded none (xsd ++ "decimal"))) ∧
        Written folded.toList 0 ∧ folded.toList.head? ≠ some '-' := by
  have integer : "unsignedLong" ∈ exactTypes := by decide
  have decimal : "decimal" ∈ exactTypes := by decide
  have large : Written "9223372036854775808".toList (2 ^ 63) := by
    have written := ((toInt?_eq_some_iff "9223372036854775808".toList (2 ^ 63)).1
      (by decide +kernel)).1
    exact_mod_cast written
  have zero : Written "-0.00".toList 0 := by
    have written := Written.signed .minus
      (@Unsigned.pointed ['0'] ['0', '0'] (by simp) (by simp))
    have nothing : value (['0'] ++ ['0', '0']) = 0 := by decide +kernel
    rw [nothing, Nat.cast_zero, zero_div] at written
    exact neg_zero (G := ℚ) ▸ written
  obtain ⟨least, made, exact, _, special, _⟩ :=
    @sign_folds_into_number true "unsignedLong" "9223372036854775808" none _ integer large
  obtain ⟨unsigned, made', exact', marked, _⟩ :=
    @sign_folds_into_number false "decimal" "-0.00" none _ decimal zero
  refine ⟨⟨integer, large, least, made, (exact _).2 rfl, ?_⟩,
    decimal, zero, unsigned, made', (exact' _).2 rfl, fun minus => ?_⟩
  · refine (special _).2 ⟨by decide, ?_, by decide +kernel, by decide, by decide⟩
    push_cast
    rfl
  · exact lt_irrefl 0 (marked.1 minus)

end Normal

end AttestedQuery
