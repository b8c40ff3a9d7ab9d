import AttestedQuery.Literal.Special
import AttestedQuery.Proofs.Calendar
import AttestedQuery.Proofs.HonestHints
import Mathlib.Data.List.TakeWhile
import Mathlib.Data.Rat.Floor

/-!
# Points in time in exact milliseconds

The lexical forms of a date and time with a time zone, part by part, and the exact number of seconds
that each names. The special value of such a literal is that number times a thousand, rounded down;
it is kept only where it fits into 64 bits. So equal instants have equal values, whatever their time
zones, and the order of instants is never reversed.
-/

set_option autoImplicit false

namespace AttestedQuery

namespace Instant

/-! ## What a lexical form says -/

def IsPair (text : List Char) (n : Nat) : Prop :=
  text.length = 2 ∧ (∀ c ∈ text, c.isDigit = true) ∧ n = Decimal.value text

/-- A year of at least four digits, of more only without a leading zero. -/
def IsYear (text : List Char) (year : Int) : Prop :=
  ∃ digits, (∀ c ∈ digits, c.isDigit = true) ∧ 4 ≤ digits.length ∧
    (4 < digits.length → digits.head? ≠ some '0') ∧
    (text = digits ∧ year = Decimal.value digits ∨
      text = '-' :: digits ∧ year = -(Decimal.value digits : Int))

/-- No fraction of a second, or a point and digits whose exact value is a number of attoseconds. -/
def IsFraction (text : List Char) (attos : Nat) : Prop :=
  text = [] ∧ attos = 0 ∨
    ∃ digits, text = '.' :: digits ∧ digits ≠ [] ∧ (∀ c ∈ digits, c.isDigit = true) ∧
      attos * 10 ^ digits.length = Decimal.value digits * 10 ^ 18

/-- Universal time, or a distance from it of at most fourteen hours. -/
def IsZone (text : List Char) (minutes : Int) : Prop :=
  text = ['Z'] ∧ minutes = 0 ∨
    ∃ (hourText minuteText : List Char) (h m : Nat), IsPair hourText h ∧ IsPair minuteText m ∧
      m < 60 ∧ (h < 14 ∨ h = 14 ∧ m = 0) ∧
      (text = '+' :: (hourText ++ ':' :: minuteText) ∧ minutes = (h * 60 + m : Nat) ∨
        text = '-' :: (hourText ++ ':' :: minuteText) ∧ minutes = -(h * 60 + m : Nat))

/-- A day of the calendar and a time of the day, where the hour 24 is only its end. -/
structure Valid (t : Instant) : Prop where
  month : 1 ≤ t.month ∧ t.month ≤ 12
  day : 1 ≤ t.day ∧ t.day ≤ daysInMonth t.year t.month
  minute : t.minute < 60
  second : t.second < 60
  hour : t.hour < 24 ∨ t.hour = 24 ∧ t.minute = 0 ∧ t.second = 0 ∧ t.attos = 0

/-- The texts that name an instant. -/
inductive Written : List Char → Instant → Prop where
  | parts {yearText monthText dayText hourText minuteText secondText fraction zoneText : List Char}
      {t : Instant} (year : IsYear yearText t.year) (month : IsPair monthText t.month)
      (day : IsPair dayText t.day) (hour : IsPair hourText t.hour)
      (minute : IsPair minuteText t.minute) (second : IsPair secondText t.second)
      (attos : IsFraction fraction t.attos) (zone : IsZone zoneText t.zone) (valid : t.Valid) :
      Written (yearText ++ '-' :: (monthText ++ '-' :: (dayText ++ 'T' :: (hourText ++ ':' ::
        (minuteText ++ ':' :: (secondText ++ (fraction ++ zoneText))))))) t

/-! ## Reading -/

theorem isPair_iff (text : List Char) (n : Nat) : IsPair text n ↔
    ∃ a b, text = [a, b] ∧ a.isDigit = true ∧ b.isDigit = true ∧ n = Decimal.value [a, b] := by
  constructor
  · rintro ⟨two, digits, same⟩
    obtain ⟨a, b, rfl⟩ := List.length_eq_two.1 two
    exact ⟨a, b, rfl, digits a (by simp), digits b (by simp), same⟩
  · rintro ⟨a, b, rfl, first, second, same⟩
    exact ⟨rfl, by simp [first, second], same⟩

theorem twoDigits_eq_some_iff (text : List Char) (n : Nat) (rest : List Char) :
    twoDigits text = some (n, rest) ↔ ∃ pair, text = pair ++ rest ∧ IsPair pair n := by
  simp only [isPair_iff]
  constructor
  · intro read
    match text, read with
    | a :: b :: others, read =>
      rw [twoDigits] at read
      split at read
      next digits =>
        obtain ⟨rfl, rfl⟩ := Prod.mk.inj (Option.some.inj read)
        obtain ⟨first, second⟩ := Bool.and_eq_true_iff.1 digits
        exact ⟨[a, b], rfl, a, b, rfl, first, second, rfl⟩
      next => cases read
  · rintro ⟨_, rfl, a, b, rfl, first, second, rfl⟩
    simp [twoDigits, first, second]

theorem mark_eq_some_iff (expected : Char) (text rest : List Char) :
    mark expected text = some rest ↔ text = expected :: rest := by
  cases text with
  | nil => simp [mark]
  | cons c others => simp [mark, eq_comm]

def Ended (rest : List Char) : Prop := ∀ c ∈ rest.head?, c.isDigit = false

theorem span_digits_iff (text digits rest : List Char) :
    text.span Char.isDigit = (digits, rest) ↔
      text = digits ++ rest ∧ (∀ c ∈ digits, c.isDigit = true) ∧ Ended rest := by
  rw [List.span_eq_takeWhile_dropWhile, Prod.mk.injEq]
  constructor
  · rintro ⟨rfl, rfl⟩
    refine ⟨(List.takeWhile_append_dropWhile ..).symm, fun c => List.mem_takeWhile_imp, ?_⟩
    intro c first
    have stopped := List.head?_dropWhile_not Char.isDigit text
    rwa [Option.mem_def.1 first] at stopped
  · rintro ⟨rfl, all, ended⟩
    have stops : rest.takeWhile Char.isDigit = [] ∧ rest.dropWhile Char.isDigit = rest := by
      cases rest with
      | nil => exact ⟨rfl, rfl⟩
      | cons c others =>
        have no : c.isDigit = false := ended c rfl
        simp [no]
    rw [List.takeWhile_append_of_pos all, List.dropWhile_append_of_pos all, stops.1, stops.2,
      List.append_nil]
    exact ⟨rfl, rfl⟩

def readUnsigned (negative : Bool) (text : List Char) : Option (Int × List Char) :=
  let (digits, rest) := text.span Char.isDigit
  if digits.length < 4 ∨ 4 < digits.length ∧ digits.head? = some '0' then none
  else some (if negative then -(Decimal.value digits : Int) else Decimal.value digits, rest)

theorem readYear_minus (text : List Char) : readYear ('-' :: text) = readUnsigned true text := rfl

theorem readYear_unsigned {text : List Char} (unsigned : ∀ rest, text ≠ '-' :: rest) :
    readYear text = readUnsigned false text := by
  unfold readYear
  split
  next signed =>
    split at signed
    next rest => exact absurd rfl (unsigned rest)
    next =>
      obtain ⟨rfl, rfl⟩ := Prod.mk.inj signed
      rfl

theorem readUnsigned_eq_some_iff (negative : Bool) (text : List Char) (year : Int)
    (rest : List Char) : readUnsigned negative text = some (year, rest) ↔
      ∃ digits, text = digits ++ rest ∧ (∀ c ∈ digits, c.isDigit = true) ∧ Ended rest ∧
        4 ≤ digits.length ∧ (4 < digits.length → digits.head? ≠ some '0') ∧
        year = if negative then -(Decimal.value digits : Int) else Decimal.value digits := by
  constructor
  · intro read
    rcases spanned : text.span Char.isDigit with ⟨digits, others⟩
    obtain ⟨rfl, all, ended⟩ := (span_digits_iff _ _ _).1 spanned
    rw [readUnsigned, spanned] at read
    simp only at read
    split at read
    next => cases read
    next fits =>
      obtain ⟨rfl, rfl⟩ := Prod.mk.inj (Option.some.inj read)
      obtain ⟨several, leading⟩ := not_or.1 fits
      exact ⟨digits, rfl, all, ended, Nat.le_of_not_lt several, not_and.1 leading, rfl⟩
  · rintro ⟨digits, rfl, all, ended, several, leading, rfl⟩
    rw [readUnsigned, (span_digits_iff _ digits rest).2 ⟨rfl, all, ended⟩]
    exact if_neg (not_or.2 ⟨Nat.not_lt.2 several, not_and.2 leading⟩)

theorem readYear_eq_some_iff (text : List Char) (year : Int) (rest : List Char) :
    readYear text = some (year, rest) ↔
      ∃ front, text = front ++ rest ∧ IsYear front year ∧ Ended rest := by
  constructor
  · intro read
    by_cases signed : ∃ others, text = '-' :: others
    · obtain ⟨others, rfl⟩ := signed
      rw [readYear_minus, readUnsigned_eq_some_iff] at read
      obtain ⟨digits, rfl, all, ended, several, leading, same⟩ := read
      exact ⟨'-' :: digits, rfl, ⟨digits, all, several, leading, Or.inr ⟨rfl, same⟩⟩, ended⟩
    · rw [readYear_unsigned (not_exists.1 signed), readUnsigned_eq_some_iff] at read
      obtain ⟨digits, rfl, all, ended, several, leading, same⟩ := read
      exact ⟨digits, rfl, ⟨digits, all, several, leading, Or.inl ⟨rfl, same⟩⟩, ended⟩
  · rintro ⟨front, rfl, ⟨digits, all, several, leading, ⟨rfl, rfl⟩ | ⟨rfl, rfl⟩⟩, ended⟩
    · have unsigned : ∀ others, front ++ rest ≠ '-' :: others := by
        intro others same
        cases front with
        | nil => simp at several
        | cons c more =>
          obtain ⟨rfl, _⟩ := List.cons.inj same
          exact absurd (all '-' List.mem_cons_self) (by decide)
      rw [readYear_unsigned unsigned, readUnsigned_eq_some_iff]
      exact ⟨front, rfl, all, ended, several, leading, rfl⟩
    · rw [List.cons_append, readYear_minus, readUnsigned_eq_some_iff]
      exact ⟨digits, rfl, all, ended, several, leading, rfl⟩

/-! ## Fractions -/

/-- The digits of a fraction without the zeros at their end. -/
def significant (digits : List Char) : List Char := (digits.reverse.dropWhile (· == '0')).reverse

theorem exists_significant (digits : List Char) :
    ∃ zeros, digits = significant digits ++ List.replicate zeros '0' := by
  have parts := List.takeWhile_append_dropWhile (p := (· == '0')) (l := digits.reverse)
  have same : digits.reverse.takeWhile (· == '0') =
      List.replicate (digits.reverse.takeWhile (· == '0')).length '0' :=
    List.eq_replicate_of_mem fun c member => by simpa using List.mem_takeWhile_imp member
  refine ⟨(digits.reverse.takeWhile (· == '0')).length, ?_⟩
  rw [significant, ← List.reverse_replicate, ← same, ← List.reverse_append, parts,
    List.reverse_reverse]

theorem value_zeros (digits : List Char) (zeros : Nat) :
    Decimal.value (digits ++ List.replicate zeros '0') = 10 ^ zeros * Decimal.value digits := by
  rw [Decimal.value, Nat.ofDigitChars_append, Nat.ofDigitChars_replicate_zero]
  rfl

/-- What is left of the digits does not end with a zero, so neither does its number. -/
theorem value_significant {digits : List Char} (all : ∀ c ∈ digits, c.isDigit = true)
    (filled : significant digits ≠ []) : Decimal.value (significant digits) % 10 ≠ 0 := by
  have ends : ∃ front last, significant digits = front ++ [last] ∧ last ≠ '0' ∧ last.isDigit = true := by
    have stopped := List.head?_dropWhile_not (· == '0') digits.reverse
    rw [significant] at filled ⊢
    cases left : digits.reverse.dropWhile (· == '0') with
    | nil => simp [left] at filled
    | cons last others =>
      rw [left, List.head?_cons] at stopped
      have member : last ∈ digits.reverse :=
        (List.dropWhile_sublist _).subset (left ▸ List.mem_cons_self)
      exact ⟨others.reverse, last, by simp, by simpa using stopped,
        all last (List.mem_reverse.1 member)⟩
  obtain ⟨front, last, same, notZero, isDigit⟩ := ends
  have code : 48 < last.toNat ∧ last.toNat ≤ 57 := by
    obtain ⟨lower, upper⟩ := Bool.and_eq_true_iff.1 isDigit
    have lower : 48 ≤ last.toNat := of_decide_eq_true lower
    have upper : last.toNat ≤ 57 := of_decide_eq_true upper
    have different : last.toNat ≠ 48 := fun zero => notZero (Char.toNat_inj.1 zero)
    omega
  rw [same, Decimal.value, Nat.ofDigitChars_append, Nat.ofDigitChars_cons, Nat.ofDigitChars_nil]
  have zero : '0'.toNat = 48 := rfl
  omega

/-- A fraction is a number of attoseconds exactly where at most eighteen digits matter. -/
theorem attos_iff {digits : List Char} (all : ∀ c ∈ digits, c.isDigit = true) (attos : Nat) :
    attos * 10 ^ digits.length = Decimal.value digits * 10 ^ 18 ↔
      (significant digits).length ≤ 18 ∧
        attos = Decimal.value (significant digits) * 10 ^ (18 - (significant digits).length) := by
  obtain ⟨zeros, whole⟩ := exists_significant digits
  have length : digits.length = (significant digits).length + zeros := by
    conv_lhs => rw [whole, List.length_append, List.length_replicate]
  have value : Decimal.value digits = 10 ^ zeros * Decimal.value (significant digits) := by
    conv_lhs => rw [whole, value_zeros]
  -- The zeros at the end count on both sides.
  have shorter : attos * 10 ^ digits.length = Decimal.value digits * 10 ^ 18 ↔
      attos * 10 ^ (significant digits).length = Decimal.value (significant digits) * 10 ^ 18 := by
    rw [length, value, Nat.pow_add, ← Nat.mul_assoc, Nat.mul_comm (10 ^ zeros),
      Nat.mul_right_comm (Decimal.value _), Nat.mul_left_inj (by positivity)]
  rw [shorter]
  constructor
  · intro same
    have few : (significant digits).length ≤ 18 := by
      by_contra many
      have filled : significant digits ≠ [] := by
        rintro empty
        simp [empty] at many
      obtain ⟨more, count⟩ := Nat.exists_eq_add_of_lt (Nat.lt_of_not_le many)
      rw [count, Nat.add_assoc, Nat.pow_add, Nat.mul_comm (10 ^ 18), ← Nat.mul_assoc,
        Nat.mul_left_inj (by positivity), Nat.pow_succ, ← Nat.mul_assoc] at same
      exact value_significant all filled (by omega)
    refine ⟨few, Nat.eq_of_mul_eq_mul_right (Nat.pow_pos (by decide : 0 < 10)) (same.trans ?_)⟩
    rw [Nat.mul_assoc, ← Nat.pow_add, Nat.sub_add_cancel few]
  · rintro ⟨few, rfl⟩
    rw [Nat.mul_assoc, ← Nat.pow_add, Nat.sub_add_cancel few]

theorem readFraction_point (digits rest : List Char) (all : ∀ c ∈ digits, c.isDigit = true)
    (ended : Ended rest) : readFraction ('.' :: (digits ++ rest)) =
      if digits.isEmpty = true ∨ 18 < (significant digits).length then none
      else some
        (Decimal.value (significant digits) * 10 ^ (18 - (significant digits).length), rest) := by
  rw [readFraction, (span_digits_iff _ digits rest).2 ⟨rfl, all, ended⟩]
  rfl

theorem readFraction_none {text : List Char} (pointless : text.head? ≠ some '.') :
    readFraction text = some (0, text) := by
  unfold readFraction
  split
  next => exact absurd rfl pointless
  next => rfl

/-- The text goes on after a fraction so that the fraction does not go on. -/
def FractionEnded (fraction rest : List Char) : Prop :=
  if fraction = [] then rest.head? ≠ some '.' else Ended rest

theorem readFraction_eq_some_iff (text : List Char) (attos : Nat) (rest : List Char) :
    readFraction text = some (attos, rest) ↔
      ∃ fraction, text = fraction ++ rest ∧ IsFraction fraction attos ∧
        FractionEnded fraction rest := by
  constructor
  · intro read
    by_cases pointed : text.head? = some '.'
    · obtain ⟨others, rfl⟩ := List.head?_eq_some_iff.1 pointed
      rcases spanned : others.span Char.isDigit with ⟨digits, after⟩
      obtain ⟨rfl, all, ended⟩ := (span_digits_iff _ _ _).1 spanned
      rw [readFraction_point digits after all ended] at read
      split at read
      next => cases read
      next fits =>
        obtain ⟨filled, few⟩ := not_or.1 fits
        obtain ⟨rfl, rfl⟩ := Prod.mk.inj (Option.some.inj read)
        refine ⟨'.' :: digits, rfl, Or.inr ⟨digits, rfl, by simpa using filled, all, ?_⟩, ended⟩
        exact (attos_iff all _).2 ⟨Nat.le_of_not_lt few, rfl⟩
    · rw [readFraction_none pointed] at read
      obtain ⟨rfl, rfl⟩ := Prod.mk.inj (Option.some.inj read)
      exact ⟨[], rfl, Or.inl ⟨rfl, rfl⟩, pointed⟩
  · rintro ⟨fraction, rfl, ⟨rfl, rfl⟩ | ⟨digits, rfl, filled, all, value⟩, ended⟩
    · exact readFraction_none ended
    · obtain ⟨few, rfl⟩ := (attos_iff all attos).1 value
      rw [List.cons_append, readFraction_point digits rest all ended, if_neg]
      exact not_or.2 ⟨by simpa using filled, Nat.not_lt.2 few⟩

/-! ## Time zones -/

/-- Reads the hours and minutes behind the sign of a time zone. -/
def readDistance (factor : Int) (text : List Char) : Option Int := do
  let (hours, rest) ← twoDigits text
  let rest ← mark ':' rest
  let (minutes, rest) ← twoDigits rest
  if rest.isEmpty ∧ minutes < 60 ∧ (hours < 14 ∨ (hours = 14 ∧ minutes = 0)) then
    some (factor * (hours * 60 + minutes : Nat))
  else none

theorem readDistance_eq_some_iff (factor : Int) (text : List Char) (minutes : Int) :
    readDistance factor text = some minutes ↔
      ∃ (hourText minuteText : List Char) (h m : Nat), IsPair hourText h ∧ IsPair minuteText m ∧
        m < 60 ∧ (h < 14 ∨ h = 14 ∧ m = 0) ∧ text = hourText ++ ':' :: minuteText ∧
        minutes = factor * (h * 60 + m : Nat) := by
  simp only [readDistance, Option.bind_eq_bind, Option.bind_eq_some_iff, Prod.exists,
    twoDigits_eq_some_iff, mark_eq_some_iff]
  constructor
  · rintro ⟨h, _, ⟨hourText, rfl, hour⟩, _, rfl, m, rest, ⟨minuteText, rfl, minute⟩, read⟩
    split at read
    next fits =>
      obtain ⟨ended, within, far⟩ := fits
      obtain rfl := List.isEmpty_iff.1 ended
      obtain rfl := Option.some.inj read
      exact ⟨hourText, minuteText, h, m, hour, minute, within, far, by simp, rfl⟩
    next => cases read
  · rintro ⟨hourText, minuteText, h, m, hour, minute, within, far, rfl, rfl⟩
    refine ⟨h, _, ⟨hourText, rfl, hour⟩, _, rfl, m, [], ⟨minuteText, by simp, minute⟩, ?_⟩
    exact if_pos ⟨rfl, within, far⟩

theorem readZone_plus (text : List Char) : readZone ('+' :: text) = readDistance 1 text := by
  cases text <;> rfl

theorem readZone_minus (text : List Char) : readZone ('-' :: text) = readDistance (-1) text := by
  cases text <;> rfl

theorem readZone_unsigned {sign : Char} (plus : sign ≠ '+') (minus : sign ≠ '-')
    (text : List Char) : readZone (sign :: text) = if sign :: text = ['Z'] then some 0 else none := by
  split
  next same => rw [same]; rfl
  next other =>
    unfold readZone
    split
    next same => exact absurd same other
    next same =>
      obtain ⟨rfl, rfl⟩ := List.cons.inj same
      simp [plus, minus]
    next same => cases same

theorem readZone_eq_some_iff (text : List Char) (minutes : Int) :
    readZone text = some minutes ↔ IsZone text minutes := by
  constructor
  · intro read
    cases text with
    | nil => cases read
    | cons sign rest =>
      by_cases plus : sign = '+'
      · rw [plus, readZone_plus, readDistance_eq_some_iff] at read
        obtain ⟨hourText, minuteText, h, m, hour, minute, within, far, rfl, rfl⟩ := read
        exact Or.inr ⟨hourText, minuteText, h, m, hour, minute, within, far,
          Or.inl ⟨by rw [plus], Int.one_mul _⟩⟩
      by_cases minus : sign = '-'
      · rw [minus, readZone_minus, readDistance_eq_some_iff] at read
        obtain ⟨hourText, minuteText, h, m, hour, minute, within, far, rfl, rfl⟩ := read
        exact Or.inr ⟨hourText, minuteText, h, m, hour, minute, within, far,
          Or.inr ⟨by rw [minus], Int.neg_one_mul _⟩⟩
      rw [readZone_unsigned plus minus] at read
      split at read
      next same => exact Or.inl ⟨same, (Option.some.inj read).symm⟩
      next => cases read
  · rintro (⟨rfl, rfl⟩ | ⟨hourText, minuteText, h, m, hour, minute, within, far, ⟨rfl, rfl⟩ | ⟨rfl, rfl⟩⟩)
    · rfl
    · rw [readZone_plus, readDistance_eq_some_iff]
      exact ⟨hourText, minuteText, h, m, hour, minute, within, far, rfl, (Int.one_mul _).symm⟩
    · rw [readZone_minus, readDistance_eq_some_iff]
      exact ⟨hourText, minuteText, h, m, hour, minute, within, far, rfl, (Int.neg_one_mul _).symm⟩

/-! ## Whole texts -/

theorem isValid_iff (t : Instant) : t.isValid = true ↔ t.Valid := by
  simp only [isValid, Bool.and_eq_true, Bool.or_eq_true, decide_eq_true_eq, beq_iff_eq, and_assoc]
  constructor
  · rintro ⟨first, last, early, late, minute, second, hour⟩
    exact ⟨⟨first, last⟩, ⟨early, late⟩, minute, second, hour⟩
  · rintro ⟨⟨first, last⟩, ⟨early, late⟩, minute, second, hour⟩
    exact ⟨first, last, early, late, minute, second, hour⟩

theorem ended_of_isZone {text : List Char} {minutes : Int} (zone : IsZone text minutes) :
    text.head? ≠ some '.' ∧ Ended text := by
  have first : text.head? = some 'Z' ∨ text.head? = some '+' ∨ text.head? = some '-' := by
    rcases zone with ⟨rfl, _⟩ | ⟨_, _, _, _, _, _, _, _, ⟨rfl, _⟩ | ⟨rfl, _⟩⟩
    · exact Or.inl rfl
    · exact Or.inr (Or.inl rfl)
    · exact Or.inr (Or.inr rfl)
  rw [Ended]
  rcases first with same | same | same
  all_goals
    rw [same]
    exact ⟨by decide, by rintro c ⟨⟩; rfl⟩

theorem fractionEnded_of_isZone {text : List Char} {minutes : Int} (zone : IsZone text minutes)
    (fraction : List Char) : FractionEnded fraction text := by
  obtain ⟨pointless, ended⟩ := ended_of_isZone zone
  unfold FractionEnded
  split
  · exact pointless
  · exact ended

theorem markedPair_eq_some_iff {α : Type} {expected : Char} {text : List Char} {a : α}
    {next : Nat × List Char → Option α} :
    (mark expected text >>= fun rest => twoDigits rest >>= next) = some a ↔
      ∃ pair n rest, text = expected :: (pair ++ rest) ∧ IsPair pair n ∧
        next (n, rest) = some a := by
  simp only [Option.bind_eq_bind, Option.bind_eq_some_iff, Prod.exists, mark_eq_some_iff,
    twoDigits_eq_some_iff]
  constructor
  · rintro ⟨_, rfl, n, rest, ⟨pair, rfl, digits⟩, continued⟩
    exact ⟨pair, n, rest, rfl, digits, continued⟩
  · rintro ⟨pair, n, rest, rfl, digits, continued⟩
    exact ⟨_, rfl, n, rest, ⟨pair, rfl, digits⟩, continued⟩

/-- A text is read as an instant exactly where it names the instant. -/
theorem parse_eq_some_iff (text : List Char) (t : Instant) :
    parse text = some t ↔ Written text t := by
  constructor
  · intro read
    obtain ⟨⟨year, _⟩, front, afterYear⟩ := Option.bind_eq_some_iff.1 read
    obtain ⟨yearText, rfl, isYear, _⟩ := (readYear_eq_some_iff _ _ _).1 front
    obtain ⟨monthText, month, _, rfl, isMonth, afterMonth⟩ := markedPair_eq_some_iff.1 afterYear
    obtain ⟨dayText, day, _, rfl, isDay, afterDay⟩ := markedPair_eq_some_iff.1 afterMonth
    obtain ⟨hourText, hour, _, rfl, isHour, afterHour⟩ := markedPair_eq_some_iff.1 afterDay
    obtain ⟨minuteText, minute, _, rfl, isMinute, afterMinute⟩ :=
      markedPair_eq_some_iff.1 afterHour
    obtain ⟨secondText, second, _, rfl, isSecond, afterSecond⟩ :=
      markedPair_eq_some_iff.1 afterMinute
    obtain ⟨⟨attos, _⟩, part, afterFraction⟩ := Option.bind_eq_some_iff.1 afterSecond
    obtain ⟨fraction, rfl, isFraction, _⟩ := (readFraction_eq_some_iff _ _ _).1 part
    obtain ⟨zone, last, checked⟩ := Option.bind_eq_some_iff.1 afterFraction
    have isZone := (readZone_eq_some_iff _ _).1 last
    simp only at checked
    split at checked
    next valid =>
      obtain rfl := Option.some.inj checked
      exact .parts isYear isMonth isDay isHour isMinute isSecond isFraction isZone
        ((isValid_iff _).1 valid)
    next => cases checked
  · rintro ⟨isYear, isMonth, isDay, isHour, isMinute, isSecond, isFraction, isZone, valid⟩
    have dash (rest : List Char) : Ended ('-' :: rest) := by rintro c ⟨⟩; rfl
    refine Option.bind_eq_some_iff.2 ⟨(t.year, _),
      (readYear_eq_some_iff _ _ _).2 ⟨_, rfl, isYear, dash _⟩, ?_⟩
    refine markedPair_eq_some_iff.2 ⟨_, t.month, _, rfl, isMonth, ?_⟩
    refine markedPair_eq_some_iff.2 ⟨_, t.day, _, rfl, isDay, ?_⟩
    refine markedPair_eq_some_iff.2 ⟨_, t.hour, _, rfl, isHour, ?_⟩
    refine markedPair_eq_some_iff.2 ⟨_, t.minute, _, rfl, isMinute, ?_⟩
    refine markedPair_eq_some_iff.2 ⟨_, t.second, _, rfl, isSecond, ?_⟩
    refine Option.bind_eq_some_iff.2 ⟨(t.attos, _), (readFraction_eq_some_iff _ _ _).2
      ⟨_, rfl, isFraction, fractionEnded_of_isZone isZone _⟩, ?_⟩
    refine Option.bind_eq_some_iff.2 ⟨t.zone, (readZone_eq_some_iff _ _).2 isZone, ?_⟩
    exact if_pos ((isValid_iff t).2 valid)

/-! ## Exact seconds -/

/-- The exact number of seconds since 1970-01-01T00:00:00Z. -/
def seconds (t : Instant) : ℚ :=
  86400 * (daysToYear t.year + daysToMonth t.year t.month + (t.day - 1)) +
    3600 * t.hour + 60 * t.minute + t.second + t.attos / 10 ^ 18 - 60 * t.zone

theorem sinceEpoch_eq {t : Instant} (valid : t.Valid) :
    (t.sinceEpoch : ℚ) = 10 ^ 18 * t.seconds := by
  rw [sinceEpoch, daysFromEpoch_eq t.year valid.month.1 valid.month.2 valid.day.1, seconds,
    attosPerSecond]
  push_cast
  ring

theorem millis_eq {t : Instant} (valid : t.Valid) : t.millis = ⌊1000 * t.seconds⌋ := by
  have exact : 1000 * t.seconds = (t.sinceEpoch : ℚ) / ((10 ^ 15 : Nat) : ℚ) := by
    rw [sinceEpoch_eq valid]
    push_cast
    ring
  rw [exact, Rat.floor_intCast_div_natCast, millis]
  rfl

theorem Written.valid {text : List Char} {t : Instant} (written : Written text t) : t.Valid := by
  cases written with
  | parts _ _ _ _ _ _ _ _ valid => exact valid

/-- A text names one instant at most. -/
theorem Written.unique {text : List Char} {t u : Instant} (first : Written text t)
    (second : Written text u) : t = u := by
  rw [← parse_eq_some_iff] at first second
  exact Option.some.inj (first.symm.trans second)

end Instant

namespace Special

open Instant

/-- The value of a point in time, which is none where it does not fit. -/
theorem ofDateTime_written {text : String} {t : Instant} (written : Written text.toList t) :
    ofDateTime text = if -2 ^ 63 ≤ ⌊1000 * t.seconds⌋ ∧ ⌊1000 * t.seconds⌋ < 2 ^ 63
      then .millis ⌊1000 * t.seconds⌋ else .raw := by
  rw [ofDateTime, (parse_eq_some_iff _ _).2 written, ← millis_eq written.valid]
  simp [Decimal.fitsInt64]

theorem ofDateTime_eq_millis_iff (text : String) (m : Int) : ofDateTime text = .millis m ↔
    ∃ t, Written text.toList t ∧ m = ⌊1000 * t.seconds⌋ ∧ -2 ^ 63 ≤ m ∧ m < 2 ^ 63 := by
  constructor
  · intro read
    cases parsed : parse text.toList with
    | none => simp [ofDateTime, parsed] at read
    | some t =>
      have written := (parse_eq_some_iff _ _).1 parsed
      rw [ofDateTime_written written] at read
      split at read
      next fits =>
        obtain rfl := Special.millis.inj read
        exact ⟨t, written, rfl, fits⟩
      next => cases read
  · rintro ⟨t, written, rfl, fits⟩
    rw [ofDateTime_written written, if_pos fits]

theorem ofLiteral_eq_millis_iff (text datatype : String) (m : Int) :
    ofLiteral text datatype = .millis m ↔
      datatype = xsd ++ "dateTime" ∧ ofDateTime text = .millis m := by
  constructor
  · intro read
    unfold ofLiteral at read
    split at read
    next => cases read
    next name named =>
      split at read
      next =>
        rw [ofBoolean] at read
        split_ifs at read
      next =>
        split at read
        next =>
          rw [ofInteger] at read
          split at read <;> cases read
        next =>
          split at read
          next dateTime => exact ⟨dateTime ▸ xsdLocalName_iff.1 named, read⟩
          next => cases read
  · rintro ⟨rfl, read⟩
    rw [ofLiteral, xsdLocalName_iff.2 rfl]
    exact read

/-- The value of a date and time with a time zone is the exact number of milliseconds since the
epoch, rounded down, and there is no value where that number does not fit into 64 bits. Equal
instants have equal values, and a later instant has no smaller one. -/
theorem epoch_millis_exact (first second datatype : String) :
    (∀ m, ofLiteral first datatype = .millis m ↔ datatype = xsd ++ "dateTime" ∧
      ∃ t, Written first.toList t ∧ m = ⌊1000 * t.seconds⌋ ∧ -2 ^ 63 ≤ m ∧ m < 2 ^ 63) ∧
    ∀ t u, Written first.toList t → Written second.toList u →
      (¬(-2 ^ 63 ≤ ⌊1000 * t.seconds⌋ ∧ ⌊1000 * t.seconds⌋ < 2 ^ 63) →
        ofLiteral first (xsd ++ "dateTime") = .raw) ∧
      ∀ m n, ofLiteral first datatype = .millis m → ofLiteral second datatype = .millis n →
        (t.seconds = u.seconds → m = n) ∧ (t.seconds ≤ u.seconds → m ≤ n) := by
  have exact (text : String) (m : Int) := (ofLiteral_eq_millis_iff text datatype m).trans
    (and_congr_right fun _ => ofDateTime_eq_millis_iff text m)
  have value {text : String} {t : Instant} {m : Int} (written : Written text.toList t)
      (read : ofLiteral text datatype = .millis m) : m = ⌊1000 * t.seconds⌋ := by
    obtain ⟨_, t', written', same, _⟩ := (exact text m).1 read
    rw [written.unique written', same]
  refine ⟨exact first, fun t u written written' => ⟨fun outside => ?_, fun m n read read' => ?_⟩⟩
  · rw [ofLiteral, xsdLocalName_iff.2 rfl]
    exact (ofDateTime_written written).trans (if_neg outside)
  · rw [value written read, value written' read']
    refine ⟨fun same => by rw [same], fun earlier => Int.floor_le_floor ?_⟩
    exact mul_le_mul_of_nonneg_left earlier (by norm_num)

/-- Half a millisecond before the epoch, one instant in two time zones, and a year too late. -/
theorem epoch_millis_exact_sample : ∃ early eastern late far m n,
    (Written "1969-12-31T23:59:59.9995Z".toList early ∧ -1 = ⌊1000 * early.seconds⌋) ∧
    (Written "2024-01-01T01:00:00.123+01:00".toList eastern ∧
      Written "2024-01-01T00:00:00.123Z".toList late ∧ eastern.seconds = late.seconds ∧
      ofLiteral "2024-01-01T01:00:00.123+01:00" (xsd ++ "dateTime") = .millis m ∧
      ofLiteral "2024-01-01T00:00:00.123Z" (xsd ++ "dateTime") = .millis n ∧ m = n) ∧
    Written "292278995-01-01T00:00:00Z".toList far ∧ 2 ^ 63 ≤ ⌊1000 * far.seconds⌋ ∧
      ofLiteral "292278995-01-01T00:00:00Z" (xsd ++ "dateTime") = .raw := by
  have eastern : Written "2024-01-01T01:00:00.123+01:00".toList
      ⟨2024, 1, 1, 1, 0, 0, 123 * 10 ^ 15, 60⟩ := (parse_eq_some_iff _ _).1 (by decide +kernel)
  have late : Written "2024-01-01T00:00:00.123Z".toList
      ⟨2024, 1, 1, 0, 0, 0, 123 * 10 ^ 15, 0⟩ := (parse_eq_some_iff _ _).1 (by decide +kernel)
  have far : Written "292278995-01-01T00:00:00Z".toList ⟨292278995, 1, 1, 0, 0, 0, 0, 0⟩ :=
    (parse_eq_some_iff _ _).1 (by decide +kernel)
  have same : (⟨2024, 1, 1, 1, 0, 0, 123 * 10 ^ 15, 60⟩ : Instant).seconds =
      (⟨2024, 1, 1, 0, 0, 0, 123 * 10 ^ 15, 0⟩ : Instant).seconds := by
    simp only [seconds]
    push_cast
    ring
  have outside : 2 ^ 63 ≤ ⌊1000 * (⟨292278995, 1, 1, 0, 0, 0, 0, 0⟩ : Instant).seconds⌋ := by
    rw [← millis_eq far.valid]
    decide +kernel
  obtain ⟨_, early, written, floor, _⟩ := (epoch_millis_exact
    "1969-12-31T23:59:59.9995Z" "1969-12-31T23:59:59.9995Z" (xsd ++ "dateTime")).1 (-1) |>.1
      (by decide +kernel)
  refine ⟨early, _, _, _, 1704067200123, 1704067200123, ⟨written, floor⟩,
    ⟨eastern, late, same, by decide +kernel, by decide +kernel, ?_⟩, far, outside, ?_⟩
  · exact ((epoch_millis_exact _ _ (xsd ++ "dateTime")).2 _ _ eastern late).2 _ _
      (by decide +kernel) (by decide +kernel) |>.1 same
  · exact ((epoch_millis_exact _ _ (xsd ++ "dateTime")).2 _ _ far far).1
      fun fits => absurd outside (Int.not_le.2 fits.2)

end Special

end AttestedQuery
