import AttestedQuery.Json.Parser
import AttestedQuery.Json.Printer
import AttestedQuery.Proofs.HexText
import Mathlib.Data.List.TakeDrop

/-!
# JSON texts read back

The pretty text of a value reads back as the value, where every number in it fits in 64 bits and it
has no more levels of nesting than the reader follows. Any characters may stand in its strings.
-/

set_option autoImplicit false

namespace AttestedQuery

/-! ## Strings -/

namespace Json

theorem fourDigits_control {n : Nat} (below : n < 32) :
    fourDigits '0' '0' (Hex.digitChar (n / 16)) (Hex.digitChar (n % 16)) = some n := by
  have zero : Hex.digitValue '0' = some 0 := rfl
  have high := Hex.digitValue_digitChar (show n / 16 < 16 by omega)
  have low := Hex.digitValue_digitChar (show n % 16 < 16 by omega)
  simp only [fourDigits, zero, high, low, Option.bind_eq_bind, Option.bind_some, Option.pure_def]
  congr 1
  omega

/-- A numeric escape of no surrogate reads as its character, whatever follows it. -/
theorem readString_unit {a b c d char : Char} (done rest : List Char)
    (unit : (fourDigits a b c d).bind charOfUnit = some char) :
    readString done ('\\' :: 'u' :: a :: b :: c :: d :: rest) = readString (char :: done) rest := by
  obtain ⟨n, digits, char⟩ := Option.bind_eq_some_iff.1 unit
  by_cases pair : ∃ e f g h later, rest = '\\' :: 'u' :: e :: f :: g :: h :: later
  · obtain ⟨e, f, g, h, later, rfl⟩ := pair
    rw [readString, digits]
    simp only [Option.bind_eq_bind, Option.bind_some, char]
  · rw [readString.eq_4]
    · rw [digits]
      simp only [Option.bind_eq_bind, Option.bind_some, char]
    · intro e f g h later equal
      exact pair ⟨e, f, g, h, later, equal⟩

theorem readString_escapedChar (done : List Char) (c : Char) (rest : List Char) :
    readString done (escapedChar c ++ rest) = readString (c :: done) rest := by
  unfold escapedChar
  split_ifs with quote slash back feed line turn tab control
  · subst quote
    simp [readString, charOfEscape]
  · subst slash
    simp [readString, charOfEscape]
  · obtain rfl : c = Char.ofNat 8 := by rw [← back, Char.ofNat_toNat]
    simp [readString, charOfEscape]
  · obtain rfl : c = Char.ofNat 12 := by rw [← feed, Char.ofNat_toNat]
    simp [readString, charOfEscape]
  · subst line
    simp [readString, charOfEscape]
  · subst turn
    simp [readString, charOfEscape]
  · subst tab
    simp [readString, charOfEscape]
  · refine readString_unit done rest ?_
    rw [fourDigits_control control, Option.bind_some, charOfUnit, if_pos (Or.inl (by omega)),
      Char.ofNat_toNat]
  · simp [readString, slash, control]

theorem readString_escaped (done letters rest : List Char) :
    readString done (letters.flatMap escapedChar ++ '"' :: rest) =
      some (String.ofList (done.reverse ++ letters), rest) := by
  induction letters generalizing done with
  | nil => simp [readString]
  | cons c letters induction =>
    rw [List.flatMap_cons, List.append_assoc, readString_escapedChar, induction]
    simp

theorem stringLiteral_append (s : String) (rest : List Char) :
    ∃ body, stringLiteral s ++ rest = '"' :: body ∧ readString [] body = some (s, rest) := by
  refine ⟨s.toList.flatMap escapedChar ++ '"' :: rest, by simp [stringLiteral], ?_⟩
  rw [readString_escaped, List.reverse_nil, List.nil_append, String.ofList_toList]

end Json

/-! ## Numerals -/

theorem Decimal.head_ofNat {n : Nat} (zero : (ofNat n).head? = some '0') : n = 0 := by
  induction n using Nat.strongRecOn with
  | ind n induction =>
    by_cases small : n < 10
    · rw [ofNat, Nat.toDigits_of_lt_base small] at zero
      interval_cases n <;> simp_all
    · have lead : (ofNat (n / 10)).head? = some '0' := by
        rw [ofNat, Nat.toDigits_of_base_le (by decide) (by omega), List.head?_append] at zero
        cases first : (ofNat (n / 10)).head? with
        | none => exact absurd (List.head?_eq_none_iff.1 first) Nat.toDigits_ne_nil
        | some c => rwa [← ofNat, first] at zero
      have := induction (n / 10) (by omega) lead
      omega

theorem Decimal.isDigit_of_mem {n : Nat} {c : Char} (member : c ∈ ofNat n) : c.isDigit = true :=
  Nat.isDigit_of_mem_toDigits (by decide) (by decide) member

namespace Json

/-- What may follow a written value: nothing, a comma or a line break. -/
def Ended : List Char → Prop
  | [] => True
  | c :: _ => c = ',' ∨ c = '\n'

theorem spanDigits_ofNat (n : Nat) {rest : List Char} (ended : Ended rest) :
    spanDigits (Decimal.ofNat n ++ rest) = (Decimal.ofNat n, rest) := by
  have stops : rest.takeWhile Char.isDigit = [] ∧ rest.dropWhile Char.isDigit = rest := by
    cases rest with
    | nil => exact ⟨rfl, rfl⟩
    | cons c later => rcases ended with rfl | rfl <;> exact ⟨rfl, rfl⟩
  have all : ∀ c ∈ Decimal.ofNat n, c.isDigit = true := fun c => Decimal.isDigit_of_mem
  rw [spanDigits, List.span_eq_takeWhile_dropWhile, List.takeWhile_append_of_pos all,
    List.dropWhile_append_of_pos all, stops.1, stops.2, List.append_nil]

theorem readWholePart_ofNat (n : Nat) {rest : List Char} (ended : Ended rest) :
    readWholePart (Decimal.ofNat n ++ rest) = some (Decimal.ofNat n, rest) := by
  rw [readWholePart, spanDigits_ofNat n ended]
  split
  next empty => exact absurd (Prod.mk.inj empty).1 Nat.toDigits_ne_nil
  next long =>
    obtain ⟨digits, _⟩ := Prod.mk.inj long
    obtain rfl := Decimal.head_ofNat (n := n) (by rw [digits]; rfl)
    cases digits
  next whole =>
    obtain ⟨rfl, rfl⟩ := Prod.mk.inj whole
    rfl

theorem readFraction_ended {rest : List Char} (ended : Ended rest) :
    readFraction rest = some ([], rest) := by
  cases rest with
  | nil => rfl
  | cons c later => rcases ended with rfl | rfl <;> rfl

theorem readExponent_ended {rest : List Char} (ended : Ended rest) :
    readExponent rest = some ([], rest) := by
  cases rest with
  | nil => rfl
  | cons c later => rcases ended with rfl | rfl <;> rfl

/-- A number in the range of the signed or of the unsigned 64-bit integers. -/
def Fits (n : Int) : Prop := -(2 : Int) ^ 63 ≤ n ∧ n < (2 : Int) ^ 64

theorem numeralValue_natAbs {n : Int} (fits : Fits n) :
    numeralValue (decide (n < 0)) (Decimal.ofNat n.natAbs) [] [] = .whole n := by
  obtain ⟨least, most⟩ := fits
  have signed : Nat.pow 2 63 = 9223372036854775808 := rfl
  have unsigned : Nat.pow 2 64 = 18446744073709551616 := rfl
  simp only [numeralValue, Decimal.value_ofNat, List.isEmpty_nil, Bool.not_true, Bool.or_self,
    Bool.false_eq_true, if_false, decide_eq_true_eq, signed, unsigned]
  by_cases negative : n < 0
  · rw [if_pos negative, if_neg (by omega)]
    congr 1
    omega
  · rw [if_neg negative, if_neg (by omega)]
    congr 1
    omega

theorem readNumeral_ofInt {n : Int} (fits : Fits n) {rest : List Char} (ended : Ended rest) :
    readNumeral (Decimal.ofInt n ++ rest) = some (.whole n, rest) := by
  have whole := readWholePart_ofNat n.natAbs ended
  have value := numeralValue_natAbs fits
  by_cases negative : n < 0
  · simp only [decide_eq_true negative] at value
    simp [readNumeral, Decimal.ofInt, negative, whole, readFraction_ended ended,
      readExponent_ended ended, value]
  · simp only [decide_eq_false negative] at value
    have plain : ∀ later, Decimal.ofNat n.natAbs ++ rest ≠ '-' :: later := by
      intro later signed
      have first : '-' ∈ Decimal.ofNat n.natAbs := by
        cases digits : Decimal.ofNat n.natAbs with
        | nil => exact absurd digits Nat.toDigits_ne_nil
        | cons c more =>
          rw [digits] at signed
          exact (List.cons.inj signed).1 ▸ List.mem_cons_self
      exact absurd (Decimal.isDigit_of_mem first) (by decide)
    rw [Decimal.ofInt, if_neg negative, readNumeral]
    · simp [whole, readFraction_ended ended, readExponent_ended ended, value]
    · exact plain

/-! ## Values -/

/-- A value that reads back where so many levels of nesting are followed: its numbers fit, and it
holds no numeral that is kept as a text. -/
inductive Storable : Nat → Json → Prop
  | null {levels : Nat} : Storable levels .null
  | bool {levels : Nat} (b : Bool) : Storable levels (.bool b)
  | whole {levels : Nat} {n : Int} (fits : Fits n) : Storable levels (.whole n)
  | text {levels : Nat} (s : String) : Storable levels (.text s)
  | list {levels : Nat} {items : List Json} (each : ∀ item ∈ items, Storable levels item) :
      Storable (levels + 1) (.list items)
  | object {levels : Nat} {members : List (String × Json)}
      (each : ∀ member ∈ members, Storable levels member.2) :
      Storable (levels + 1) (.object members)

/-- A value reads back from its text, whatever follows, with as many steps as twice its length. -/
def ReadsBack (levels : Nat) (j : Json) : Prop :=
  ∀ (level steps : Nat) (rest : List Char), Ended rest →
    2 * (prettyChars level j).length ≤ steps →
      readValue steps levels (prettyChars level j ++ rest) = some (j, rest)

/-! ### White space -/

theorem skipSpace_newLine (level : Nat) (input : List Char) :
    skipSpace (newLine level ++ input) = skipSpace input := by
  have spaces : ∀ s ∈ newLine level, isSpace s = true := by
    intro s member
    rcases List.mem_cons.1 member with rfl | member
    · rfl
    · rw [List.eq_of_mem_replicate member]
      rfl
  rw [skipSpace, List.dropWhile_append_of_pos spaces, skipSpace]

theorem skipSpace_visible {c : Char} (visible : isSpace c = false) (rest : List Char) :
    skipSpace (c :: rest) = c :: rest := by
  rw [skipSpace, List.dropWhile_cons_of_neg (by simp [visible])]

theorem readValue_skipSpace (steps levels : Nat) {a b : List Char}
    (same : skipSpace a = skipSpace b) : readValue steps levels a = readValue steps levels b := by
  cases steps with
  | zero => rfl
  | succ steps => rw [readValue, readValue, same]

theorem readItems_skipSpace (steps levels : Nat) {a b : List Char}
    (same : skipSpace a = skipSpace b) : readItems steps levels a = readItems steps levels b := by
  cases steps with
  | zero => rfl
  | succ steps => rw [readItems, readItems, readValue_skipSpace steps levels same]

theorem readMembers_skipSpace (steps levels : Nat) {a b : List Char}
    (same : skipSpace a = skipSpace b) :
    readMembers steps levels a = readMembers steps levels b := by
  cases steps with
  | zero => rfl
  | succ steps => rw [readMembers, readMembers, same]

/-! ### Scalars -/

theorem isSpace_of_isDigit {c : Char} (digit : c.isDigit = true) : isSpace c = false := by
  rw [Bool.eq_false_iff]
  intro space
  simp only [isSpace, Bool.or_eq_true, beq_iff_eq] at space
  rcases space with ((rfl | rfl) | rfl) | rfl <;> exact absurd digit (by decide)

theorem readValue_numeral {c : Char} (start : c = '-' ∨ c.isDigit = true) (steps levels : Nat)
    (rest : List Char) : readValue (steps + 1) levels (c :: rest) = readNumeral (c :: rest) := by
  have visible : isSpace c = false := by
    rcases start with rfl | digit
    · rfl
    · exact isSpace_of_isDigit digit
  have other {mark : Char} (kept : mark ≠ '-' ∧ mark.isDigit = false) : c ≠ mark := by
    rintro rfl
    rcases start with rfl | digit
    · exact kept.1 rfl
    · rw [kept.2] at digit
      cases digit
  rw [readValue, skipSpace_visible visible]
  split
  iterate 6
    next equal => exact absurd (List.cons.inj equal).1 (other (by decide))
  next => rfl

theorem exists_ofInt (n : Int) :
    ∃ c more, Decimal.ofInt n = c :: more ∧ (c = '-' ∨ c.isDigit = true) := by
  by_cases negative : n < 0
  · exact ⟨'-', _, by rw [Decimal.ofInt, if_pos negative], Or.inl rfl⟩
  · rw [Decimal.ofInt, if_neg negative]
    cases digits : Decimal.ofNat n.natAbs with
    | nil => exact absurd digits Nat.toDigits_ne_nil
    | cons c more =>
      exact ⟨c, more, rfl, Or.inr (Decimal.isDigit_of_mem (digits ▸ List.mem_cons_self))⟩

theorem readsBack_whole {n : Int} (fits : Fits n) (levels : Nat) : ReadsBack levels (.whole n) := by
  intro level steps rest ended enough
  obtain ⟨c, more, written, start⟩ := exists_ofInt n
  cases steps with
  | zero => simp [prettyChars, written] at enough
  | succ steps =>
    have read := readNumeral_ofInt fits ended
    rw [prettyChars, written, List.cons_append]
    rw [written, List.cons_append] at read
    rw [readValue_numeral start, read]

theorem readsBack_text (s : String) (levels : Nat) : ReadsBack levels (.text s) := by
  intro level steps rest ended enough
  obtain ⟨body, written, read⟩ := stringLiteral_append s rest
  cases steps with
  | zero => simp [prettyChars, stringLiteral] at enough
  | succ steps =>
    rw [prettyChars, written, readValue, skipSpace_visible rfl]
    simp only [read, Option.map_some]

/-! ### Lists and objects -/

/-- No value starts with white space or a closing mark. -/
theorem exists_prettyChars {levels : Nat} {j : Json} (storable : Storable levels j) (level : Nat) :
    ∃ c more, prettyChars level j = c :: more ∧ isSpace c = false ∧ c ≠ ']' := by
  cases storable with
  | null => exact ⟨_, _, rfl, rfl, by decide⟩
  | bool b => cases b <;> exact ⟨_, _, rfl, rfl, by decide⟩
  | @whole _ n fits =>
    obtain ⟨c, more, written, start⟩ := exists_ofInt n
    refine ⟨c, more, by rw [prettyChars, written], ?_, ?_⟩
    · rcases start with rfl | digit
      · rfl
      · exact isSpace_of_isDigit digit
    · rintro rfl
      rcases start with equal | digit
      · cases equal
      · cases digit
  | text s => exact ⟨_, _, rfl, rfl, by decide⟩
  | @list _ items => cases items <;> exact ⟨_, _, rfl, rfl, by decide⟩
  | @object _ members =>
    cases members with
    | nil => exact ⟨_, _, rfl, rfl, by decide⟩
    | cons member more => exact ⟨_, _, rfl, rfl, by decide⟩

theorem ended_prettyItems (level : Nat) (items : List Json) (rest : List Char) :
    Ended (prettyItems level items ++ rest) := by
  cases items with
  | nil => exact Or.inr rfl
  | cons item more => exact Or.inl rfl

theorem ended_prettyMembers (level : Nat) (members : List (String × Json)) (rest : List Char) :
    Ended (prettyMembers level members ++ rest) := by
  cases members with
  | nil => exact Or.inr rfl
  | cons member more => exact Or.inl rfl

theorem readItems_pretty {levels : Nat} (level : Nat) (item : Json) (more : List Json)
    (each : ∀ j ∈ item :: more, ReadsBack levels j) (steps : Nat) (rest : List Char)
    (enough : 2 * (prettyChars (level + 1) item ++ prettyItems level more).length ≤ steps) :
    readItems steps levels (prettyChars (level + 1) item ++ (prettyItems level more ++ rest)) =
      some (item :: more, rest) := by
  induction more generalizing item steps with
  | nil =>
    cases steps with
    | zero => simp [prettyItems] at enough
    | succ steps =>
      rw [List.length_append] at enough
      have first := each item List.mem_cons_self (level + 1) steps _
        (ended_prettyItems level [] rest) (by simp [prettyItems] at enough; omega)
      rw [readItems, first]
      simp [prettyItems, skipSpace_newLine, skipSpace_visible (c := ']') rfl]
  | cons next more induction =>
    cases steps with
    | zero => simp [prettyItems] at enough
    | succ steps =>
      simp only [prettyItems, List.length_append, List.length_cons] at enough
      have first := each item List.mem_cons_self (level + 1) steps _
        (ended_prettyItems level (next :: more) rest) (by omega)
      have later := induction next (fun j member => each j (List.mem_cons_of_mem item member)) steps
        (by rw [List.length_append]; omega)
      rw [← readItems_skipSpace steps levels (skipSpace_newLine (level + 1) _)] at later
      rw [readItems, first]
      simp [prettyItems, skipSpace_visible (c := ',') rfl, later]

/-- A member is read with its key, and then the members after a comma or none after the closing
brace. -/
theorem readMembers_member (key : String) {value : Json} {steps levels : Nat}
    {input rest : List Char} (read : readValue steps levels input = some (value, rest)) :
    (∀ later, skipSpace rest = '}' :: later →
      readMembers (steps + 1) levels (stringLiteral key ++ ':' :: ' ' :: input) =
        some ([(key, value)], later)) ∧
    ∀ later members final, skipSpace rest = ',' :: later →
      readMembers steps levels later = some (members, final) →
        readMembers (steps + 1) levels (stringLiteral key ++ ':' :: ' ' :: input) =
          some ((key, value) :: members, final) := by
  obtain ⟨body, written, named⟩ := stringLiteral_append key (':' :: ' ' :: input)
  have spaced : skipSpace (' ' :: input) = skipSpace input := rfl
  rw [← readValue_skipSpace steps levels spaced] at read
  rw [written, readMembers, skipSpace_visible rfl]
  constructor
  · intro later closed
    simp [named, skipSpace_visible (c := ':') rfl, read, closed]
  · intro later members final comma others
    simp [named, skipSpace_visible (c := ':') rfl, read, comma, others]

theorem readMembers_pretty {levels : Nat} (level : Nat) (member : String × Json)
    (more : List (String × Json)) (each : ∀ m ∈ member :: more, ReadsBack levels m.2) (steps : Nat)
    (rest : List Char)
    (enough : 2 * (stringLiteral member.1 ++ ':' :: ' ' :: (prettyChars (level + 1) member.2 ++
      prettyMembers level more)).length ≤ steps) :
    readMembers steps levels (stringLiteral member.1 ++ ':' :: ' ' ::
      (prettyChars (level + 1) member.2 ++ (prettyMembers level more ++ rest))) =
        some (member :: more, rest) := by
  induction more generalizing member steps with
  | nil =>
    cases steps with
    | zero => simp at enough
    | succ steps =>
      simp only [List.length_append, List.length_cons] at enough
      have first := each member List.mem_cons_self (level + 1) steps _
        (ended_prettyMembers level [] rest) (by omega)
      refine (readMembers_member member.1 first).1 rest ?_
      simp [prettyMembers, skipSpace_newLine, skipSpace_visible (c := '}') rfl]
  | cons next more induction =>
    cases steps with
    | zero => simp at enough
    | succ steps =>
      simp only [prettyMembers, List.length_append, List.length_cons] at enough
      have first := each member List.mem_cons_self (level + 1) steps _
        (ended_prettyMembers level (next :: more) rest) (by omega)
      have later := induction next (fun m inside => each m (List.mem_cons_of_mem member inside))
        steps (by simp only [List.length_append, List.length_cons]; omega)
      rw [← readMembers_skipSpace steps levels (skipSpace_newLine (level + 1) _)] at later
      refine (readMembers_member member.1 first).2 _ _ _ ?_ later
      simp [prettyMembers, skipSpace_visible (c := ',') rfl]

/-! ### Whole texts -/

theorem readsBack_list {levels : Nat} {items : List Json}
    (storable : ∀ item ∈ items, Storable levels item)
    (each : ∀ item ∈ items, ReadsBack levels item) : ReadsBack (levels + 1) (.list items) := by
  intro level steps rest ended enough
  cases steps with
  | zero => cases items <;> simp [prettyChars] at enough
  | succ steps =>
    cases items with
    | nil => rfl
    | cons item more =>
      simp only [prettyChars, List.length_append, List.length_cons] at enough
      obtain ⟨c, tail, written, visible, opens⟩ :=
        exists_prettyChars (storable item List.mem_cons_self) (level + 1)
      have read := readItems_pretty level item more each steps rest
        (by rw [List.length_append]; omega)
      rw [written, List.cons_append] at read
      simp [prettyChars, readValue, skipSpace_newLine, skipSpace_visible (c := '[') rfl, written,
        skipSpace_visible visible, opens, read]

theorem readsBack_object {levels : Nat} {members : List (String × Json)}
    (each : ∀ member ∈ members, ReadsBack levels member.2) :
    ReadsBack (levels + 1) (.object members) := by
  intro level steps rest ended enough
  cases steps with
  | zero => cases members <;> simp [prettyChars] at enough
  | succ steps =>
    cases members with
    | nil => rfl
    | cons member more =>
      simp only [prettyChars, List.length_append, List.length_cons] at enough
      obtain ⟨body, written, _⟩ := stringLiteral_append member.1 (':' :: ' ' ::
        (prettyChars (level + 1) member.2 ++ (prettyMembers level more ++ rest)))
      have read := readMembers_pretty level member more each steps rest
        (by simp only [List.length_append, List.length_cons]; omega)
      simp only [written] at read
      simp [prettyChars, readValue, skipSpace_newLine, skipSpace_visible (c := '{') rfl, written,
        skipSpace_visible (c := '"') rfl, read]

theorem Storable.readsBack {levels : Nat} {j : Json} (storable : Storable levels j) :
    ReadsBack levels j := by
  induction storable with
  | null =>
    intro level steps rest ended enough
    cases steps with
    | zero => simp [prettyChars] at enough
    | succ steps => rfl
  | bool b =>
    intro level steps rest ended enough
    cases steps with
    | zero => cases b <;> simp [prettyChars] at enough
    | succ steps => cases b <;> rfl
  | whole fits => exact readsBack_whole fits _
  | text s => exact readsBack_text s _
  | list storable each => exact readsBack_list storable each
  | object _ each => exact readsBack_object each

/-- The pretty text of a value reads back as the value. -/
theorem parse_pretty {j : Json} (storable : Storable nestingLimit j) : parse j.pretty = some j := by
  have read := storable.readsBack 0 (2 * (prettyChars 0 j).length + 2) [] trivial (by omega)
  rw [List.append_nil] at read
  rw [parse, pretty, String.toList_ofList, parseChars, read]
  rfl

end Json

end AttestedQuery
