import AttestedQuery.Proofs.FoldedOrderings

/-!
# Equalities decided before run time

Two constants are equal where their values are; a variable equals a constant where their encodings
are the same, and so, but for collisions, their terms. So it matters whether a term stands in a
query or is bound to a variable: numbers, booleans and points in time that are written in two ways
are equal as constants and differ once one of them is bound.
-/

set_option autoImplicit false

namespace AttestedQuery

/-! ## Values of constants -/

def Term.isFloating : Term → Bool
  | .literal _ _ datatype => Constant.isFloating datatype
  | _ => false

/-- The term without its language tag where that is empty, which encodings do not tell from none. -/
def Term.untagged : Term → Term
  | .literal value lang datatype => .literal value (lang.filter (· != "")) datatype
  | t => t

theorem Encoder.encode_untagged (e : Encoder) (t : Term) : e.encode t.untagged = e.encode t := by
  cases t with
  | literal value lang datatype =>
    have same : (lang.filter (· != "")).getD "" = lang.getD "" := by
      cases lang with
      | none => rfl
      | some tag => by_cases empty : tag = "" <;> simp [Option.filter, empty]
    simp only [Term.untagged, encode, inner, literalParts, same]
    rfl
  | iri _ | blank _ | var _ | defaultGraph => rfl

namespace Constant

/-- Two literals without a language tag have one value: as numbers, which are rounded unless both are
integers of 64 bits, as booleans, or as points in time. -/
inductive SameValue : Term → Term → Prop
  | number {value datatype value' datatype' : String}
    (here : ValueSpace.ofDatatype? datatype = some .numeric)
    (there : ValueSpace.ofDatatype? datatype' = some .numeric)
    (order : numericOrder? value datatype value' datatype' = some .eq) :
      SameValue (.literal value none datatype) (.literal value' none datatype')
  | special {space : ValueSpace} {value datatype value' datatype' : String}
    (compared : space = .boolean ∨ space = .dateTime)
    (here : ValueSpace.ofDatatype? datatype = some space)
    (there : ValueSpace.ofDatatype? datatype' = some space)
    (valued : Special.ofLiteral value datatype ≠ .raw)
    (same : Special.ofLiteral value datatype = Special.ofLiteral value' datatype') :
      SameValue (.literal value none datatype) (.literal value' none datatype')

/-- A literal of a numeric datatype without a language tag. -/
def Number (t : Term) : Prop :=
  ∃ value datatype, t = .literal value none datatype ∧
    ValueSpace.ofDatatype? datatype = some .numeric

/-- Two constants of which folding says something else than their encodings do: one value written in
two ways, a numeric literal whose lexical form is no number, or a language tag that is empty in the
one and missing in the other. -/
def Diverge (x y : Term) : Prop :=
  (x ≠ y ∧ SameValue x y) ∨ (x = y ∧ Number x ∧ ¬ SameValue x y) ∨
    (x ≠ y ∧ x.untagged = y.untagged)

variable {x y : Term}

theorem plain_eq_some {value datatype : String} (plain : plain? x = some (value, datatype)) :
    x = .literal value none datatype := by
  unfold plain? at plain
  split at plain
  · obtain ⟨rfl, rfl⟩ := Prod.mk.inj (Option.some.inj plain)
    rfl
  · cases plain

theorem SameValue.plain (same : SameValue x y) :
    (plain? x).isSome = true ∧ (plain? y).isSome = true := by
  cases same <;> exact ⟨rfl, rfl⟩

theorem Number.plain (number : Number x) : (plain? x).isSome = true := by
  obtain ⟨value, datatype, rfl, _⟩ := number
  rfl

section Plain

variable {space : ValueSpace} {value datatype value' datatype' : String}

theorem number_iff : Number (.literal value none datatype) ↔
    ValueSpace.ofDatatype? datatype = some .numeric := by
  constructor
  · rintro ⟨_, _, ⟨⟩, numeric⟩
    exact numeric
  · exact fun numeric => ⟨value, datatype, rfl, numeric⟩

theorem SameValue.spaces
    (same : SameValue (.literal value none datatype) (.literal value' none datatype')) :
    ∃ space, space ≠ .string ∧ ValueSpace.ofDatatype? datatype = some space ∧
      ValueSpace.ofDatatype? datatype' = some space := by
  cases same with
  | number here there _ => exact ⟨.numeric, by decide, here, there⟩
  | special compared here there _ _ =>
    refine ⟨_, ?_, here, there⟩
    rcases compared with rfl | rfl <;> decide

theorem sameValue_number_iff (here : ValueSpace.ofDatatype? datatype = some .numeric)
    (there : ValueSpace.ofDatatype? datatype' = some .numeric) :
    SameValue (.literal value none datatype) (.literal value' none datatype') ↔
      numericOrder? value datatype value' datatype' = some .eq := by
  refine ⟨fun same => ?_, .number here there⟩
  cases same with
  | number _ _ order => exact order
  | special compared numeric _ _ _ =>
    rw [here] at numeric
    rcases compared with rfl | rfl <;> cases numeric

theorem sameValue_special_iff (compared : space = .boolean ∨ space = .dateTime)
    (here : ValueSpace.ofDatatype? datatype = some space)
    (there : ValueSpace.ofDatatype? datatype' = some space) :
    SameValue (.literal value none datatype) (.literal value' none datatype') ↔
      Special.ofLiteral value datatype ≠ .raw ∧
        Special.ofLiteral value datatype = Special.ofLiteral value' datatype' := by
  refine ⟨fun same => ?_, fun same => .special compared here there same.1 same.2⟩
  cases same with
  | number numeric _ _ =>
    rw [here] at numeric
    rcases compared with rfl | rfl <;> cases numeric
  | special _ _ _ valued same => exact ⟨valued, same⟩

theorem sameSpecial_iff (x y : Term) : equal.sameSpecial x y value datatype value' datatype' = true ↔
    if Special.ofLiteral value datatype = .raw ∨ Special.ofLiteral value' datatype' = .raw
    then x = y else Special.ofLiteral value datatype = Special.ofLiteral value' datatype' := by
  unfold equal.sameSpecial
  split
  next raw => simp [raw]
  next raw _ => simp [raw]
  next first second =>
    rw [if_neg (by rintro (raw | raw) <;> contradiction), beq_iff_eq]

theorem sameSpecial_iff_value (compared : space = .boolean ∨ space = .dateTime)
    (here : ValueSpace.ofDatatype? datatype = some space)
    (there : ValueSpace.ofDatatype? datatype' = some space) :
    equal.sameSpecial (.literal value none datatype) (.literal value' none datatype')
        value datatype value' datatype' = true ↔
      SameValue (.literal value none datatype) (.literal value' none datatype') ∨
        Term.literal value none datatype = .literal value' none datatype' := by
  rw [sameSpecial_iff, sameValue_special_iff compared here there]
  split
  next raw =>
    -- A value that both have is none of a literal that denotes nothing.
    refine ⟨Or.inr, fun same => same.resolve_left ?_⟩
    rintro ⟨valued, same⟩
    exact raw.elim valued fun other => valued (same.trans other)
  next valued =>
    rw [not_or] at valued
    refine ⟨fun same => Or.inl ⟨valued.1, same⟩, fun same => ?_⟩
    rcases same with ⟨_, same⟩ | same
    · exact same
    · obtain ⟨rfl, rfl⟩ : value = value' ∧ datatype = datatype' := by simpa using same
      rfl

end Plain

/-- Folded equality, but for floating-point numbers: of values, or of terms that are no numbers. -/
theorem equal_iff (exactX : x.isFloating = false) (exactY : y.isFloating = false) :
    equal x y = true ↔ SameValue x y ∨ (x = y ∧ ¬ Number x) := by
  cases plainX : plain? x with
  | none =>
    have term : equal x y = (x == y) := by rw [equal, plainX]
    have noValue : ¬ SameValue x y := fun same => by simpa [plainX] using same.plain.1
    have noNumber : ¬ Number x := fun number => by simpa [plainX] using number.plain
    simp [term, noValue, noNumber]
  | some literal =>
    cases plainY : plain? y with
    | none =>
      have term : equal x y = (x == y) := by rw [equal, plainX, plainY]
      have noValue : ¬ SameValue x y := fun same => by simpa [plainY] using same.plain.2
      have different : x ≠ y := by
        rintro rfl
        simp [plainX] at plainY
      simp [term, noValue, different]
    | some other =>
      obtain ⟨value, datatype⟩ := literal
      obtain ⟨value', datatype'⟩ := other
      obtain rfl := plain_eq_some plainX
      obtain rfl := plain_eq_some plainY
      have floating : (isFloating datatype || isFloating datatype') = false :=
        Bool.or_eq_false_iff.2 ⟨exactX, exactY⟩
      rw [number_iff]
      simp only [equal, plain?, floating, Bool.false_eq_true, if_false]
      split
      next here there =>
        rw [sameValue_number_iff here there, beq_iff_eq]
        simp [here]
      next here there =>
        rw [sameSpecial_iff_value (Or.inl rfl) here there]
        simp [here]
      next here there =>
        rw [sameSpecial_iff_value (Or.inr rfl) here there]
        simp [here]
      next numbers booleans times =>
        -- Other literals have no values to be compared, and are equal as terms.
        have noValue : ¬ SameValue (.literal value none datatype)
            (.literal value' none datatype') := by
          intro same
          obtain ⟨space, compared, here, there⟩ := same.spaces
          cases space with
          | numeric => exact numbers here there
          | string => exact compared rfl
          | boolean => exact booleans here there
          | dateTime => exact times here there
        rw [beq_iff_eq]
        refine ⟨fun same => Or.inr ⟨same, fun numeric => ?_⟩, fun found => ?_⟩
        · obtain ⟨rfl, rfl⟩ : value = value' ∧ datatype = datatype' := by simpa using same
          exact numbers numeric numeric
        · exact (found.resolve_left noValue).1

/-- Folded equality is that of terms up to empty language tags, except for constants that diverge. -/
theorem equal_iff_untagged (exactX : x.isFloating = false) (exactY : y.isFloating = false) :
    (equal x y = true ↔ x.untagged = y.untagged) ↔ ¬ Diverge x y := by
  have plain (same : SameValue x y) : x.untagged = x ∧ y.untagged = y := by
    cases same <;> exact ⟨rfl, rfl⟩
  rw [equal_iff exactX exactY, Diverge]
  by_cases valued : SameValue x y
  · obtain ⟨left, right⟩ := plain valued
    rw [left, right]
    by_cases same : x = y
    · subst same
      simp [valued]
    · simp [valued, same]
  · by_cases same : x = y
    · subst same
      simp [valued]
    · simp [valued, same]

end Constant

/-- Two terms that are not the same up to empty language tags have one encoding. -/
def Encoder.Merges (e : Encoder) (x y : Term) : Prop :=
  x.untagged ≠ y.untagged ∧ e.encode x = e.encode y

namespace Surroundings

variable {s : Surroundings} {row : Row} {x y : Term} {codeX codeY : Field}

theorem checks_folded_equality (encodedX : s.encoder.encode x = .ok codeX)
    (encodedY : s.encoder.encode y = .ok codeY) :
    s.Checks row (.equal (.const x) (.const y)) (some (Constant.equal x y)) := by
  apply checks_of_makes
  have folded : s.condition (.equal (.const x) (.const y)) =
      pure (guardedBy [] (.ofBool (Constant.equal x y))) := by
    rw [condition, value_constant encodedX, value_constant encodedY]
    rfl
  rw [folded]
  refine Compiling.makes_pure fun all v presents => ?_
  refine Condition.says_guardedBy (List.forall_mem_nil _) ?_
  rw [View.decides_ofBool, View.truth_ofBool]

theorem checks_bound_equality {key : String} (encodedX : s.encoder.encode x = .ok codeX)
    (encodedY : s.encoder.encode y = .ok codeY) (held : row.get? key = some x)
    (readable : (s.keyWire? key).isSome = true) :
    s.Checks row (.equal (.var key) (.const y)) (some (codeX == codeY)) := by
  obtain ⟨wire, found⟩ := Option.isSome_iff_exists.1 readable
  apply checks_of_makes
  have checked : s.condition (.equal (.var key) (.const y)) =
      pure (guardedBy [] (.eq wire (.const codeY))) := by
    rw [condition, value_variable found, value_constant encodedY]
    rfl
  rw [checked]
  refine Compiling.makes_pure fun all v presents => ?_
  refine Condition.says_guardedBy (List.forall_mem_nil _) ?_
  exact View.holds_eq (presents.field_key found held encodedX) rfl

end Surroundings

/-- Folding the equality of two constants, and checking it where a row binds a variable to the one:
both filters compile, as do their negations. With the hints of the row the folded one goes by the
values of the constants, the checked one by their encodings. So each accepts and denies the same,
exactly unless the constants diverge, or though different have one encoding. -/
theorem folded_equality_checked (s : Surroundings) (x y : Term) (exactX : x.isFloating = false)
    (exactY : y.isFloating = false) (codeX codeY : Field)
    (encodedX : s.encoder.encode x = .ok codeX) (encodedY : s.encoder.encode y = .ok codeY)
    (row : Row) (key : String) (held : row.get? key = some x)
    (readable : (s.keyWire? key).isSome = true) :
    s.Checks row (.equal (.const x) (.const y)) (some (Constant.equal x y)) ∧
      s.Checks row (.equal (.var key) (.const y)) (some (codeX == codeY)) ∧
      ((Constant.equal x y = (codeX == codeY) ↔ ¬ Constant.Diverge x y) ∨ s.encoder.Merges x y) := by
  refine ⟨Surroundings.checks_folded_equality encodedX encodedY,
    Surroundings.checks_bound_equality encodedX encodedY held readable, ?_⟩
  by_cases merges : s.encoder.Merges x y
  · exact Or.inr merges
  · refine Or.inl ?_
    have terms : codeX = codeY ↔ x.untagged = y.untagged := by
      constructor
      · rintro rfl
        by_contra different
        exact merges ⟨different, encodedX.trans encodedY.symm⟩
      · intro same
        rw [← s.encoder.encode_untagged, same, s.encoder.encode_untagged, encodedY] at encodedX
        exact (Except.ok.inj encodedX).symm
    rw [← Constant.equal_iff_untagged exactX exactY, ← terms, Bool.eq_iff_iff, beq_iff_eq]

/-! ## A number with a leading zero -/

def paddedOne : Term := .literal "01" none xsdInteger

def plainOne : Term := .literal "1" none xsdInteger

def paddedRow : Row := KeyMap.ofList [("o", paddedOne)]

theorem folded_equality_checked_sample : ∃ codeX codeY,
    paddedOne.isFloating = false ∧ plainOne.isFloating = false ∧
    sampleConfig.encoder.encode paddedOne = .ok codeX ∧
    sampleConfig.encoder.encode plainOne = .ok codeY ∧
    paddedRow.get? "o" = some paddedOne ∧
    ((paddedRow.surroundings sampleConfig.encoder).keyWire? "o").isSome = true ∧
    (paddedRow.surroundings sampleConfig.encoder).Checks paddedRow
      (.equal (.const paddedOne) (.const plainOne)) (some true) ∧
    (paddedRow.surroundings sampleConfig.encoder).Checks paddedRow
      (.equal (.var "o") (.const plainOne)) (some (codeX == codeY)) ∧
    ((true = (codeX == codeY) ↔ ¬ Constant.Diverge paddedOne plainOne) ∨
      sampleConfig.encoder.Merges paddedOne plainOne) := by
  have exactX : paddedOne.isFloating = false := by decide +kernel
  have exactY : plainOne.isFloating = false := by decide +kernel
  have folded : Constant.equal paddedOne plainOne = true := by decide +kernel
  have checks := folded_equality_checked (paddedRow.surroundings sampleConfig.encoder) paddedOne
    plainOne exactX exactY _ _ rfl rfl paddedRow "o" rfl rfl
  rw [folded] at checks
  exact ⟨_, _, exactX, exactY, rfl, rfl, rfl, rfl, checks⟩

def Encoder.differ (e : Encoder) (x y : Term) : Result Bool := do
  let first ← e.encode x
  let second ← e.encode y
  return first != second

set_option maxRecDepth 100000 in
theorem padded_encoded :
    (sampleConfig.encoder.differ paddedOne plainOne).toOption.any id = true := by
  rw [Config.encoder_eq]
  decide +kernel

/-- One and one with a leading zero denote one integer, and are equal as constants; once a variable is
bound to the one, it does not equal the other, and the row satisfies that the two differ. -/
theorem equal_constants_differ_bound : Constant.integer? paddedOne = some 1 ∧
    Constant.integer? plainOne = some 1 ∧ paddedRow.get? "o" = some paddedOne ∧
    paddedRow.satisfies sampleConfig.encoder (.equal (.const paddedOne) (.const plainOne)) = true ∧
    paddedRow.satisfies sampleConfig.encoder (.equal (.var "o") (.const plainOne)) = false ∧
    paddedRow.satisfies sampleConfig.encoder (.not (.equal (.var "o") (.const plainOne))) = true := by
  obtain ⟨_, compared, different⟩ := exists_ok_of_any padded_encoded
  obtain ⟨codeX, encodedX, compared⟩ := bind_ok_iff.1 compared
  obtain ⟨codeY, encodedY, compared⟩ := bind_ok_iff.1 compared
  cases compared
  have unlike : (codeX == codeY) = false := by simpa using different
  have equal : Constant.equal paddedOne plainOne = true := by decide +kernel
  have folded : (paddedRow.surroundings sampleConfig.encoder).Checks paddedRow
      (.equal (.const paddedOne) (.const plainOne)) (some true) :=
    equal ▸ Surroundings.checks_folded_equality encodedX encodedY
  have checked : (paddedRow.surroundings sampleConfig.encoder).Checks paddedRow
      (.equal (.var "o") (.const plainOne)) (some false) :=
    unlike ▸ Surroundings.checks_bound_equality encodedX encodedY rfl rfl
  exact ⟨by decide +kernel, by decide +kernel, rfl, folded.satisfies.1, checked.satisfies⟩

end AttestedQuery
