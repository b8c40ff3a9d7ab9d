import AttestedQuery.Proofs.HonestHints
import AttestedQuery.Proofs.Signing
import AttestedQuery.Proofs.SignedOrder

/-!
# Orderings and their negations

Two operands of a comparison are ordered by their values: strings by their lexical forms, other
literals by the number that they denote. The guards of a comparison look at the datatypes of the
operands only. A literal whose lexical form denotes no number passes them, and its comparison is
false instead of an error; so the negation accepts what the complementary comparison rejects. Where
no such literal is compared, the two agree.
-/

set_option autoImplicit false

namespace AttestedQuery

/-! ## Complements -/

/-- The operator that accepts what another rejects. -/
def CompareOp.complement : CompareOp → CompareOp
  | .lt => .ge
  | .le => .gt
  | .gt => .le
  | .ge => .lt

theorem CompareOp.accepts_complement (op : CompareOp) (order : Ordering) :
    op.complement.accepts order = !op.accepts order := by
  cases op <;> cases order <;> rfl

/-! ## Values of literals -/

namespace Special

def number? : Special → Option Int
  | .boolean b => some (if b then 1 else 0)
  | .integer n | .millis n => some n
  | .raw => none

theorem number_fits {value datatype : String} {n : Int}
    (denotes : (ofLiteral value datatype).number? = some n) : Decimal.fitsInt64 n = true := by
  have ofTrue : Decimal.fitsInt64 1 = true := by decide
  have ofFalse : Decimal.fitsInt64 0 = true := by decide
  unfold ofLiteral at denotes
  split at denotes
  next => cases denotes
  next name _ =>
    split at denotes
    · unfold ofBoolean at denotes
      split at denotes
      · exact Option.some.inj denotes ▸ ofTrue
      · split at denotes
        · exact Option.some.inj denotes ▸ ofFalse
        · cases denotes
    · split at denotes
      · unfold ofInteger at denotes
        split at denotes
        next m found =>
          obtain rfl := Option.some.inj denotes
          exact (Option.filter_eq_some_iff.1 found).2
        next => cases denotes
      · split at denotes
        · unfold ofDateTime at denotes
          split at denotes
          next m _ =>
            split at denotes
            next fits => exact Option.some.inj denotes ▸ fits
            next => cases denotes
          next => cases denotes
        · cases denotes

end Special

namespace Field

theorem val_ofInt (n : Int) : (ofInt n).val =
    if n < 0 ∧ n.natAbs % modulus ≠ 0 then modulus - n.natAbs % modulus
    else n.natAbs % modulus := by
  by_cases wraps : n < 0 ∧ n.natAbs % modulus ≠ 0
  · rw [if_pos wraps]
    exact congrArg val (dif_pos wraps)
  · rw [if_neg wraps]
    exact congrArg val (dif_neg wraps)

/-- A number whose magnitude is at most half the modulus is the one of least magnitude in its
class. -/
theorem signed_ofInt {n : Int} (least : n.natAbs ≤ modulus / 2) : (ofInt n).signed = n := by
  have small : n.natAbs % modulus = n.natAbs :=
    Nat.mod_eq_of_lt (Nat.lt_of_le_of_lt least (by decide))
  rw [signed, val_ofInt, small]
  by_cases negative : n < 0 ∧ n.natAbs ≠ 0
  · have high : ¬ modulus - n.natAbs ≤ modulus / 2 := by
      simp only [modulus] at least ⊢
      omega
    rw [if_pos negative, if_neg high]
    simp only [modulus] at least ⊢
    omega
  · rw [if_neg negative, if_pos least]
    omega

theorem asInt64_ofInt {n : Int} (fits : Decimal.fitsInt64 n = true) :
    View.asInt64 (ofInt n) = some n := by
  have range := (Decimal.fitsInt64_iff n).1 fits
  have least : n.natAbs ≤ modulus / 2 := by
    simp only [modulus]
    omega
  rw [asInt64_eq_signed, signed_ofInt least, if_pos range]

end Field

theorem Special.asInt64_toField {value datatype : String} {n : Int} (h : Hasher)
    (denotes : (ofLiteral value datatype).number? = some n) :
    View.asInt64 ((ofLiteral value datatype).toField h value) = some n := by
  have fits := number_fits denotes
  cases special : ofLiteral value datatype with
  | boolean b =>
    rw [special] at denotes
    obtain rfl := Option.some.inj denotes
    have bit : Field.ofBool b = Field.ofInt (if b then 1 else 0) := by cases b <;> decide
    rw [toField, bit, Field.asInt64_ofInt fits]
  | integer m | millis m =>
    rw [special] at denotes
    obtain rfl := Option.some.inj denotes
    exact Field.asInt64_ofInt fits
  | raw =>
    rw [special] at denotes
    cases denotes

/-! ## Orders of operands -/

namespace Operand

def expr : Operand → Expr
  | .key name => .var name
  | .term t => .const t

/-- The space of values that a constant decides for both sides of a comparison. -/
def space? : Operand → Option ValueSpace
  | .key _ => none
  | .term t => (Constant.plain? t).bind fun (_, datatype) => ValueSpace.ofDatatype? datatype

def spaceWith (a b : Operand) : ValueSpace := (a.space? <|> b.space?).getD .numeric

/-- The lexical form and the datatype of an operand that a comparison admits in a space: a variable
is bound to a literal of a datatype that is compared there, and a constant has a value there. -/
def literal? (space : ValueSpace) (row : Row) : Operand → Option (String × String)
  | .key name =>
    match row.get? name with
    | some (.literal value _ datatype) =>
      if isXsdType space.comparedTypes datatype then some (value, datatype) else none
    | _ => none
  | .term t => (Constant.plain? t).filter fun (value, datatype) =>
      ValueSpace.ofDatatype? datatype == some space &&
        (space == .string || (Special.ofLiteral value datatype).number?.isSome)

def Encoded (e : Encoder) : Operand → Prop
  | .key _ => True
  | .term t => ∃ code, e.encode t = .ok code

end Operand

/-- The order of two literals in a space: that of their lexical forms among strings, else that of
the numbers that they denote. -/
def ValueSpace.order? (space : ValueSpace) (a b : String × String) : Option Ordering :=
  if space = .string then some (compare a.1 b.1)
  else do
    let x ← (Special.ofLiteral a.1 a.2).number?
    let y ← (Special.ofLiteral b.1 b.2).number?
    return compare x y

namespace Row

/-- The order of two operands in a row; none where their comparison is a type error. -/
def order? (row : Row) (a b : Operand) : Option Ordering := do
  let x ← a.literal? (a.spaceWith b) row
  let y ← b.literal? (a.spaceWith b) row
  (a.spaceWith b).order? x y

/-- A comparison admits both operands, though one of them denotes no number. -/
def ComparesUnvalued (row : Row) (a b : Operand) : Prop :=
  (a.literal? (a.spaceWith b) row).isSome = true ∧
    (b.literal? (a.spaceWith b) row).isSome = true ∧ row.order? a b = none

/-- The hash of a lexical form that denotes no number is itself a small number. -/
def Mimics (e : Encoder) (row : Row) : Prop :=
  ∃ key value lang datatype, row.get? key = some (.literal value lang datatype) ∧
    (Special.ofLiteral value datatype).number? = none ∧
      (View.asInt64 (e.hasher.onText value)).isSome = true

section Reading

variable {e : Encoder} {row : Row} {space : ValueSpace} {a b o : Operand}

theorem comparedTypes_tested (space : ValueSpace) :
    ∀ name ∈ space.comparedTypes, name ∈ testedTypes := by
  cases space <;> decide

theorem parts_of_literal (encodes : row.Encodes e) (clear : ¬ row.Confuses e) {key value : String}
    {datatype : String} (admitted : (Operand.key key).literal? space row = some (value, datatype)) :
    ∃ parts, (row.reading e).parts? key = some parts ∧
      (row.reading e).typed parts space.comparedTypes = true ∧
      parts.special = (Special.ofLiteral value datatype).toField e.hasher value := by
  simp only [Operand.literal?] at admitted
  split at admitted
  next other lang named held =>
    split at admitted
    next compared =>
      obtain ⟨rfl, rfl⟩ := Prod.mk.inj (Option.some.inj admitted)
      obtain ⟨parts, made⟩ := encodes.parts held
      refine ⟨parts, parts_reading held made, ?_, ?_⟩
      · rw [typed_iff clear held made (comparedTypes_tested space), compared]
      · rw [Encoder.parts_of_ok made]
    next => cases admitted
  next => cases admitted

theorem not_typed_of_none (encodes : row.Encodes e) (clear : ¬ row.Confuses e) {key : String}
    (refused : (Operand.key key).literal? space row = none) {parts : LiteralParts}
    (known : (row.reading e).parts? key = some parts) :
    (row.reading e).typed parts space.comparedTypes = false := by
  have shape : ∃ value lang datatype, row.get? key = some (.literal value lang datatype) := by
    by_contra other
    rw [Reading.parts_eq_none fun value lang datatype held => other ⟨_, _, _, held⟩] at known
    cases known
  obtain ⟨value, lang, datatype, held⟩ := shape
  obtain ⟨_, made⟩ := encodes.parts held
  obtain rfl := Option.some.inj (known.symm.trans (parts_reading held made))
  rw [typed_iff clear held made (comparedTypes_tested space)]
  simpa [Operand.literal?, held] using refused

theorem bind_typed {α : Type} (encodes : row.Encodes e) (clear : ¬ row.Confuses e) (key : String)
    (read : Field → α) :
    (((row.reading e).parts? key).bind fun parts =>
        if (row.reading e).typed parts space.comparedTypes then some (read parts.special) else none) =
      ((Operand.key key).literal? space row).map fun (value, datatype) =>
        read ((Special.ofLiteral value datatype).toField e.hasher value) := by
  cases admitted : (Operand.key key).literal? space row with
  | none =>
    cases known : (row.reading e).parts? key with
    | none => rfl
    | some parts => simp [not_typed_of_none encodes clear admitted known]
  | some literal =>
    obtain ⟨parts, known, typed, special⟩ := parts_of_literal encodes clear admitted
    simp [known, typed, special]

theorem ordinal_operand (encodes : row.Encodes e) (clear : ¬ row.Confuses e)
    (numbers : space ≠ .string) (encoded : o.Encoded e) :
    (row.reading e).ordinal space ((row.reading e).meaning o.expr) =
      (o.literal? space row).map fun (value, datatype) =>
        (Special.ofLiteral value datatype).toField e.hasher value := by
  cases o with
  | key key =>
    cases held : row.get? key with
    | none =>
      rw [Operand.expr, meaning_unbound held]
      simp [Reading.ordinal, Operand.literal?, held]
    | some t =>
      obtain ⟨code, _, meant⟩ := meaning_key encodes held
      rw [Operand.expr, meant]
      exact bind_typed encodes clear key id
  | term t =>
    obtain ⟨code, made⟩ := encoded
    rw [Operand.expr, meaning_term made]
    simp only [Reading.ordinal, Option.bind_some, Operand.literal?, Constant.ordinal?]
    cases plain : Constant.plain? t with
    | none => rfl
    | some literal =>
      obtain ⟨value, datatype⟩ := literal
      by_cases here : ValueSpace.ofDatatype? datatype = some space
      · have notString : (space == ValueSpace.string) = false := by simpa using numbers
        cases special : Special.ofLiteral value datatype with
        | raw =>
          by_cases numeric : space = .numeric <;>
            simp [here, special, notString, numeric, Special.number?, Except.toOption]
        | _ => simp [here, special, notString, Special.number?, Special.toField, Except.toOption]
      · simp [here, Except.toOption]

theorem stringOperand_operand (encodes : row.Encodes e) (clear : ¬ row.Confuses e)
    (encoded : o.Encoded e) :
    (row.reading e).stringOperand ((row.reading e).meaning o.expr) =
      (o.literal? .string row).map fun _ => o := by
  cases o with
  | key key =>
    cases held : row.get? key with
    | none =>
      rw [Operand.expr, meaning_unbound held]
      simp [Reading.stringOperand, Operand.literal?, held]
    | some t =>
      obtain ⟨code, _, meant⟩ := meaning_key encodes held
      rw [Operand.expr, meant]
      exact bind_typed encodes clear key fun _ => Operand.key key
  | term t =>
    obtain ⟨code, made⟩ := encoded
    rw [Operand.expr, meaning_term made]
    cases plain : Constant.plain? t with
    | none => simp [Reading.stringOperand, Operand.literal?, plain]
    | some literal =>
      by_cases here : ValueSpace.ofDatatype? literal.2 = some .string
      · simp [Reading.stringOperand, Operand.literal?, plain, here]
      · simp [Reading.stringOperand, Operand.literal?, plain, here]

theorem asInt64_literal (clear : ¬ row.Mimics e) (numbers : space ≠ .string) {value : String}
    {datatype : String} (admitted : o.literal? space row = some (value, datatype)) :
    View.asInt64 ((Special.ofLiteral value datatype).toField e.hasher value) =
      (Special.ofLiteral value datatype).number? := by
  cases denotes : (Special.ofLiteral value datatype).number? with
  | some n => exact Special.asInt64_toField e.hasher denotes
  | none =>
    have raw : Special.ofLiteral value datatype = .raw := by
      cases special : Special.ofLiteral value datatype with
      | raw => rfl
      | boolean _ | integer _ | millis _ =>
        rw [special] at denotes
        cases denotes
    rw [raw, Special.toField, ← Option.not_isSome_iff_eq_none]
    intro number
    cases o with
    | key key =>
      simp only [Operand.literal?] at admitted
      split at admitted
      next _ lang _ held =>
        split at admitted
        · obtain ⟨rfl, rfl⟩ := Prod.mk.inj (Option.some.inj admitted)
          exact clear ⟨key, _, lang, _, held, denotes, number⟩
        · cases admitted
      next => cases admitted
    | term t =>
      have notString : (space == ValueSpace.string) = false := by simpa using numbers
      have valued := (Option.filter_eq_some_iff.1 admitted).2
      simp [notString, denotes] at valued

theorem compares_literals (clear : ¬ row.Mimics e) (numbers : space ≠ .string) (op : CompareOp)
    {x y : String × String} (first : a.literal? space row = some x)
    (second : b.literal? space row = some y) :
    View.compares op ((Special.ofLiteral x.1 x.2).toField e.hasher x.1)
        ((Special.ofLiteral y.1 y.2).toField e.hasher y.1) =
      (space.order? x y).any op.accepts := by
  rw [View.compares, asInt64_literal clear numbers first, asInt64_literal clear numbers second,
    ValueSpace.order?, if_neg numbers]
  cases (Special.ofLiteral x.1 x.2).number? <;> cases (Special.ofLiteral y.1 y.2).number? <;> rfl

theorem termOf_literal {x : String × String} (admitted : o.literal? .string row = some x) :
    ∃ t, Hint.termOf row o = .ok t ∧ t.lexical? = some x.1 := by
  cases o with
  | key key =>
    simp only [Operand.literal?] at admitted
    split at admitted
    next value lang datatype held =>
      split at admitted
      · obtain rfl := Option.some.inj admitted
        exact ⟨_, by rw [Hint.termOf, held], rfl⟩
      · cases admitted
    next => cases admitted
  | term t =>
    have plain := (Option.filter_eq_some_iff.1 admitted).1
    refine ⟨t, rfl, ?_⟩
    unfold Constant.plain? at plain
    split at plain
    · obtain rfl := Option.some.inj plain
      rfl
    · cases plain

theorem acceptsOrder_orderOf (op : CompareOp) (left right : String) :
    Reading.acceptsOrder op (Hint.orderOf left right) = op.accepts (compare left right) := by
  have order : compare left right = if left < right then .lt else if left = right then .eq else .gt :=
    rfl
  rw [order, Hint.orderOf]
  by_cases less : left < right
  · rw [if_pos less, if_pos less]
    cases op <;> decide
  · rw [if_neg less, if_neg less]
    by_cases same : left = right
    · rw [if_pos same, if_pos same]
      cases op <;> decide
    · rw [if_neg same, if_neg same]
      cases op <;> decide

theorem space_operand (encoded : o.Encoded e) :
    Reading.spaceOf? ((row.reading e).meaning o.expr) = o.space? := by
  cases o with
  | key key =>
    rw [Operand.expr, Reading.meaning]
    cases (row.reading e).row key <;> rfl
  | term t =>
    obtain ⟨code, made⟩ := encoded
    rw [Operand.expr, meaning_term made]
    rfl

theorem numberOrder_operands (encodes : row.Encodes e) (clear : ¬ row.Confuses e)
    (honest : ¬ row.Mimics e) (op : CompareOp) (numbers : space ≠ .string) (first : a.Encoded e)
    (second : b.Encoded e) :
    (row.reading e).numberOrder op space ((row.reading e).meaning a.expr)
        ((row.reading e).meaning b.expr) =
      (a.literal? space row).bind fun x => (b.literal? space row).map fun y =>
        (space.order? x y).any op.accepts := by
  rw [Reading.numberOrder, ordinal_operand encodes clear numbers first,
    ordinal_operand encodes clear numbers second]
  cases admittedA : a.literal? space row with
  | none => rfl
  | some x =>
    cases admittedB : b.literal? space row with
    | none => rfl
    | some y => exact congrArg some (compares_literals honest numbers op admittedA admittedB)

theorem stringOrder_operands (encodes : row.Encodes e) (clear : ¬ row.Confuses e) (op : CompareOp)
    (first : a.Encoded e) (second : b.Encoded e) :
    (row.reading e).stringOrder op ((row.reading e).meaning a.expr)
        ((row.reading e).meaning b.expr) =
      (a.literal? .string row).bind fun x => (b.literal? .string row).map fun y =>
        (ValueSpace.string.order? x y).any op.accepts := by
  rw [Reading.stringOrder, stringOperand_operand encodes clear first,
    stringOperand_operand encodes clear second]
  cases admittedA : a.literal? .string row with
  | none => rfl
  | some x =>
    cases admittedB : b.literal? .string row with
    | none => rfl
    | some y =>
      obtain ⟨t, boundA, lexicalA⟩ := termOf_literal admittedA
      obtain ⟨u, boundB, lexicalB⟩ := termOf_literal admittedB
      have order : (row.reading e).trusted (.stringOrder a b) = Hint.orderOf x.1 y.1 := by
        simp [reading, hintValue, Hint.value, boundA, boundB, lexicalA, lexicalB, bind, Except.bind,
          pure, Except.pure, Except.toOption]
      simp only [Option.map_some, Option.bind_some, order, acceptsOrder_orderOf]
      rfl

/-- A comparison of operands that are not both constant means what the order of their literals says,
and nothing where one of them is not admitted. -/
theorem outcome_compare (encodes : row.Encodes e) (clear : ¬ row.Confuses e)
    (honest : ¬ row.Mimics e) (op : CompareOp) (varies : ∃ key, a = .key key ∨ b = .key key)
    (first : a.Encoded e) (second : b.Encoded e) :
    (row.reading e).outcome (.compare op a.expr b.expr) =
      (a.literal? (a.spaceWith b) row).bind fun x => (b.literal? (a.spaceWith b) row).map fun y =>
        ((a.spaceWith b).order? x y).any op.accepts := by
  have ordered : (row.reading e).outcome (.compare op a.expr b.expr) =
      (row.reading e).ordered op ((row.reading e).meaning a.expr)
        ((row.reading e).meaning b.expr) := by
    rw [Reading.outcome]
    -- Two constants would be compared as terms, but one of the operands varies.
    unfold Reading.comparison
    split
    next p t q u shapeA shapeB =>
      obtain ⟨key, rfl | rfl⟩ := varies
      · rw [Operand.expr, Reading.meaning] at shapeA
        split at shapeA <;> cases shapeA
      · rw [Operand.expr, Reading.meaning] at shapeB
        split at shapeB <;> cases shapeB
    next => rfl
  rw [ordered, Reading.ordered, space_operand first, space_operand second, ← Operand.spaceWith]
  cases a.spaceWith b with
  | string => exact stringOrder_operands encodes clear op first second
  | numeric | boolean | dateTime =>
    exact numberOrder_operands encodes clear honest op (by decide) first second

end Reading

end Row

/-! ## Compiled comparisons -/

namespace Surroundings

open Compiling

variable {s : Surroundings} {before after : List Hint} {c : Condition}

theorem encoded_of_value {o : Operand} {g : Guarded}
    (compiled : s.value o.expr before = .ok (g, after)) : o.Encoded s.encoder := by
  cases o with
  | key key => trivial
  | term t =>
    obtain ⟨code, _, lifted, _⟩ := run_bind_ok_iff.1 compiled
    obtain ⟨encoded, _⟩ := run_lift_ok_iff.1 lifted
    exact ⟨code, encoded⟩

theorem stringOrder_other {op : CompareOp} (other : CompareOp) {guards : List Assertion}
    {x y : Value} (compiled : s.stringOrder op guards x y before = .ok (c, after)) :
    ∃ d, s.stringOrder other guards x y before = .ok (d, after) := by
  obtain ⟨⟨one, oneGuards⟩, middle, left, compiled⟩ := run_bind_ok_iff.1 compiled
  obtain ⟨⟨two, twoGuards⟩, last, right, compiled⟩ := run_bind_ok_iff.1 compiled
  refine Exists.imp (fun d ran => run_bind_ok_iff.2 ⟨_, middle, left,
    run_bind_ok_iff.2 ⟨_, last, right, ran⟩⟩) ?_
  cases one with
  | none =>
    obtain ⟨_, rfl⟩ := run_pure_ok_iff.1 compiled
    exact ⟨_, rfl⟩
  | some one =>
    cases two with
    | none =>
      obtain ⟨_, rfl⟩ := run_pure_ok_iff.1 compiled
      exact ⟨_, rfl⟩
    | some two =>
      obtain ⟨order, final, listed, compiled⟩ := run_bind_ok_iff.1 compiled
      obtain ⟨_, rfl⟩ := run_pure_ok_iff.1 compiled
      exact ⟨_, run_bind_ok_iff.2 ⟨order, final, listed, rfl⟩⟩

theorem numberOrder_other {op : CompareOp} (other : CompareOp) {space : ValueSpace}
    {guards : List Assertion} {x y : Value}
    (compiled : s.numberOrder op space guards x y before = .ok (c, after)) :
    ∃ d, s.numberOrder other space guards x y before = .ok (d, after) := by
  obtain ⟨⟨one, oneGuards⟩, middle, left, compiled⟩ := run_bind_ok_iff.1 compiled
  obtain ⟨⟨two, twoGuards⟩, last, right, compiled⟩ := run_bind_ok_iff.1 compiled
  refine Exists.imp (fun d ran => run_bind_ok_iff.2 ⟨_, middle, left,
    run_bind_ok_iff.2 ⟨_, last, right, ran⟩⟩) ?_
  cases one <;> cases two <;>
  · obtain ⟨_, rfl⟩ := run_pure_ok_iff.1 compiled
    exact ⟨_, rfl⟩

/-- Where values compare under one operator, they compare under any, with the same hints. -/
theorem comparison_other {op : CompareOp} (other : CompareOp) {a b : Guarded}
    (compiled : s.comparison op a b before = .ok (c, after)) :
    ∃ d, s.comparison other a b before = .ok (d, after) := by
  by_cases constants : ∃ p t q u, a.value = .term p (.const t) ∧ b.value = .term q (.const u)
  · obtain ⟨p, t, q, u, first, second⟩ := constants
    simp only [comparison, first, second] at compiled ⊢
    obtain ⟨_, rfl⟩ := run_pure_ok_iff.1 compiled
    exact ⟨_, rfl⟩
  · rw [comparison_eq_ordered constants, ordered] at compiled
    rw [comparison_eq_ordered constants, ordered]
    generalize (spaceOf? a.value <|> spaceOf? b.value).getD .numeric = space at compiled ⊢
    cases space with
    | string => exact stringOrder_other other compiled
    | numeric | boolean | dateTime => exact numberOrder_other other compiled

theorem compare_other {op : CompareOp} (other : CompareOp) {a b : Expr}
    (compiled : s.condition (.compare op a b) before = .ok (c, after)) :
    ∃ d, s.condition (.compare other a b) before = .ok (d, after) := by
  obtain ⟨x, middle, left, compiled⟩ := run_bind_ok_iff.1 compiled
  obtain ⟨y, last, right, compiled⟩ := run_bind_ok_iff.1 compiled
  obtain ⟨d, ran⟩ := comparison_other other compiled
  exact ⟨d, run_bind_ok_iff.2 ⟨x, middle, left, run_bind_ok_iff.2 ⟨y, last, right, ran⟩⟩⟩

theorem compare_encoded {op : CompareOp} {a b : Operand}
    (compiled : s.condition (.compare op a.expr b.expr) before = .ok (c, after)) :
    a.Encoded s.encoder ∧ b.Encoded s.encoder := by
  obtain ⟨x, middle, left, compiled⟩ := run_bind_ok_iff.1 compiled
  obtain ⟨y, last, right, _⟩ := run_bind_ok_iff.1 compiled
  exact ⟨encoded_of_value left, encoded_of_value right⟩

end Surroundings

/-- A negated ordering and the complementary one, for operands of which at least one is a variable:
over every view of a row that gives it honest hints they accept the same, and a comparison that is a
type error is rejected either way, exactly unless the comparison admits both operands though one of
them denotes no number. Hashes that the row exhibits may spoil this: two inputs with one digest, two
datatypes with one encoding, or a lexical form whose hash is a small number. -/
theorem negated_ordering_complementary (s : Surroundings) (op : CompareOp) (a b : Operand)
    (before after : List Hint) (c : Condition) (varies : ∃ key, a = .key key ∨ b = .key key)
    (compiled : s.condition (.compare op a.expr b.expr) before = .ok (c, after)) :
    ∃ d, s.condition (.compare op.complement a.expr b.expr) before = .ok (d, after) ∧
      s.condition (.not (.compare op a.expr b.expr)) before = .ok (c.negated, after) ∧
      ∀ (v : View) (row : Row) (all : List Hint), after <+: all → v.Presents s row all →
        row.Encodes s.encoder →
        (((v.holds s.encoder.hasher c.negated.holds = .ok true ↔
              v.holds s.encoder.hasher d.holds = .ok true) ∧
            (row.order? a b = none → v.holds s.encoder.hasher c.negated.holds ≠ .ok true ∧
              v.holds s.encoder.hasher d.holds ≠ .ok true)) ↔
          ¬ row.ComparesUnvalued a b) ∨
        row.Collides s.encoder ∨ row.Confuses s.encoder ∨ row.Mimics s.encoder := by
  obtain ⟨d, complementary⟩ := Surroundings.compare_other op.complement compiled
  have negation := Surroundings.condition_not compiled
  refine ⟨d, complementary, negation, fun v row all continues presents encodes => ?_⟩
  by_cases collides : row.Collides s.encoder
  · exact Or.inr (Or.inl collides)
  by_cases confuses : row.Confuses s.encoder
  · exact Or.inr (Or.inr (Or.inl confuses))
  by_cases mimics : row.Mimics s.encoder
  · exact Or.inr (Or.inr (Or.inr mimics))
  refine Or.inl ?_
  obtain ⟨first, second⟩ := Surroundings.compare_encoded compiled
  rw [ne_eq, ne_eq, presents.holds_iff continues negation encodes collides,
    presents.holds_iff continues complementary encodes collides, Reading.outcome,
    Row.outcome_compare encodes confuses mimics op varies first second,
    Row.outcome_compare encodes confuses mimics op.complement varies first second,
    Row.ComparesUnvalued, Row.order?]
  cases a.literal? (a.spaceWith b) row with
  | none => simp
  | some x =>
    cases b.literal? (a.spaceWith b) row with
    | none => simp
    | some y =>
      simp only [Option.bind_eq_bind, Option.bind_some, Option.map_some, Option.isSome_some]
      cases (a.spaceWith b).order? x y <;> simp [CompareOp.accepts_complement]

/-! ## A literal without a value -/

def unvaluedRow : Row := KeyMap.ofList [("o", .literal "x" none (xsd ++ "boolean"))]

def trueOperand : Operand := .term (.literal "true" none (xsd ++ "boolean"))

def unvaluedSurroundings : Surroundings := unvaluedRow.surroundings sampleConfig.encoder

def unvaluedParts : Parts :=
  .ofKey (Hint.parts "o") "o" (.const (unvaluedRow.code sampleConfig.encoder "o"))

def unvaluedCondition (op : CompareOp) : Condition :=
  Surroundings.guardedBy
    [unvaluedParts.tie, unvaluedSurroundings.datatypeIn unvaluedParts ["boolean"]]
    (.compare op unvaluedParts.special (.const (Field.ofBool true)))

theorem unvalued_compiles (op : CompareOp) : unvaluedSurroundings.condition
    (.compare op (Operand.key "o").expr trueOperand.expr) [] =
      .ok (unvaluedCondition op, Hint.parts "o") :=
  rfl

theorem unvalued_encodes : unvaluedRow.Encodes sampleConfig.encoder :=
  Row.encodes_single "o" rfl

theorem negated_ordering_complementary_sample : ∃ d v,
    (∃ key, Operand.key "o" = .key key ∨ trueOperand = .key key) ∧
    unvaluedSurroundings.condition (.compare .lt (Operand.key "o").expr trueOperand.expr) [] =
      .ok (unvaluedCondition .lt, Hint.parts "o") ∧
    unvaluedSurroundings.condition (.compare .ge (Operand.key "o").expr trueOperand.expr) [] =
      .ok (d, Hint.parts "o") ∧
    View.Presents v unvaluedSurroundings unvaluedRow (Hint.parts "o") ∧
    unvaluedRow.Encodes sampleConfig.encoder ∧
    ((((v.holds sampleConfig.hasher (unvaluedCondition .lt).negated.holds = .ok true ↔
          v.holds sampleConfig.hasher d.holds = .ok true) ∧
        (unvaluedRow.order? (.key "o") trueOperand = none →
          v.holds sampleConfig.hasher (unvaluedCondition .lt).negated.holds ≠ .ok true ∧
          v.holds sampleConfig.hasher d.holds ≠ .ok true)) ↔
        ¬ unvaluedRow.ComparesUnvalued (.key "o") trueOperand) ∨
      unvaluedRow.Collides sampleConfig.encoder ∨ unvaluedRow.Confuses sampleConfig.encoder ∨
        unvaluedRow.Mimics sampleConfig.encoder) := by
  have varies : ∃ key, Operand.key "o" = .key key ∨ trueOperand = .key key := ⟨"o", Or.inl rfl⟩
  obtain ⟨d, complementary, _, agrees⟩ := negated_ordering_complementary unvaluedSurroundings .lt
    (.key "o") trueOperand [] (Hint.parts "o") _ varies (unvalued_compiles .lt)
  have presents := unvaluedRow.presents sampleConfig.encoder (Hint.parts "o")
  exact ⟨d, _, varies, unvalued_compiles .lt, complementary, presents, unvalued_encodes,
    agrees _ unvaluedRow _ List.prefix_rfl presents unvalued_encodes⟩

set_option maxRecDepth 100000 in
theorem unvalued_not_small : View.asInt64 (sampleConfig.hasher.onText "x") = none := by
  rw [Config.hasher_eq]
  decide +kernel

theorem unvalued_truth (op : CompareOp) :
    (unvaluedRow.view sampleConfig.encoder (Hint.parts "o")).truth sampleConfig.encoder.hasher
        (unvaluedCondition op).defined = true ∧
      (unvaluedRow.view sampleConfig.encoder (Hint.parts "o")).holds sampleConfig.encoder.hasher
        (unvaluedCondition op).value = .ok false := by
  have presents := unvaluedRow.presents sampleConfig.encoder (Hint.parts "o")
  have found : unvaluedSurroundings.keyWire? "o" =
      some (.const (unvaluedRow.code sampleConfig.encoder "o")) := rfl
  have held : unvaluedRow.get? "o" = some (.literal "x" none (xsd ++ "boolean")) := rfl
  obtain ⟨parts, made⟩ : ∃ parts, sampleConfig.encoder.literalParts "x" none (xsd ++ "boolean") =
      .ok parts := ⟨_, rfl⟩
  have special : parts.special = sampleConfig.hasher.onText "x" := by
    rw [← Except.ok.inj made]
    rfl
  have tie := View.truth_of_holds (presents.holds_tie found (fun _ part => part) held made)
  have typed := presents.truth_datatypeIn found (fun _ part => part) held made
    (show isXsdType ["boolean"] (xsd ++ "boolean") = true by decide +kernel)
  have read := (presents.field_parts found (fun _ part => part) held made).2.1
  constructor
  · rw [unvaluedCondition, Surroundings.guardedBy, View.truth_all, List.all_cons, List.all_cons]
    exact Bool.and_eq_true_iff.2 ⟨tie, Bool.and_eq_true_iff.2 ⟨typed, rfl⟩⟩
  · have value : View.compares op parts.special (Field.ofBool true) = false := by
      rw [View.compares, special, unvalued_not_small]
    rw [← value]
    simp only [unvaluedCondition, Surroundings.guardedBy, View.holds]
    exact bind_ok_iff.2 ⟨_, read, rfl⟩

/-- A comparison that is a type error, of a literal without a value with a boolean: the row
satisfies its negation, and not the complementary comparison. -/
theorem denied_ordering_satisfied : unvaluedRow.order? (.key "o") trueOperand = none ∧
    unvaluedRow.satisfies sampleConfig.encoder
      (.not (.compare .lt (Operand.key "o").expr trueOperand.expr)) = true ∧
    unvaluedRow.satisfies sampleConfig.encoder
      (.compare .ge (Operand.key "o").expr trueOperand.expr) = false := by
  have negation := Surroundings.condition_not (unvalued_compiles .lt)
  obtain ⟨guarded, less⟩ := unvalued_truth .lt
  obtain ⟨_, more⟩ := unvalued_truth .ge
  refine ⟨by decide +kernel, ?_, ?_⟩
  · rw [Row.satisfies, show (unvaluedRow.surroundings sampleConfig.encoder).condition _ _ = _ from
      negation]
    dsimp only [Condition.holds, Condition.negated]
    rw [View.truth_all, List.all_cons, List.all_cons, List.all_nil, Bool.and_true, guarded,
      View.truth_negated (View.decides_of_holds less), View.truth_of_holds less]
    rfl
  · rw [Row.satisfies, show (unvaluedRow.surroundings sampleConfig.encoder).condition _ _ = _ from
      unvalued_compiles .ge]
    dsimp only [Condition.holds]
    rw [View.truth_all, List.all_cons, List.all_cons, List.all_nil, Bool.and_true,
      View.truth_of_holds more, Bool.and_false]

end AttestedQuery
