import AttestedQuery.Proofs.Orderings

/-!
# Orderings decided before run time

Two constants are compared while a query is compiled; a variable and a constant are compared by a
constraint, from the parts of the literal that the variable is bound to. For literals that have a
place in the order of one space the two ways agree. This needs nothing of the hash: the guards of
the comparison hold of honest hints, and the numbers that it reads are those of the literals.
-/

set_option autoImplicit false

namespace AttestedQuery

/-! ## Literals with a place in an order -/

/-- A literal without a language tag that has a place in the order of a space: its datatype is one of
those compared there, and except among strings it denotes a value. -/
def ValueSpace.Ranks (space : ValueSpace) (t : Term) : Prop :=
  ∃ value datatype, t = .literal value none datatype ∧
    isXsdType space.comparedTypes datatype = true ∧
      (space = .string ∨ (Special.ofLiteral value datatype).number?.isSome = true)

section Compared

variable {space : ValueSpace} {value datatype value' datatype' : String}

theorem ValueSpace.ofDatatype_compared (compared : isXsdType space.comparedTypes datatype = true) :
    ofDatatype? datatype = some space := by
  obtain ⟨name, member, rfl⟩ := isXsdType_iff.1 compared
  simp only [ofDatatype?, isXsdType_append]
  cases space with
  | numeric =>
    have numeric : name ∈ numericTypes := List.mem_append_left _ member
    rw [if_pos (List.contains_iff_mem.2 numeric)]
  | string | boolean | dateTime =>
    obtain rfl := List.mem_singleton.1 member
    rfl

theorem Constant.not_floating_compared (compared : isXsdType space.comparedTypes datatype = true) :
    isFloating datatype = false := by
  have each : ∀ name ∈ space.comparedTypes, ["float", "double"].contains name = false := by
    cases space <;> decide
  obtain ⟨name, member, rfl⟩ := isXsdType_iff.1 compared
  rw [isFloating, isXsdType_append, each name member]

theorem Special.ofLiteral_compared (compared : isXsdType space.comparedTypes datatype = true) :
    ofLiteral value datatype = match space with
      | .numeric => ofInteger value
      | .string => .raw
      | .boolean => ofBoolean value
      | .dateTime => ofDateTime value := by
  obtain ⟨name, member, rfl⟩ := isXsdType_iff.1 compared
  rw [ofLiteral, xsdLocalName_iff.2 rfl]
  cases space with
  | numeric =>
    have integers : name ∈ integerTypes := member
    have other : name ≠ "boolean" := by
      rintro rfl
      exact absurd integers (by decide)
    dsimp only
    rw [if_neg other, if_pos (List.contains_iff_mem.2 integers)]
  | string | boolean | dateTime =>
    obtain rfl := List.mem_singleton.1 member
    rfl

theorem Constant.rank_compared (compared : isXsdType space.comparedTypes datatype = true)
    (unlike : space = .boolean ∨ space = .dateTime) :
    rank? value datatype = (Special.ofLiteral value datatype).number? := by
  -- No integer is read in these spaces, and only integers have a number without a rank.
  have noInteger (n : Int) : Special.ofLiteral value datatype ≠ .integer n := by
    rw [Special.ofLiteral_compared compared]
    rcases unlike with rfl | rfl
    · dsimp only [Special.ofBoolean]
      split_ifs <;> exact Special.noConfusion
    · dsimp only [Special.ofDateTime]
      split
      · split_ifs <;> exact Special.noConfusion
      · exact Special.noConfusion
  rw [rank?]
  cases special : Special.ofLiteral value datatype with
  | integer n => exact absurd special (noInteger n)
  | boolean _ | millis _ | raw => rfl

theorem Constant.numericOrder_compared {m n : Int}
    (compared : isXsdType ValueSpace.numeric.comparedTypes datatype = true)
    (compared' : isXsdType ValueSpace.numeric.comparedTypes datatype' = true)
    (denotes : (Special.ofLiteral value datatype).number? = some m)
    (denotes' : (Special.ofLiteral value' datatype').number? = some n) :
    numericOrder? value datatype value' datatype' = some (compare m n) := by
  have integer {text type : String} {k : Int}
      (typed : isXsdType ValueSpace.numeric.comparedTypes type = true)
      (number : (Special.ofLiteral text type).number? = some k) :
      Special.ofLiteral text type = .integer k := by
    rw [Special.ofLiteral_compared typed] at number ⊢
    dsimp only [Special.ofInteger] at number ⊢
    split at number
    · exact congrArg Special.integer (Option.some.inj number)
    · cases number
  rw [numericOrder?, integer compared denotes, integer compared' denotes']

theorem Constant.compare_ranked {order : Ordering} (op : CompareOp)
    (compared : isXsdType space.comparedTypes datatype = true)
    (compared' : isXsdType space.comparedTypes datatype' = true)
    (ordered : space.order? (value, datatype) (value', datatype') = some order) :
    compare? op (.literal value none datatype) (.literal value' none datatype') =
      some (op.accepts order) := by
  simp only [compare?, plain?, Option.bind_eq_bind, Option.bind_some,
    ValueSpace.ofDatatype_compared compared, ValueSpace.ofDatatype_compared compared',
    not_floating_compared compared, not_floating_compared compared']
  by_cases text : space = .string
  · subst text
    obtain rfl := Option.some.inj ordered
    rfl
  · rw [ValueSpace.order?, if_neg text] at ordered
    obtain ⟨m, denotes, ordered⟩ := Option.bind_eq_some_iff.1 ordered
    obtain ⟨n, denotes', ordered⟩ := Option.bind_eq_some_iff.1 ordered
    obtain rfl := Option.some.inj ordered
    cases space with
    | string => exact absurd rfl text
    | numeric => simp [numericOrder_compared compared compared' denotes denotes']
    | boolean | dateTime =>
      simp only [rank_compared compared (by simp), rank_compared compared' (by simp)]
      rw [denotes, denotes']
      rfl

end Compared

/-! ## Computations that always succeed -/

namespace Compiling

variable {α β : Type} {wanted : List Hint → α → Prop}

/-- A computation that succeeds whatever hints are listed before it, and whose result is as wanted. -/
def Makes (x : Compiling α) (wanted : List Hint → α → Prop) : Prop :=
  (∀ before, ∃ a after, x before = .ok (a, after)) ∧ Yields x wanted

theorem makes_pure {a : α} (holds : ∀ all, wanted all a) : Makes (pure a) wanted :=
  ⟨fun before => ⟨a, before, rfl⟩, yields_pure holds⟩

theorem makes_bind {x : Compiling β} {f : β → Compiling α} {middle : List Hint → β → Prop}
    (first : Makes x middle) (second : ∀ b, Makes (f b) fun all a => middle all b → wanted all a) :
    Makes (x >>= f) wanted := by
  refine ⟨fun before => ?_, yields_bind first.2 fun b => (second b).2⟩
  obtain ⟨b, between, ran⟩ := first.1 before
  obtain ⟨a, after, continued⟩ := (second b).1 between
  exact ⟨a, after, run_bind_ok_iff.2 ⟨b, between, ran, continued⟩⟩

theorem makes_lifted {x : Result α} {a : α} (found : x = .ok a) :
    Makes (liftM x) fun _ b => b = a := by
  refine ⟨fun before => ⟨a, before, run_lift_ok_iff.2 ⟨found, rfl⟩⟩, (yields_lifted x).imp ?_⟩
  intro _ b same
  exact Except.ok.inj (same.symm.trans found)

theorem makes_hint (h : Hint) : Makes (hint h) fun all wire => h ∈ all ∧ wire = h.wire all :=
  ⟨hint_ok h, yields_hint h⟩

theorem makes_literalParts (key : String) (wire : Wire) :
    Makes (literalParts key wire) fun all parts =>
      parts = Parts.ofKey all key wire ∧ ∀ h ∈ Hint.parts key, h ∈ all := by
  have succeeds : Makes (literalParts key wire) fun _ _ => True := by
    refine makes_bind (makes_hint _) fun _ => ?_
    refine makes_bind (makes_hint _) fun _ => ?_
    refine makes_bind (makes_hint _) fun _ => ?_
    refine makes_bind (makes_hint _) fun _ => makes_pure ?_
    simp
  exact ⟨succeeds.1, yields_literalParts key wire⟩

end Compiling

/-! ## What a comparison reads -/

structure Condition.Says (h : Hasher) (v : View) (c : Condition) (value : Bool) : Prop where
  holds : v.holds h c.holds = .ok value
  negated : v.holds h c.negated.holds = .ok (!value)

theorem Condition.says_guardedBy {h : Hasher} {v : View} {guards : List Assertion}
    {a : Assertion} {value : Bool} (met : ∀ g ∈ guards, v.holds h g = .ok true)
    (read : v.holds h a = .ok value) : Says h v (Surroundings.guardedBy guards a) value := by
  have defined : v.holds h (.all guards) = .ok true := (View.holds_all_iff guards).2 met
  have whole {b : Assertion} {found : Bool} (read : v.holds h b = .ok found) :
      v.holds h (.all [.all guards, b]) = .ok found := by
    have decided : v.Decides h (.all [.all guards, b]) := by
      refine View.decides_all ?_
      rw [List.forall_mem_cons, List.forall_mem_singleton]
      exact ⟨View.decides_of_holds defined, View.decides_of_holds read⟩
    rw [decided, View.truth_all, List.all_cons, List.all_cons, View.truth_of_holds defined,
      View.truth_of_holds read, List.all_nil, Bool.and_true, Bool.true_and]
  have denied : v.holds h a.negated = .ok (!value) := by
    rw [View.holds_negated, read]
    rfl
  exact ⟨whole read, whole denied⟩

namespace Surroundings

open Compiling

variable {s : Surroundings} {row : Row} {space : ValueSpace} {key : String} {wire : Wire}
  {value datatype : String} {code : Field}

def Numbers (s : Surroundings) (row : Row) (n : Int) (all : List Hint)
    (made : Option Wire × List Assertion) : Prop :=
  ∃ w, made.1 = some w ∧ ∀ v : View, v.Presents s row all →
    (∀ g ∈ made.2, v.holds s.encoder.hasher g = .ok true) ∧
      ∃ x, v.field s.encoder.hasher w = .ok x ∧ View.asInt64 x = some n

/-- One side of a comparison of strings over the views that present a row: it has the text, and its
guards hold. -/
def Spells (s : Surroundings) (row : Row) (text : String) (all : List Hint)
    (made : Option Operand × List Assertion) : Prop :=
  ∃ o t, made.1 = some o ∧ (∀ name ∈ o.keys, (s.keyWire? name).isSome) ∧
    Hint.termOf row o = .ok t ∧ t.lexical? = some text ∧ ∀ v : View, v.Presents s row all →
      ∀ g ∈ made.2, v.holds s.encoder.hasher g = .ok true

section Variable

variable (found : s.keyWire? key = some wire)
  (held : row.get? key = some (.literal value none datatype))
  (encoded : s.encoder.encode (.literal value none datatype) = .ok code)
  (compared : isXsdType space.comparedTypes datatype = true)

include found held encoded compared

/-- The guards that a comparison puts on a variable hold of a literal of a compared datatype. -/
theorem typed_met {all : List Hint} (listed : ∀ h ∈ Hint.parts key, h ∈ all) {v : View}
    (presents : v.Presents s row all) :
    ∀ g ∈ [(Parts.ofKey all key wire).tie,
      s.datatypeIn (Parts.ofKey all key wire) space.comparedTypes],
        v.holds s.encoder.hasher g = .ok true := by
  obtain ⟨parts, made, _⟩ := Encoder.encode_literal encoded
  rw [List.forall_mem_cons, List.forall_mem_singleton]
  exact ⟨presents.holds_tie found listed held made,
    (View.truth_iff _).1 (presents.truth_datatypeIn found listed held made compared)⟩

theorem makes_ordinal_variable {n : Int}
    (denotes : (Special.ofLiteral value datatype).number? = some n) :
    Makes (s.ordinal space (.term wire (.key key))) (s.Numbers row n) := by
  refine makes_bind (makes_literalParts key wire) fun parts => makes_pure ?_
  rintro all ⟨rfl, listed⟩
  refine ⟨_, rfl, fun v presents => ⟨typed_met found held encoded compared listed presents, ?_⟩⟩
  obtain ⟨parts, made, _⟩ := Encoder.encode_literal encoded
  have read := (presents.field_parts found listed held made).2.1
  rw [Encoder.parts_of_ok made] at read
  exact ⟨_, read, Special.asInt64_toField s.encoder.hasher denotes⟩

theorem makes_stringOperand_variable (text : space = .string) :
    Makes (s.stringOperand (.term wire (.key key))) (s.Spells row value) := by
  subst text
  refine makes_bind (makes_literalParts key wire) fun parts => makes_pure ?_
  rintro all ⟨rfl, listed⟩
  refine ⟨_, _, rfl, by simp [Operand.keys, found], by rw [Hint.termOf, held], rfl, ?_⟩
  exact fun v presents => typed_met found held encoded compared listed presents

end Variable

theorem makes_ordinal_constant {n : Int}
    (compared : isXsdType space.comparedTypes datatype = true)
    (denotes : (Special.ofLiteral value datatype).number? = some n) :
    Makes (s.ordinal space (.term wire (.const (.literal value none datatype))))
      (s.Numbers row n) := by
  have valued : Constant.ordinal? space (.literal value none datatype) =
      .ok (some ((Special.ofLiteral value datatype).toField s.encoder.hasher value)) := by
    rw [Constant.ordinal?, Constant.plain?]
    dsimp only
    rw [if_pos (ValueSpace.ofDatatype_compared compared)]
    cases special : Special.ofLiteral value datatype with
    | raw =>
      rw [special] at denotes
      cases denotes
    | boolean _ | integer _ | millis _ => rfl
  refine makes_bind (makes_lifted valued) fun found => makes_pure ?_
  rintro all rfl
  refine ⟨_, rfl, fun v _ => ⟨List.forall_mem_nil _, _, rfl, ?_⟩⟩
  exact Special.asInt64_toField s.encoder.hasher denotes

theorem makes_stringOperand_constant
    (compared : isXsdType ValueSpace.string.comparedTypes datatype = true) :
    Makes (s.stringOperand (.term wire (.const (.literal value none datatype))))
      (s.Spells row value) := by
  have spelled : ((Constant.plain? (.literal value none datatype)).any fun literal =>
      ValueSpace.ofDatatype? literal.2 == some .string) = true := by
    rw [Constant.plain?, Option.any_some, ValueSpace.ofDatatype_compared compared]
    rfl
  refine makes_pure fun all => ?_
  rw [if_pos spelled]
  exact ⟨_, _, rfl, by simp [Operand.keys], rfl, rfl, fun v _ => List.forall_mem_nil _⟩

/-! ## Comparisons of a variable with a constant -/

theorem makes_numberOrder {m n : Int} {a b : Value} (op : CompareOp)
    (left : Makes (s.ordinal space a) (s.Numbers row m))
    (right : Makes (s.ordinal space b) (s.Numbers row n)) :
    Makes (s.numberOrder op space [] a b) fun all c => ∀ v : View, v.Presents s row all →
      c.Says s.encoder.hasher v (op.accepts (compare m n)) := by
  refine makes_bind left ?_
  rintro ⟨one, oneGuards⟩
  refine makes_bind right ?_
  rintro ⟨other, otherGuards⟩
  cases one with
  | none => exact makes_pure fun _ _ ⟨_, missing, _⟩ => nomatch missing
  | some x =>
    cases other with
    | none => exact makes_pure fun _ ⟨_, missing, _⟩ => nomatch missing
    | some y =>
      refine makes_pure ?_
      rintro all ⟨_, ⟨⟩, second⟩ ⟨_, ⟨⟩, first⟩ v presents
      obtain ⟨met, p, readX, numberX⟩ := first v presents
      obtain ⟨met', q, readY, numberY⟩ := second v presents
      refine Condition.says_guardedBy ?_ ?_
      · rw [List.nil_append, List.forall_mem_append]
        exact ⟨met, met'⟩
      · simp [View.holds, readX, readY, View.compares, numberX, numberY, bind, Except.bind, pure,
          Except.pure]

theorem makes_stringOrder {text other : String} {a b : Value} (op : CompareOp)
    (left : Makes (s.stringOperand a) (s.Spells row text))
    (right : Makes (s.stringOperand b) (s.Spells row other)) :
    Makes (s.stringOrder op [] a b) fun all c => ∀ v : View, v.Presents s row all →
      c.Says s.encoder.hasher v (op.accepts (compare text other)) := by
  refine makes_bind left ?_
  rintro ⟨one, oneGuards⟩
  refine makes_bind right ?_
  rintro ⟨another, otherGuards⟩
  cases one with
  | none => exact makes_pure fun _ _ ⟨_, _, missing, _⟩ => nomatch missing
  | some x =>
    cases another with
    | none => exact makes_pure fun _ ⟨_, _, missing, _⟩ => nomatch missing
    | some y =>
      refine makes_bind (makes_hint (.stringOrder x y)) fun order => makes_pure ?_
      rintro all ⟨listed, rfl⟩ ⟨_, u, ⟨⟩, keysY, boundY, lexicalY, second⟩
        ⟨_, t, ⟨⟩, keysX, boundX, lexicalX, first⟩ v presents
      have known : ∀ name ∈ (Hint.stringOrder x y).keys, (s.keyWire? name).isSome := by
        rw [Hint.keys, List.forall_mem_append]
        exact ⟨keysX, keysY⟩
      have value : row.hintValue s.encoder (.stringOrder x y) = Hint.orderOf text other := by
        simp [Row.hintValue, Hint.value, boundX, boundY, lexicalX, lexicalY, bind, Except.bind,
          pure, Except.pure, Except.toOption]
      have read := presents.hints _ listed known
      rw [value] at read
      refine Condition.says_guardedBy ?_ ?_
      · rw [List.nil_append, List.forall_mem_append]
        exact ⟨first v presents, second v presents⟩
      · rw [(alike_acceptedOrders op ⟨_, read, read⟩).left, View.truth_acceptedOrders read,
          Row.acceptsOrder_orderOf]

/-- A value of a literal that ranks in a space, as either side of a comparison. -/
structure Places (s : Surroundings) (row : Row) (space : ValueSpace) (literal : String × String)
    (a : Value) : Prop where
  number : ∀ n, (Special.ofLiteral literal.1 literal.2).number? = some n →
    Makes (s.ordinal space a) (s.Numbers row n)
  text : space = .string → Makes (s.stringOperand a) (s.Spells row literal.1)

theorem makes_ordered {a b : Value} {x y : String × String} {order : Ordering} (op : CompareOp)
    (decides : (spaceOf? a <|> spaceOf? b) = some space) (left : s.Places row space x a)
    (right : s.Places row space y b) (compared : space.order? x y = some order) :
    Makes (s.ordered op ⟨[], a⟩ ⟨[], b⟩) fun all c => ∀ v : View, v.Presents s row all →
      c.Says s.encoder.hasher v (op.accepts order) := by
  rw [ordered, decides, Option.getD_some]
  by_cases text : space = .string
  · subst text
    obtain rfl := Option.some.inj compared
    exact makes_stringOrder op (left.text rfl) (right.text rfl)
  · rw [ValueSpace.order?, if_neg text] at compared
    obtain ⟨m, denotes, compared⟩ := Option.bind_eq_some_iff.1 compared
    obtain ⟨n, denotes', compared⟩ := Option.bind_eq_some_iff.1 compared
    obtain rfl := Option.some.inj compared
    have numbers := makes_numberOrder op (left.number m denotes) (right.number n denotes')
    cases space with
    | string => exact absurd rfl text
    | numeric | boolean | dateTime => exact numbers

theorem value_variable (found : s.keyWire? key = some wire) :
    s.value (.var key) = pure ⟨[], .term wire (.key key)⟩ := by
  rw [Surroundings.value, found]
  rfl

theorem value_constant {t : Term} (encoded : s.encoder.encode t = .ok code) :
    s.value (.const t) = pure ⟨[], .term (.const code) (.const t)⟩ := by
  rw [Surroundings.value, constant, encoded]
  rfl

theorem condition_compare {op : CompareOp} {a b : Expr} {x y : Value}
    (left : s.value a = pure ⟨[], x⟩) (right : s.value b = pure ⟨[], y⟩)
    (varies : ¬ ∃ p t q u, x = .term p (.const t) ∧ y = .term q (.const u)) :
    s.condition (.compare op a b) = s.ordered op ⟨[], x⟩ ⟨[], y⟩ := by
  rw [condition, left, right, ← comparison_eq_ordered varies]
  rfl

/-- A filter compiles, and over every view that gives a row honest hints, it is accepted exactly where
a folded outcome is true, and its negation exactly where it is false. -/
def Checks (s : Surroundings) (row : Row) (expression : Expr) (folded : Option Bool) : Prop :=
  ∀ before, ∃ c after, s.condition expression before = .ok (c, after) ∧
    s.condition (.not expression) before = .ok (c.negated, after) ∧
    ∀ (v : View) (all : List Hint), after <+: all → v.Presents s row all →
      (folded = some true ↔ v.holds s.encoder.hasher c.holds = .ok true) ∧
      (folded = some false ↔ v.holds s.encoder.hasher c.negated.holds = .ok true)

theorem Checks.satisfies {e : Encoder} {row : Row} {expression : Expr} {value : Bool}
    (checks : (row.surroundings e).Checks row expression (some value)) :
    row.satisfies e expression = value ∧ row.satisfies e (.not expression) = !value := by
  obtain ⟨c, after, ran, negated, accepted⟩ := checks []
  obtain ⟨holds, denied⟩ := accepted (row.view e after) after List.prefix_rfl
    (row.presents e after)
  rw [← View.truth_iff, Option.some_inj] at holds denied
  rw [Row.satisfies, Row.satisfies, ran, negated]
  exact ⟨Bool.eq_iff_iff.2 holds.symm, Bool.eq_iff_iff.2 (denied.symm.trans (by simp))⟩

theorem checks_of_makes {expression : Expr} {value : Bool}
    (makes : Makes (s.condition expression) fun all c => ∀ v : View, v.Presents s row all →
      c.Says s.encoder.hasher v value) : s.Checks row expression (some value) := by
  intro before
  obtain ⟨c, after, compiled⟩ := makes.1 before
  refine ⟨c, after, compiled, condition_not compiled, fun v all continues presents => ?_⟩
  obtain ⟨holds, negated⟩ := (makes.2 before c after compiled).2 all continues v presents
  rw [holds, negated]
  cases value <;> simp

theorem places_variable (found : s.keyWire? key = some wire)
    (held : row.get? key = some (.literal value none datatype))
    (encoded : s.encoder.encode (.literal value none datatype) = .ok code)
    (compared : isXsdType space.comparedTypes datatype = true) :
    s.Places row space (value, datatype) (.term wire (.key key)) where
  number _ denotes := makes_ordinal_variable found held encoded compared denotes
  text text := makes_stringOperand_variable found held encoded compared text

theorem places_constant (compared : isXsdType space.comparedTypes datatype = true) :
    s.Places row space (value, datatype) (.term wire (.const (.literal value none datatype))) where
  number _ denotes := makes_ordinal_constant compared denotes
  text text := by
    subst text
    exact makes_stringOperand_constant compared

end Surroundings

theorem ValueSpace.exists_order {space : ValueSpace} {a b : String × String}
    (first : space = .string ∨ (Special.ofLiteral a.1 a.2).number?.isSome = true)
    (second : space = .string ∨ (Special.ofLiteral b.1 b.2).number?.isSome = true) :
    ∃ order, space.order? a b = some order := by
  by_cases text : space = .string
  · exact ⟨_, by rw [order?, if_pos text]⟩
  · obtain ⟨m, denotes⟩ := Option.isSome_iff_exists.1 (first.resolve_left text)
    obtain ⟨n, denotes'⟩ := Option.isSome_iff_exists.1 (second.resolve_left text)
    refine ⟨compare m n, ?_⟩
    rw [order?, if_neg text, denotes, denotes']
    rfl

/-- Folding the order of two constants with values in one space agrees with checking it: where a row
binds a variable to the one constant, the filter that compares the variable with the other compiles.
With the hints of the row it accepts the row exactly if the constants compare as true, and its
negation exactly if they compare as false; on either side of the comparison. -/
theorem folded_ordering_checked (s : Surroundings) (op : CompareOp) (space : ValueSpace)
    (x y : Term) (ranksX : space.Ranks x) (ranksY : space.Ranks y)
    (encodesX : ∃ code, s.encoder.encode x = .ok code)
    (encodesY : ∃ code, s.encoder.encode y = .ok code) (row : Row) (key : String)
    (held : row.get? key = some x) (readable : (s.keyWire? key).isSome = true) :
    s.Checks row (.compare op (.var key) (.const y)) (Constant.compare? op x y) ∧
      s.Checks row (.compare op (.const y) (.var key)) (Constant.compare? op y x) := by
  obtain ⟨value, datatype, rfl, compared, valued⟩ := ranksX
  obtain ⟨value', datatype', rfl, compared', valued'⟩ := ranksY
  obtain ⟨code, encoded⟩ := encodesX
  obtain ⟨code', encoded'⟩ := encodesY
  obtain ⟨wire, found⟩ := Option.isSome_iff_exists.1 readable
  have bound := Surroundings.value_variable found
  have fixed := Surroundings.value_constant encoded'
  have left := Surroundings.places_variable found held encoded compared
  have right : s.Places row space (value', datatype') (.term (.const code') _) :=
    Surroundings.places_constant compared'
  have decides : (Constant.plain? (.literal value' none datatype')).bind
      (fun literal => ValueSpace.ofDatatype? literal.2) = some space :=
    ValueSpace.ofDatatype_compared compared'
  constructor
  · obtain ⟨order, ordered⟩ := ValueSpace.exists_order (a := (value, datatype))
      (b := (value', datatype')) valued valued'
    rw [Constant.compare_ranked op compared compared' ordered]
    apply Surroundings.checks_of_makes
    rw [Surroundings.condition_compare bound fixed (by simp)]
    exact Surroundings.makes_ordered op decides left right ordered
  · obtain ⟨order, ordered⟩ := ValueSpace.exists_order (a := (value', datatype'))
      (b := (value, datatype)) valued' valued
    rw [Constant.compare_ranked op compared' compared ordered]
    apply Surroundings.checks_of_makes
    rw [Surroundings.condition_compare fixed bound (by simp)]
    refine Surroundings.makes_ordered op ?_ right left ordered
    exact congrArg (· <|> none) decides

/-- A negative number, which is encoded by its distance below the modulus. -/
def debt : Term := .literal "-5" none (xsd ++ "integer")

def debtRow : Row := KeyMap.ofList [("o", debt)]

def credit : Term := .literal "+3" none (xsd ++ "byte")

theorem folded_ordering_checked_sample :
    ValueSpace.numeric.Ranks debt ∧ ValueSpace.numeric.Ranks credit ∧
    (∃ code, sampleConfig.encoder.encode debt = .ok code) ∧
    (∃ code, sampleConfig.encoder.encode credit = .ok code) ∧
    debtRow.get? "o" = some debt ∧
    ((debtRow.surroundings sampleConfig.encoder).keyWire? "o").isSome = true ∧
    Constant.compare? .lt debt credit = some true ∧ Constant.compare? .lt credit debt = some false ∧
    (debtRow.surroundings sampleConfig.encoder).Checks debtRow
      (.compare .lt (.var "o") (.const credit)) (some true) ∧
    (debtRow.surroundings sampleConfig.encoder).Checks debtRow
      (.compare .lt (.const credit) (.var "o")) (some false) := by
  have ranksX : ValueSpace.numeric.Ranks debt :=
    ⟨_, _, rfl, by decide +kernel, Or.inr (by decide +kernel)⟩
  have ranksY : ValueSpace.numeric.Ranks credit :=
    ⟨_, _, rfl, by decide +kernel, Or.inr (by decide +kernel)⟩
  have less : Constant.compare? .lt debt credit = some true := by decide +kernel
  have greater : Constant.compare? .lt credit debt = some false := by decide +kernel
  have checks := folded_ordering_checked (debtRow.surroundings sampleConfig.encoder) .lt .numeric
    debt credit ranksX ranksY ⟨_, rfl⟩ ⟨_, rfl⟩ debtRow "o" rfl rfl
  rw [less, greater] at checks
  exact ⟨ranksX, ranksY, ⟨_, rfl⟩, ⟨_, rfl⟩, rfl, rfl, less, greater, checks⟩

end AttestedQuery
