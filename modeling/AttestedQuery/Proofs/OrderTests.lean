import AttestedQuery.Proofs.GuardedTests

/-!
# Tests of order

A comparison is made in one space of values. An operand of a comparison of numbers is a number below
some guards, and one of a comparison of strings is a string below some guards; where both have
theirs the test compares them, and otherwise it has no value.
-/

set_option autoImplicit false

namespace AttestedQuery

open Compiling

theorem View.truth_acceptedOrders {h : Hasher} {v : View} {op : CompareOp} {w : Wire} {x : Field}
    (read : v.field h w = .ok x) :
    v.truth h (Surroundings.acceptedOrders op w) = Reading.acceptsOrder op x := by
  have outcome (n : Int) : v.truth h (.eq w (.const (Field.ofInt n))) = (x == Field.ofInt n) :=
    truth_eq read rfl
  have decided (m n : Int) : ∀ part ∈ [Assertion.eq w (.const (Field.ofInt m)),
      .eq w (.const (Field.ofInt n))], v.Decides h part := by
    simp only [List.forall_mem_cons]
    exact ⟨decides_eq read rfl, decides_eq read rfl, by simp⟩
  cases op with
  | lt => exact outcome (-1)
  | le =>
    rw [Surroundings.acceptedOrders, truth_any (decided (-1) 0)]
    simp [outcome, Reading.acceptsOrder]
  | gt => exact outcome 1
  | ge =>
    rw [Surroundings.acceptedOrders, truth_any (decided 1 0)]
    simp [outcome, Reading.acceptsOrder]

section Order

variable {s : Surroundings} {all : List Hint} {denoted : Reading → Meaning}

theorem Guarded.spaceOf_meaning (h : Hasher) (v : View) (g : Guarded) :
    Reading.spaceOf? (g.meaning h v) = Surroundings.spaceOf? g.value := by
  obtain ⟨guards, value⟩ := g
  cases value with
  | term wire origin => cases origin <;> rfl
  | number _ | error => rfl

/-! ## Numbers -/

/-- What the operand of a comparison of numbers yields beside its guards. -/
structure Surroundings.Orders (s : Surroundings) (all : List Hint) (guards : List Assertion)
    (denoted : Reading → Meaning) (space : ValueSpace) (made : Option Wire × List Assertion) :
    Prop where
  reads : ∀ g ∈ made.2, g.Reads (s.Known all)
  known : ∀ w, made.1 = some w → ∀ leaf ∈ w.leaves, s.Known all leaf
  holds : ∀ v r, View.Represents v s all r → r.ordinal space (denoted r) =
    made.1.bind fun w => v.under s.encoder.hasher (guards ++ made.2) w

theorem Surroundings.orders_none {guards : List Assertion} {value : Value} {space : ValueSpace}
    (argument : Guarded.Denotes s all ⟨guards, value⟩ denoted)
    (fails : ∀ (r : Reading) v, r.ordinal space
      (Guarded.meaning s.encoder.hasher v ⟨guards, value⟩) = none) :
    s.Orders all guards denoted space (none, []) where
  reads := List.forall_mem_nil _
  known := by simp
  holds v r represents := by
    rw [← argument.holds v r represents, fails]
    rfl

theorem Surroundings.orders_number (space : ValueSpace) {guards : List Assertion} {wire : Wire}
    (argument : Guarded.Denotes s all ⟨guards, .number wire⟩ denoted) :
    s.Orders all guards denoted space (if space = .numeric then some wire else none, []) := by
  by_cases numeric : space = .numeric
  · rw [if_pos numeric]
    refine ⟨List.forall_mem_nil _, ?_, ?_⟩
    · rintro _ ⟨⟩
      exact argument.grounded.number wire rfl
    · intro v r represents
      rw [← argument.holds v r represents, Guarded.meaning_number rfl, Reading.ordinal,
        if_pos numeric, List.append_nil]
      rfl
  · rw [if_neg numeric]
    apply s.orders_none argument
    intro r v
    rw [Guarded.meaning_number rfl, Reading.ordinal, if_neg numeric]

theorem Surroundings.orders_const (space : ValueSpace) {guards : List Assertion} {wire : Wire}
    {t : Term} {found : Option Field} (same : Constant.ordinal? space t = .ok found)
    (argument : Guarded.Denotes s all ⟨guards, .term wire (.const t)⟩ denoted) :
    s.Orders all guards denoted space (found.map Wire.const, []) := by
  refine ⟨List.forall_mem_nil _, ?_, ?_⟩
  · intro w made
    obtain ⟨x, _, rfl⟩ := Option.map_eq_some_iff.1 made
    exact s.known_const x
  · intro v r represents
    obtain ⟨code, read⟩ := argument.grounded.field_term rfl represents
    rw [← argument.holds v r represents, Guarded.meaning_term rfl, List.append_nil]
    simp only [Reading.ordinal, same, View.bind_under read]
    cases found with
    | none => exact ite_self none
    | some x =>
      have constant : v.field s.encoder.hasher (.const x) = .ok x := rfl
      exact (View.under_ok constant).symm

theorem Surroundings.orders_key (space : ValueSpace) {guards : List Assertion} {wire : Wire}
    {key : String} (listed : ∀ h ∈ Hint.parts key, h ∈ all)
    (argument : Guarded.Denotes s all ⟨guards, .term wire (.key key)⟩ denoted) :
    s.Orders all guards denoted space (some (Parts.ofKey all key wire).special,
      [(Parts.ofKey all key wire).tie,
        s.datatypeIn (Parts.ofKey all key wire) space.comparedTypes]) := by
  have found := argument.grounded.key wire key rfl
  have grounded := Parts.ofKey_grounded found listed
  refine ⟨s.reads_typed found listed (List.forall_mem_nil _) space.comparedTypes, ?_, ?_⟩
  · rintro _ ⟨⟩
    exact grounded.special
  · intro v r represents
    obtain ⟨x, special⟩ := represents.wire grounded.special
    have gives (parts : LiteralParts) (known : r.parts? key = some parts) : parts.special = x := by
      have same := (represents.parts key wire found listed parts known).2.1
      exact Except.ok.inj (same.symm.trans special)
    rw [← argument.holds v r represents, Guarded.meaning_term rfl, Option.bind_some,
      View.under_ok special]
    exact represents.bind_typed found listed guards _ gives

theorem Surroundings.yields_ordinal (space : ValueSpace) (guards : List Assertion) (value : Value) :
    Yields (s.ordinal space value) fun all made => ∀ denoted,
      Guarded.Denotes s all ⟨guards, value⟩ denoted → s.Orders all guards denoted space made := by
  cases value with
  | error =>
    apply yields_pure
    intro all denoted argument
    exact s.orders_none argument fun _ _ => rfl
  | number wire =>
    apply yields_pure
    intro all denoted argument
    exact s.orders_number space argument
  | term wire origin =>
    cases origin with
    | const t =>
      apply yields_bind (yields_lifted (Constant.ordinal? space t))
      intro found
      apply yields_pure
      intro all same denoted argument
      exact s.orders_const space same argument
    | key key =>
      apply yields_bind (yields_literalParts key wire)
      intro parts
      apply yields_pure
      rintro all ⟨rfl, listed⟩ denoted argument
      exact s.orders_key space listed argument
    | str | lang | datatype =>
      apply yields_pure
      intro all denoted argument
      exact s.orders_none argument fun _ _ => rfl

theorem Condition.means_missing {α : Type} (first second : Reading → Option α)
    (test : Reading → α → α → Bool)
    (missing : ∀ v r, View.Represents v s all r → first r = none ∨ second r = none) :
    Condition.error.Means s all fun r =>
      (first r).bind fun x => (second r).map fun y => test r x y := by
  apply Condition.means_error
  intro v r represents
  rcases missing v r represents with none | none
  · rw [none]
    rfl
  · rw [none]
    cases first r <;> rfl

theorem Surroundings.yields_numberOrder (op : CompareOp) (space : ValueSpace)
    (first second : List Assertion) (x y : Value) :
    Yields (s.numberOrder op space (first ++ second) x y) fun all c => ∀ left right,
      Guarded.Denotes s all ⟨first, x⟩ left → Guarded.Denotes s all ⟨second, y⟩ right →
        c.Means s all fun r => r.numberOrder op space (left r) (right r) := by
  apply yields_bind (s.yields_ordinal space first x)
  rintro ⟨one, oneGuards⟩
  apply yields_bind (s.yields_ordinal space second y)
  rintro ⟨other, otherGuards⟩
  cases one with
  | none =>
    apply yields_pure
    intro all _ orders left right argument _
    exact Condition.means_missing _ (fun r => r.ordinal space (right r)) _ fun v r represents =>
      Or.inl ((orders left argument).holds v r represents)
  | some x =>
    cases other with
    | none =>
      apply yields_pure
      intro all orders _ left right _ argument
      exact Condition.means_missing (fun r => r.ordinal space (left r)) _ _ fun v r represents =>
        Or.inr ((orders right argument).holds v r represents)
    | some y =>
      apply yields_pure
      intro all ordersRight ordersLeft left right argument another
      have one := ordersLeft left argument
      have other := ordersRight right another
      apply s.reads_guardedBy
      · simp only [List.forall_mem_append]
        exact ⟨⟨⟨argument.grounded.guards, another.grounded.guards⟩, one.reads⟩, other.reads⟩
      · exact Assertion.reads_compare op (one.known x rfl) (other.known y rfl)
      · intro v r represents
        obtain ⟨_, readX⟩ := represents.wire (one.known x rfl)
        obtain ⟨_, readY⟩ := represents.wire (other.known y rfl)
        have joined := Assertion.mem_interleaved first second oneGuards otherGuards
        rw [Reading.numberOrder, one.holds v r represents, other.holds v r represents]
        exact View.outcome_pair joined readX readY (View.truth_compare readX readY)

/-! ## Strings -/

structure Surroundings.Compares (s : Surroundings) (all : List Hint) (guards : List Assertion)
    (denoted : Reading → Meaning) (made : Option Operand × List Assertion) : Prop where
  reads : ∀ g ∈ made.2, g.Reads (s.Known all)
  keys : ∀ operand, made.1 = some operand → ∀ key ∈ operand.keys, (s.keyWire? key).isSome
  holds : ∀ v r, View.Represents v s all r → r.stringOperand (denoted r) =
    if (guards ++ made.2).all (v.truth s.encoder.hasher) then made.1 else none

theorem Surroundings.compares_none {guards : List Assertion} {value : Value}
    (argument : Guarded.Denotes s all ⟨guards, value⟩ denoted)
    (fails : ∀ (r : Reading) v, r.stringOperand
      (Guarded.meaning s.encoder.hasher v ⟨guards, value⟩) = none) :
    s.Compares all guards denoted (none, []) where
  reads := List.forall_mem_nil _
  keys := by simp
  holds v r represents := by
    rw [← argument.holds v r represents, fails, ite_self]

theorem Surroundings.compares_const {guards : List Assertion} {wire : Wire} {t : Term}
    (argument : Guarded.Denotes s all ⟨guards, .term wire (.const t)⟩ denoted) :
    s.Compares all guards denoted (if (Constant.plain? t).any fun (_, datatype) =>
        ValueSpace.ofDatatype? datatype == some .string then some (.term t) else none, []) := by
  refine ⟨List.forall_mem_nil _, ?_, ?_⟩
  · intro operand made
    split at made
    · obtain rfl := Option.some.inj made
      exact List.forall_mem_nil _
    · simp at made
  · intro v r represents
    obtain ⟨code, read⟩ := argument.grounded.field_term rfl represents
    rw [← argument.holds v r represents, Guarded.meaning_term rfl, List.append_nil]
    exact View.bind_under read _

theorem Surroundings.compares_key {guards : List Assertion} {wire : Wire} {key : String}
    (listed : ∀ h ∈ Hint.parts key, h ∈ all)
    (argument : Guarded.Denotes s all ⟨guards, .term wire (.key key)⟩ denoted) :
    s.Compares all guards denoted (some (.key key), [(Parts.ofKey all key wire).tie,
      s.datatypeIn (Parts.ofKey all key wire) ValueSpace.string.comparedTypes]) := by
  have found := argument.grounded.key wire key rfl
  refine ⟨s.reads_typed found listed (List.forall_mem_nil _) _, ?_, ?_⟩
  · rintro _ ⟨⟩
    simp [Operand.keys, found]
  · intro v r represents
    rw [← argument.holds v r represents, Guarded.meaning_term rfl]
    exact represents.bind_typed found listed guards _ fun _ _ => rfl

theorem Surroundings.yields_stringOperand (guards : List Assertion) (value : Value) :
    Yields (s.stringOperand value) fun all made => ∀ denoted,
      Guarded.Denotes s all ⟨guards, value⟩ denoted → s.Compares all guards denoted made := by
  cases value with
  | error | number _ =>
    apply yields_pure
    intro all denoted argument
    exact s.compares_none argument fun _ _ => rfl
  | term wire origin =>
    cases origin with
    | const t =>
      apply yields_pure
      intro all denoted argument
      exact s.compares_const argument
    | key key =>
      apply yields_bind (yields_literalParts key wire)
      intro parts
      apply yields_pure
      rintro all ⟨rfl, listed⟩ denoted argument
      exact s.compares_key listed argument
    | str | lang => exact yields_refuse _
    | datatype =>
      apply yields_pure
      intro all denoted argument
      exact s.compares_none argument fun _ _ => rfl

theorem Surroundings.reads_acceptedOrders (op : CompareOp) {w : Wire}
    (known : ∀ leaf ∈ w.leaves, s.Known all leaf) : (acceptedOrders op w).Reads (s.Known all) := by
  have outcome (n : Int) : (Assertion.eq w (.const (Field.ofInt n))).Reads (s.Known all) :=
    Assertion.reads_eq known (s.known_const _)
  cases op with
  | lt | gt => exact outcome _
  | le | ge =>
    unfold acceptedOrders
    apply Assertion.reads_any
    rw [List.forall_mem_cons, List.forall_mem_singleton]
    exact ⟨outcome _, outcome _⟩

theorem Surroundings.yields_stringOrder (op : CompareOp) (first second : List Assertion)
    (x y : Value) :
    Yields (s.stringOrder op (first ++ second) x y) fun all c => ∀ left right,
      Guarded.Denotes s all ⟨first, x⟩ left → Guarded.Denotes s all ⟨second, y⟩ right →
        c.Means s all fun r => r.stringOrder op (left r) (right r) := by
  apply yields_bind (s.yields_stringOperand first x)
  rintro ⟨one, oneGuards⟩
  apply yields_bind (s.yields_stringOperand second y)
  rintro ⟨other, otherGuards⟩
  cases one with
  | none =>
    apply yields_pure
    intro all _ compares left right argument _
    refine Condition.means_missing (fun r => r.stringOperand (left r))
      (fun r => r.stringOperand (right r)) _ fun v r represents => Or.inl ?_
    rw [(compares left argument).holds v r represents, ite_self]
  | some x =>
    cases other with
    | none =>
      apply yields_pure
      intro all compares _ left right _ argument
      refine Condition.means_missing (fun r => r.stringOperand (left r))
        (fun r => r.stringOperand (right r)) _ fun v r represents => Or.inr ?_
      rw [(compares right argument).holds v r represents, ite_self]
    | some y =>
      apply yields_bind (yields_hint (.stringOrder x y))
      intro order
      apply yields_pure
      rintro all ⟨member, rfl⟩ comparesRight comparesLeft left right argument another
      have one := comparesLeft left argument
      have other := comparesRight right another
      have known : ∀ leaf ∈ ((Hint.stringOrder x y).wire all).leaves, s.Known all leaf := by
        intro leaf inside
        obtain rfl : leaf = (Hint.stringOrder x y).wire all := by
          simpa [Hint.wire, Wire.leaves] using inside
        apply Known.hint member rfl
        rw [Hint.keys, List.forall_mem_append]
        exact ⟨one.keys x rfl, other.keys y rfl⟩
      apply s.reads_guardedBy
      · simp only [List.forall_mem_append]
        exact ⟨⟨⟨argument.grounded.guards, another.grounded.guards⟩, one.reads⟩, other.reads⟩
      · exact s.reads_acceptedOrders op known
      · intro v r represents
        have joined := Assertion.mem_interleaved first second oneGuards otherGuards
        rw [Reading.stringOrder, one.holds v r represents, other.holds v r represents,
          View.outcome_guardedBy, Assertion.all_joined joined,
          View.truth_acceptedOrders (represents.trusted _ member rfl)]
        cases (first ++ oneGuards).all (v.truth s.encoder.hasher) <;>
          cases (second ++ otherGuards).all (v.truth s.encoder.hasher) <;> rfl

/-! ## Comparisons -/

def Surroundings.ordered (s : Surroundings) (op : CompareOp) (a b : Guarded) :
    Compiling Condition :=
  match (spaceOf? a.value <|> spaceOf? b.value).getD .numeric with
  | .string => s.stringOrder op (a.guards ++ b.guards) a.value b.value
  | space => s.numberOrder op space (a.guards ++ b.guards) a.value b.value

theorem Surroundings.yields_ordered (op : CompareOp) (a b : Guarded) :
    Yields (s.ordered op a b) fun all c => ∀ left right, a.Denotes s all left →
      b.Denotes s all right → c.Means s all fun r => r.ordered op (left r) (right r) := by
  obtain ⟨first, x⟩ := a
  obtain ⟨second, y⟩ := b
  have meant {all : List Hint} {left right : Reading → Meaning}
      (one : Guarded.Denotes s all ⟨first, x⟩ left)
      (other : Guarded.Denotes s all ⟨second, y⟩ right) (v : View) (r : Reading)
      (represents : v.Represents s all r) :
      (Reading.spaceOf? (left r) <|> Reading.spaceOf? (right r)) = (spaceOf? x <|> spaceOf? y) := by
    have leftSpace := Guarded.spaceOf_meaning s.encoder.hasher v ⟨first, x⟩
    have rightSpace := Guarded.spaceOf_meaning s.encoder.hasher v ⟨second, y⟩
    rw [one.holds v r represents] at leftSpace
    rw [other.holds v r represents] at rightSpace
    rw [leftSpace, rightSpace]
  unfold ordered
  cases space : (spaceOf? x <|> spaceOf? y).getD .numeric with
  | string =>
    apply (s.yields_stringOrder op first second x y).imp
    intro all c leads left right one other
    apply (leads left right one other).congr
    intro v r represents
    rw [Reading.ordered, meant one other v r represents, space]
  | numeric | boolean | dateTime =>
    apply (s.yields_numberOrder op _ first second x y).imp
    intro all c leads left right one other
    apply (leads left right one other).congr
    intro v r represents
    rw [Reading.ordered, meant one other v r represents, space]

theorem Surroundings.comparison_eq_ordered {op : CompareOp} {a b : Guarded}
    (constants : ¬ ∃ p t q u, a.value = .term p (.const t) ∧ b.value = .term q (.const u)) :
    s.comparison op a b = s.ordered op a b := by
  unfold comparison
  split
  next one other => exact absurd ⟨_, _, _, _, one, other⟩ constants
  next => rfl

theorem Surroundings.yields_comparison (op : CompareOp) (a b : Guarded) :
    Yields (s.comparison op a b) fun all c => ∀ left right, a.Denotes s all left →
      b.Denotes s all right → c.Means s all fun r => r.comparison op (left r) (right r) := by
  obtain ⟨first, x⟩ := a
  obtain ⟨second, y⟩ := b
  by_cases constants : ∃ p t q u, x = .term p (.const t) ∧ y = .term q (.const u)
  · obtain ⟨p, t, q, u, rfl, rfl⟩ := constants
    apply yields_pure
    intro all left right one other
    have same (v : View) (r : Reading) (represents : v.Represents s all r) :
        r.comparison op (left r) (right r) = Constant.compare? op t u := by
      rw [← one.holds v r represents, ← other.holds v r represents]
      rfl
    cases compared : Constant.compare? op t u with
    | none =>
      apply Condition.means_error
      intro v r represents
      rw [same v r represents, compared]
    | some holds =>
      apply (Condition.means_ofBool holds).congr
      intro v r represents
      rw [same v r represents, compared]
  · have meant {all : List Hint} {left right : Reading → Meaning}
        (one : Guarded.Denotes s all ⟨first, x⟩ left)
        (other : Guarded.Denotes s all ⟨second, y⟩ right) (v : View) (r : Reading)
        (represents : v.Represents s all r) :
        r.ordered op (left r) (right r) = r.comparison op (left r) (right r) := by
      unfold Reading.comparison
      split
      next _ t _ u shapeLeft shapeRight =>
        refine absurd ?_ constants
        rw [← one.holds v r represents] at shapeLeft
        rw [← other.holds v r represents] at shapeRight
        cases x <;> cases y <;> simp_all [Guarded.meaning]
      next => rfl
    rw [s.comparison_eq_ordered constants]
    apply (s.yields_ordered op ⟨first, x⟩ ⟨second, y⟩).imp
    intro all c leads left right one other
    apply (leads left right one other).congr
    intro v r represents
    exact meant one other v r represents

end Order

end AttestedQuery
