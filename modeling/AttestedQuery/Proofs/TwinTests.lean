import AttestedQuery.Proofs.TwinRuns

/-!
# Two runs that compile one test

What is compiled for a test of alike values is alike, whether the test is about one value or
compares two.
-/

set_option autoImplicit false

namespace AttestedQuery

namespace Surroundings

open Compiling

variable {s t : Surroundings}

/-! ## Tests -/

section Tests

variable {g k : Guarded}

theorem judges_error : Judges s t g k (pure .error) (pure .error) :=
  matches_pure trivial fun _ _ _ => Condition.alike_error

theorem judges_parts {a b : Wire} {guards others : List Assertion} {key : String}
    (bound : (s.keyWire? key).isSome) {make made : Parts → Condition}
    (alike : ∀ v u p q, Assertion.AllAlike s.encoder.hasher v u guards others →
      p.Alike s.encoder.hasher v u q → (make p).Alike s.encoder.hasher v u (made q)) :
    Judges s t ⟨guards, .term a (.key key)⟩ ⟨others, .term b (.key key)⟩
      (do return make (← literalParts key a)) (do return made (← literalParts key b)) := by
  refine matches_bind (matches_literalParts bound a b) fun p q _ => ?_
  refine matches_pure trivial ?_
  rintro v u parts ⟨each, here⟩
  exact alike v u p q each (parts here)

theorem judges_truthOf (twins : g.value.Twins s k.value) :
    Judges s t g k (s.truthOf g) (s.truthOf k) := by
  obtain ⟨guards, value⟩ := g
  obtain ⟨others, other⟩ := k
  cases twins with
  | error => exact judges_error
  | number a b =>
    refine matches_pure trivial ?_
    rintro v u ⟨each, here⟩
    exact Condition.alike_guardedBy each (Assertion.alike_eq here (Wire.alike_const _)).negated
  | term a b origin bound =>
    cases origin with
    | const x =>
      refine matches_pure trivial fun v u _ => ?_
      cases Constant.truth? x with
      | some value => exact Condition.alike_ofBool value
      | none => exact Condition.alike_error
    | key key =>
      refine judges_parts (bound key rfl) fun v u p q each same => ?_
      refine Condition.alike_guardedBy (List.rel_append each ?_)
        (Assertion.alike_eq same.special (Wire.alike_const _))
      exact Assertion.allAlike_pair same.tie (alike_datatypeIn _ same)
    | str | lang =>
      refine matches_bind (matches_lifted _) fun x y same => ?_
      subst same
      refine matches_pure trivial ?_
      rintro v u _ ⟨each, here⟩
      exact Condition.alike_guardedBy each (Assertion.alike_eq here (Wire.alike_const _)).negated
    | datatype => exact judges_error

theorem judges_ofBool (value : Bool) :
    Judges s t g k (pure (guardedBy g.guards (.ofBool value)))
      (pure (guardedBy k.guards (.ofBool value))) :=
  matches_pure trivial fun _ _ alike =>
    Condition.alike_guardedBy alike.guards (Assertion.alike_ofBool value)

theorem judges_kindTest (kind : TermKind) (twins : g.value.Twins s k.value) :
    Judges s t g k (kindTest kind g) (kindTest kind k) := by
  obtain ⟨guards, value⟩ := g
  obtain ⟨others, other⟩ := k
  cases twins with
  | error => exact judges_error
  | number a b => exact judges_ofBool _
  | term a b origin bound =>
    cases origin with
    | const x => exact judges_ofBool _
    | str | lang | datatype => exact judges_ofBool _
    | key key =>
      refine matches_bind (matches_hint (h := .termInner (.key key)) ?_) fun _ _ _ => ?_
      · simpa [Hint.keys, Operand.keys] using bound key rfl
      · refine matches_pure trivial ?_
        rintro v u inner ⟨each, here⟩
        exact Condition.alike_guardedBy each (Assertion.alike_eq here (inner.tagged kind))

theorem judges_numericTest (twins : g.value.Twins s k.value) :
    Judges s t g k (s.numericTest g) (s.numericTest k) := by
  obtain ⟨guards, value⟩ := g
  obtain ⟨others, other⟩ := k
  cases twins with
  | error => exact judges_error
  | number a b => exact judges_ofBool true
  | term a b origin bound =>
    cases origin with
    | const x =>
      cases x with
      | literal value lang datatype => exact judges_ofBool _
      | _ => exact judges_ofBool false
    | str | lang | datatype => exact judges_ofBool false
    | key key =>
      refine judges_parts (bound key rfl) fun v u p q each same => ?_
      exact Condition.alike_guardedBy each
        (Assertion.allAlike_pair same.tie (alike_datatypeIn _ same)).all

end Tests

/-! ## Tests of two values -/

/-- What a computation says of two pairs of alike arguments is alike. -/
def Relates (s t : Surroundings) (g k : Guarded × Guarded) (x y : Compiling Condition) : Prop :=
  Matches s t x y anyShape fun v u c d => g.1.Alike s.encoder.hasher v u k.1 →
    g.2.Alike s.encoder.hasher v u k.2 → c.Alike s.encoder.hasher v u d

theorem matches_numberEquals {guards others : List Assertion} {n m a b : Wire} (origin : Origin)
    (bound : ∀ key, origin = .key key → (s.keyWire? key).isSome) :
    Matches s t (s.numberEquals guards n a origin) (s.numberEquals others m b origin) anyShape
      fun v u c d => Assertion.AllAlike s.encoder.hasher v u guards others →
        Wire.Alike s.encoder.hasher v u n m → Wire.Alike s.encoder.hasher v u a b →
          c.Alike s.encoder.hasher v u d := by
  cases origin with
  | const x =>
    refine matches_pure trivial fun v u each number _ => ?_
    cases Constant.integer? x with
    | none => exact Condition.alike_error
    | some i =>
      exact Condition.alike_guardedBy each (Assertion.alike_eq number (Wire.alike_const _))
  | str | lang | datatype => exact matches_pure trivial fun v u _ _ _ => Condition.alike_error
  | key key =>
    refine matches_bind (matches_literalParts (bound key rfl) a b) fun p q _ => ?_
    refine matches_pure trivial fun v u parts each number here => ?_
    have same := parts here
    exact Condition.alike_guardedBy
      (List.rel_append each (Assertion.allAlike_pair same.tie (alike_datatypeIn _ same)))
      (Assertion.alike_eq number same.special)

theorem relates_error {g k : Guarded × Guarded} : Relates s t g k (pure .error) (pure .error) :=
  matches_pure trivial fun _ _ _ _ => Condition.alike_error

theorem relates_equality (sameTerm : Bool) {a b c d : Guarded} (first : a.value.Twins s c.value)
    (second : b.value.Twins s d.value) :
    Relates s t (a, b) (c, d) (s.equality sameTerm a b) (s.equality sameTerm c d) := by
  obtain ⟨guardsA, a⟩ := a
  obtain ⟨guardsB, b⟩ := b
  obtain ⟨guardsC, c⟩ := c
  obtain ⟨guardsD, d⟩ := d
  cases first with
  | error => exact relates_error
  | number a c =>
    cases second with
    | error => exact relates_error
    | number b d =>
      refine matches_pure trivial ?_
      rintro v u ⟨left, here⟩ ⟨right, there⟩
      exact Condition.alike_guardedBy (List.rel_append left right) (Assertion.alike_eq here there)
    | term b d origin bound =>
      refine (matches_numberEquals origin bound).imp fun v u x y leads left right => ?_
      exact leads (List.rel_append left.guards right.guards) left.value right.value
  | term a c origin bound =>
    cases second with
    | error => exact relates_error
    | number b d =>
      refine (matches_numberEquals origin bound).imp fun v u x y leads left right => ?_
      exact leads (List.rel_append left.guards right.guards) right.value left.value
    | term b d other known =>
      have wires : Relates s t (⟨guardsA, .term a origin⟩, ⟨guardsB, .term b other⟩)
          (⟨guardsC, .term c origin⟩, ⟨guardsD, .term d other⟩)
          (pure (guardedBy (guardsA ++ guardsB) (.eq a b)))
          (pure (guardedBy (guardsC ++ guardsD) (.eq c d))) := by
        refine matches_pure trivial ?_
        rintro v u ⟨left, here⟩ ⟨right, there⟩
        exact Condition.alike_guardedBy (List.rel_append left right) (Assertion.alike_eq here there)
      cases origin with
      | const x =>
        cases other with
        | const y =>
          refine matches_pure trivial fun v u left right => ?_
          exact Condition.alike_guardedBy (List.rel_append left.guards right.guards)
            (Assertion.alike_ofBool _)
        | _ => exact wires
      | _ => exact wires

theorem matches_connected {x y x' y' : Compiling Condition}
    {connective : Condition → Condition → Condition}
    (left : Matches s t x x' anyShape (Condition.Alike s.encoder.hasher))
    (right : Matches s t y y' anyShape (Condition.Alike s.encoder.hasher))
    (joins : ∀ v u a b c d, Condition.Alike s.encoder.hasher v u a c →
      b.Alike s.encoder.hasher v u d →
        (connective a b).Alike s.encoder.hasher v u (connective c d)) :
    Matches s t (do return connective (← x) (← y)) (do return connective (← x') (← y')) anyShape
      (Condition.Alike s.encoder.hasher) := by
  refine matches_bind left fun a c _ => ?_
  refine matches_bind right fun b d _ => ?_
  exact matches_pure trivial fun v u second first => joins v u a b c d first second

/-! ## Orders -/

theorem twins_spaceOf {x y : Value} (twins : x.Twins s y) : spaceOf? x = spaceOf? y := by
  cases twins with
  | term a b origin bound => cases origin <;> rfl
  | _ => rfl

/-- Operands of an order: both are there or neither is, and what must hold of them is alike. -/
def Ranks (s t : Surroundings) (x y : Value)
    (left right : Compiling (Option Wire × List Assertion)) :
    Prop :=
  Matches s t left right (fun p q => p.1.isSome = q.1.isSome) fun v u p q =>
    x.Alike s.encoder.hasher v u y →
      (∀ a b, p.1 = some a → q.1 = some b → Wire.Alike s.encoder.hasher v u a b) ∧
        Assertion.AllAlike s.encoder.hasher v u p.2 q.2

theorem ranks_ordinal (space : ValueSpace) {x y : Value} (twins : x.Twins s y) :
    Ranks s t x y (s.ordinal space x) (s.ordinal space y) := by
  have absent : Ranks s t x y (pure (none, [])) (pure (none, [])) :=
    matches_pure rfl fun v u _ => ⟨by simp, .nil⟩
  cases twins with
  | error => exact absent
  | number a b =>
    refine matches_pure ?_ fun v u same => ⟨?_, .nil⟩
    · split <;> rfl
    · intro c d left right
      split at left
      · obtain rfl := Option.some.inj left
        rw [if_pos ‹_›] at right
        obtain rfl := Option.some.inj right
        exact same
      · simp at left
  | term a b origin bound =>
    cases origin with
    | const x =>
      refine matches_bind (matches_lifted _) fun found other same => ?_
      subst same
      refine matches_pure rfl fun v u _ _ => ⟨?_, .nil⟩
      intro c d left right
      obtain rfl := Option.some.inj (left.symm.trans right)
      obtain ⟨code, _, rfl⟩ := Option.map_eq_some_iff.1 left
      exact Wire.alike_const code
    | key key =>
      refine matches_bind (matches_literalParts (bound key rfl) a b) fun p q _ => ?_
      refine matches_pure rfl fun v u parts here => ?_
      have same := parts here
      refine ⟨?_, Assertion.allAlike_pair same.tie (alike_datatypeIn _ same)⟩
      rintro c d ⟨⟩ ⟨⟩
      exact same.special
    | str | lang | datatype => exact absent

theorem matches_numberOrder (op : CompareOp) (space : ValueSpace) {guards others : List Assertion}
    {a b c d : Value} (first : a.Twins s c) (second : b.Twins s d) :
    Matches s t (s.numberOrder op space guards a b) (s.numberOrder op space others c d) anyShape
      fun v u x y => Assertion.AllAlike s.encoder.hasher v u guards others →
        a.Alike s.encoder.hasher v u c → b.Alike s.encoder.hasher v u d →
          x.Alike s.encoder.hasher v u y := by
  refine matches_bind (ranks_ordinal space first) fun p q shape => ?_
  refine matches_bind (ranks_ordinal space second) fun r w shape' => ?_
  obtain ⟨left, leftGuards⟩ := p
  obtain ⟨left', leftGuards'⟩ := q
  obtain ⟨right, rightGuards⟩ := r
  obtain ⟨right', rightGuards'⟩ := w
  cases left <;> cases left' <;> cases right <;> cases right' <;>
    simp only [Option.isSome_some, Option.isSome_none, Bool.false_eq_true, Bool.true_eq_false]
      at shape shape'
  case some.some.some.some x x' y y' =>
    refine matches_pure trivial fun v u later earlier each here there => ?_
    obtain ⟨lefts, leftAlike⟩ := earlier here
    obtain ⟨rights, rightAlike⟩ := later there
    exact Condition.alike_guardedBy (List.rel_append (List.rel_append each leftAlike) rightAlike)
      (Assertion.alike_compare op (lefts x x' rfl rfl) (rights y y' rfl rfl))
  all_goals exact matches_pure trivial fun v u _ _ _ _ _ => Condition.alike_error

/-- An operand of an order of strings, which is a key only where that key is bound. -/
def Names (s t : Surroundings) (x y : Value)
    (left right : Compiling (Option Operand × List Assertion)) : Prop :=
  Matches s t left right
    (fun p q => p.1 = q.1 ∧ ∀ operand, p.1 = some operand →
      ∀ key ∈ operand.keys, (s.keyWire? key).isSome)
    fun v u p q => x.Alike s.encoder.hasher v u y →
      Assertion.AllAlike s.encoder.hasher v u p.2 q.2

theorem names_stringOperand {x y : Value} (twins : x.Twins s y) :
    Names s t x y (s.stringOperand x) (s.stringOperand y) := by
  have absent : Names s t x y (pure (none, [])) (pure (none, [])) :=
    matches_pure ⟨rfl, by simp⟩ fun v u _ => .nil
  cases twins with
  | error | number a b => exact absent
  | term a b origin bound =>
    cases origin with
    | const x =>
      refine matches_pure ⟨rfl, ?_⟩ fun v u _ => .nil
      intro operand found
      split at found
      · obtain rfl := Option.some.inj found
        simp [Operand.keys]
      · simp at found
    | key key =>
      refine matches_bind (matches_literalParts (bound key rfl) a b) fun p q _ => ?_
      refine matches_pure ⟨rfl, ?_⟩ fun v u parts here => ?_
      · rintro operand ⟨⟩
        simpa [Operand.keys] using bound key rfl
      · exact Assertion.allAlike_pair (parts here).tie (alike_datatypeIn _ (parts here))
    | str | lang => exact matches_refuse
    | datatype => exact absent

theorem alike_acceptedOrders (op : CompareOp) {h : Hasher} {v u : View} {a b : Wire}
    (same : Wire.Alike h v u a b) :
    Assertion.Alike h v u (acceptedOrders op a) (acceptedOrders op b) := by
  have is (n : Int) : Assertion.Alike h v u (.eq a (.const (Field.ofInt n)))
      (.eq b (.const (Field.ofInt n))) := Assertion.alike_eq same (Wire.alike_const _)
  cases op with
  | lt => exact is (-1)
  | le => exact (Assertion.allAlike_pair (is (-1)) (is 0)).any
  | gt => exact is 1
  | ge => exact (Assertion.allAlike_pair (is 1) (is 0)).any

theorem matches_stringOrder (op : CompareOp) {guards others : List Assertion} {a b c d : Value}
    (first : a.Twins s c) (second : b.Twins s d) :
    Matches s t (s.stringOrder op guards a b) (s.stringOrder op others c d) anyShape
      fun v u x y => Assertion.AllAlike s.encoder.hasher v u guards others →
        a.Alike s.encoder.hasher v u c → b.Alike s.encoder.hasher v u d →
          x.Alike s.encoder.hasher v u y := by
  refine matches_bind (names_stringOperand first) fun p q shape => ?_
  refine matches_bind (names_stringOperand second) fun r w shape' => ?_
  obtain ⟨left, leftGuards⟩ := p
  obtain ⟨left', leftGuards'⟩ := q
  obtain ⟨right, rightGuards⟩ := r
  obtain ⟨right', rightGuards'⟩ := w
  obtain ⟨rfl, leftBound⟩ := shape
  obtain ⟨rfl, rightBound⟩ := shape'
  cases left with
  | none => exact matches_pure trivial fun v u _ _ _ _ _ => Condition.alike_error
  | some left =>
    cases right with
    | none => exact matches_pure trivial fun v u _ _ _ _ _ => Condition.alike_error
    | some right =>
      refine matches_bind (matches_hint (h := .stringOrder left right) ?_) fun _ _ _ => ?_
      · intro key member
        rcases List.mem_append.1 member with inside | inside
        · exact leftBound left rfl key inside
        · exact rightBound right rfl key inside
      · refine matches_pure trivial fun v u order later earlier each here there => ?_
        exact Condition.alike_guardedBy
          (List.rel_append (List.rel_append each (earlier here)) (later there))
          (alike_acceptedOrders op order)

theorem relates_ordered (op : CompareOp) {a b c d : Guarded} (first : a.value.Twins s c.value)
    (second : b.value.Twins s d.value) :
    Relates s t (a, b) (c, d) (s.ordered op a b) (s.ordered op c d) := by
  have byNumber (space : ValueSpace) : Relates s t (a, b) (c, d)
      (s.numberOrder op space (a.guards ++ b.guards) a.value b.value)
      (s.numberOrder op space (c.guards ++ d.guards) c.value d.value) := by
    refine (matches_numberOrder op space first second).imp fun v u x y leads left right => ?_
    exact leads (List.rel_append left.guards right.guards) left.value right.value
  rw [ordered, ordered, twins_spaceOf first, twins_spaceOf second]
  generalize (spaceOf? c.value <|> spaceOf? d.value).getD .numeric = space
  cases space with
  | string =>
    refine (matches_stringOrder op first second).imp fun v u x y leads left right => ?_
    exact leads (List.rel_append left.guards right.guards) left.value right.value
  | numeric | boolean | dateTime => exact byNumber _

theorem relates_comparison (op : CompareOp) {a b c d : Guarded} (first : a.value.Twins s c.value)
    (second : b.value.Twins s d.value) :
    Relates s t (a, b) (c, d) (s.comparison op a b) (s.comparison op c d) := by
  have ordered := relates_ordered (t := t) op first second
  obtain ⟨guardsA, a⟩ := a
  obtain ⟨guardsB, b⟩ := b
  obtain ⟨guardsC, c⟩ := c
  obtain ⟨guardsD, d⟩ := d
  change a.Twins s c at first
  change b.Twins s d at second
  -- Unless both sides are constants, one of the two orders decides.
  cases first with
  | error | number a c => exact ordered
  | term a c origin bound =>
    cases origin with
    | key _ | str | lang | datatype => exact ordered
    | const x =>
      cases second with
      | error | number b d => exact ordered
      | term b d other known =>
        cases other with
        | key _ | str | lang | datatype => exact ordered
        | const y =>
          refine matches_pure trivial fun v u _ _ => ?_
          cases Constant.compare? op x y with
          | some holds => exact Condition.alike_ofBool holds
          | none => exact Condition.alike_error

end Surroundings

end AttestedQuery
