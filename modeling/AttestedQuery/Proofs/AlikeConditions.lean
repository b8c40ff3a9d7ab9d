import AttestedQuery.Proofs.Conditions

/-!
# Wires, assertions and conditions that two views agree on

Two expressions of the circuit are alike where each has a value over its own view and the two values
are the same. What is built from alike parts is alike.
-/

set_option autoImplicit false

namespace AttestedQuery

/-! ## Wires and assertions with one value -/

/-- Two wires have one value, each over its view. -/
def Wire.Alike (h : Hasher) (v u : View) (a b : Wire) : Prop :=
  ∃ x, v.field h a = .ok x ∧ u.field h b = .ok x

/-- Two assertions have one truth value, each over its view. -/
structure Assertion.Alike (h : Hasher) (v u : View) (a b : Assertion) : Prop where
  left : v.Decides h a
  right : u.Decides h b
  same : v.truth h a = u.truth h b

section Alike

variable {h : Hasher} {v u : View}

theorem Wire.alike_const (x : Field) : Alike h v u (.const x) (.const x) := ⟨x, rfl, rfl⟩

theorem Wire.Alike.hash2 {a b c d : Wire} (first : Alike h v u a c) (second : Alike h v u b d) :
    Alike h v u (.hash2 a b) (.hash2 c d) := by
  obtain ⟨_, left, left'⟩ := first
  obtain ⟨_, right, right'⟩ := second
  exact ⟨_, View.field_hash2 left right, View.field_hash2 left' right'⟩

theorem Wire.Alike.hash4 {a b c d a' b' c' d' : Wire} (first : Alike h v u a a')
    (second : Alike h v u b b') (third : Alike h v u c c') (fourth : Alike h v u d d') :
    Alike h v u (.hash4 a b c d) (.hash4 a' b' c' d') := by
  obtain ⟨_, one, one'⟩ := first
  obtain ⟨_, two, two'⟩ := second
  obtain ⟨_, three, three'⟩ := third
  obtain ⟨_, four, four'⟩ := fourth
  exact ⟨_, View.field_hash4 one two three four, View.field_hash4 one' two' three' four'⟩

theorem Wire.Alike.tagged (kind : TermKind) {a b : Wire} (inner : Alike h v u a b) :
    Alike h v u (Compiling.taggedWire kind a) (Compiling.taggedWire kind b) :=
  (alike_const _).hash2 inner

namespace Assertion

theorem alike_of_holds {a b : Assertion} {x : Bool} (left : v.holds h a = .ok x)
    (right : u.holds h b = .ok x) : Alike h v u a b where
  left := View.decides_of_holds left
  right := View.decides_of_holds right
  same := (View.truth_of_holds left).trans (View.truth_of_holds right).symm

theorem alike_ofBool (value : Bool) : Alike h v u (.ofBool value) (.ofBool value) where
  left := View.decides_ofBool value
  right := View.decides_ofBool value
  same := (View.truth_ofBool value).trans (View.truth_ofBool value).symm

theorem alike_eq {a b c d : Wire} (left : Wire.Alike h v u a c) (right : Wire.Alike h v u b d) :
    Alike h v u (.eq a b) (.eq c d) := by
  obtain ⟨_, left, left'⟩ := left
  obtain ⟨_, right, right'⟩ := right
  exact alike_of_holds (View.holds_eq left right) (View.holds_eq left' right')

theorem alike_compare (op : CompareOp) {a b c d : Wire} (left : Wire.Alike h v u a c)
    (right : Wire.Alike h v u b d) : Alike h v u (.compare op a b) (.compare op c d) := by
  obtain ⟨x, left, left'⟩ := left
  obtain ⟨y, right, right'⟩ := right
  refine alike_of_holds (x := View.compares op x y) ?_ ?_
  · simp [View.holds, left, right, bind, Except.bind, pure, Except.pure]
  · simp [View.holds, left', right', bind, Except.bind, pure, Except.pure]

theorem Alike.negated {a b : Assertion} (alike : Alike h v u a b) :
    Alike h v u a.negated b.negated where
  left := View.decides_negated alike.left
  right := View.decides_negated alike.right
  same := by rw [View.truth_negated alike.left, View.truth_negated alike.right, alike.same]

/-- Parts of a conjunction or disjunction, pair by pair. -/
abbrev AllAlike (h : Hasher) (v u : View) : List Assertion → List Assertion → Prop :=
  List.Forall₂ (Alike h v u)

variable {parts others : List Assertion}

theorem AllAlike.left (each : AllAlike h v u parts others) : ∀ part ∈ parts, v.Decides h part := by
  induction each with
  | nil => simp
  | cons first _ induction => exact List.forall_mem_cons.2 ⟨first.left, induction⟩

theorem AllAlike.right (each : AllAlike h v u parts others) :
    ∀ part ∈ others, u.Decides h part := by
  induction each with
  | nil => simp
  | cons first _ induction => exact List.forall_mem_cons.2 ⟨first.right, induction⟩

theorem AllAlike.all (each : AllAlike h v u parts others) :
    Alike h v u (.all parts) (.all others) where
  left := View.decides_all each.left
  right := View.decides_all each.right
  same := by
    rw [View.truth_all, View.truth_all]
    induction each with
    | nil => rfl
    | cons first _ induction => rw [List.all_cons, List.all_cons, first.same, induction]

theorem AllAlike.any (each : AllAlike h v u parts others) :
    Alike h v u (.any parts) (.any others) where
  left := View.decides_any each.left
  right := View.decides_any each.right
  same := by
    rw [View.truth_any each.left, View.truth_any each.right]
    induction each with
    | nil => rfl
    | cons first _ induction => rw [List.any_cons, List.any_cons, first.same, induction]

theorem allAlike_pair {a b c d : Assertion} (first : Alike h v u a c) (second : Alike h v u b d) :
    AllAlike h v u [a, b] [c, d] :=
  .cons first (.cons second .nil)

theorem allAlike_triple {a b c a' b' c' : Assertion} (first : Alike h v u a a')
    (second : Alike h v u b b') (third : Alike h v u c c') :
    AllAlike h v u [a, b, c] [a', b', c'] :=
  .cons first (allAlike_pair second third)

end Assertion

end Alike

/-! ## Compiled parts -/

/-- The hints about the parts of a literal have the same values. -/
structure Parts.Alike (h : Hasher) (v u : View) (p q : Parts) : Prop where
  lexical : Wire.Alike h v u p.lexical q.lexical
  special : Wire.Alike h v u p.special q.special
  lang : Wire.Alike h v u p.lang q.lang
  datatype : Wire.Alike h v u p.datatype q.datatype
  tie : Assertion.Alike h v u p.tie q.tie

/-- Two values of one origin, which is a key only where the surroundings bind that key. -/
inductive Value.Twins (s : Surroundings) : Value → Value → Prop
  | term (a b : Wire) (origin : Origin)
    (bound : ∀ key, origin = .key key → (s.keyWire? key).isSome) :
      Twins s (.term a origin) (.term b origin)
  | number (a b : Wire) : Twins s (.number a) (.number b)
  | error : Twins s .error .error

/-- Two values have one wire value. -/
def Value.Alike (h : Hasher) (v u : View) : Value → Value → Prop
  | .term a _, .term b _ | .number a, .number b => Wire.Alike h v u a b
  | _, _ => True

structure Guarded.Alike (h : Hasher) (v u : View) (g k : Guarded) : Prop where
  guards : Assertion.AllAlike h v u g.guards k.guards
  value : g.value.Alike h v u k.value

structure Condition.Alike (h : Hasher) (v u : View) (c d : Condition) : Prop where
  defined : Assertion.Alike h v u c.defined d.defined
  value : Assertion.Alike h v u c.value d.value

section Conditions

variable {h : Hasher} {v u : View} {a b c d p q : Condition}

theorem Condition.alike_ofBool (value : Bool) : Alike h v u (.ofBool value) (.ofBool value) :=
  ⟨Assertion.alike_ofBool true, Assertion.alike_ofBool value⟩

theorem Condition.alike_error : Alike h v u .error .error :=
  ⟨Assertion.alike_ofBool false, Assertion.alike_ofBool false⟩

theorem Condition.alike_guardedBy {guards others : List Assertion} {x y : Assertion}
    (each : Assertion.AllAlike h v u guards others) (value : Assertion.Alike h v u x y) :
    Alike h v u (Surroundings.guardedBy guards x) (Surroundings.guardedBy others y) :=
  ⟨each.all, value⟩

theorem Condition.Alike.holds (alike : Alike h v u a b) : Assertion.Alike h v u a.holds b.holds :=
  (Assertion.allAlike_pair alike.defined alike.value).all

theorem Condition.Alike.negated (alike : Alike h v u a b) : Alike h v u a.negated b.negated :=
  ⟨alike.defined, alike.value.negated⟩

open Assertion in
theorem Condition.Alike.both (first : Alike h v u a c) (second : Alike h v u b d) :
    Alike h v u (a.both b) (c.both d) where
  defined := (allAlike_triple (allAlike_pair first.defined second.defined).all
    (allAlike_pair first.defined first.value.negated).all
    (allAlike_pair second.defined second.value.negated).all).any
  value := (allAlike_pair first.value second.value).all

open Assertion in
theorem Condition.Alike.either (first : Alike h v u a c) (second : Alike h v u b d) :
    Alike h v u (a.either b) (c.either d) := by
  have value := (allAlike_pair (allAlike_pair first.defined first.value).all
    (allAlike_pair second.defined second.value).all).any
  exact ⟨(allAlike_pair value (allAlike_pair first.defined second.defined).all).any, value⟩

open Assertion in
theorem Condition.Alike.choose (condition : Alike h v u p q) (first : Alike h v u a c)
    (second : Alike h v u b d) : Alike h v u (p.choose a b) (q.choose c d) where
  defined := (allAlike_triple condition.defined
    (allAlike_pair condition.value.negated first.defined).any
    (allAlike_pair condition.value second.defined).any).all
  value := (allAlike_pair (allAlike_pair condition.value first.value).all
    (allAlike_pair condition.value.negated second.value).all).any

end Conditions

end AttestedQuery
