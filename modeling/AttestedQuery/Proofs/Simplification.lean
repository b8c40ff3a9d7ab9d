import AttestedQuery.Proofs.Leaves

/-!
# Assertions that are simplified while they are built

The combinators drop, absorb, open and cancel what they are given, and say the same as the plain
connectives of their parts. What they build is in a normal form: below the root there are no
constants, no list has fewer than two parts, no list stands directly in a list of its own kind and
no negation in a negation. Every assertion of that form is built by them.
-/

set_option autoImplicit false

namespace AttestedQuery

namespace Assertion

/-! ## The normal form -/

/-- The assertions that stand directly below the root. -/
def children : Assertion → List Assertion
  | .not a => [a]
  | .and parts | .or parts => parts
  | .true | .false | .eq .. | .compare .. => []

/-- An assertion that stands anywhere in another, the root included. -/
inductive Within (x : Assertion) : Assertion → Prop where
  | root : Within x x
  | under {a part : Assertion} : part ∈ a.children → Within x part → Within x a

def IsConstant (a : Assertion) : Prop := a = .true ∨ a = .false

structure Neat (a : Assertion) : Prop where
  constants : ∀ part ∈ a.children, ¬part.IsConstant
  conjunction : ∀ parts, a = .and parts → 2 ≤ parts.length ∧ ∀ inner, .and inner ∉ parts
  disjunction : ∀ parts, a = .or parts → 2 ≤ parts.length ∧ ∀ inner, .or inner ∉ parts
  negation : ∀ inner, a ≠ .not (.not inner)

/-- Assertions in normal form. -/
def Simplified (a : Assertion) : Prop := ∀ x, Within x a → x.Neat

theorem simplified_iff (a : Assertion) :
    a.Simplified ↔ a.Neat ∧ ∀ part ∈ a.children, part.Simplified := by
  constructor
  · intro simplified
    exact ⟨simplified a .root, fun part member x inside => simplified x (.under member inside)⟩
  · rintro ⟨here, each⟩ x inside
    cases inside with
    | root => exact here
    | under member inside => exact each _ member x inside

def Part (a : Assertion) : Prop := a.Simplified ∧ ¬a.IsConstant

theorem simplified_of_leaf {a : Assertion} (leaf : a.children = [])
    (noAnd : ∀ parts, a ≠ .and parts) (noOr : ∀ parts, a ≠ .or parts) : a.Simplified := by
  have noParts : ∀ part ∈ a.children, False := by simp [leaf]
  refine (simplified_iff a).2 ⟨⟨?_, ?_, ?_, ?_⟩, fun part member => (noParts part member).elim⟩
  · exact fun part member => (noParts part member).elim
  · exact fun parts same => absurd same (noAnd parts)
  · exact fun parts same => absurd same (noOr parts)
  · rintro inner rfl
    exact noParts (.not inner) List.mem_cons_self

theorem simplified_not {a : Assertion} (part : a.Part) (single : ∀ inner, a ≠ .not inner) :
    (Assertion.not a).Simplified := by
  refine (simplified_iff _).2 ⟨⟨?_, ?_, ?_, ?_⟩, ?_⟩
  · exact List.forall_mem_singleton.2 part.2
  · exact fun parts same => nomatch same
  · exact fun parts same => nomatch same
  · exact fun inner same => single inner (Assertion.not.inj same)
  · exact List.forall_mem_singleton.2 part.1

theorem simplified_and_iff (parts : List Assertion) : (Assertion.and parts).Simplified ↔
    2 ≤ parts.length ∧ ∀ part ∈ parts, part.Part ∧ ∀ inner, part ≠ .and inner := by
  rw [simplified_iff]
  constructor
  · rintro ⟨neat, each⟩
    obtain ⟨several, opened⟩ := neat.conjunction parts rfl
    exact ⟨several, fun part member => ⟨⟨each part member, neat.constants part member⟩,
      fun inner same => opened inner (same ▸ member)⟩⟩
  · rintro ⟨several, each⟩
    refine ⟨⟨fun part member => (each part member).1.2, ?_, ?_, ?_⟩,
      fun part member => (each part member).1.1⟩
    · rintro others same
      obtain rfl := Assertion.and.inj same
      exact ⟨several, fun inner member => (each _ member).2 inner rfl⟩
    · exact fun others same => nomatch same
    · exact fun inner same => nomatch same

theorem simplified_or_iff (parts : List Assertion) : (Assertion.or parts).Simplified ↔
    2 ≤ parts.length ∧ ∀ part ∈ parts, part.Part ∧ ∀ inner, part ≠ .or inner := by
  rw [simplified_iff]
  constructor
  · rintro ⟨neat, each⟩
    obtain ⟨several, opened⟩ := neat.disjunction parts rfl
    exact ⟨several, fun part member => ⟨⟨each part member, neat.constants part member⟩,
      fun inner same => opened inner (same ▸ member)⟩⟩
  · rintro ⟨several, each⟩
    refine ⟨⟨fun part member => (each part member).1.2, ?_, ?_, ?_⟩,
      fun part member => (each part member).1.1⟩
    · exact fun others same => nomatch same
    · rintro others same
      obtain rfl := Assertion.or.inj same
      exact ⟨several, fun inner member => (each _ member).2 inner rfl⟩
    · exact fun inner same => nomatch same

/-! ## What the combinators build -/

/-- Assertions that are built bottom-up by the combinators. -/
inductive Built : Assertion → Prop where
  | true : Built .true
  | false : Built .false
  | eq (a b : Wire) : Built (.eq a b)
  | compare (op : CompareOp) (left right : Wire) : Built (.compare op left right)
  | all (parts : List Assertion) : (∀ part ∈ parts, Built part) → Built (.all parts)
  | any (parts : List Assertion) : (∀ part ∈ parts, Built part) → Built (.any parts)
  | negated (a : Assertion) : Built a → Built a.negated

theorem conjuncts_simplified {parts flat : List Assertion} (opened : conjuncts? parts = some flat)
    (each : ∀ part ∈ parts, part.Simplified) :
    ∀ part ∈ flat, part.Part ∧ ∀ inner, part ≠ .and inner := by
  fun_induction conjuncts? parts generalizing flat with
  | case1 =>
    obtain rfl := Option.some.inj opened
    exact fun part member => absurd member List.not_mem_nil
  | case2 rest induction => exact induction opened (List.forall_mem_cons.1 each).2
  | case3 rest => cases opened
  | case4 inner rest induction =>
    obtain ⟨others, found, rfl⟩ := Option.map_eq_some_iff.1 opened
    obtain ⟨here, later⟩ := List.forall_mem_cons.1 each
    exact List.forall_mem_append.2 ⟨((simplified_and_iff inner).1 here).2, induction found later⟩
  | case5 part rest notTrue notFalse notAnd induction =>
    obtain ⟨others, found, rfl⟩ := Option.map_eq_some_iff.1 opened
    obtain ⟨here, later⟩ := List.forall_mem_cons.1 each
    have whole : part.Part ∧ ∀ inner, part ≠ .and inner :=
      ⟨⟨here, fun constant => constant.elim notTrue notFalse⟩, notAnd⟩
    exact List.forall_mem_cons.2 ⟨whole, induction found later⟩

theorem disjuncts_simplified {parts flat : List Assertion} (opened : disjuncts? parts = some flat)
    (each : ∀ part ∈ parts, part.Simplified) :
    ∀ part ∈ flat, part.Part ∧ ∀ inner, part ≠ .or inner := by
  fun_induction disjuncts? parts generalizing flat with
  | case1 =>
    obtain rfl := Option.some.inj opened
    exact fun part member => absurd member List.not_mem_nil
  | case2 rest induction => exact induction opened (List.forall_mem_cons.1 each).2
  | case3 rest => cases opened
  | case4 inner rest induction =>
    obtain ⟨others, found, rfl⟩ := Option.map_eq_some_iff.1 opened
    obtain ⟨here, later⟩ := List.forall_mem_cons.1 each
    exact List.forall_mem_append.2 ⟨((simplified_or_iff inner).1 here).2, induction found later⟩
  | case5 part rest notFalse notTrue notOr induction =>
    obtain ⟨others, found, rfl⟩ := Option.map_eq_some_iff.1 opened
    obtain ⟨here, later⟩ := List.forall_mem_cons.1 each
    have whole : part.Part ∧ ∀ inner, part ≠ .or inner :=
      ⟨⟨here, fun constant => constant.elim notTrue notFalse⟩, notOr⟩
    exact List.forall_mem_cons.2 ⟨whole, induction found later⟩

theorem simplified_true : Assertion.true.Simplified :=
  simplified_of_leaf rfl (fun _ same => nomatch same) fun _ same => nomatch same

theorem simplified_false : Assertion.false.Simplified :=
  simplified_of_leaf rfl (fun _ same => nomatch same) fun _ same => nomatch same

theorem two_le_length {parts : List Assertion} (filled : parts ≠ [])
    (several : ∀ part, parts ≠ [part]) : 2 ≤ parts.length := by
  have positive := List.length_pos_iff.2 filled
  have notOne : parts.length ≠ 1 := by
    intro one
    obtain ⟨part, rfl⟩ := List.length_eq_one_iff.1 one
    exact several part rfl
  omega

theorem simplified_all {parts : List Assertion} (each : ∀ part ∈ parts, part.Simplified) :
    (all parts).Simplified := by
  unfold all
  split
  next => exact simplified_false
  next => exact simplified_true
  next single opened => exact (conjuncts_simplified opened each single List.mem_cons_self).1.1
  next several notEmpty notSingle opened =>
    exact (simplified_and_iff several).2
      ⟨two_le_length notEmpty notSingle, conjuncts_simplified opened each⟩

theorem simplified_any {parts : List Assertion} (each : ∀ part ∈ parts, part.Simplified) :
    (any parts).Simplified := by
  unfold any
  split
  next => exact simplified_true
  next => exact simplified_false
  next single opened => exact (disjuncts_simplified opened each single List.mem_cons_self).1.1
  next several notEmpty notSingle opened =>
    exact (simplified_or_iff several).2
      ⟨two_le_length notEmpty notSingle, disjuncts_simplified opened each⟩

theorem simplified_negated {a : Assertion} (simplified : a.Simplified) : a.negated.Simplified := by
  unfold negated
  split
  next => exact simplified_false
  next => exact simplified_true
  next inner => exact ((simplified_iff _).1 simplified).2 inner List.mem_cons_self
  next notTrue notFalse notNot =>
    exact simplified_not ⟨simplified, fun constant => constant.elim notTrue notFalse⟩ notNot

theorem Built.simplified {a : Assertion} (built : a.Built) : a.Simplified := by
  induction built with
  | true => exact simplified_true
  | false => exact simplified_false
  | eq | compare =>
    exact simplified_of_leaf rfl (fun _ same => nomatch same) fun _ same => nomatch same
  | all parts _ induction => exact simplified_all induction
  | any parts _ induction => exact simplified_any induction
  | negated a _ induction => exact simplified_negated induction

/-! ## What is in normal form is built -/

/-- Nothing is dropped or opened among parts that are neither constants nor conjunctions. -/
theorem conjuncts_eq_self {parts : List Assertion}
    (each : ∀ part ∈ parts, ¬part.IsConstant ∧ ∀ inner, part ≠ .and inner) :
    conjuncts? parts = some parts := by
  fun_induction conjuncts? parts with
  | case1 => rfl
  | case2 rest => exact absurd (Or.inl rfl) (each .true List.mem_cons_self).1
  | case3 rest => exact absurd (Or.inr rfl) (each .false List.mem_cons_self).1
  | case4 inner rest => exact absurd rfl ((each (.and inner) List.mem_cons_self).2 inner)
  | case5 part rest _ _ _ induction => rw [induction (List.forall_mem_cons.1 each).2, Option.map_some]

theorem disjuncts_eq_self {parts : List Assertion}
    (each : ∀ part ∈ parts, ¬part.IsConstant ∧ ∀ inner, part ≠ .or inner) :
    disjuncts? parts = some parts := by
  fun_induction disjuncts? parts with
  | case1 => rfl
  | case2 rest => exact absurd (Or.inr rfl) (each .false List.mem_cons_self).1
  | case3 rest => exact absurd (Or.inl rfl) (each .true List.mem_cons_self).1
  | case4 inner rest => exact absurd rfl ((each (.or inner) List.mem_cons_self).2 inner)
  | case5 part rest _ _ _ induction => rw [induction (List.forall_mem_cons.1 each).2, Option.map_some]

theorem all_eq_and {parts : List Assertion} (simplified : (Assertion.and parts).Simplified) :
    all parts = .and parts := by
  obtain ⟨several, each⟩ := (simplified_and_iff parts).1 simplified
  rw [all, conjuncts_eq_self fun part member => ⟨(each part member).1.2, (each part member).2⟩]
  cases parts with
  | nil => simp at several
  | cons first rest =>
    cases rest with
    | nil => simp at several
    | cons second others => rfl

theorem any_eq_or {parts : List Assertion} (simplified : (Assertion.or parts).Simplified) :
    any parts = .or parts := by
  obtain ⟨several, each⟩ := (simplified_or_iff parts).1 simplified
  rw [any, disjuncts_eq_self fun part member => ⟨(each part member).1.2, (each part member).2⟩]
  cases parts with
  | nil => simp at several
  | cons first rest =>
    cases rest with
    | nil => simp at several
    | cons second others => rfl

theorem negated_eq_not {a : Assertion} (simplified : (Assertion.not a).Simplified) :
    a.negated = .not a := by
  have neat := ((simplified_iff _).1 simplified).1
  have part : ¬a.IsConstant := neat.constants a List.mem_cons_self
  unfold negated
  split
  next => exact absurd (Or.inl rfl) part
  next => exact absurd (Or.inr rfl) part
  next inner => exact absurd rfl (neat.negation inner)
  next => rfl

mutual

theorem Simplified.built : (a : Assertion) → a.Simplified → a.Built
  | .true, _ => .true
  | .false, _ => .false
  | .eq a b, _ => .eq a b
  | .compare op left right, _ => .compare op left right
  | .not a, simplified =>
    negated_eq_not simplified ▸
      .negated a (Simplified.built a (((simplified_iff _).1 simplified).2 a List.mem_cons_self))
  | .and parts, simplified =>
    all_eq_and simplified ▸ .all parts (Simplified.each_built parts ((simplified_iff _).1 simplified).2)
  | .or parts, simplified =>
    any_eq_or simplified ▸ .any parts (Simplified.each_built parts ((simplified_iff _).1 simplified).2)

theorem Simplified.each_built : (parts : List Assertion) → (∀ part ∈ parts, part.Simplified) →
    ∀ part ∈ parts, part.Built
  | [], _ => fun _ member => nomatch member
  | part :: rest, each =>
    List.forall_mem_cons.2 ⟨Simplified.built part (each part List.mem_cons_self),
      Simplified.each_built rest fun other member => each other (List.mem_cons_of_mem part member)⟩

end

/-- The combinators build the assertions in normal form, and no others. -/
theorem built_iff_simplified (a : Assertion) : a.Built ↔ a.Simplified :=
  ⟨Built.simplified, Simplified.built a⟩

end Assertion

/-! ## Evaluation -/

namespace View

variable {h : Hasher} {v : View}

/-- An assertion is decided, and holds in the given case and in no other. -/
def HoldsExactly (h : Hasher) (v : View) (a : Assertion) (given : Prop) : Prop :=
  ∃ b, v.holds h a = .ok b ∧ (b = true ↔ given)

theorem Decides.holdsExactly {a : Assertion} (decides : v.Decides h a) {given : Prop}
    (same : v.truth h a = true ↔ given) : v.HoldsExactly h a given :=
  ⟨v.truth h a, decides, same⟩

theorem holdsExactly_all {parts : List Assertion} (each : ∀ part ∈ parts, v.Decides h part) :
    v.HoldsExactly h (.all parts) (∀ part ∈ parts, v.holds h part = .ok true) :=
  (decides_all each).holdsExactly ((truth_iff _).trans (holds_all_iff parts))

theorem holdsExactly_any {parts : List Assertion} (each : ∀ part ∈ parts, v.Decides h part) :
    v.HoldsExactly h (.any parts) (∃ part ∈ parts, v.holds h part = .ok true) := by
  refine (decides_any each).holdsExactly ?_
  rw [truth_any each, List.any_eq_true]
  simp only [truth_iff]

theorem holdsExactly_negated {a : Assertion} (decides : v.Decides h a) :
    v.HoldsExactly h a.negated (v.holds h a = .ok false) := by
  refine (decides_negated decides).holdsExactly ?_
  rw [truth_negated decides, decides]
  simp

/-- Where every value that the parts read is there, a built conjunction holds exactly when all of
the parts do, a built disjunction exactly when some part does, and a built negation exactly when
its part does not. Whatever values are there, an assertion is accepted exactly when it holds. What
the combinators build is what is in normal form. -/
theorem simplification_keeps_evaluation (h : Hasher) (v : View) :
    (∀ parts : List Assertion, (∀ part ∈ parts, part.Reads (v.Readable h)) →
      v.HoldsExactly h (.all parts) (∀ part ∈ parts, v.holds h part = .ok true) ∧
      v.HoldsExactly h (.any parts) (∃ part ∈ parts, v.holds h part = .ok true)) ∧
    (∀ a : Assertion, a.Reads (v.Readable h) →
      v.HoldsExactly h a.negated (v.holds h a = .ok false)) ∧
    (∀ a : Assertion, v.check h a = .ok () ↔ v.holds h a = .ok true) ∧
    ∀ a : Assertion, a.Built ↔ a.Simplified := by
  refine ⟨fun parts reads => ?_, fun a reads => holdsExactly_negated (decides_of_reads reads),
    check_ok_iff, Assertion.built_iff_simplified⟩
  have each : ∀ part ∈ parts, v.Decides h part :=
    fun part member => decides_of_reads (reads part member)
  exact ⟨holdsExactly_all each, holdsExactly_any each⟩

def sampleView : View := ⟨[], KeyMap.empty, [Field.ofNat 2]⟩

/-- An order and an equality of which only the order holds in the view. -/
def sampleConjunction : Assertion :=
  .and [.compare .lt (.hint 0) (.const (Field.ofNat 3)), .eq (.hint 0) (.const Field.zero)]

def sampleParts : List Assertion := [.true, .not sampleConjunction]

theorem sampleConjunction_reads (h : Hasher) :
    sampleConjunction.Reads (sampleView.Readable h) := by
  have hint : sampleView.Readable h (.hint 0) := ⟨_, rfl⟩
  have const (x : Field) : sampleView.Readable h (.const x) := ⟨_, rfl⟩
  simp [sampleConjunction, Assertion.Reads, Assertion.leaves, Assertion.leavesOfAll, Wire.leaves,
    hint, const]

theorem sampleParts_read (h : Hasher) :
    ∀ part ∈ sampleParts, part.Reads (sampleView.Readable h) := by
  simp only [sampleParts, List.forall_mem_cons]
  exact ⟨Assertion.reads_ofBool true, sampleConjunction_reads h, fun part member => nomatch member⟩

theorem simplification_keeps_evaluation_sample :
    (∀ part ∈ sampleParts, part.Reads (sampleView.Readable HashSuite.blake2s.hasher)) ∧
      sampleView.HoldsExactly HashSuite.blake2s.hasher (.all sampleParts)
        (∀ part ∈ sampleParts, sampleView.holds HashSuite.blake2s.hasher part = .ok true) ∧
      sampleConjunction.Reads (sampleView.Readable HashSuite.blake2s.hasher) ∧
      sampleView.HoldsExactly HashSuite.blake2s.hasher sampleConjunction.negated
        (sampleView.holds HashSuite.blake2s.hasher sampleConjunction = .ok false) ∧
      sampleView.holds HashSuite.blake2s.hasher sampleConjunction = .ok false := by
  obtain ⟨lists, negations, _⟩ := simplification_keeps_evaluation HashSuite.blake2s.hasher sampleView
  exact ⟨sampleParts_read _, (lists sampleParts (sampleParts_read _)).1, sampleConjunction_reads _,
    negations sampleConjunction (sampleConjunction_reads _), rfl⟩

end View

end AttestedQuery
