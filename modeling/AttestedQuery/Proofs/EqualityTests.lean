import AttestedQuery.Proofs.GuardedTests

/-!
# Tests of equality

Two terms are equal where their codes are, and two numbers where their values are. A number and a
term are equal where the term is an integer of that value. Constants are compared at once.
-/

set_option autoImplicit false

namespace AttestedQuery

open Compiling

section Equality

variable {s : Surroundings} {all : List Hint}

section Number

variable {guards first second : List Assertion} {number wire : Wire}
  {left right : Reading → Meaning}
  (joined : ∀ g, g ∈ guards ↔ g ∈ first ∨ g ∈ second) (sameTerm : Bool)
  (one : Guarded.Denotes s all ⟨first, .number number⟩ left)

include joined one

theorem Guarded.Denotes.reads_joined {value : Value}
    (other : Guarded.Denotes s all ⟨second, value⟩ right) :
    ∀ g ∈ guards, g.Reads (s.Known all) := fun g member =>
  ((joined g).1 member).elim (one.grounded.guards g) (other.grounded.guards g)

theorem Guarded.Denotes.equals_integer {t : Term} {n : Int}
    (integer : Constant.integer? t = some n)
    (other : Guarded.Denotes s all ⟨second, .term wire (.const t)⟩ right) :
    (Surroundings.guardedBy guards (.eq number (.const (Field.ofInt n)))).Means s all
      fun r => r.equality sameTerm (left r) (right r) := by
  apply s.reads_guardedBy (one.reads_joined joined other)
  · exact Assertion.reads_eq (one.grounded.number number rfl) (s.known_const _)
  · intro v r represents
    obtain ⟨x, readNumber⟩ := one.grounded.field_number rfl represents
    obtain ⟨code, read⟩ := other.grounded.field_term rfl represents
    rw [← one.holds v r represents, ← other.holds v r represents, Guarded.meaning_number rfl,
      Guarded.meaning_term rfl]
    simp only [Reading.equality, Reading.numberEquals, integer]
    have decided : v.truth s.encoder.hasher (.eq number (.const (Field.ofInt n))) =
        (fun x _ => x == Field.ofInt n) x code := View.truth_eq readNumber rfl
    exact View.outcome_pair joined readNumber read decided

theorem Guarded.Denotes.equals_key {key : String}
    (other : Guarded.Denotes s all ⟨second, .term wire (.key key)⟩ right)
    (listed : ∀ h ∈ Hint.parts key, h ∈ all) :
    (Surroundings.guardedBy
      (guards ++ [(Parts.ofKey all key wire).tie,
        s.datatypeIn (Parts.ofKey all key wire) integerTypes])
      (.eq number (Parts.ofKey all key wire).special)).Means s all
        fun r => r.equality sameTerm (left r) (right r) := by
  have found := other.grounded.key wire key rfl
  have special := (Parts.ofKey_grounded found listed).special
  apply s.reads_guardedBy (s.reads_typed found listed (one.reads_joined joined other) integerTypes)
  · exact Assertion.reads_eq (one.grounded.number number rfl) special
  · intro v r represents
    obtain ⟨x, readNumber⟩ := one.grounded.field_number rfl represents
    obtain ⟨y, readSpecial⟩ := represents.wire special
    rw [← one.holds v r represents, ← other.holds v r represents, Guarded.meaning_number rfl,
      Guarded.meaning_term rfl]
    have gives (parts : LiteralParts) (known : r.parts? key = some parts) :
        (x == parts.special) = (x == y) := by
      have same := (represents.parts key wire found listed parts known).2.1
      rw [Except.ok.inj (readSpecial.symm.trans same)]
    simp only [Reading.equality, Reading.numberEquals]
    rw [View.bind_under readNumber, represents.bind_typed found listed second _ gives,
      View.outcome_guardedBy, View.truth_eq readNumber readSpecial,
      represents.typed_guards found listed, represents.typed_guards found listed,
      Assertion.all_joined joined, Bool.and_assoc]
    cases first.all (v.truth s.encoder.hasher) <;> rfl

end Number

theorem Surroundings.yields_numberEquals {guards first second : List Assertion}
    (joined : ∀ g, g ∈ guards ↔ g ∈ first ∨ g ∈ second) (number wire : Wire) (origin : Origin)
    (sameTerm : Bool) :
    Yields (s.numberEquals guards number wire origin) fun all c => ∀ left right,
      Guarded.Denotes s all ⟨first, .number number⟩ left →
        Guarded.Denotes s all ⟨second, .term wire origin⟩ right →
          c.Means s all fun r => r.equality sameTerm (left r) (right r) := by
  cases origin with
  | const t =>
    apply yields_pure
    intro all left right one other
    cases integer : Constant.integer? t with
    | none =>
      apply Condition.means_error
      intro v r represents
      rw [← one.holds v r represents, ← other.holds v r represents]
      simp [Guarded.meaning, Reading.equality, Reading.numberEquals, integer]
    | some n => exact one.equals_integer joined sameTerm integer other
  | key key =>
    apply yields_bind (yields_literalParts key wire)
    intro parts
    apply yields_pure
    rintro all ⟨rfl, listed⟩ left right one other
    exact one.equals_key joined sameTerm other listed
  | str | lang | datatype =>
    apply yields_pure
    intro all left right one other
    apply Condition.means_error
    intro v r represents
    rw [← one.holds v r represents, ← other.holds v r represents]
    rfl

theorem Reading.equality_comm_number (r : Reading) (sameTerm : Bool) (n code : Option Field)
    (origin : Origin) : r.equality sameTerm (.term code origin) (.number n) =
      r.equality sameTerm (.number n) (.term code origin) := by
  cases origin <;> rfl

theorem Guarded.Denotes.tests_terms {first second : List Assertion} {x y : Wire}
    {origin other : Origin} {left right : Reading → Meaning}
    (one : Guarded.Denotes s all ⟨first, .term x origin⟩ left)
    (another : Guarded.Denotes s all ⟨second, .term y other⟩ right) {a : Assertion}
    {test : Field → Field → Bool} {outcome : Reading → Meaning → Meaning → Option Bool}
    (reads : a.Reads (s.Known all))
    (decided : ∀ (v : View) p q, v.field s.encoder.hasher x = .ok p →
      v.field s.encoder.hasher y = .ok q → v.truth s.encoder.hasher a = test p q)
    (same : ∀ (r : Reading) p q, outcome r (.term p origin) (.term q other) =
      p.bind fun p => q.map (test p)) :
    (Surroundings.guardedBy (first ++ second) a).Means s all
      fun r => outcome r (left r) (right r) := by
  apply s.reads_guardedBy
    (List.forall_mem_append.2 ⟨one.grounded.guards, another.grounded.guards⟩) reads
  intro v r represents
  obtain ⟨p, readX⟩ := one.grounded.field_term rfl represents
  obtain ⟨q, readY⟩ := another.grounded.field_term rfl represents
  rw [← one.holds v r represents, ← another.holds v r represents, Guarded.meaning_term rfl,
    Guarded.meaning_term rfl, same]
  exact View.outcome_pair (fun _ => List.mem_append) readX readY (decided v p q readX readY)

theorem Surroundings.yields_termEquality (sameTerm : Bool) (first second : List Assertion)
    (x y : Wire) (origin other : Origin) :
    Yields (s.equality sameTerm ⟨first, .term x origin⟩ ⟨second, .term y other⟩) fun all c =>
      ∀ left right, Guarded.Denotes s all ⟨first, .term x origin⟩ left →
        Guarded.Denotes s all ⟨second, .term y other⟩ right →
          c.Means s all fun r => r.equality sameTerm (left r) (right r) := by
  by_cases constants : ∃ t u, origin = .const t ∧ other = .const u
  · obtain ⟨t, u, rfl, rfl⟩ := constants
    apply yields_pure
    intro all left right one another
    exact one.tests_terms another (Assertion.reads_ofBool _)
      (fun _ _ _ _ _ => View.truth_ofBool _) fun _ _ _ => rfl
  · have compiled : s.equality sameTerm ⟨first, .term x origin⟩ ⟨second, .term y other⟩ =
        pure (guardedBy (first ++ second) (.eq x y)) := by
      cases origin <;> cases other <;>
        first | rfl | exact absurd ⟨_, _, rfl, rfl⟩ constants
    have meant (r : Reading) (code another : Option Field) :
        r.equality sameTerm (.term code origin) (.term another other) =
          code.bind fun x => another.map fun y => x == y := by
      cases origin <;> cases other <;>
        first | rfl | exact absurd ⟨_, _, rfl, rfl⟩ constants
    rw [compiled]
    apply yields_pure
    intro all left right one another
    refine one.tests_terms another ?_ (fun _ _ _ => View.truth_eq) meant
    exact Assertion.reads_eq (one.grounded.term x _ rfl) (another.grounded.term y _ rfl)

theorem Surroundings.yields_equality (sameTerm : Bool) (a b : Guarded) :
    Yields (s.equality sameTerm a b) fun all c => ∀ left right, a.Denotes s all left →
      b.Denotes s all right → c.Means s all fun r => r.equality sameTerm (left r) (right r) := by
  obtain ⟨first, x⟩ := a
  obtain ⟨second, y⟩ := b
  have missing {all : List Hint} {left right : Reading → Meaning}
      (one : Guarded.Denotes s all ⟨first, x⟩ left)
      (other : Guarded.Denotes s all ⟨second, y⟩ right)
      (fails : ∀ (r : Reading) v, r.equality sameTerm
        (Guarded.meaning s.encoder.hasher v ⟨first, x⟩)
        (Guarded.meaning s.encoder.hasher v ⟨second, y⟩) = none) :
      Condition.error.Means s all fun r => r.equality sameTerm (left r) (right r) := by
    apply Condition.means_error
    intro v r represents
    rw [← one.holds v r represents, ← other.holds v r represents, fails]
  cases x with
  | error =>
    apply yields_pure
    intro all left right one other
    exact missing one other fun _ _ => rfl
  | number x =>
    cases y with
    | error =>
      apply yields_pure
      intro all left right one other
      exact missing one other fun _ _ => rfl
    | number y =>
      apply yields_pure
      intro all left right one other
      apply s.reads_guardedBy
        (List.forall_mem_append.2 ⟨one.grounded.guards, other.grounded.guards⟩)
      · exact Assertion.reads_eq (one.grounded.number x rfl) (other.grounded.number y rfl)
      · intro v r represents
        obtain ⟨_, readX⟩ := one.grounded.field_number rfl represents
        obtain ⟨_, readY⟩ := other.grounded.field_number rfl represents
        rw [← one.holds v r represents, ← other.holds v r represents, Guarded.meaning_number rfl,
          Guarded.meaning_number rfl]
        exact View.outcome_pair (fun _ => List.mem_append) readX readY (View.truth_eq readX readY)
    | term wire origin =>
      exact s.yields_numberEquals (by simp) x wire origin sameTerm
  | term x origin =>
    cases y with
    | error =>
      apply yields_pure
      intro all left right one other
      exact missing one other fun _ _ => rfl
    | number y =>
      have joined : ∀ g, g ∈ first ++ second ↔ g ∈ second ∨ g ∈ first := by simp [or_comm]
      apply (s.yields_numberEquals joined y x origin sameTerm).imp
      intro all c leads left right one other
      apply (leads right left other one).congr
      intro v r represents
      rw [← one.holds v r represents, ← other.holds v r represents, Guarded.meaning_number rfl,
        Guarded.meaning_term rfl, Reading.equality_comm_number]
    | term y other => exact s.yields_termEquality sameTerm first second x y origin other

end Equality

end AttestedQuery
