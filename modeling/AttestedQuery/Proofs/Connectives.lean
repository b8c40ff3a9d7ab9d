import AttestedQuery.Proofs.Values

/-!
# The connectives of conditions

A condition over a view is true, false or without a value. The connectives that filters are compiled
with follow the tables of three values, and read nothing that their parts do not read.
-/

set_option autoImplicit false

namespace AttestedQuery

/-- The value of a condition over a view; none where it has none. -/
def Condition.outcome (h : Hasher) (v : View) (c : Condition) : Option Bool :=
  if v.truth h c.defined then some (v.truth h c.value) else none

structure Condition.Means (s : Surroundings) (all : List Hint) (c : Condition)
    (meant : Reading → Option Bool) : Prop where
  defined : c.defined.Reads (s.Known all)
  value : c.value.Reads (s.Known all)
  holds : ∀ v r, View.Represents v s all r → c.outcome s.encoder.hasher v = meant r

namespace Condition

section Connectives

variable {h : Hasher} {v : View} {a b c : Condition}

theorem outcome_ofBool (value : Bool) : (ofBool value).outcome h v = some value := by
  cases value <;> rfl

theorem outcome_error : error.outcome h v = none := rfl

theorem outcome_negated (value : v.Decides h a.value) :
    a.negated.outcome h v = (a.outcome h v).map (!·) := by
  simp only [outcome, negated, View.truth_negated value]
  cases v.truth h a.defined <;> rfl

structure Decided (h : Hasher) (v : View) (c : Condition) : Prop where
  defined : v.Decides h c.defined
  value : v.Decides h c.value

theorem outcome_both (first : a.Decided h v) (second : b.Decided h v) :
    (a.both b).outcome h v = bothTrue (a.outcome h v) (b.outcome h v) := by
  have parts : ∀ part ∈ [.all [a.defined, b.defined], .all [a.defined, a.value.negated],
      .all [b.defined, b.value.negated]], v.Decides h part := by
    simp only [List.forall_mem_cons]
    refine ⟨View.decides_all ?_, View.decides_all ?_, View.decides_all ?_, by simp⟩
    · simp [first.defined, second.defined]
    · simp [first.defined, View.decides_negated first.value]
    · simp [second.defined, View.decides_negated second.value]
  simp only [outcome, both, View.truth_any parts, View.truth_all, List.any_cons, List.any_nil,
    List.all_cons, List.all_nil, View.truth_negated first.value, View.truth_negated second.value]
  cases v.truth h a.defined <;> cases v.truth h a.value <;> cases v.truth h b.defined <;>
    cases v.truth h b.value <;> rfl

theorem outcome_either (first : a.Decided h v) (second : b.Decided h v) :
    (a.either b).outcome h v = eitherTrue (a.outcome h v) (b.outcome h v) := by
  have parts : ∀ part ∈ [.all [a.defined, a.value], .all [b.defined, b.value]],
      v.Decides h part := by
    simp only [List.forall_mem_cons]
    refine ⟨View.decides_all ?_, View.decides_all ?_, by simp⟩
    · simp [first.defined, first.value]
    · simp [second.defined, second.value]
  have whole : ∀ part ∈ [.any [.all [a.defined, a.value], .all [b.defined, b.value]],
      .all [a.defined, b.defined]], v.Decides h part := by
    simp only [List.forall_mem_cons]
    refine ⟨View.decides_any parts, View.decides_all ?_, by simp⟩
    simp [first.defined, second.defined]
  simp only [outcome, either, View.truth_any whole, View.truth_any parts, View.truth_all,
    List.any_cons, List.any_nil, List.all_cons, List.all_nil]
  cases v.truth h a.defined <;> cases v.truth h a.value <;> cases v.truth h b.defined <;>
    cases v.truth h b.value <;> rfl

theorem outcome_choose (condition : c.Decided h v) (first : a.Decided h v)
    (second : b.Decided h v) :
    (c.choose a b).outcome h v = chosen (c.outcome h v) (a.outcome h v) (b.outcome h v) := by
  have whereFalse : ∀ part ∈ [c.value.negated, a.defined], v.Decides h part := by
    simp [View.decides_negated condition.value, first.defined]
  have whereTrue : ∀ part ∈ [c.value, b.defined], v.Decides h part := by
    simp [condition.value, second.defined]
  have branches : ∀ part ∈ [.all [c.value, a.value], .all [c.value.negated, b.value]],
      v.Decides h part := by
    simp only [List.forall_mem_cons]
    refine ⟨View.decides_all ?_, View.decides_all ?_, by simp⟩
    · simp [condition.value, first.value]
    · simp [View.decides_negated condition.value, second.value]
  simp only [outcome, choose, View.truth_any whereFalse, View.truth_any whereTrue,
    View.truth_any branches, View.truth_all, List.any_cons, List.any_nil, List.all_cons,
    List.all_nil, View.truth_negated condition.value]
  cases v.truth h c.defined <;> cases v.truth h c.value <;> cases v.truth h a.defined <;>
    cases v.truth h a.value <;> cases v.truth h b.defined <;> cases v.truth h b.value <;> rfl

end Connectives

section Means

variable {s : Surroundings} {all : List Hint} {a b c : Condition}
  {first second third : Reading → Option Bool}

theorem Means.decided (means : a.Means s all first) {v : View} {r : Reading}
    (represents : v.Represents s all r) : a.Decided s.encoder.hasher v :=
  ⟨represents.decides means.defined, represents.decides means.value⟩

theorem means_ofBool (value : Bool) : (ofBool value).Means s all fun _ => some value where
  defined := by simp [ofBool, Assertion.Reads, Assertion.leaves]
  value := Assertion.reads_ofBool value
  holds _ _ _ := outcome_ofBool value

theorem means_error (never : ∀ v r, View.Represents v s all r → first r = none) :
    error.Means s all first where
  defined := by simp [error, Assertion.Reads, Assertion.leaves]
  value := by simp [error, Assertion.Reads, Assertion.leaves]
  holds v r represents := by rw [outcome_error, never v r represents]

theorem Means.congr (means : a.Means s all first)
    (same : ∀ v r, View.Represents v s all r → first r = second r) : a.Means s all second where
  defined := means.defined
  value := means.value
  holds v r represents := (means.holds v r represents).trans (same v r represents)

theorem Means.negated (means : a.Means s all first) :
    a.negated.Means s all fun r => (first r).map (!·) where
  defined := means.defined
  value := Assertion.reads_negated means.value
  holds v r represents := by
    rw [outcome_negated (means.decided represents).value, means.holds v r represents]

theorem Means.both (left : a.Means s all first) (right : b.Means s all second) :
    (a.both b).Means s all fun r => bothTrue (first r) (second r) where
  defined := by
    apply Assertion.reads_any
    simp only [List.forall_mem_cons]
    refine ⟨Assertion.reads_all ?_, Assertion.reads_all ?_, Assertion.reads_all ?_, by simp⟩
    · simp [left.defined, right.defined]
    · simp [left.defined, Assertion.reads_negated left.value]
    · simp [right.defined, Assertion.reads_negated right.value]
  value := Assertion.reads_all (by simp [left.value, right.value])
  holds v r represents := by
    rw [outcome_both (left.decided represents) (right.decided represents),
      left.holds v r represents, right.holds v r represents]

theorem Means.either (left : a.Means s all first) (right : b.Means s all second) :
    (a.either b).Means s all fun r => eitherTrue (first r) (second r) := by
  have value : (a.either b).value.Reads (s.Known all) := by
    apply Assertion.reads_any
    simp only [List.forall_mem_cons]
    refine ⟨Assertion.reads_all ?_, Assertion.reads_all ?_, by simp⟩
    · simp [left.defined, left.value]
    · simp [right.defined, right.value]
  refine ⟨Assertion.reads_any ?_, value, ?_⟩
  · simp only [List.forall_mem_cons]
    refine ⟨value, Assertion.reads_all ?_, by simp⟩
    simp [left.defined, right.defined]
  · intro v r represents
    rw [outcome_either (left.decided represents) (right.decided represents),
      left.holds v r represents, right.holds v r represents]

theorem Means.choose (condition : c.Means s all first) (left : a.Means s all second)
    (right : b.Means s all third) :
    (c.choose a b).Means s all fun r => chosen (first r) (second r) (third r) where
  defined := by
    apply Assertion.reads_all
    simp only [List.forall_mem_cons]
    refine ⟨condition.defined, Assertion.reads_any ?_, Assertion.reads_any ?_, by simp⟩
    · simp [Assertion.reads_negated condition.value, left.defined]
    · simp [condition.value, right.defined]
  value := by
    apply Assertion.reads_any
    simp only [List.forall_mem_cons]
    refine ⟨Assertion.reads_all ?_, Assertion.reads_all ?_, by simp⟩
    · simp [condition.value, left.value]
    · simp [Assertion.reads_negated condition.value, right.value]
  holds v r represents := by
    rw [outcome_choose (condition.decided represents) (left.decided represents)
      (right.decided represents), condition.holds v r represents, left.holds v r represents,
      right.holds v r represents]

end Means

end Condition

end AttestedQuery
