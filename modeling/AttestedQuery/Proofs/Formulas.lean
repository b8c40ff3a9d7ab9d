import AttestedQuery.Proofs.Connectives

/-!
# Trees of connectives

An expression is a tree of connectives over atoms, which are compiled one by one from the left. The
condition of the whole is put together from the conditions of the atoms, and over a view that holds
what these read it has the value that the tables of three values give the tree. The tables read the
outcome of an atom from its own two assertions, so nothing is said of what an atom tests.
-/

set_option autoImplicit false

namespace AttestedQuery

inductive Formula (α : Type) where
  | constant (value : Bool)
  | atom (a : α)
  | and (a b : Formula α)
  | or (a b : Formula α)
  | not (a : Formula α)
  | ite (condition a b : Formula α)

namespace Formula

/-- The tree of an expression. Membership in a list is the disjunction of the equalities with its
items, which starts from false. -/
def ofExpr : Expr → Formula Expr
  | .and a b => .and (ofExpr a) (ofExpr b)
  | .or a b => .or (ofExpr a) (ofExpr b)
  | .not a => .not (ofExpr a)
  | .ite condition a b => .ite (ofExpr condition) (ofExpr a) (ofExpr b)
  | .isIn needle items =>
    items.foldl (fun found item => .or found (.atom (.equal needle item))) (.constant false)
  | other => .atom other

variable {α β : Type}

def atoms : Formula α → List α
  | .constant _ => []
  | .atom a => [a]
  | .and a b => a.atoms ++ b.atoms
  | .or a b => a.atoms ++ b.atoms
  | .not a => a.atoms
  | .ite condition a b => condition.atoms ++ a.atoms ++ b.atoms

/-- The tree over what the atoms give one after the other, from the left. -/
def mapM {m : Type → Type} [Monad m] (f : α → m β) : Formula α → m (Formula β)
  | .constant value => return .constant value
  | .atom a => return .atom (← f a)
  | .and a b => do
    let a ← a.mapM f
    return .and a (← b.mapM f)
  | .or a b => do
    let a ← a.mapM f
    return .or a (← b.mapM f)
  | .not a => return .not (← a.mapM f)
  | .ite condition a b => do
    let condition ← condition.mapM f
    let a ← a.mapM f
    return .ite condition a (← b.mapM f)

/-- The value that the tables of three values give a tree; none is an error. -/
def outcome (value : α → Option Bool) : Formula α → Option Bool
  | .constant b => some b
  | .atom a => value a
  | .and a b => bothTrue (a.outcome value) (b.outcome value)
  | .or a b => eitherTrue (a.outcome value) (b.outcome value)
  | .not a => (a.outcome value).map (!·)
  | .ite condition a b =>
    chosen (condition.outcome value) (a.outcome value) (b.outcome value)

/-- The condition that the connectives make of the conditions of the atoms. -/
def condition : Formula Condition → Condition
  | .constant b => .ofBool b
  | .atom c => c
  | .and a b => a.condition.both b.condition
  | .or a b => a.condition.either b.condition
  | .not a => a.condition.negated
  | .ite condition a b => condition.condition.choose a.condition b.condition

/-! ## Compiling atom by atom -/

section Compiling

variable (s : Surroundings)

/-- The conditions of the items of a list are joined to the one found so far in their order. -/
theorem condition_isIn (needle : Expr) (items : List Expr) (found : Formula Expr) :
    (do
      let start ← found.mapM s.condition
      items.foldlM (fun (found : Condition) item => do
          let needle ← s.value needle
          return found.either (← s.equality false needle (← s.value item)))
        start.condition) =
      (do
        let tree ← (items.foldl
          (fun found item => Formula.or found (.atom (Expr.equal needle item))) found).mapM
            s.condition
        return tree.condition) := by
  induction items generalizing found with
  | nil => rfl
  | cons item rest induction =>
    rw [List.foldl_cons, ← induction]
    simp [mapM, Surroundings.condition, condition]

theorem condition_ofExpr : (e : Expr) →
    s.condition e = (do
      let tree ← (ofExpr e).mapM s.condition
      return tree.condition)
  | .and a b | .or a b => by
    simp [ofExpr, mapM, condition, Surroundings.condition, condition_ofExpr a, condition_ofExpr b]
  | .not a => by
    simp [ofExpr, mapM, condition, Surroundings.condition, condition_ofExpr a]
  | .ite c a b => by
    simp [ofExpr, mapM, condition, Surroundings.condition, condition_ofExpr c, condition_ofExpr a,
      condition_ofExpr b]
  | .isIn needle items => by
    rw [ofExpr, ← condition_isIn, Surroundings.condition]
    simp [mapM, condition]
  | .bound _ | .equal _ _ | .sameTerm _ _ | .compare _ _ _ | .call _ _ | .const _ | .var _ => by
    simp [ofExpr, mapM, condition]

end Compiling

end Formula

/-! ## The value of a tree -/

namespace Condition

section Decided

variable {h : Hasher} {v : View} {a b c : Condition}

theorem decided_ofBool (value : Bool) : (ofBool value).Decided h v :=
  ⟨View.decides_of_holds rfl, View.decides_ofBool value⟩

theorem Decided.negated (first : a.Decided h v) : a.negated.Decided h v :=
  ⟨first.defined, View.decides_negated first.value⟩

theorem Decided.both (first : a.Decided h v) (second : b.Decided h v) :
    (a.both b).Decided h v where
  defined := by
    apply View.decides_any
    simp only [List.forall_mem_cons]
    refine ⟨View.decides_all ?_, View.decides_all ?_, View.decides_all ?_, by simp⟩
    · simp [first.defined, second.defined]
    · simp [first.defined, View.decides_negated first.value]
    · simp [second.defined, View.decides_negated second.value]
  value := View.decides_all (by simp [first.value, second.value])

theorem Decided.either (first : a.Decided h v) (second : b.Decided h v) :
    (a.either b).Decided h v := by
  have value : v.Decides h (a.either b).value := by
    apply View.decides_any
    simp only [List.forall_mem_cons]
    refine ⟨View.decides_all ?_, View.decides_all ?_, by simp⟩
    · simp [first.defined, first.value]
    · simp [second.defined, second.value]
  refine ⟨View.decides_any ?_, value⟩
  simp only [List.forall_mem_cons]
  refine ⟨value, View.decides_all ?_, by simp⟩
  simp [first.defined, second.defined]

theorem Decided.choose (condition : c.Decided h v) (first : a.Decided h v)
    (second : b.Decided h v) : (c.choose a b).Decided h v where
  defined := by
    apply View.decides_all
    simp only [List.forall_mem_cons]
    refine ⟨condition.defined, View.decides_any ?_, View.decides_any ?_, by simp⟩
    · simp [View.decides_negated condition.value, first.defined]
    · simp [condition.value, second.defined]
  value := by
    apply View.decides_any
    simp only [List.forall_mem_cons]
    refine ⟨View.decides_all ?_, View.decides_all ?_, by simp⟩
    · simp [condition.value, first.value]
    · simp [View.decides_negated condition.value, second.value]

end Decided

/-- A view evaluates a condition as is meant: the condition has a value exactly where one is meant,
the value is the one that is meant, and it holds and is accepted exactly where that is true. -/
structure Evaluates (h : Hasher) (v : View) (c : Condition) (meant : Option Bool) : Prop where
  defined : v.holds h c.defined = .ok meant.isSome
  value : ∀ b, meant = some b → v.holds h c.value = .ok b
  holds : v.holds h c.holds = .ok (meant == some true)
  accepted : v.check h c.holds = .ok () ↔ meant = some true

theorem Decided.evaluates {h : Hasher} {v : View} {c : Condition} (decided : c.Decided h v) :
    c.Evaluates h v (c.outcome h v) := by
  have whole : v.Decides h c.holds := View.decides_all (by simp [decided.defined, decided.value])
  have truth : v.truth h c.holds = (c.outcome h v == some true) := by
    simp only [holds, View.truth_all, List.all_cons, List.all_nil, outcome]
    cases v.truth h c.defined <;> cases v.truth h c.value <;> rfl
  have holds : v.holds h c.holds = .ok (c.outcome h v == some true) := by
    rw [whole, truth]
  refine ⟨?_, ?_, holds, ?_⟩
  · rw [decided.defined, outcome]
    cases v.truth h c.defined <;> rfl
  · intro b meant
    rw [decided.value]
    rw [outcome] at meant
    split at meant
    · rw [Option.some.inj meant]
    · cases meant
  · rw [View.check_ok_iff, holds]
    simp

structure ReadableIn (h : Hasher) (v : View) (c : Condition) : Prop where
  defined : c.defined.Reads (v.Readable h)
  value : c.value.Reads (v.Readable h)

theorem ReadableIn.decided {h : Hasher} {v : View} {c : Condition} (readable : c.ReadableIn h v) :
    c.Decided h v :=
  ⟨View.decides_of_reads readable.defined, View.decides_of_reads readable.value⟩

end Condition

namespace Formula

variable {h : Hasher} {v : View}

theorem decided_condition {tree : Formula Condition} (each : ∀ a ∈ tree.atoms, a.Decided h v) :
    tree.condition.Decided h v := by
  induction tree with
  | constant b => exact Condition.decided_ofBool b
  | atom c => exact each c List.mem_cons_self
  | and a b first second =>
    rw [atoms, List.forall_mem_append] at each
    exact (first each.1).both (second each.2)
  | or a b first second =>
    rw [atoms, List.forall_mem_append] at each
    exact (first each.1).either (second each.2)
  | not a induction => exact (induction each).negated
  | ite c a b condition first second =>
    simp only [atoms, List.forall_mem_append] at each
    exact (condition each.1.1).choose (first each.1.2) (second each.2)

theorem outcome_condition {tree : Formula Condition} (each : ∀ a ∈ tree.atoms, a.Decided h v) :
    tree.condition.outcome h v = tree.outcome (Condition.outcome h v) := by
  induction tree with
  | constant b => exact Condition.outcome_ofBool b
  | atom c => rfl
  | and a b first second =>
    rw [atoms, List.forall_mem_append] at each
    rw [condition, outcome, ← first each.1, ← second each.2,
      Condition.outcome_both (decided_condition each.1) (decided_condition each.2)]
  | or a b first second =>
    rw [atoms, List.forall_mem_append] at each
    rw [condition, outcome, ← first each.1, ← second each.2,
      Condition.outcome_either (decided_condition each.1) (decided_condition each.2)]
  | not a induction =>
    have below : ∀ c ∈ a.atoms, c.Decided h v := each
    rw [condition, outcome, ← induction below,
      Condition.outcome_negated (decided_condition below).value]
  | ite c a b test first second =>
    simp only [atoms, List.forall_mem_append] at each
    rw [condition, outcome, ← test each.1.1, ← first each.1.2, ← second each.2,
      Condition.outcome_choose (decided_condition each.1.1) (decided_condition each.1.2)
        (decided_condition each.2)]

end Formula

/-- Where an expression compiles, its atoms compile one after the other with the same hints, and
over every view that holds what they read the condition evaluates to what the tables of three values
make of their outcomes. -/
theorem connectives_follow_tables (s : Surroundings) (e : Expr) (c : Condition)
    (before after : List Hint) (compiled : s.condition e before = .ok (c, after)) :
    ∃ tree, (Formula.ofExpr e).mapM s.condition before = .ok (tree, after) ∧
      ∀ (h : Hasher) (v : View), (∀ a ∈ tree.atoms, a.ReadableIn h v) →
        c.Evaluates h v (tree.outcome (Condition.outcome h v)) := by
  rw [Formula.condition_ofExpr] at compiled
  obtain ⟨tree, between, atoms, whole⟩ := run_bind_ok_iff.1 compiled
  obtain ⟨rfl, rfl⟩ := run_pure_ok_iff.1 whole
  refine ⟨tree, atoms, ?_⟩
  intro h v readable
  have decided : ∀ a ∈ tree.atoms, a.Decided h v := fun a member => (readable a member).decided
  rw [← Formula.outcome_condition decided]
  exact (Formula.decided_condition decided).evaluates

/-! ## A tree with an error in it -/

/-- Only `x` is bound, to the object of the first slot. -/
def sampleTests : Surroundings where
  encoder := ⟨⟨fun _ => Field.zero, fun a _ => a, fun a _ _ _ => a⟩, 8⟩
  projected := []
  sources := KeyMap.ofList [("x", .slot 0 2)]
  visible := KeySet.ofKeys ["x"]

def sampleTest : Expr :=
  .ite (.bound "x") (.and (.call .isIri (.var "x")) (.not (.var "y"))) (.isIn (.var "x") [])

def sampleTestView : View where
  slots := [⟨Field.ofNat 1, Field.ofNat 1, Field.ofNat 1, Field.zero⟩]
  values := KeyMap.empty
  hints := [Field.zero]

def sampleTestAtoms : Formula Condition :=
  .ite (.atom (.ofBool true))
    (.and (.atom (Surroundings.guardedBy []
        (.eq (.slot 0 2) (.hash2 (.const Field.zero) (.hint 0)))))
      (.not (.atom .error)))
    (.constant false)

/-- The false left side outweighs the error on the right, and the arm that is not chosen does not
count. -/
theorem connectives_follow_tables_sample : ∃ c,
    sampleTests.condition sampleTest [] = .ok (c, [.termInner (.key "x")]) ∧
    (Formula.ofExpr sampleTest).mapM sampleTests.condition [] =
      .ok (sampleTestAtoms, [.termInner (.key "x")]) ∧
    (∀ a ∈ sampleTestAtoms.atoms,
      a.ReadableIn sampleTests.encoder.hasher sampleTestView) ∧
    c.Evaluates sampleTests.encoder.hasher sampleTestView (some false) := by
  have atoms : (Formula.ofExpr sampleTest).mapM sampleTests.condition [] =
      .ok (sampleTestAtoms, [.termInner (.key "x")]) := rfl
  have readable : ∀ a ∈ sampleTestAtoms.atoms,
      a.ReadableIn sampleTests.encoder.hasher sampleTestView := by
    have test : Assertion.Reads (sampleTestView.Readable sampleTests.encoder.hasher)
        (.eq (.slot 0 2) (.hash2 (.const Field.zero) (.hint 0))) := by
      simp only [Assertion.Reads, Assertion.leaves, Wire.leaves, List.cons_append, List.nil_append,
        List.forall_mem_cons]
      exact ⟨⟨_, rfl⟩, ⟨_, rfl⟩, ⟨_, rfl⟩, by simp⟩
    simp only [sampleTestAtoms, Formula.atoms, List.cons_append, List.nil_append, List.append_nil,
      List.forall_mem_cons]
    refine ⟨⟨?_, ?_⟩, ⟨?_, test⟩, ⟨?_, ?_⟩, by simp⟩ <;>
      exact fun leaf member => (List.not_mem_nil member).elim
  have compiled : sampleTests.condition sampleTest [] =
      .ok (sampleTestAtoms.condition, [.termInner (.key "x")]) := rfl
  obtain ⟨tree, same, evaluates⟩ := connectives_follow_tables sampleTests sampleTest
    sampleTestAtoms.condition [] [.termInner (.key "x")] compiled
  obtain rfl : tree = sampleTestAtoms :=
    congrArg Prod.fst (Except.ok.inj (same.symm.trans atoms))
  exact ⟨_, compiled, atoms, readable, evaluates _ _ readable⟩

end AttestedQuery
