import AttestedQuery.Proofs.EqualityTests
import AttestedQuery.Proofs.OrderTests

/-!
# Compiled conditions decide what expressions mean

Over a view that represents a reading, the condition compiled for an expression has a value exactly
where the expression has one, and it is the same: one recursion over expressions, from the lemmas on
each form of test.
-/

set_option autoImplicit false

namespace AttestedQuery

open Compiling

namespace Surroundings

variable {s : Surroundings}

theorem yields_test {test : Guarded → Compiling Condition} (argument : Expr)
    {outcome : Reading → Meaning → Option Bool}
    (tests : ∀ g, Yields (test g) fun all c => ∀ denoted, g.Denotes s all denoted →
      c.Means s all fun r => outcome r (denoted r)) :
    Yields (s.value argument >>= test) fun all c =>
      c.Means s all fun r => outcome r (r.meaning argument) := by
  apply yields_bind (s.yields_value argument)
  intro g
  apply (tests g).imp
  intro all c leads denotes
  exact leads _ denotes

theorem yields_pairTest {test : Guarded → Guarded → Compiling Condition} (a b : Expr)
    {outcome : Reading → Meaning → Meaning → Option Bool}
    (tests : ∀ g k, Yields (test g k) fun all c => ∀ left right, g.Denotes s all left →
      k.Denotes s all right → c.Means s all fun r => outcome r (left r) (right r)) :
    Yields (do let a ← s.value a; test a (← s.value b)) fun all c =>
      c.Means s all fun r => outcome r (r.meaning a) (r.meaning b) := by
  apply yields_bind (s.yields_value a)
  intro left
  apply yields_bind (s.yields_value b)
  intro right
  apply (tests left right).imp
  intro all c leads second first
  exact leads _ _ first second

theorem yields_connected {x y : Compiling Condition}
    {connective : Condition → Condition → Condition} {first second whole : Reading → Option Bool}
    (left : Yields x fun all c => c.Means s all first)
    (right : Yields y fun all c => c.Means s all second)
    (joins : ∀ all c d, c.Means s all first → d.Means s all second →
      (connective c d).Means s all whole) :
    Yields (do return connective (← x) (← y)) fun all c => c.Means s all whole := by
  apply yields_bind left
  intro c
  apply yields_bind right
  intro d
  apply yields_pure
  intro all second first
  exact joins all c d first second

theorem yields_isIn (needle : Expr) (items : List Expr) {found : Condition} :
    Yields (items.foldlM (fun found item => do
        let needle ← s.value needle
        return found.either (← s.equality false needle (← s.value item))) found)
      fun all c => ∀ start, found.Means s all start → c.Means s all fun r =>
        items.foldl (fun found item =>
          eitherTrue found (r.equality false (r.meaning needle) (r.meaning item))) (start r) := by
  induction items generalizing found with
  | nil =>
    apply yields_pure
    intro all start means
    exact means
  | cons item rest induction =>
    rw [List.foldlM_cons]
    refine yields_bind (?_ : Yields _ fun all c => ∀ start, found.Means s all start →
      c.Means s all fun r =>
        eitherTrue (start r) (r.equality false (r.meaning needle) (r.meaning item))) ?_
    · apply yields_bind (s.yields_value needle)
      intro a
      apply yields_bind (s.yields_value item)
      intro b
      apply yields_bind (s.yields_equality false a b)
      intro c
      apply yields_pure
      intro all leads right left start means
      exact means.either (leads _ _ left right)
    · intro next
      apply induction.imp
      intro all c leads step start means
      exact leads _ (step start means)

theorem yields_bound (key : String) :
    Yields (s.condition (.bound key)) fun all c => c.Means s all (·.outcome (.bound key)) := by
  apply yields_pure
  intro all
  apply (Condition.means_ofBool _).congr
  intro v r represents
  cases found : s.keyWire? key with
  | none =>
    rw [Reading.outcome, represents.unbound key found]
    rfl
  | some wire =>
    obtain ⟨t, _, held, _⟩ := represents.bound key wire found
    rw [Reading.outcome, held]
    rfl

theorem yields_condition : (expression : Expr) →
    Yields (s.condition expression) fun all c => c.Means s all (·.outcome expression)
  | .and a b =>
    yields_connected (yields_condition a) (yields_condition b) fun _ _ _ first => first.both
  | .or a b =>
    yields_connected (yields_condition a) (yields_condition b) fun _ _ _ first => first.either
  | .not a => by
    apply yields_bind (yields_condition a)
    intro c
    apply yields_pure
    intro all means
    exact means.negated
  | .ite c a b => by
    apply yields_bind (yields_condition c)
    intro condition
    apply yields_bind (yields_condition a)
    intro left
    apply yields_bind (yields_condition b)
    intro right
    apply yields_pure
    intro all third second first
    exact first.choose second third
  | .bound key => yields_bound key
  | .equal a b => s.yields_pairTest a b (s.yields_equality false)
  | .sameTerm a b => s.yields_pairTest a b (s.yields_equality true)
  | .compare op a b => s.yields_pairTest a b (s.yields_comparison op)
  | .isIn needle items => by
    apply (s.yields_isIn needle items).imp
    intro all c leads
    exact leads _ (Condition.means_ofBool false)
  | .call .isIri argument => s.yields_test argument (s.yields_kindTest .iri)
  | .call .isBlank argument => s.yields_test argument (s.yields_kindTest .blank)
  | .call .isLiteral argument => s.yields_test argument (s.yields_kindTest .literal)
  | .call .isNumeric argument => s.yields_test argument s.yields_numericTest
  | .const t => s.yields_test (.const t) s.yields_truthOf
  | .var key => s.yields_test (.var key) s.yields_truthOf
  | .call .str argument => s.yields_test (.call .str argument) s.yields_truthOf
  | .call .lang argument => s.yields_test (.call .lang argument) s.yields_truthOf
  | .call .datatype argument => s.yields_test (.call .datatype argument) s.yields_truthOf
  | .call .strLen argument => s.yields_test (.call .strLen argument) s.yields_truthOf

end Surroundings

end AttestedQuery
