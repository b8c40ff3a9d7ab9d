import AttestedQuery.Proofs.CircuitSource

/-!
# The printed order of signed numbers

Adding 2^63 moves the elements that stand for signed 64-bit numbers, and no others, below 2^64 in
their own order. The printed routines therefore compare as the evaluator does.
-/

set_option autoImplicit false

namespace AttestedQuery

theorem Decimal.fitsInt64_iff (n : Int) : Decimal.fitsInt64 n = true ↔
    -0x8000000000000000 ≤ n ∧ n < 0x8000000000000000 := by
  have power : (Nat.pow 2 63 : Int) = 0x8000000000000000 := rfl
  rw [Decimal.fitsInt64, power, Bool.and_eq_true, decide_eq_true_iff, decide_eq_true_iff]

namespace Field

/-- The number of least magnitude in the class of an element. -/
def signed (x : Field) : Int := if x.val ≤ modulus / 2 then x.val else (x.val : Int) - modulus

theorem toSigned_eq (x : Field) :
    x.toSigned = if x.signed.natAbs ≤ signedLimit then some x.signed else none := by
  have bound : x.val < modulus := x.val_lt
  unfold toSigned signed
  by_cases low : x.val ≤ modulus / 2
  · rw [if_pos low, if_pos low, Int.natAbs_natCast]
  · have magnitude : ((x.val : Int) - modulus).natAbs = modulus - x.val := by omega
    have value : (x.val : Int) - modulus = -((modulus - x.val : Nat) : Int) := by omega
    rw [if_neg low, if_neg low, magnitude, value]

theorem asInt64_eq_signed (x : Field) : View.asInt64 x =
    if -0x8000000000000000 ≤ x.signed ∧ x.signed < 0x8000000000000000 then some x.signed
    else none := by
  have limit : signedLimit = 0x7fffffffffffffffffffffffffffffff := rfl
  rw [View.asInt64, toSigned_eq, limit]
  by_cases fits : Decimal.fitsInt64 x.signed = true
  · have range := (Decimal.fitsInt64_iff x.signed).1 fits
    rw [if_pos (by omega), if_pos range, Option.filter_some_pos fits]
  · have outside := mt (Decimal.fitsInt64_iff x.signed).2 fits
    rw [if_neg outside]
    split
    · exact Option.filter_some_neg (by simpa using fits)
    · rfl

/-- The element moved up by 2^63. -/
def biased (x : Field) : Field := .ofNat (x.val + 0x8000000000000000)

theorem biased_val (x : Field) : (x.biased.val : Int) =
    if -0x8000000000000000 ≤ x.signed then x.signed + 0x8000000000000000
    else x.signed + 0x8000000000000000 + modulus := by
  have bound : x.val < modulus := x.val_lt
  have value : x.biased.val = (x.val + 0x8000000000000000) % modulus := rfl
  rw [value, signed]
  simp only [modulus] at bound ⊢
  omega

theorem signed_bounds (x : Field) :
    -(modulus / 2 : Nat) ≤ x.signed ∧ x.signed ≤ (modulus / 2 : Nat) := by
  have bound : x.val < modulus := x.val_lt
  rw [signed]
  simp only [modulus] at bound ⊢
  omega

/-- Exactly the elements that are moved below 2^64 stand for signed numbers. -/
theorem asInt64_eq (x : Field) : View.asInt64 x =
    if x.biased.val < 0x10000000000000000 then some ((x.biased.val : Int) - 0x8000000000000000)
    else none := by
  have moved := x.biased_val
  have bounds := x.signed_bounds
  simp only [modulus] at moved bounds
  rw [asInt64_eq_signed]
  by_cases range : -0x8000000000000000 ≤ x.signed ∧ x.signed < 0x8000000000000000
  · rw [if_pos range, if_pos (by omega)]
    exact congrArg some (by omega)
  · rw [if_neg range, if_neg (by omega)]

end Field

/-- Whether an element stands for a signed number, as it is printed. -/
def View.isInt64 (x : Field) : Bool := x.biased.val < 0x10000000000000000

theorem View.compares_lt (a b : Field) : compares .lt a b =
    (isInt64 a && isInt64 b && decide (a.biased.val < b.biased.val)) := by
  rw [compares, Field.asInt64_eq, Field.asInt64_eq, isInt64, isInt64]
  by_cases left : a.biased.val < 0x10000000000000000
  · by_cases right : b.biased.val < 0x10000000000000000
    · simp only [left, right, if_true, CompareOp.accepts, decide_true, Bool.true_and]
      rw [Bool.eq_iff_iff, beq_iff_eq, compare_lt_iff_lt, decide_eq_true_iff]
      omega
    · rw [if_pos left, if_neg right, decide_eq_false right, Bool.and_false, Bool.false_and]
  · rw [if_neg left, decide_eq_false left, Bool.false_and, Bool.false_and]

theorem View.compares_le (a b : Field) : compares .le a b =
    (isInt64 a && isInt64 b && !decide (b.biased.val < a.biased.val)) := by
  rw [compares, Field.asInt64_eq, Field.asInt64_eq, isInt64, isInt64]
  by_cases left : a.biased.val < 0x10000000000000000
  · by_cases right : b.biased.val < 0x10000000000000000
    · simp only [left, right, if_true, CompareOp.accepts, decide_true, Bool.true_and]
      rw [Bool.eq_iff_iff, bne_iff_ne, ne_eq, compare_gt_iff_gt, Bool.not_eq_true',
        decide_eq_false_iff_not]
      omega
    · rw [if_pos left, if_neg right, decide_eq_false right, Bool.and_false, Bool.false_and]
  · rw [if_neg left, decide_eq_false left, Bool.false_and, Bool.false_and]

namespace Circuit

section Phrases

variable {calls : Calls} {scope : Scope}

theorem value_number {n : Nat} (below : n < modulus) :
    (Phrase.number n).value calls scope = some (.field ⟨n, below⟩) := by
  refine (if_pos below).trans ?_
  simp [Field.ofNat, Nat.mod_eq_of_lt below]

theorem Phrase.value_not {a : Phrase} {b : Bool} (worth : a.value calls scope = some (.truth b)) :
    (Phrase.not a).value calls scope = some (.truth (!b)) := by
  rw [value, worth]
  rfl

theorem Phrase.value_binary (op : Operator) (a b : Phrase) :
    (Phrase.binary op a b).value calls scope =
      (a.value calls scope).bind fun x => (b.value calls scope).bind (op.apply x) := rfl

theorem Phrase.value_method (a b : Phrase) (f : String) :
    (Phrase.method a f [b]).value calls scope = (a.value calls scope).bind fun x =>
      ((b.value calls scope).bind fun y => some [y]).bind (x.method f) := rfl

theorem Phrase.value_call (f : String) (a : Phrase) : (Phrase.call f [a]).value calls scope =
    ((a.value calls scope).bind fun x => some [x]).bind (calls f) := rfl

end Phrases

/-- A routine without statements has the value of its result. -/
theorem calls_result (before : Calls) (r : Routine) {result : Phrase} {arguments : List Datum}
    {scope : Scope} (bare : r.clauses = []) (ends : r.result = some result)
    (named : Scope.ofArguments r.parameters arguments = some scope) :
    r.calls before r.name arguments = result.value before scope := by
  rw [Routine.calls, if_pos rfl, Routine.run, named, bare, ends]
  cases value : result.value before scope with
  | none => simp [Clause.run, value]
  | some d => simp [Clause.run, value]

theorem calls_other {before : Calls} {r : Routine} {f : String} (other : f ≠ r.name)
    (arguments : List Datum) : r.calls before f arguments = before f arguments :=
  if_neg other

def pairScope (a b : Field) : Scope :=
  Scope.with (Scope.with (fun _ => none) "b" (.field b)) "a" (.field a)

section Orders

variable {before : Calls}

theorem biased_call (x : Field) :
    biasedRoutine.calls before "biased" [.field x] = some (.field x.biased) := by
  have offset : 0x8000000000000000 < modulus := by decide
  have value := calls_result before biasedRoutine rfl rfl
    (show Scope.ofArguments ["x"] [.field x] = _ from rfl)
  refine value.trans ?_
  rw [Phrase.value_binary, value_number offset]
  rfl

theorem inRange_call (biased : ∀ x, before "biased" [.field x] = some (.field x.biased))
    (x : Field) : inRangeRoutine.calls before "in_i64" [.field x] =
      some (.truth (View.isInt64 x)) := by
  have limit : 0x10000000000000000 < modulus := by decide
  have value := calls_result before inRangeRoutine rfl rfl
    (show Scope.ofArguments ["x"] [.field x] = _ from rfl)
  refine value.trans ?_
  have moved : (Phrase.call "biased" [.name "x"]).value before
      (Scope.with (fun _ => none) "x" (.field x)) = some (.field x.biased) := biased x
  rw [Phrase.value_method, moved, value_number limit]
  rfl

/-- Calls that move elements up and tell those that stand for signed numbers. -/
structure Calls.Biases (calls : Calls) : Prop where
  biased : ∀ x, calls "biased" [.field x] = some (.field x.biased)
  inRange : ∀ x, calls "in_i64" [.field x] = some (.truth (View.isInt64 x))

theorem biases_after : Calls.Biases (inRangeRoutine.calls (biasedRoutine.calls before)) where
  biased x := (calls_other (by decide) _).trans (biased_call x)
  inRange x := inRange_call (fun x => biased_call x) x

theorem Calls.Biases.after {r : Routine} (biases : before.Biases) (noBias : "biased" ≠ r.name)
    (noRange : "in_i64" ≠ r.name) : Calls.Biases (r.calls before) where
  biased x := (calls_other noBias _).trans (biases.biased x)
  inRange x := (calls_other noRange _).trans (biases.inRange x)

theorem Calls.Biases.less (biases : before.Biases) (scope : Scope) {x y : String} {a b : Field}
    (left : scope x = some (.field a)) (right : scope y = some (.field b)) :
    (biasedLess x y).value before scope =
      some (.truth (decide (a.biased.val < b.biased.val))) := by
  have first : (Phrase.call "biased" [.name x]).value before scope = some (.field a.biased) := by
    rw [Phrase.value_call, show (Phrase.name x).value before scope = _ from left]
    exact biases.biased a
  have second : (Phrase.call "biased" [.name y]).value before scope = some (.field b.biased) := by
    rw [Phrase.value_call, show (Phrase.name y).value before scope = _ from right]
    exact biases.biased b
  rw [biasedLess, Phrase.value_method, first, second]
  rfl

theorem Calls.Biases.order (biases : before.Biases) (name : String) {condition : Phrase} {a b : Field}
    {holds : Bool} (value : condition.value before (pairScope a b) = some (.truth holds)) :
    (orderRoutine name condition).calls before name [.field a, .field b] =
      some (.truth (View.isInt64 a && View.isInt64 b && holds)) := by
  have result := calls_result before (orderRoutine name condition) rfl rfl
    (show Scope.ofArguments ["a", "b"] [.field a, .field b] = some (pairScope a b) from rfl)
  refine result.trans ?_
  have left : (Phrase.call "in_i64" [.name "a"]).value before (pairScope a b) =
    some (.truth (View.isInt64 a)) := biases.inRange a
  have right : (Phrase.call "in_i64" [.name "b"]).value before (pairScope a b) =
    some (.truth (View.isInt64 b)) := biases.inRange b
  rw [Phrase.value_binary, Phrase.value_binary, left, right, value]
  rfl

end Orders

structure Calls.Orders (calls : Calls) : Prop where
  less : ∀ a b, calls "signed_lt" [.field a, .field b] = some (.truth (View.compares .lt a b))
  lessOrEqual : ∀ a b,
    calls "signed_le" [.field a, .field b] = some (.truth (View.compares .le a b))

theorem orders_after (before : Calls) : Calls.Orders (orderRoutines.foldl Routine.calls before) := by
  have start : Calls.Biases (inRangeRoutine.calls (biasedRoutine.calls before)) := biases_after
  have later : Calls.Biases ((orderRoutine "signed_lt" (biasedLess "a" "b")).calls
      (inRangeRoutine.calls (biasedRoutine.calls before))) :=
    start.after (by decide) (by decide)
  constructor
  · intro a b
    have condition := start.less (pairScope a b) (x := "a") (y := "b") rfl rfl
    rw [View.compares_lt]
    have last : "signed_lt" ≠ (orderRoutine "signed_le" (.not (biasedLess "b" "a"))).name := by
      decide
    have earlier := start.order "signed_lt" condition
    exact (calls_other last _).trans earlier
  · intro a b
    have less := later.less (pairScope a b) (x := "b") (y := "a") rfl rfl
    rw [View.compares_le]
    exact later.order "signed_le" (Phrase.value_not less)

end Circuit

end AttestedQuery
