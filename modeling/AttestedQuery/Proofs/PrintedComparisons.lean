import AttestedQuery.Proofs.CircuitVerdict
import AttestedQuery.Proofs.Orderings

/-!
# Printed comparisons and the evaluator

The routines of the signed order as they are printed, read back and run, against the numbers that
field elements encode: an element passes the printed range check exactly where it encodes a signed
64-bit number, and a printed comparison of any two elements has the value that the evaluator gives
it.
-/

set_option autoImplicit false

namespace AttestedQuery

/-! ## Elements that encode numbers -/

/-- An element is the encoding of a signed 64-bit number. -/
def Field.EncodesInt64 (x : Field) (n : Int) : Prop :=
  -2 ^ 63 ≤ n ∧ n < 2 ^ 63 ∧ Field.ofInt n = x

/-- The order of two numbers that an operator asks for. -/
def CompareOp.Relates : CompareOp → Int → Int → Prop
  | .lt, m, n => m < n
  | .le, m, n => m ≤ n
  | .gt, m, n => n < m
  | .ge, m, n => n ≤ m

theorem CompareOp.accepts_iff (op : CompareOp) (m n : Int) :
    op.accepts (compare m n) = true ↔ op.Relates m n := by
  cases op with
  | lt => rw [accepts, beq_iff_eq, compare_lt_iff_lt, Relates]
  | le =>
    rw [accepts, bne_iff_ne, ne_eq, compare_gt_iff_gt, Relates]
    exact not_lt
  | gt => rw [accepts, beq_iff_eq, compare_gt_iff_gt, Relates]
  | ge =>
    rw [accepts, bne_iff_ne, ne_eq, compare_lt_iff_lt, Relates]
    exact not_lt

namespace Field

theorem ext_val {x y : Field} (same : x.val = y.val) : x = y := by
  cases x
  cases y
  simpa using same

/-- Every element is the class of its number of least magnitude. -/
theorem ofInt_signed (x : Field) : ofInt x.signed = x := by
  have bound : x.val < modulus := x.val_lt
  apply ext_val
  rw [val_ofInt]
  unfold signed
  split
  next low =>
    have small : ((x.val : Int)).natAbs % modulus = x.val := by
      rw [Int.natAbs_natCast, Nat.mod_eq_of_lt bound]
    rw [small, if_neg (by omega)]
  next high =>
    have magnitude : ((x.val : Int) - modulus).natAbs = modulus - x.val := by omega
    have small : (modulus - x.val) % modulus = modulus - x.val := Nat.mod_eq_of_lt (by omega)
    have value : modulus - (modulus - x.val) = x.val := by omega
    rw [magnitude, small, if_pos (by omega), value]

/-- The number that the evaluator reads off an element is the one that the element encodes. -/
theorem asInt64_eq_some_iff {x : Field} {n : Int} :
    View.asInt64 x = some n ↔ x.EncodesInt64 n := by
  constructor
  · intro read
    rw [asInt64_eq_signed] at read
    split at read
    next range =>
      obtain rfl := Option.some.inj read
      exact ⟨range.1, range.2, ofInt_signed x⟩
    next => cases read
  · rintro ⟨lower, upper, rfl⟩
    exact asInt64_ofInt ((Decimal.fitsInt64_iff n).2 ⟨lower, upper⟩)

end Field

namespace View

theorem isInt64_iff (x : Field) : isInt64 x = true ↔ ∃ n, x.EncodesInt64 n := by
  have read := x.asInt64_eq
  simp only [← Field.asInt64_eq_some_iff, isInt64, decide_eq_true_iff]
  constructor
  · intro below
    exact ⟨_, read.trans (if_pos below)⟩
  · rintro ⟨n, some⟩
    by_contra above
    rw [read, if_neg above] at some
    cases some

/-- Two elements compare exactly where they encode numbers in the order that the operator asks
for. -/
theorem compares_iff (op : CompareOp) (a b : Field) : compares op a b = true ↔
    ∃ m n, a.EncodesInt64 m ∧ b.EncodesInt64 n ∧ op.Relates m n := by
  simp only [← Field.asInt64_eq_some_iff, ← CompareOp.accepts_iff]
  unfold compares
  cases View.asInt64 a <;> cases View.asInt64 b <;> simp

end View

namespace Circuit

/-! ## The printed routines -/

theorem ofSource_orderLines : Routine.ofSource? (linesText orderLines) = some orderRoutines := by
  have each : ∀ piece ∈ orderTokens, Token.word "fn" ∉ piece := by decide
  have cut := splitOn_routines List.not_mem_nil each
  rw [List.nil_append] at cut
  rw [Routine.ofSource?, tokens_of_closed closed_orderLines, cut]
  rfl

/-- What the routines of the signed order give for all elements. -/
structure Calls.SignedOrder (calls : Calls) : Prop where
  biased : ∀ x, calls "biased" [.field x] = some (.field (.ofNat (x.val + 2 ^ 63)))
  inRange : ∀ x, ∃ within, calls "in_i64" [.field x] = some (.truth within) ∧
    (within = true ↔ (Field.ofNat (x.val + 2 ^ 63)).val < 2 ^ 64) ∧
    (within = true ↔ ∃ n, x.EncodesInt64 n)
  less : ∀ a b, ∃ less, calls "signed_lt" [.field a, .field b] = some (.truth less) ∧
    (less = true ↔ ∃ m n, a.EncodesInt64 m ∧ b.EncodesInt64 n ∧ m < n)
  lessOrEqual : ∀ a b, ∃ atMost, calls "signed_le" [.field a, .field b] = some (.truth atMost) ∧
    (atMost = true ↔ ∃ m n, a.EncodesInt64 m ∧ b.EncodesInt64 n ∧ m ≤ n)

theorem biases_orderRoutines (before : Calls) :
    Calls.Biases (orderRoutines.foldl Routine.calls before) :=
  (biases_after.after (by decide) (by decide)).after (by decide) (by decide)

theorem signedOrder_orderRoutines (before : Calls) :
    Calls.SignedOrder (orderRoutines.foldl Routine.calls before) where
  biased := (biases_orderRoutines before).biased
  inRange x := by
    refine ⟨View.isInt64 x, (biases_orderRoutines before).inRange x, ?_, View.isInt64_iff x⟩
    exact decide_eq_true_iff
  less a b := ⟨_, (orders_after before).less a b, View.compares_iff .lt a b⟩
  lessOrEqual a b := ⟨_, (orders_after before).lessOrEqual a b, View.compares_iff .le a b⟩

/-! ## Printed comparisons -/

/-- The end of a line completes what is pending, and nothing else. -/
theorem Pending.next_lineEnd (pending : Pending) :
    pending.next '\n' = (pending.tokens, .nothing) := by
  cases pending with
  | nothing => rfl
  | word letters => rfl
  | lead c =>
    have none : Token.ofPair? c '\n' = none := by
      unfold Token.ofPair?
      split
      next same => exact absurd same (by decide)
      next same => exact absurd same (by decide)
      next same => exact absurd same (by decide)
      next => rfl
    simp [next, none, tokens, begin, isLetter, isBlank]
  | comment => rfl

theorem tokens_of_lexes {text : String} {ts : List Token} (lexes : Lexes text ts) :
    tokens text = ts := by
  have ended := lexes '\n' [] rfl
  rw [scan_append, scan_cons, scan_cons, Pending.next_lineEnd, Pending.next_lineEnd] at ended
  simpa [tokens, scan, Pending.tokens] using congrArg Prod.fst ended

theorem TruthCode.read_text {c : TruthCode} (named : c.Named) (filled : c.Filled) :
    Phrase.read? (Circuit.tokens c.text) = some c.phrase := by
  rw [tokens_of_lexes (c.lexes_text named)]
  exact (c.reads_tokens named filled).read

/-- A printed comparison of two wires, read back and evaluated with the printed routines of the
signed order, has the value that the evaluator gives it, for all elements that the wires carry. It
is true exactly where both elements encode signed 64-bit numbers, and these are in the order that is
asked for. -/
theorem printed_comparison_agrees (h : Hasher) (v : View) (scope : Scope) (shows : scope.Shows v)
    (op : CompareOp) (left right : Wire) (a b : Field)
    (named : (TruthCode.ofAssertion (.compare op left right)).Named)
    (first : v.field h left = .ok a) (second : v.field h right = .ok b) :
    ∃ helpers phrase agrees,
      Routine.ofSource? (linesText orderLines) = some helpers ∧
      Calls.SignedOrder (helpers.foldl Routine.calls (libraryCalls h)) ∧
      Phrase.read? (tokens (TruthCode.ofAssertion (.compare op left right)).text) = some phrase ∧
      phrase.value (helpers.foldl Routine.calls (libraryCalls h)) scope = some (.truth agrees) ∧
      v.holds h (.compare op left right) = .ok agrees ∧
      (agrees = true ↔ ∃ m n, a.EncodesInt64 m ∧ b.EncodesInt64 n ∧ op.Relates m n) := by
  have filled : (TruthCode.ofAssertion (.compare op left right)).Filled :=
    by cases op <;> trivial
  have hashes : Calls.Hashes (orderRoutines.foldl Routine.calls (libraryCalls h)) h :=
    (hashes_libraryCalls h).after (by decide) (by decide)
  refine ⟨orderRoutines, _, View.compares op a b, ofSource_orderLines,
    signedOrder_orderRoutines _, TruthCode.read_text named filled, ?_, ?_,
    View.compares_iff op a b⟩
  · exact value_ofCompare (orders_after _) op (value_ofWire shows hashes left first)
      (value_ofWire shows hashes right second)
  · rw [View.holds, first, second]
    rfl

/-- The greatest and the least signed 64-bit numbers as hints. -/
def sampleLimits : View := ⟨[], KeyMap.empty, [.ofInt (2 ^ 63 - 1), .ofInt (-2 ^ 63)]⟩

def sampleLimitsScope : Scope :=
  Scope.with (Scope.with (Scope.with (fun _ => none) "bgp" (.list [])) "variables" (.record []))
    "hidden" (.list (sampleLimits.hints.map .field))

theorem sampleLimits_shown : sampleLimitsScope.Shows sampleLimits where
  slots := rfl
  values := ⟨[], rfl, fun name x found => by simp [sampleLimits, KeyMap.get_empty] at found⟩
  hints _ := rfl

/-- The printed comparison of the limits. -/
theorem printed_comparison_agrees_limits :
    sampleLimitsScope.Shows sampleLimits ∧
    (TruthCode.ofAssertion (.compare .gt (.hint 0) (.hint 1))).Named ∧
    sampleLimits.field HashSuite.blake2s.hasher (.hint 0) = .ok (.ofInt (2 ^ 63 - 1)) ∧
    sampleLimits.field HashSuite.blake2s.hasher (.hint 1) = .ok (.ofInt (-2 ^ 63)) ∧
    ∃ helpers phrase agrees,
      Routine.ofSource? (linesText orderLines) = some helpers ∧
      Calls.SignedOrder (helpers.foldl Routine.calls (libraryCalls HashSuite.blake2s.hasher)) ∧
      Phrase.read? (tokens (TruthCode.ofAssertion (.compare .gt (.hint 0) (.hint 1))).text) =
        some phrase ∧
      phrase.value (helpers.foldl Routine.calls (libraryCalls HashSuite.blake2s.hasher))
        sampleLimitsScope = some (.truth agrees) ∧
      sampleLimits.holds HashSuite.blake2s.hasher (.compare .gt (.hint 0) (.hint 1)) = .ok agrees ∧
      (agrees = true ↔ ∃ m n, (Field.ofInt (2 ^ 63 - 1)).EncodesInt64 m ∧
        (Field.ofInt (-2 ^ 63)).EncodesInt64 n ∧ CompareOp.gt.Relates m n) :=
  ⟨sampleLimits_shown, ⟨trivial, trivial⟩, rfl, rfl,
    printed_comparison_agrees HashSuite.blake2s.hasher sampleLimits sampleLimitsScope
      sampleLimits_shown .gt (.hint 0) (.hint 1) _ _ ⟨trivial, trivial⟩ rfl rfl⟩

end Circuit

end AttestedQuery
