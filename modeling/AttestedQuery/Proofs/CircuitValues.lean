import AttestedQuery.Proofs.Leaves
import AttestedQuery.Proofs.SignedOrder

/-!
# What printed code is worth

Where the names of a scope show the values of a view, printed wires are worth the values that the
evaluator reads, and printed assertions the verdicts that it reaches. The evaluator stops at the
first part that settles a list; printed lists are evaluated as a whole, to the same verdict wherever
every part can be read.
-/

set_option autoImplicit false

namespace AttestedQuery.Circuit

def Datum.ofQuad (q : QuadOf Field) : Datum := .record [("terms", .list (q.toList.map .field))]

/-- A scope whose arguments are the values of a view. -/
structure Scope.Shows (scope : Scope) (v : View) : Prop where
  slots : scope "bgp" = some (.list (v.slots.map Datum.ofQuad))
  values : ∃ members, scope "variables" = some (.record members) ∧ ∀ name x,
    v.values.get? name = some x → members.lookup (identifier name) = some (.field x)
  hints : v.hints ≠ [] → scope "hidden" = some (.list (v.hints.map .field))

structure Calls.Hashes (calls : Calls) (h : Hasher) : Prop where
  pair : ∀ a b, calls "consts::hash2" [.list [.field a, .field b]] = some (.field (h.pair a b))
  quadruple : ∀ a b c d, calls "consts::hash4" [.list [.field a, .field b, .field c, .field d]] =
    some (.field (h.quadruple a b c d))

section Values

variable {calls : Calls} {scope : Scope} {h : Hasher} {v : View}

/-! ## Wires -/

theorem Scope.Shows.slot (shows : scope.Shows v) {i position : Nat} {x : Field}
    (found : v.slot? i position = some x) :
    (FieldCode.slot i position).phrase.value calls scope = some (.field x) := by
  obtain ⟨quad, slot, term⟩ := Option.bind_eq_some_iff.1 found
  have index : (v.slots.map Datum.ofQuad)[i]? = some (.ofQuad quad) := by
    rw [List.getElem?_map, slot]
    rfl
  have inside : (quad.toList.map Datum.field)[position]? = some (.field x) := by
    rw [List.getElem?_map]
    match position, term with
    | 0, term | 1, term | 2, term | 3, term =>
      obtain rfl := Option.some.inj term
      rfl
  simp only [FieldCode.phrase, Phrase.value, shows.slots, Option.bind_some, Datum.item, index]
  simpa [Datum.member, Datum.ofQuad, List.lookup_cons, Datum.item] using inside

theorem Scope.Shows.variable (shows : scope.Shows v) {name : String} {x : Field}
    (found : v.values.get? name = some x) :
    (FieldCode.variable (identifier name)).phrase.value calls scope = some (.field x) := by
  obtain ⟨members, record, each⟩ := shows.values
  rw [FieldCode.phrase, Phrase.value, Phrase.value, record]
  exact each name x found

theorem Scope.Shows.hint (shows : scope.Shows v) {i : Nat} {x : Field}
    (found : v.hints[i]? = some x) :
    (FieldCode.hint i).phrase.value calls scope = some (.field x) := by
  have some : v.hints ≠ [] := by
    intro none
    simp [none] at found
  rw [FieldCode.phrase, Phrase.value, Phrase.value, shows.hints some]
  simp [Datum.item, found]

theorem value_ofWire (shows : scope.Shows v) (hashes : calls.Hashes h) :
    (w : Wire) → {x : Field} → v.field h w = .ok x →
      (FieldCode.ofWire w).phrase.value calls scope = some (.field x)
  | .slot i position, x, read => by
    rw [View.field] at read
    split at read
    next found => exact shows.slot (found.trans (congrArg some (Except.ok.inj read)))
    next => cases read
  | .variable name, x, read => by
    rw [View.field] at read
    split at read
    next found => exact shows.variable (found.trans (congrArg some (Except.ok.inj read)))
    next => cases read
  | .hint i, x, read => by
    rw [View.field] at read
    split at read
    next found => exact shows.hint (found.trans (congrArg some (Except.ok.inj read)))
    next => cases read
  | .const y, x, read => by
    obtain rfl := Except.ok.inj read
    exact value_number y.val_lt
  | .hash2 a b, x, read => by
    obtain ⟨y, first, read⟩ := bind_ok_iff.1 read
    obtain ⟨z, second, read⟩ := bind_ok_iff.1 read
    obtain rfl := Except.ok.inj read
    simp [FieldCode.ofWire, FieldCode.phrase, Phrase.value, Phrase.values,
      value_ofWire shows hashes a first, value_ofWire shows hashes b second, hashes.pair]
  | .hash4 a b c d, x, read => by
    obtain ⟨y, first, read⟩ := bind_ok_iff.1 read
    obtain ⟨z, second, read⟩ := bind_ok_iff.1 read
    obtain ⟨w, third, read⟩ := bind_ok_iff.1 read
    obtain ⟨u, fourth, read⟩ := bind_ok_iff.1 read
    obtain rfl := Except.ok.inj read
    simp [FieldCode.ofWire, FieldCode.phrase, Phrase.value, Phrase.values,
      value_ofWire shows hashes a first, value_ofWire shows hashes b second,
      value_ofWire shows hashes c third, value_ofWire shows hashes d fourth, hashes.quadruple]

/-! ## Lists of parts -/

def AreWorth (calls : Calls) (scope : Scope) (phrases : List Phrase) (truths : List Bool) : Prop :=
  List.Forall₂ (fun phrase b => phrase.value calls scope = some (.truth b)) phrases truths

theorem value_foldl {op : Operator} {combine : Bool → Bool → Bool}
    (applies : ∀ a b, op.apply (.truth a) (.truth b) = some (.truth (combine a b)))
    {rest : List Phrase} {truths : List Bool} (worth : AreWorth calls scope rest truths) :
    ∀ {first : Phrase} {b : Bool}, first.value calls scope = some (.truth b) →
      (rest.foldl (.binary op) first).value calls scope = some (.truth (truths.foldl combine b)) := by
  induction worth with
  | nil => exact fun value => value
  | cons here _ induction =>
    intro first b value
    refine induction ?_
    rw [Phrase.value, value, here]
    exact applies b _

theorem value_chain_and {phrases : List Phrase} {truths : List Bool}
    (worth : AreWorth calls scope phrases truths) (nonempty : phrases ≠ []) :
    (Phrase.chain .and phrases).value calls scope = some (.truth (truths.all id)) := by
  cases worth with
  | nil => exact absurd rfl nonempty
  | cons here rest =>
    have folded (b : Bool) (bs : List Bool) : bs.foldl (· && ·) b = (b && bs.all id) := by
      induction bs generalizing b with
      | nil => simp
      | cons c rest induction => simp [induction, Bool.and_assoc]
    rw [Phrase.chain, value_foldl (fun _ _ => rfl) rest here, folded]
    rfl

theorem value_chain_or {phrases : List Phrase} {truths : List Bool}
    (worth : AreWorth calls scope phrases truths) (nonempty : phrases ≠ []) :
    (Phrase.chain .or phrases).value calls scope = some (.truth (truths.any id)) := by
  cases worth with
  | nil => exact absurd rfl nonempty
  | cons here rest =>
    have folded (b : Bool) (bs : List Bool) : bs.foldl (· || ·) b = (b || bs.any id) := by
      induction bs generalizing b with
      | nil => simp
      | cons c rest induction => simp [induction, Bool.or_assoc]
    rw [Phrase.chain, value_foldl (fun _ _ => rfl) rest here, folded]
    rfl

/-! ## Assertions -/

theorem truth_and (parts : List Assertion) : v.truth h (.and parts) = parts.all (v.truth h) := by
  rw [Bool.eq_iff_iff, View.truth_iff, View.holds, View.allHold_true_iff, List.all_eq_true]
  simp only [View.truth_iff]

theorem truth_or {parts : List Assertion} (each : ∀ part ∈ parts, v.Decides h part) :
    v.truth h (.or parts) = parts.any (v.truth h) := by
  refine View.truth_of_holds ?_
  rw [View.holds]
  induction parts with
  | nil => rfl
  | cons part rest induction =>
    obtain ⟨here, later⟩ := List.forall_mem_cons.1 each
    rw [View.anyHolds, here, List.any_cons]
    cases v.truth h part with
    | true => rfl
    | false => exact induction later

theorem compares_gt (a b : Field) : View.compares .gt a b = View.compares .lt b a := by
  unfold View.compares
  cases View.asInt64 a <;> cases View.asInt64 b <;> try rfl
  simp only [CompareOp.accepts]
  rw [Bool.eq_iff_iff, beq_iff_eq, beq_iff_eq, compare_gt_iff_gt, compare_lt_iff_lt]

theorem compares_ge (a b : Field) : View.compares .ge a b = View.compares .le b a := by
  unfold View.compares
  cases View.asInt64 a <;> cases View.asInt64 b <;> try rfl
  simp only [CompareOp.accepts]
  rw [Bool.eq_iff_iff, bne_iff_ne, bne_iff_ne, ne_eq, ne_eq, compare_gt_iff_gt, compare_lt_iff_lt]

theorem value_ofCompare (orders : calls.Orders) (op : CompareOp) {left right : FieldCode}
    {a b : Field}
    (first : left.phrase.value calls scope = some (.field a))
    (second : right.phrase.value calls scope = some (.field b)) :
    (TruthCode.ofCompare op left right).phrase.value calls scope =
      some (.truth (View.compares op a b)) := by
  cases op with
  | lt => simp [TruthCode.ofCompare, TruthCode.phrase, Phrase.value, Phrase.values, first, second,
      orders.less]
  | le => simp [TruthCode.ofCompare, TruthCode.phrase, Phrase.value, Phrase.values, first, second,
      orders.lessOrEqual]
  | gt => simp [TruthCode.ofCompare, TruthCode.phrase, Phrase.value, Phrase.values, first, second,
      orders.less, compares_gt]
  | ge => simp [TruthCode.ofCompare, TruthCode.phrase, Phrase.value, Phrase.values, first, second,
      orders.lessOrEqual, compares_ge]

theorem phrases_ne_nil {parts : List TruthCode} (nonempty : parts ≠ []) :
    TruthCode.phrases parts ≠ [] := by
  cases parts with
  | nil => exact absurd rfl nonempty
  | cons part rest => simp [TruthCode.phrases]

def Calls.Serve (calls : Calls) (ordered : Bool) : Prop := ordered = true → calls.Orders

mutual

/-- A printed assertion is worth the verdict that the evaluator reaches. -/
theorem value_ofAssertion (shows : scope.Shows v) (hashes : calls.Hashes h) :
    (a : Assertion) → a.Reads (v.Readable h) → (TruthCode.ofAssertion a).Filled →
      calls.Serve (TruthCode.ofAssertion a).hasOrder →
        (TruthCode.ofAssertion a).phrase.value calls scope = some (.truth (v.truth h a))
  | .true, _, _, _ => rfl
  | .false, _, _, _ => rfl
  | .eq a b, reads, _, _ => by
    simp only [Assertion.Reads, Assertion.leaves, List.forall_mem_append] at reads
    obtain ⟨x, first⟩ := View.readable_of_leaves a reads.1
    obtain ⟨y, second⟩ := View.readable_of_leaves b reads.2
    have verdict : v.truth h (.eq a b) = (x == y) :=
      View.truth_of_holds (by rw [View.holds, first, second]; rfl)
    rw [verdict, TruthCode.ofAssertion, TruthCode.phrase, Phrase.value,
      value_ofWire shows hashes a first, value_ofWire shows hashes b second]
    rfl
  | .compare op a b, reads, _, orders => by
    simp only [Assertion.Reads, Assertion.leaves, List.forall_mem_append] at reads
    obtain ⟨x, first⟩ := View.readable_of_leaves a reads.1
    obtain ⟨y, second⟩ := View.readable_of_leaves b reads.2
    have verdict : v.truth h (.compare op a b) = View.compares op x y :=
      View.truth_of_holds (by rw [View.holds, first, second]; rfl)
    rw [verdict]
    exact value_ofCompare (orders (by cases op <;> rfl)) op (value_ofWire shows hashes a first)
      (value_ofWire shows hashes b second)
  | .not a, reads, filled, orders => by
    have inner := value_ofAssertion shows hashes a reads filled orders
    have verdict : v.truth h (.not a) = !(v.truth h a) := by
      have decided := View.decides_of_reads (a := a) reads
      exact View.truth_of_holds (by rw [View.holds, decided]; rfl)
    rw [verdict]
    exact Phrase.value_not inner
  | .and parts, reads, filled, orders => by
    rw [Assertion.Reads, Assertion.leaves] at reads
    have each := worth_ofAssertions shows hashes parts reads filled.2 orders
    rw [truth_and]
    simpa [TruthCode.ofAssertion, TruthCode.phrase] using
      value_chain_and each (phrases_ne_nil filled.1)
  | .or parts, reads, filled, orders => by
    rw [Assertion.Reads, Assertion.leaves] at reads
    have each := worth_ofAssertions shows hashes parts reads filled.2 orders
    have decided : ∀ part ∈ parts, v.Decides h part := fun part member =>
      View.decides_of_reads fun leaf inside =>
        reads leaf (Assertion.mem_leavesOfAll.2 ⟨part, member, inside⟩)
    rw [truth_or decided]
    simpa [TruthCode.ofAssertion, TruthCode.phrase] using
      value_chain_or each (phrases_ne_nil filled.1)

theorem worth_ofAssertions (shows : scope.Shows v) (hashes : calls.Hashes h) :
    (parts : List Assertion) → (∀ leaf ∈ Assertion.leavesOfAll parts, v.Readable h leaf) →
      TruthCode.FilledAll (TruthCode.ofAssertions parts) →
        calls.Serve (TruthCode.anyHasOrder (TruthCode.ofAssertions parts)) →
          AreWorth calls scope (TruthCode.phrases (TruthCode.ofAssertions parts))
            (parts.map (v.truth h))
  | [], _, _, _ => List.Forall₂.nil
  | part :: rest, reads, filled, orders => by
    rw [Assertion.leavesOfAll, List.forall_mem_append] at reads
    refine List.Forall₂.cons ?_ ?_
    · refine value_ofAssertion shows hashes part reads.1 filled.1 fun ordered => orders ?_
      rw [TruthCode.ofAssertions, TruthCode.anyHasOrder, ordered, Bool.true_or]
    · refine worth_ofAssertions shows hashes rest reads.2 filled.2 fun ordered => orders ?_
      rw [TruthCode.ofAssertions, TruthCode.anyHasOrder, ordered, Bool.or_true]

end

end Values

end AttestedQuery.Circuit
