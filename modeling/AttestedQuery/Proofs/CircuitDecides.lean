import AttestedQuery.Proofs.CircuitVerdict
import AttestedQuery.Proofs.ProjectedNames
import AttestedQuery.Proofs.Provision

/-!
# Printed binding checks decide

The binding check of every compiled query can be read: its names are names of the circuit language,
no list in it is empty, and everything that it reads is among its inputs. So it gives a verdict on
all inputs, and the verdict is that of the evaluator.
-/

set_option autoImplicit false

namespace AttestedQuery.Circuit

open Sparql

/-! ## Names -/

theorem isLetter_iff {c : Char} : isLetter c = true ↔
    (65 ≤ c.toNat ∧ c.toNat ≤ 90) ∨ (97 ≤ c.toNat ∧ c.toNat ≤ 122) ∨ c.isDigit = true ∨ c = '_' ∨
      128 ≤ c.toNat := by
  have alpha : c.isAlpha = (c.isUpper || c.isLower) := rfl
  simp only [isLetter, Char.isAlphanum, alpha, Bool.or_eq_true, decide_eq_true_eq, beq_iff_eq]
  have upper : c.isUpper = true ↔ 65 ≤ c.toNat ∧ c.toNat ≤ 90 := by
    have range : c.isUpper = decide (c.val ≥ 65 ∧ c.val ≤ 90) := rfl
    simp only [range, decide_eq_true_eq, ge_iff_le, UInt32.le_iff_toNat_le]
    rfl
  have lower : c.isLower = true ↔ 97 ≤ c.toNat ∧ c.toNat ≤ 122 := by
    have range : c.isLower = (decide (c.val ≥ 97) && decide (c.val ≤ 122)) := rfl
    simp only [range, Bool.and_eq_true, decide_eq_true_eq, ge_iff_le, UInt32.le_iff_toNat_le]
    rfl
  rw [upper, lower]
  simp only [or_assoc]

theorem isLetter_of_variable {c : Char} (admitted : Rdf.isVariableChar c = true) :
    isLetter c = true := by
  simp only [Rdf.isVariableChar, Rdf.isNameStart, Rdf.isNameLetter, Rdf.inRanges,
    Rdf.nameStartRanges, Rdf.nameJoinRanges, List.any_cons, List.any_nil, Bool.or_eq_true,
    Bool.and_eq_true, decide_eq_true_eq, beq_iff_eq, Bool.or_false] at admitted
  rw [isLetter_iff]
  rcases admitted with ((start | underscore) | digit) | join
  · omega
  · exact Or.inr (Or.inr (Or.inr (Or.inl underscore)))
  · exact Or.inr (Or.inr (Or.inl digit))
  · omega

theorem isName_underscore (name : String) : isName ("_" ++ name) = true := by
  have lead : ("_" ++ name).toList = '_' :: name.toList := by
    rw [String.toList_append]
    rfl
  have other : ∀ reserved ∈ reservedWords, reserved.toList.head? ≠ some '_' := by decide
  have free : "_" ++ name ∉ reservedWords := fun member => other _ member (by rw [lead]; rfl)
  simp [isName, startsWithDigit, lead, free]

theorem isIdentifier_of_variable {name : String} (written : IsVariableName name) :
    IsIdentifier (identifier name) := by
  have word : IsWord name := ⟨written.1, fun c member => isLetter_of_variable (written.2 c member)⟩
  unfold identifier
  split
  next => exact ⟨IsWord.append (v := "_") (by decide) word, isName_underscore name⟩
  next ordinary =>
    rw [Bool.or_eq_true, not_or, Bool.not_eq_true, Bool.not_eq_true] at ordinary
    exact ⟨word, by rw [isName, ordinary.1, ordinary.2]; rfl⟩

/-! ## Statements -/

/-- A public value has a proper name; other wires have none. -/
def ProperlyNamed (w : Wire) : Prop :=
  ∀ name, w = .variable name → IsIdentifier (identifier name)

theorem FieldCode.named_ofWire : (w : Wire) → (∀ leaf ∈ w.leaves, ProperlyNamed leaf) →
    (FieldCode.ofWire w).Named
  | .hash2 a b, each => by
    rw [Wire.leaves, List.forall_mem_append] at each
    exact ⟨named_ofWire a each.1, named_ofWire b each.2⟩
  | .hash4 a b c d, each => by
    simp only [Wire.leaves, List.forall_mem_append] at each
    exact ⟨named_ofWire a each.1.1.1, named_ofWire b each.1.1.2, named_ofWire c each.1.2,
      named_ofWire d each.2⟩
  | .variable name, each => each _ List.mem_cons_self name rfl
  | .slot .., _ | .hint _, _ | .const _, _ => trivial

namespace TruthCode

mutual

theorem named_ofAssertion : (a : Assertion) → a.Reads ProperlyNamed → (ofAssertion a).Named
  | .true, _ | .false, _ => trivial
  | .eq a b, reads => by
    rw [Assertion.Reads, Assertion.leaves, List.forall_mem_append] at reads
    exact ⟨FieldCode.named_ofWire a reads.1, FieldCode.named_ofWire b reads.2⟩
  | .compare op a b, reads => by
    rw [Assertion.Reads, Assertion.leaves, List.forall_mem_append] at reads
    have left := FieldCode.named_ofWire a reads.1
    have right := FieldCode.named_ofWire b reads.2
    cases op with
    | lt | le => exact ⟨left, right⟩
    | gt | ge => exact ⟨right, left⟩
  | .not a, reads => named_ofAssertion a (by rwa [Assertion.Reads, Assertion.leaves] at reads)
  | .and parts, reads | .or parts, reads =>
    named_ofAssertions parts (by rwa [Assertion.Reads, Assertion.leaves] at reads)

theorem named_ofAssertions : (parts : List Assertion) →
    (∀ leaf ∈ Assertion.leavesOfAll parts, ProperlyNamed leaf) → NamedAll (ofAssertions parts)
  | [], _ => trivial
  | part :: rest, reads => by
    rw [Assertion.leavesOfAll, List.forall_mem_append] at reads
    exact ⟨named_ofAssertion part reads.1, named_ofAssertions rest reads.2⟩

end

mutual

theorem filled_ofAssertion : (a : Assertion) → a.Tidy → (ofAssertion a).Filled
  | .true, _ | .false, _ | .eq .., _ => trivial
  | .compare op _ _, _ => by cases op <;> trivial
  | .not a, tidy => filled_ofAssertion a tidy
  | .and parts, tidy | .or parts, tidy => by
    refine ⟨?_, filled_ofAssertions parts tidy.2⟩
    rw [ofAssertions_eq_map]
    exact fun none => tidy.1 (List.map_eq_nil_iff.1 none)

theorem filled_ofAssertions : (parts : List Assertion) → Assertion.TidyAll parts →
    FilledAll (ofAssertions parts)
  | [], _ => trivial
  | part :: rest, tidy => ⟨filled_ofAssertion part tidy.1, filled_ofAssertions rest tidy.2⟩

end

end TruthCode

theorem conjunctsOf_printed {a : Assertion} (reads : a.Reads ProperlyNamed) (tidy : a.Tidy) :
    ∀ part ∈ conjunctsOf a, part.Reads ProperlyNamed ∧ part.Tidy := by
  cases a with
  | true => exact List.forall_mem_nil _
  | and parts =>
    intro part member
    refine ⟨fun leaf inside => reads leaf ?_, Assertion.tidyAll_iff.1 tidy.2 part member⟩
    rw [Assertion.leaves]
    exact Assertion.mem_leavesOfAll.2 ⟨part, member, inside⟩
  | false | eq | compare | not | or => exact List.forall_mem_singleton.2 ⟨reads, tidy⟩

theorem someBranch_printed (count : Nat) :
    (someBranch count).Named ∧ (someBranch count).Filled := by
  have branches (indices : List Nat) : TruthCode.NamedAll (indices.map .branch) ∧
      TruthCode.FilledAll (indices.map .branch) := by
    induction indices with
    | nil => exact ⟨trivial, trivial⟩
    | cons index rest induction => exact ⟨⟨trivial, induction.1⟩, trivial, induction.2⟩
  unfold someBranch
  split
  next => exact ⟨trivial, trivial⟩
  next nonempty =>
    exact ⟨(branches _).1, nonempty, (branches _).2⟩

theorem statements_printed {p : Program}
    (each : ∀ b ∈ p.branches, b.assertion.Reads ProperlyNamed ∧ b.assertion.Tidy) :
    ∀ s ∈ statements p, s.Named ∧ s.Filled := by
  have printed {a : Assertion} (holds : a.Reads ProperlyNamed ∧ a.Tidy) :
      (TruthCode.ofAssertion a).Named ∧ (TruthCode.ofAssertion a).Filled :=
    ⟨TruthCode.named_ofAssertion a holds.1, TruthCode.filled_ofAssertion a holds.2⟩
  unfold statements
  split
  next only single =>
    rw [single, List.forall_mem_singleton] at each
    rw [List.forall_mem_map]
    exact fun part member => printed (conjunctsOf_printed each.1 each.2 part member)
  next =>
    rw [List.forall_mem_append, List.forall_mem_map, List.forall_mem_singleton]
    refine ⟨fun entry member => ?_, someBranch_printed _⟩
    exact printed (each entry.1 (List.fst_mem_of_mem_zipIdx member))

/-! ## Inputs -/

/-- The arguments of a binding check hold whatever its program asks for. -/
theorem readable_of_supplied {h : Hasher} {p : Program} {slots : List (QuadOf Field)}
    {values : String → Field} {hints : List Field} (width : slots.length = p.width)
    (length : hints.length = p.hints.length) {leaf : Wire} (supplied : p.Supplies leaf) :
    (bindingView p slots values hints).Readable h leaf := by
  match leaf, supplied with
  | .slot i position, supplied =>
    have below : i < slots.length := supplied.1.trans_eq width.symm
    obtain ⟨x, found⟩ : ∃ x, slots[i].get? position = some x := by
      rw [← QuadOf.toList_getElem]
      exact ⟨_, List.getElem?_eq_getElem supplied.2⟩
    have stored : (bindingView p slots values hints).slot? i position = some x := by
      rw [View.slot?, bindingView, List.getElem?_eq_getElem below]
      exact found
    exact ⟨x, by rw [View.field, stored]⟩
  | .variable name, supplied =>
    have stored : (bindingView p slots values hints).values.get? name = some (values name) := by
      rw [bindingView, KeyMap.get_ofList_map]
      exact if_pos supplied
    exact ⟨values name, by rw [View.field, stored]⟩
  | .hint i, supplied =>
    have short : i < hints.length := length ▸ supplied
    exact ⟨hints[i], by simp [View.field, bindingView, short]⟩
  | .const x, _ => exact ⟨x, rfl⟩

/-- The printed binding check of a compiled query gives a verdict on every record of its public
values, and it accepts exactly where the assertion of some branch holds. -/
theorem decides_on_record (h : Hasher) {config : Config} {text : String} {p : Program}
    (compiled : Program.compile config text = .ok p) {slots : List (QuadOf Field)}
    (width : slots.length = p.width) {hints : List Field} (length : hints.length = p.hints.length)
    {values : String → Field} {members : List (String × Datum)}
    (records : Records p.projected values members) :
    ∃ passes, accepts? h (Circuit.ofProgram p).bindingSource "checkBinding"
        (argumentsWith p slots members hints) = some passes ∧
      (passes = true ↔ ∃ b ∈ p.branches,
        (bindingView p slots values hints).holds h b.assertion = .ok true) := by
  obtain ⟨query, reduced⟩ := Program.compile_ok compiled
  obtain ⟨fragments, compiles⟩ := Program.ofNormal_ok reduced
  have proper : ∀ name ∈ p.projected, IsIdentifier (identifier name) := fun name member =>
    isIdentifier_of_variable (Program.projected_written compiled name member)
  have printed := statements_printed (p := p) fun b member => by
    obtain ⟨reads, tidy⟩ := compiles.supplied member
    refine ⟨reads.mono fun leaf supplied => ?_, tidy⟩
    rintro name rfl
    exact proper name supplied
  have read := ofSource_bindingText proper (fun s member => (printed s member).1)
    fun s member => (printed s member).2
  refine ⟨_, accepts_of_routines read records length (fun b member => ?_) fun b member => ?_, ?_⟩
  · exact (compiles.supplied member).1.mono fun leaf => readable_of_supplied width length
  · exact TruthCode.filled_ofAssertion _ (compiles.supplied member).2
  · simp only [List.any_eq_true, View.truth_iff]

/-- For every compiled query whose projected variables have different identifiers, and for all
slots, public values and hints, the printed binding check gives a verdict, and it accepts exactly
where the assertion of some branch holds. -/
theorem binding_check_decides (h : Hasher) (config : Config) (text : String) (p : Program)
    (compiled : Program.compile config text = .ok p)
    (distinct : (p.projected.map identifier).Nodup) (slots : List (QuadOf Field))
    (width : slots.length = p.width) (hints : List Field)
    (length : hints.length = p.hints.length) (values : String → Field) :
    ∃ passes, accepts? h (Circuit.ofProgram p).bindingSource "checkBinding"
        (bindingArguments p slots values hints) = some passes ∧
      (passes = true ↔ ∃ b ∈ p.branches,
        (bindingView p slots values hints).holds h b.assertion = .ok true) :=
  decides_on_record h compiled width length (records_of_perm distinct (List.Perm.refl _))

/-- A query of two branches with a comparison, one of whose variables is a word of the circuit
language. -/
def sampleChoice : String :=
  "SELECT ?s ?in WHERE \x7b \x7b ?s <http://e/p> ?in FILTER(?in < 5) \x7d UNION " ++
    "\x7b ?in <http://e/q> ?s \x7d \x7d"

set_option maxRecDepth 100000 in
theorem sampleChoice_compiles : (Program.compile sampleConfig sampleChoice).toOption.any (fun p =>
    decide (p.projected = ["s", "in"] ∧ p.width = 1 ∧ p.hints.length = 4)) = true := by
  decide +kernel

/-- The binding check of the sample query decides about a row of zeros. -/
theorem binding_check_decides_sample : ∃ p, Program.compile sampleConfig sampleChoice = .ok p ∧
    (p.projected.map identifier).Nodup ∧ 1 = p.width ∧ 4 = p.hints.length ∧
    ∃ passes, accepts? sampleConfig.hasher (Circuit.ofProgram p).bindingSource "checkBinding"
        (bindingArguments p [⟨.zero, .zero, .zero, .zero⟩] (fun _ => .zero)
          (List.replicate 4 .zero)) = some passes ∧
      (passes = true ↔ ∃ b ∈ p.branches,
        (bindingView p [⟨.zero, .zero, .zero, .zero⟩] (fun _ => .zero)
          (List.replicate 4 .zero)).holds sampleConfig.hasher b.assertion = .ok true) := by
  have shape := sampleChoice_compiles
  cases compiled : Program.compile sampleConfig sampleChoice with
  | error =>
    rw [compiled] at shape
    cases shape
  | ok p =>
    rw [compiled] at shape
    obtain ⟨projected, width, length⟩ := of_decide_eq_true shape
    have distinct : (p.projected.map identifier).Nodup := by
      rw [projected]
      decide
    exact ⟨p, rfl, distinct, width.symm, length.symm,
      binding_check_decides sampleConfig.hasher sampleConfig sampleChoice p compiled distinct
        [⟨.zero, .zero, .zero, .zero⟩] width.symm (List.replicate 4 .zero) length.symm
        fun _ => .zero⟩

end AttestedQuery.Circuit
