import AttestedQuery.Proofs.Lookup
import Mathlib.Data.List.Sort

/-!
# A lookup is a full scan

The plain way to find the quads that agree with some fixed values is to look at every quad in
order. A lookup takes one of the lists of its index instead, and returns the same list: both go up
through the numbers of the quads, and hold the same ones.
-/

set_option autoImplicit false

namespace AttestedQuery.Dataset

/-- An encoded quad has every value that is asked for, at its position. -/
def Agrees (fixed : QuadOf (Option Field)) (codes : QuadOf Field) : Prop :=
  (∀ value ∈ fixed.subject, codes.subject = value) ∧
    (∀ value ∈ fixed.predicate, codes.predicate = value) ∧
    (∀ value ∈ fixed.object, codes.object = value) ∧
    (∀ value ∈ fixed.graph, codes.graph = value)

instance (fixed : QuadOf (Option Field)) (codes : QuadOf Field) :
    Decidable (Agrees fixed codes) :=
  inferInstanceAs (Decidable ((∀ value ∈ fixed.subject, codes.subject = value) ∧
    (∀ value ∈ fixed.predicate, codes.predicate = value) ∧
    (∀ value ∈ fixed.object, codes.object = value) ∧
    (∀ value ∈ fixed.graph, codes.graph = value)))

/-- The numbers of the quads that agree with fixed values, found by looking at every quad. -/
def scan (d : Dataset) (fixed : QuadOf (Option Field)) : List Nat :=
  (List.range d.encoded.length).filter fun i => d.encoded[i]?.any fun codes => Agrees fixed codes

theorem pairwise_scan (d : Dataset) (fixed : QuadOf (Option Field)) :
    (d.scan fixed).Pairwise (· < ·) :=
  List.pairwise_lt_range.filter _

theorem mem_scan_iff {d : Dataset} {fixed : QuadOf (Option Field)} {i : Nat} :
    i ∈ d.scan fixed ↔ ∃ codes, d.encoded[i]? = some codes ∧ Agrees fixed codes := by
  simp only [scan, List.mem_filter, List.mem_range, Option.any_eq_true, decide_eq_true_eq]
  constructor
  · rintro ⟨_, codes, stored, agree⟩
    exact ⟨codes, stored, agree⟩
  · rintro ⟨codes, stored, agree⟩
    exact ⟨(List.getElem?_eq_some_iff.1 stored).1, codes, stored, agree⟩

/-- The test of a lookup asks for what is fixed at each of the four positions. -/
theorem Index.agrees_eq_true_iff (fixed : QuadOf (Option Field)) (codes : QuadOf Field) :
    Index.agrees fixed codes = true ↔ Agrees fixed codes := by
  rw [Index.agrees_iff]
  constructor
  · intro each
    refine ⟨fun value asked => ?_, fun value asked => ?_, fun value asked => ?_,
      fun value asked => ?_⟩
    · exact Option.some.inj (each 0 value (congrArg some asked))
    · exact Option.some.inj (each 1 value (congrArg some asked))
    · exact Option.some.inj (each 2 value (congrArg some asked))
    · exact Option.some.inj (each 3 value (congrArg some asked))
  · rintro ⟨subject, predicate, object, graph⟩ position value asked
    rw [QuadOf.get_eq_some_iff] at asked ⊢
    rcases asked with ⟨rfl, asked⟩ | ⟨rfl, asked⟩ | ⟨rfl, asked⟩ | ⟨rfl, asked⟩
    · exact Or.inl ⟨rfl, subject value asked⟩
    · exact Or.inr (Or.inl ⟨rfl, predicate value asked⟩)
    · exact Or.inr (Or.inr (Or.inl ⟨rfl, object value asked⟩))
    · exact Or.inr (Or.inr (Or.inr ⟨rfl, graph value asked⟩))

/-- In a dataset with one encoding for each quad, a lookup returns what a full scan returns: the
numbers of the quads that agree with every fixed value, each once and in increasing order. -/
theorem lookup_eq_scan (d : Dataset) (lengths : d.encoded.length = d.quads.length)
    (fixed : QuadOf (Option Field)) :
    (Index.ofDataset d).candidates fixed = d.scan fixed ∧ (d.scan fixed).Pairwise (· < ·) ∧
      ∀ i, i ∈ d.scan fixed ↔ ∃ codes, d.encoded[i]? = some codes ∧ Agrees fixed codes := by
  refine ⟨?_, pairwise_scan d fixed, fun i => mem_scan_iff⟩
  refine (Index.pairwise_candidates d fixed).eq_of_mem_iff (pairwise_scan d fixed) fun i => ?_
  rw [Index.mem_candidates_iff lengths, mem_scan_iff]
  simp only [Index.agrees_eq_true_iff]

/-- Three quads with one predicate, two of them with one subject and two with one object. -/
def sampleCrossing : Dataset where
  depth := 2
  root := Field.zero
  signature := ""
  publicKey := ""
  scheme := .secp256k1Ecdsa
  hashSuite := .blake2s
  quads := [
    ⟨.iri "a", .iri "p", .iri "x", .defaultGraph⟩,
    ⟨.iri "b", .iri "p", .iri "x", .defaultGraph⟩,
    ⟨.iri "a", .iri "p", .iri "y", .defaultGraph⟩]
  encoded := [
    ⟨.ofNat 1, .ofNat 3, .ofNat 4, .zero⟩,
    ⟨.ofNat 2, .ofNat 3, .ofNat 4, .zero⟩,
    ⟨.ofNat 1, .ofNat 3, .ofNat 5, .zero⟩]
  openings := []

/-- The lists of the subject and of the object are equally short, and neither is the answer. -/
theorem lookup_eq_scan_sample : sampleCrossing.encoded.length = sampleCrossing.quads.length ∧
    (Index.ofDataset sampleCrossing).candidates
      ⟨some (.ofNat 1), some (.ofNat 3), some (.ofNat 4), none⟩ = [0] :=
  ⟨rfl, (lookup_eq_scan sampleCrossing rfl _).1.trans (by decide)⟩

end AttestedQuery.Dataset
