import AttestedQuery.Proofs.CheckedProofs
import AttestedQuery.Proofs.Completeness
import Mathlib.Data.Bool.Count

/-!
# Batches that were edited

Checking a batch judges every item by its own proof and public values and counts the verdicts. For
the prover that checks in the open, a proof holds for the values whose digest it is. An item that
was proved holds; once its values or its proof are changed it fails, and the verdicts on the other
items stay.
-/

set_option autoImplicit false

namespace AttestedQuery.Batch

open Checker

variable {h : Hasher} {p : Program}

namespace Item

def octets? (item : Item) : Option Octets :=
  item.proof.bind fun text => (Proof.ofHex text).toOption.map (·.octets)

theorem octets?_eq_some_iff {item : Item} {octets : Octets} : item.octets? = some octets ↔
    ∃ text, item.proof = some text ∧ Proof.ofHex text = .ok ⟨octets⟩ := by
  constructor
  · intro found
    obtain ⟨text, present, found⟩ := Option.bind_eq_some_iff.1 found
    obtain ⟨proof, read, rfl⟩ := Option.map_eq_some_iff.1 found
    exact ⟨text, present, eq_ok_of_toOption read⟩
  · rintro ⟨text, present, read⟩
    simp [octets?, present, read, Except.toOption]

def holds (h : Hasher) (p : Program) (item : Item) : Bool := (item.verifies (prover h) p).run

theorem holds_iff {item : Item} : item.holds h p = true ↔
    item.octets? = some (Digest.blake3 (material p item.publicInputs)) := by
  unfold holds verifies octets?
  cases item.proof with
  | none => simp
  | some text =>
    cases read : Proof.ofHex text with
    | error e => simp [read, Except.toOption]
    | ok proof =>
      have verdict : (prover h).verify p proof item.publicInputs =
          .ok (proof.octets == digest p item.publicInputs) := rfl
      simp only [Option.map_some, read, verdict, Option.bind_some, Except.toOption,
        Option.some.injEq]
      exact beq_iff_eq

theorem run_cases (h : Hasher) (p : Program) (mode : ProofMode) (index : Nat) (w : Witness) :
    (Item.run (prover h) p mode index w).run.proof = none ∨
      ∃ trace, (prover h).execute p w = .ok trace ∧
        (Item.run (prover h) p mode index w).run.proof = some (Proof.mk trace.payload).toHex ∧
        (Item.run (prover h) p mode index w).run.publicInputs = trace.publicInputs := by
  -- The check at the end of a run leaves the proof and the values as they are.
  have kept (item : Item) (outcome : Result Bool) : (item.checked outcome).proof = item.proof ∧
      (item.checked outcome).publicInputs = item.publicInputs := by
    unfold checked
    split <;> exact ⟨rfl, rfl⟩
  unfold Item.run
  cases executed : (prover h).execute p w with
  | error e =>
    left
    rfl
  | ok trace =>
    cases mode with
    | witnessOnly =>
      left
      rfl
    | prove =>
      right
      exact ⟨trace, rfl, rfl, rfl⟩
    | proveAndVerify =>
      right
      exact ⟨trace, rfl, kept _ _⟩

theorem run_prove {w : Witness} {trace : Trace} (executed : (prover h).execute p w = .ok trace)
    (index : Nat) : (Item.run (prover h) p .prove index w).run.proof.isSome = true ∧
      (Item.run (prover h) p .prove index w).run.publicInputs = trace.publicInputs := by
  unfold Item.run
  rw [executed]
  exact ⟨rfl, rfl⟩

theorem octets?_run {mode : ProofMode} {index : Nat} {w : Witness}
    (proved : (Item.run (prover h) p mode index w).run.proof.isSome = true) :
    (Item.run (prover h) p mode index w).run.octets? =
      some (Digest.blake3 (material p (Item.run (prover h) p mode index w).run.publicInputs)) := by
  obtain none | ⟨trace, executed, written, published⟩ := run_cases h p mode index w
  · rw [none] at proved
    cases proved
  · obtain ⟨_, payload⟩ := prove_execute executed rfl
    rw [octets?_eq_some_iff, written, published, ← payload]
    exact ⟨_, rfl, Proof.ofHex_toHex _⟩

/-- The values of an item were changed, or its proof was, and the other was kept. -/
def Tampered (item edited : Item) : Prop :=
  (edited.octets? = item.octets? ∧ edited.publicInputs ≠ item.publicInputs) ∨
    (edited.octets? ≠ item.octets? ∧ edited.publicInputs = item.publicInputs)

/-- An item that holds fails once it is tampered with, unless two digested texts collide. -/
theorem Tampered.fails {item edited : Item} (tampered : item.Tampered edited)
    (sound : item.octets? = some (Digest.blake3 (material p item.publicInputs))) :
    Collide p item.publicInputs p edited.publicInputs ∨ edited.holds h p = false := by
  by_cases kept : edited.holds h p = true
  · rw [holds_iff] at kept
    obtain ⟨proof, values⟩ | ⟨proof, values⟩ := tampered
    · left
      have digests : Digest.blake3 (material p item.publicInputs) =
          Digest.blake3 (material p edited.publicInputs) :=
        Option.some.inj (sound.symm.trans (proof.symm.trans kept))
      refine ⟨fun same => values ?_, digests⟩
      rw [material_eq, material_eq] at same
      exact (valuesText_injective (List.append_cancel_left (List.append_cancel_left same))).symm
    · rw [kept, sound, values] at proof
      exact absurd rfl proof
  · exact Or.inr (Bool.eq_false_of_not_eq_true kept)

end Item

/-! ## Verdicts and their count -/

def verdicts (h : Hasher) (p : Program) (b : Batch) : List Bool := b.items.map (Item.holds h p)

/-- The batch with another item in one place. -/
def edit (b : Batch) (i : Nat) (item : Item) : Batch := { b with items := b.items.set i item }

theorem verdicts_edit (b : Batch) (i : Nat) (item : Item) :
    (b.edit i item).verdicts h p = (b.verdicts h p).set i (item.holds h p) :=
  List.map_set ..

theorem getElem?_verdicts {b : Batch} {i : Nat} {item : Item} (placed : b.items[i]? = some item) :
    (b.verdicts h p)[i]? = some (item.holds h p) := by
  rw [verdicts, List.getElem?_map, placed]
  rfl

theorem verify_counts (b : Batch) : (b.verify (prover h) p).run.total = b.items.length ∧
    (b.verify (prover h) p).run.verified = (b.verdicts h p).count true ∧
    (b.verify (prover h) p).run.failed = (b.verdicts h p).count false := by
  let check (item : Item) : Id Bool := item.verifies (prover h) p
  have outcomes : (b.items.mapM check).run = b.verdicts h p := List.idRun_mapM
  have counted : (b.verify (prover h) p).run =
      ⟨(b.verdicts h p).countP id, (b.verdicts h p).length⟩ := by
    rw [← outcomes]
    rfl
  have holding : (b.verdicts h p).countP id = (b.verdicts h p).count true :=
    List.countP_congr (by simp)
  have all := List.count_true_add_count_false (b.verdicts h p)
  rw [counted, holding]
  exact ⟨List.length_map _, rfl, Nat.sub_eq_of_eq_add' all.symm⟩

theorem getElem?_run {witnesses : List Witness} {mode : ProofMode} {i : Nat} {item : Item}
    (placed : (Batch.run (prover h) p witnesses mode).run.items[i]? = some item) :
    ∃ index w, item = (Item.run (prover h) p mode index w).run := by
  have items : (Batch.run (prover h) p witnesses mode).run.items =
      witnesses.zipIdx.map fun entry => (Item.run (prover h) p mode entry.2 entry.1).run :=
    List.idRun_mapM
  rw [items, List.getElem?_map] at placed
  obtain ⟨⟨w, index⟩, _, rfl⟩ := Option.map_eq_some_iff.1 placed
  exact ⟨index, w, rfl⟩

/-- Checking any batch in the open: an item holds exactly if its proof text decodes to the BLAKE3
digest of the program with the item's own public values; the items that hold are the verified ones,
the others have failed, and the check succeeds exactly if none has failed. In a batch made by a run
every item with a proof holds; once its values or its proof are changed, it fails and all other
verdicts stay, unless BLAKE3 collides on the digested texts. -/
theorem tampering_fails_item (h : Hasher) (p : Program) (b : Batch) :
    (∀ i : Nat, ∀ item, b.items[i]? = some item → ((b.verdicts h p)[i]? = some true ↔
      ∃ text, item.proof = some text ∧
        Proof.ofHex text = .ok ⟨Digest.blake3 (material p item.publicInputs)⟩)) ∧
    (b.verify (prover h) p).run.verified = (b.verdicts h p).count true ∧
    (b.verify (prover h) p).run.failed = (b.verdicts h p).count false ∧
    (b.verify (prover h) p).run.total = b.items.length ∧
    (b.verify (prover h) p).run.verified + (b.verify (prover h) p).run.failed =
      (b.verify (prover h) p).run.total ∧
    ((b.verify (prover h) p).run.succeeds = true ↔ (b.verify (prover h) p).run.failed = 0) ∧
    ∀ witnesses mode, b = (Batch.run (prover h) p witnesses mode).run →
      ∀ i : Nat, ∀ item, b.items[i]? = some item → item.proof.isSome = true →
        (b.verdicts h p)[i]? = some true ∧ ∀ edited, item.Tampered edited →
          Collide p item.publicInputs p edited.publicInputs ∨
            (b.edit i edited).verdicts h p = (b.verdicts h p).set i false := by
  obtain ⟨total, verified, failed⟩ := b.verify_counts (h := h) (p := p)
  have length : (b.verdicts h p).length = b.items.length := List.length_map _
  have all := List.count_true_add_count_false (b.verdicts h p)
  refine ⟨fun i item placed => ?_, verified, failed, total, by omega, ?_, ?_⟩
  · rw [getElem?_verdicts placed, Option.some.injEq, Item.holds_iff, Item.octets?_eq_some_iff]
  · rw [Verification.succeeds, beq_iff_eq]
    omega
  · rintro witnesses mode rfl i item placed proved
    obtain ⟨index, w, rfl⟩ := getElem?_run placed
    have sound := Item.octets?_run proved
    refine ⟨(getElem?_verdicts placed).trans (congrArg some (Item.holds_iff.2 sound)), ?_⟩
    intro edited tampered
    obtain collides | fails := tampered.fails (h := h) sound
    · exact Or.inl collides
    · exact Or.inr (by rw [verdicts_edit, fails])

/-- The answer that the sample query publishes is changed in the second of two equal items: its
verdict turns and the other one stays. -/
theorem tampering_fails_sample : ∃ p first second,
    Program.compile sampleConfig sampleText = .ok p ∧
    (Batch.run (prover sampleConfig.hasher) p [sampleWitness, sampleWitness] .prove).run.items =
      [first, second] ∧
    second.proof.isSome = true ∧ second.publicInputs = [sampleRoot, sampleCodes.subject] ∧
    second.Tampered { second with publicInputs := [sampleRoot, Field.zero] } ∧
    (Batch.run (prover sampleConfig.hasher) p [sampleWitness, sampleWitness] .prove).run.verdicts
      sampleConfig.hasher p = [true, true] ∧
    (Collide p second.publicInputs p [sampleRoot, Field.zero] ∨
      ((Batch.run (prover sampleConfig.hasher) p [sampleWitness, sampleWitness] .prove).run.edit 1
        { second with publicInputs := [sampleRoot, Field.zero] }).verdicts sampleConfig.hasher p =
          [true, false]) := by
  obtain ⟨p, trace, compiled, executed, names, _⟩ := sample_accepted
  let b := (Batch.run (prover sampleConfig.hasher) p [sampleWitness, sampleWitness] .prove).run
  let item (index : Nat) := (Item.run (prover sampleConfig.hasher) p .prove index sampleWitness).run
  have whole : b.items = [item 0, item 1] := rfl
  have published : trace.publicInputs = [sampleRoot, sampleCodes.subject] := by
    rw [(prove_execute executed rfl).1, Witness.publicInputs, names,
      (Program.settings_of_compile compiled).2]
    rfl
  have proved (index : Nat) : (item index).proof.isSome = true ∧
      (item index).publicInputs = [sampleRoot, sampleCodes.subject] :=
    published ▸ Item.run_prove executed index
  have differ : [sampleRoot, Field.zero] ≠ [sampleRoot, sampleCodes.subject] := by decide
  have tampered : (item 1).Tampered { item 1 with publicInputs := [sampleRoot, Field.zero] } :=
    Or.inl ⟨rfl, fun same => differ (same.trans (proved 1).2)⟩
  obtain ⟨_, _, _, _, _, _, edits⟩ := tampering_fails_item sampleConfig.hasher p b
  have edits := edits [sampleWitness, sampleWitness] .prove rfl
  obtain ⟨firstHolds, _⟩ := edits 0 (item 0) (by rw [whole]; rfl) (proved 0).1
  obtain ⟨secondHolds, fails⟩ := edits 1 (item 1) (by rw [whole]; rfl) (proved 1).1
  have before : b.verdicts sampleConfig.hasher p = [true, true] := by
    rw [verdicts, whole] at firstHolds secondHolds ⊢
    simpa using And.intro firstHolds secondHolds
  refine ⟨p, item 0, item 1, compiled, whole, (proved 1).1, (proved 1).2, tampered, before, ?_⟩
  obtain collides | fails := fails _ tampered
  · exact Or.inl collides
  · exact Or.inr (fails.trans (by rw [before]; rfl))

end AttestedQuery.Batch
