import AttestedQuery.Checker
import AttestedQuery.Proving
import AttestedQuery.Proofs.Compilation
import AttestedQuery.Proofs.Witnesses

/-!
# Every resolved row proves

Over a signed dataset, and for a program compiled under the same configuration, resolving never
fails, every witness that it returns passes all checks, and a batch of proofs of these witnesses has
no failure and checks out again. Nothing is assumed of the hash functions; of the signer only that
its signatures verify under its own key.
-/

set_option autoImplicit false

namespace AttestedQuery

section Rows

variable {d : Dataset} {e : Encoder} {projected : List String} {f : Fragment} {b : Branch}
  {t : Tracing} {linked : List Tracing.Place}

theorem Candidate.applyExtensions_holds {holds : Term → Prop} {extensions : List Extension}
    {row last : Row} (start : ∀ key value, row.get? key = some value → holds value)
    (constants : ∀ x ∈ extensions, ∀ term, x.source = .term term → holds term)
    (extended : extensions.foldlM applyExtension row = some last) (key : String) (value : Term)
    (held : last.get? key = some value) : holds value := by
  induction extensions generalizing row with
  | nil =>
    obtain rfl : row = last := by simpa using extended
    exact start key value held
  | cons x rest induction =>
    rw [List.foldlM_cons, Option.bind_eq_bind, Option.bind_eq_some_iff] at extended
    obtain ⟨next, applied, later⟩ := extended
    refine induction ?_ (fun y inside => constants y (List.mem_cons_of_mem x inside)) later
    intro other bound found
    unfold applyExtension at applied
    split at applied
    next =>
      obtain rfl := Option.some.inj applied
      exact start other bound found
    next given source =>
      have supplied : holds given := by
        cases operand : x.source with
        | term term =>
          obtain rfl : term = given := by simpa [sourceOf, operand] using source
          exact constants x List.mem_cons_self term operand
        | key key => exact start key given (by simpa [sourceOf, operand] using source)
      split at applied
      next =>
        split at applied
        · obtain rfl := Option.some.inj applied
          exact start other bound found
        · simp at applied
      next =>
        obtain rfl := Option.some.inj applied
        rw [KeyMap.get_insert] at found
        split at found
        · obtain rfl := Option.some.inj found
          exact supplied
        · exact start other bound found

/-- Terms that the rows of a branch hold have encodings: those of the quads, and the constants of
the extensions. -/
theorem Candidate.encodable (encoded : d.EncodedBy e) (traces : b.Traces e projected f t linked)
    {candidates : List Candidate} (made : ofBranch (.ofDataset d) e b = .ok candidates)
    {c : Candidate} (member : c ∈ candidates) (key : String) (value : Term)
    (held : c.row.get? key = some value) : ∃ code, e.encode value = .ok code := by
  obtain ⟨draft, covers, extended, _⟩ := (mem_ofBranch_iff encoded made c).1 member
  have start (key : String) (value : Term) (held : draft.row.get? key = some value) :
      ∃ code, e.encode value = .ok code := by
    obtain ⟨code, _, coded⟩ := (covers.encoded key).1 value held
    exact ⟨code, coded⟩
  have sources (x : Extension) (inside : x ∈ b.extensions) (term : Term)
      (source : x.source = .term term) : ∃ code, e.encode term = .ok code :=
    traces.encodable_source inside source
  exact applyExtensions_holds start sources extended key value held

end Rows

section Signed

variable {quads : List Quad} {config : Config} {signer : Signer} {d : Dataset}
  {tree : Commitment.Tree} {signature : Octets}

theorem Resolver.slot_verifies (s : d.SignedBy quads config signer tree signature) {i : Nat}
    {slot : Slot} (filled : (Resolver.mk (.ofDataset d) config.encoder).slot? i = some slot) :
    slot.opening.verifies config.hasher (config.hasher.onQuad slot.terms) d.root = true := by
  obtain ⟨terms, stored, filled⟩ := Option.bind_eq_some_iff.1 filled
  obtain ⟨opening, opened, filled⟩ := Option.bind_eq_some_iff.1 filled
  obtain ⟨other, found, verifies⟩ := s.opening stored
  obtain rfl := Option.some.inj (found.symm.trans opened)
  obtain rfl := Option.some.inj filled
  exact verifies

theorem Checker.checkCommitment_ok (s : d.SignedBy quads config signer tree signature)
    (consistent : signer.Consistent) {w : Witness} (root : w.root = d.root)
    (signed : w.signature = d.signature) (key : w.publicKey = d.publicKey)
    (scheme : w.scheme = d.scheme)
    (slots : ∀ slot ∈ w.slots, slot.opening.verifies config.hasher
      (config.hasher.onQuad slot.terms) d.root = true) :
    checkCommitment config.hasher w = .ok () := by
  have opened (index : Nat) : checkOpenings config.hasher w.root index w.slots = .ok () := by
    rw [root]
    generalize w.slots = all at slots
    induction all generalizing index with
    | nil => rfl
    | cons slot rest induction =>
      rw [checkOpenings, if_pos (slots slot List.mem_cons_self)]
      exact induction _ fun other member => slots other (List.mem_cons_of_mem slot member)
  have verifies : w.scheme.verifies signer.publicKey w.root.toBigEndian signature = true := by
    rw [scheme, s.scheme, root, s.root]
    exact consistent _ _ s.signed
  rw [checkCommitment, key, s.publicKey, signed, s.signature, Signer.octetsOfHex_ofOctets,
    Signer.octetsOfHex_ofOctets]
  simp only [bind, Except.bind, verifies, if_true]
  exact opened 0

/-- A witness of a resolution over a signed dataset passes every check, with and without signing. -/
theorem Checker.check_ok (s : d.SignedBy quads config signer tree signature)
    (consistent : signer.Consistent) {p : Program} {resolution : Resolution}
    (resolved : (Resolver.mk (.ofDataset d) config.encoder).resolve p = .ok resolution)
    {w : Witness} (member : w ∈ resolution.witnesses) (skip : Bool) :
    Checker.check config.hasher { p with skipSigning := skip } w = .ok () := by
  obtain ⟨b, candidates, c, branch, _, _, builds, holds⟩ := Resolver.mem_witnesses resolved member
  have shape : Checker.checkShape { p with skipSigning := skip } w = .ok () := by
    have slots := Resolver.length_slots builds
    have hints := Hint.length_computeAll builds.hints
    have width : Program.width { p with skipSigning := skip } = p.width := rfl
    simp [Checker.checkShape, width, slots, hints]
  have commitment : checkCommitment config.hasher w = .ok () := by
    refine checkCommitment_ok s consistent builds.root builds.signature builds.publicKey
      builds.scheme ?_
    intro slot inside
    obtain ⟨k, bound, rfl⟩ := List.getElem_of_mem inside
    have long := builds.slots.length_eq
    have filled := builds.slots.get (by rw [long]; exact bound) bound
    exact Resolver.slot_verifies s filled
  have assertion : w.view.check config.hasher b.assertion = .ok () :=
    View.check_ok_iff b.assertion |>.2 holds
  rw [Checker.check]
  simp only [branch, shape, commitment, assertion, bind, Except.bind]
  cases skip <;> rfl

end Signed

/-! ## Batches -/

namespace Batch

variable {h : Hasher} {p : Program}

/-- A witness that passes every check is proved without a fault, and its proof verifies. -/
theorem Item.run_ok (index : Nat) {w : Witness} {trace : Trace}
    (accepted : Checker.execute h p w = .ok trace) :
    (Item.run (Checker.prover h) p .proveAndVerify index w).run.error = none ∧
      ((Item.run (Checker.prover h) p .proveAndVerify index w).run.verifies
        (Checker.prover h) p).run = true := by
  have payload : trace.payload = Checker.digest p trace.publicInputs := by
    obtain ⟨_, _, whole⟩ := bind_ok_iff.1 accepted
    obtain rfl := pure_ok_iff.1 whole
    rfl
  have verified : Checker.verify p ⟨trace.payload⟩ trace.publicInputs = true := by
    simp [Checker.verify, payload]
  simp only [Item.run, Checker.prover, Id.run, bind, pure, accepted, verified, Item.start,
    Item.checked, reduceCtorEq, if_false, Item.verifies, Option.map_some, Proof.ofHex_toHex,
    true_and]

theorem run_ok {witnesses : List Witness}
    (accepted : ∀ w ∈ witnesses, ∃ trace, Checker.execute h p w = .ok trace) :
    ∃ batch, (Batch.run (Checker.prover h) p witnesses .proveAndVerify).run = batch ∧
      batch.items.length = witnesses.length ∧ batch.summary.failed = 0 ∧
        (batch.verify (Checker.prover h) p).run = ⟨witnesses.length, witnesses.length⟩ := by
  let prove (entry : Witness × Nat) : Item :=
    (Item.run (Checker.prover h) p .proveAndVerify entry.2 entry.1).run
  have items : (witnesses.zipIdx.mapM fun (w, index) =>
      Item.run (Checker.prover h) p .proveAndVerify index w).run =
        witnesses.zipIdx.map prove := List.idRun_mapM
  have each : ∀ item ∈ witnesses.zipIdx.map prove, item.error = none ∧
      (item.verifies (Checker.prover h) p).run = true := by
    intro item member
    obtain ⟨⟨w, index⟩, numbered, rfl⟩ := List.mem_map.1 member
    obtain ⟨trace, passes⟩ := accepted w (List.fst_mem_of_mem_zipIdx numbered)
    exact Item.run_ok index passes
  have faults : (witnesses.zipIdx.map prove).countP (fun item => item.error.isSome) = 0 := by
    rw [List.countP_eq_zero]
    intro item member
    simp [(each item member).1]
  refine ⟨ofItems .proveAndVerify (witnesses.zipIdx.map prove), ?_, ?_, ?_, ?_⟩
  · exact congrArg (ofItems .proveAndVerify) items
  · simp [ofItems]
  · exact faults
  · let check (item : Item) : Id Bool := item.verifies (Checker.prover h) p
    have outcomes : ((witnesses.zipIdx.map prove).mapM check).run =
        (witnesses.zipIdx.map prove).map check := List.idRun_mapM
    have all : (witnesses.zipIdx.map prove).map check = List.replicate witnesses.length true := by
      rw [List.eq_replicate_iff]
      refine ⟨by simp, ?_⟩
      intro outcome member
      obtain ⟨item, inside, rfl⟩ := List.mem_map.1 member
      exact (each item inside).2
    rw [all] at outcomes
    have counted : (⟨(List.replicate witnesses.length true).countP id,
        (List.replicate witnesses.length true).length⟩ : Verification) =
          ⟨witnesses.length, witnesses.length⟩ := by simp [List.countP_replicate]
    rw [← counted, ← outcomes]
    rfl

end Batch

/-! ## The whole way -/

/-- Resolving a program over a dataset gives witnesses that all pass every check, with and without
signing; proving them gives a batch without failures, which checks out. -/
def Program.AllRowsProve (p : Program) (d : Dataset) (config : Config) : Prop :=
  ∃ resolver resolution batch verification,
    Resolver.ofDataset d config = .ok resolver ∧
    resolver.resolve p = .ok resolution ∧
    (∀ w ∈ resolution.witnesses, ∀ skip, ∃ trace,
      Checker.execute config.hasher { p with skipSigning := skip } w = .ok trace) ∧
    (p.proveAll d (Checker.prover config.hasher) config .proveAndVerify).run = .ok batch ∧
    batch.items.length = resolution.witnesses.length ∧
    batch.summary.failed = 0 ∧
    (p.verifyBatch batch (Checker.prover config.hasher) config).run = .ok verification ∧
    verification.total = resolution.witnesses.length ∧
    verification.succeeds = true

/-- Whatever is signed and whatever query is compiled under one configuration: resolving succeeds,
and every row that it returns is proved and verified. -/
theorem signed_rows_prove (quads : List Quad) (config : Config) (signer : Signer) (text : String)
    (d : Dataset) (p : Program) (consistent : signer.Consistent)
    (signed : Dataset.sign quads config signer = .ok d)
    (compiled : Program.compile config text = .ok p) : p.AllRowsProve d config := by
  obtain ⟨tree, signature, s⟩ := Dataset.sign_ok signed
  obtain ⟨query, normal⟩ := Program.compile_ok compiled
  obtain ⟨fragments, compiles⟩ := Program.ofNormal_ok normal
  have opened : Resolver.ofDataset d config = .ok ⟨.ofDataset d, config.encoder⟩ := by
    rw [Resolver.ofDataset, s.compatible]
    rfl
  have resolves : ∃ resolution,
      (Resolver.mk (.ofDataset d) config.encoder).resolve p = .ok resolution := by
    apply Resolver.resolve_succeeds
    intro b member
    obtain ⟨f, _, t, linked, traces⟩ := compiles.traces member
    obtain ⟨candidates, made⟩ := Candidate.ofBranch_ok (.ofDataset d)
      fun q inside position term => traces.encodable_constant inside
    exact ⟨candidates, made, fun c inside =>
      Candidate.encodable s.encodedBy traces made inside⟩
  obtain ⟨resolution, resolved⟩ := resolves
  have accepted (w : Witness) (member : w ∈ resolution.witnesses) (skip : Bool) :
      ∃ trace, Checker.execute config.hasher { p with skipSigning := skip } w = .ok trace := by
    have checked := Checker.check_ok s consistent resolved member skip
    exact ⟨_, bind_ok_iff.2 ⟨(), checked, rfl⟩⟩
  obtain ⟨batch, ran, items, failed, verified⟩ :=
    Batch.run_ok fun w member => accepted w member p.skipSigning
  have fits : p.checkConfig config = .ok () := by
    rw [Program.checkConfig, compiles.fingerprint, if_pos rfl]
  have witnesses : p.witnesses d config = .ok resolution.witnesses := by
    exact bind_ok_iff.2 ⟨(), fits, bind_ok_iff.2 ⟨_, opened, bind_ok_iff.2 ⟨_, resolved, rfl⟩⟩⟩
  refine ⟨_, resolution, batch, ⟨resolution.witnesses.length, resolution.witnesses.length⟩, opened,
    resolved, accepted, ?_, items, failed, ?_, rfl, ?_⟩
  · rw [Program.proveAll, witnesses]
    exact congrArg Except.ok ran
  · rw [Program.verifyBatch, fits]
    exact congrArg Except.ok verified
  · simp [Verification.succeeds]

/-- A query for the subject of a quad under two names, with a test of its object. -/
def sampleRenamedText : String :=
  "SELECT ?s ?n WHERE \x7b ?s ?p ?o BIND(?s AS ?n) FILTER(isIRI(?o)) \x7d"

def sampleOpened (text : String) : Result (Resolver × Program) := do
  let r ← Resolver.ofDataset sampleDataset sampleConfig
  return (r, ← Program.compile sampleConfig text)

theorem sampleOpened_ok {text : String} {r : Resolver} {p : Program}
    (made : sampleOpened text = .ok (r, p)) :
    Resolver.ofDataset sampleDataset sampleConfig = .ok r ∧
      Program.compile sampleConfig text = .ok p := by
  obtain ⟨_, opened, made⟩ := bind_ok_iff.1 made
  obtain ⟨_, compiled, made⟩ := bind_ok_iff.1 made
  obtain ⟨rfl, rfl⟩ := Prod.mk.inj (pure_ok_iff.1 made)
  exact ⟨opened, compiled⟩

set_option maxRecDepth 100000 in
theorem sampleRenamed_resolves : (sampleOpened sampleRenamedText).toOption.any (fun (r, p) =>
    (r.resolve p).toOption.any fun resolution => resolution.witnesses.map (·.bindings.get? "n") ==
      [some sampleQuad.subject]) = true := by
  simp only [sampleOpened, Resolver.ofDataset, Program.compile, Program.ofNormal,
    Config.encoder_eq]
  decide +kernel

/-- The query finds one row over the sample quad, and it proves. -/
theorem signed_rows_prove_sample : sampleSigner.Consistent ∧
    Dataset.sign [sampleQuad] sampleConfig sampleSigner = .ok sampleDataset ∧
    ∃ r p resolution, Resolver.ofDataset sampleDataset sampleConfig = .ok r ∧
      Program.compile sampleConfig sampleRenamedText = .ok p ∧ r.resolve p = .ok resolution ∧
      resolution.witnesses.map (·.bindings.get? "n") = [some sampleQuad.subject] ∧
      p.AllRowsProve sampleDataset sampleConfig := by
  obtain ⟨⟨r, p⟩, made, found⟩ := exists_ok_of_any sampleRenamed_resolves
  obtain ⟨opened, compiled⟩ := sampleOpened_ok made
  obtain ⟨resolution, resolved, rows⟩ := exists_ok_of_any found
  exact ⟨sampleSigner_consistent, sample_signs, r, p, resolution, opened, compiled, resolved,
    eq_of_beq rows, signed_rows_prove [sampleQuad] sampleConfig sampleSigner sampleRenamedText
      sampleDataset p sampleSigner_consistent sample_signs compiled⟩

end AttestedQuery
