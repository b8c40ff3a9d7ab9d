import AttestedQuery.Proofs.Completeness
import AttestedQuery.Proofs.Verdicts

/-!
# Candidates that fail on their own

A candidate without a witness is recorded and the others go on, with one exception. A dataset can
hold literals longer than the limit of the configuration that it is resolved under, since only the
suite and the depth are compared. A hint over such a literal fails for its candidate alone; its
encoding as a public value ends the whole resolution.
-/

set_option autoImplicit false

namespace AttestedQuery

/-! ## Literals over the limit -/

def Term.Exceeds (limit : Nat) : Term → Prop
  | .literal value _ _ => limit < value.utf8ByteSize
  | _ => False

namespace Encoder

variable {e : Encoder} {t : Term}

/-- The only terms without an encoding are the literals over the limit. -/
theorem encodable_iff : (∃ code, e.encode t = .ok code) ↔ ¬t.Exceeds e.maxLiteralBytes := by
  cases t with
  | literal value lang datatype =>
    by_cases long : value.utf8ByteSize > e.maxLiteralBytes <;>
      simp [encode, inner, literalParts, Term.Exceeds, long, Except.map]
  | iri | blank | var | defaultGraph => simp [encode, inner, Term.Exceeds, Except.map]

theorem encode_error {fault : Error} (failed : e.encode t = .error fault) :
    ∃ length, e.maxLiteralBytes < length ∧ fault = .literalTooLong length e.maxLiteralBytes := by
  cases t with
  | literal value lang datatype =>
    by_cases long : value.utf8ByteSize > e.maxLiteralBytes
    · simp only [encode, inner, literalParts, if_pos long, Except.map, Except.error.injEq] at failed
      exact ⟨value.utf8ByteSize, long, failed.symm⟩
    · simp [encode, inner, literalParts, long, Except.map] at failed
  | iri | blank | var | defaultGraph => simp [encode, inner, Except.map] at failed

end Encoder

/-! ## Where the terms of a row come from -/

namespace Candidate

structure Draft.DrawnFrom (draft : Draft) (d : Dataset) : Prop where
  quads : ∀ i ∈ draft.quads, i < d.quads.length
  terms : ∀ key value, draft.row.get? key = some value →
    ∃ quad ∈ d.quads, ∃ position, quad.get? position = some value

variable {d : Dataset} {e : Encoder} {b : Branch} {candidates : List Candidate}

theorem drawn_extendBy {p : Pattern} {consts : QuadOf (Option Field)} {draft next : Draft}
    (drawn : draft.DrawnFrom d) (extended : next ∈ extendBy (.ofDataset d) p consts draft) :
    next.DrawnFrom d := by
  obtain ⟨i, quad, bound, found, binds, rfl⟩ := exists_of_mem_extendBy extended
  obtain ⟨inside, member⟩ : i < d.quads.length ∧ quad ∈ d.quads :=
    ⟨(List.getElem?_eq_some_iff.1 found).1, List.mem_of_getElem? found⟩
  refine ⟨fun k listed => ?_, fun key value held => ?_⟩
  · rcases List.mem_append.1 listed with before | here
    · exact drawn.quads k before
    · rwa [List.mem_singleton.1 here]
  · rcases (binds.keys key).1 (Option.isSome_of_eq_some held) with before | ⟨entry, among⟩
    · obtain ⟨earlier, kept⟩ := Option.isSome_iff_exists.1 before
      obtain rfl := Option.some.inj ((binds.within key earlier kept).symm.trans held)
      exact drawn.terms key earlier kept
    · obtain rfl := Option.some.inj ((binds.entries key entry among).symm.trans held)
      obtain ⟨position, _, _, _, placed⟩ := Draft.mem_entriesOf_iff.1 among
      exact ⟨quad, member, position, placed⟩

theorem drawn_joined {pairs : List (Pattern × QuadOf (Option Field))} {draft : Draft}
    (member : draft ∈ joined (.ofDataset d) pairs) : draft.DrawnFrom d :=
  joined_induction (motive := fun _ draft => draft.DrawnFrom d)
    ⟨by simp [Draft.start], by simp [Draft.start, KeyMap.get_empty]⟩
    (fun _ _ _ _ drawn extended => drawn_extendBy drawn extended) member

theorem drawn (made : ofBranch (.ofDataset d) e b = .ok candidates) {c : Candidate}
    (member : c ∈ candidates) :
    (∀ i ∈ c.quads, i < d.quads.length) ∧ ∀ key value, c.row.get? key = some value →
      (∃ quad ∈ d.quads, ∃ position, quad.get? position = some value) ∨
        ∃ x ∈ b.extensions, x.source = .term value := by
  obtain ⟨pairs, _, whole⟩ := bind_ok_iff.1 made
  obtain rfl := pure_ok_iff.1 whole
  obtain ⟨draft, joins, finished⟩ := List.mem_filterMap.1 member
  obtain ⟨row, extended, rfl⟩ := Option.map_eq_some_iff.1 finished
  have drawn := drawn_joined joins
  refine ⟨drawn.quads, applyExtensions_holds ?_ ?_ extended⟩
  · exact fun key value held => Or.inl (drawn.terms key value held)
  · exact fun x inside term source => Or.inr ⟨x, inside, source⟩

end Candidate

namespace Resolver

/-! ## Every candidate by itself -/

/-- A candidate and what becomes of it, whatever keeps it from having a witness. -/
def attempt (r : Resolver) (p : Program) (branch : Nat) (b : Branch) (c : Candidate) : Assessed :=
  ⟨branch, c.row,
    match r.witness p branch b.hints c with
    | .ok w => r.judge b w
    | .error reason => .skipped reason⟩

/-- The candidates of a branch; none where a constant of the branch has no encoding. -/
def candidates (r : Resolver) (b : Branch) : List Candidate :=
  (Candidate.ofBranch r.index r.encoder b).toOption.getD []

def attempts (r : Resolver) (p : Program) : List Assessed :=
  p.branches.zipIdx.flatMap fun (b, branch) => (r.candidates b).map (r.attempt p branch b)

/-- The resolution in which no candidate ends the others: those without a witness are recorded with
the reason, the others are judged, and the rows that are not given up are kept once. -/
def separately (r : Resolver) (p : Program) : Resolution where
  witnesses := (firstOfEach (surviving p (r.attempts p))).map (·.2)
  skipped := (r.attempts p).filterMap fun a =>
    match a.verdict with
    | .skipped reason => some ⟨a.branch, a.row.visible, reason⟩
    | _ => none
  rejected := (r.attempts p).countP fun a => a.verdict.isRejected

/-- A candidate that is to publish a literal over the limit, and whose hints have values. -/
def Publishes (r : Resolver) (p : Program) (b : Branch) (c : Candidate) : Prop :=
  (∃ hints, Hint.computeAll r.encoder p.hints c.row b.hints = .ok hints) ∧
    ∃ name ∈ p.projected, ∃ value, c.row.get? name = some value ∧
      value.Exceeds r.encoder.maxLiteralBytes

/-- Some candidate of some branch is to publish a literal over the limit. -/
def PublishesOverlong (r : Resolver) (p : Program) : Prop :=
  ∃ b ∈ p.branches, ∃ c ∈ r.candidates b, r.Publishes p b c

section Attempts

variable {r : Resolver} {p : Program} {branch : Nat} {b : Branch} {c : Candidate}

/-- A failure that concerns more than its candidate is that of a published literal. -/
theorem witness_fatal {fault : Error} (failed : r.witness p branch b.hints c = .error fault)
    (fatal : fault.isRecoverable = false) :
    r.Publishes p b c ∧ ∃ length, r.encoder.maxLiteralBytes < length ∧
      fault = .literalTooLong length r.encoder.maxLiteralBytes := by
  rcases witness_error_cases failed with
    computed | ⟨_, _, _, rfl⟩ | ⟨hints, name, projected, value, held, refused⟩
  · rw [Hint.computeAll_error computed] at fatal
    cases fatal
  · cases fatal
  · refine ⟨⟨hints, name, projected, value, held, ?_⟩, Encoder.encode_error refused⟩
    by_contra short
    obtain ⟨code, encodes⟩ := Encoder.encodable_iff.2 short
    rw [encodes] at refused
    cases refused

/-- Where its slots are filled, a candidate that is to publish a literal over the limit has no
witness, and the failure concerns more than the candidate. -/
theorem witness_of_publishes (branch : Nat) (publishes : r.Publishes p b c)
    (filled : ∀ i ∈ padded p.width c.quads, ∃ slot, r.slot? i = some slot) :
    ∃ fault, r.witness p branch b.hints c = .error fault ∧ fault.isRecoverable = false := by
  obtain ⟨⟨hints, computed⟩, name, projected, value, held, exceeds⟩ := publishes
  cases built : r.witness p branch b.hints c with
  | ok w =>
    obtain ⟨values, each, _⟩ := (witness_ok built).values
    obtain ⟨i, inside, rfl⟩ := List.getElem_of_mem projected
    obtain ⟨code, read, _⟩ := each.get inside (each.length_eq ▸ inside)
    rw [List.get_eq_getElem, publicValue, held] at read
    exact absurd exceeds (Encoder.encodable_iff.1 ⟨code, read⟩)
  | error fault =>
    refine ⟨fault, rfl, ?_⟩
    rcases witness_error_cases built with
      failed | ⟨i, padding, missing, _⟩ | ⟨_, _, _, _, _, refused⟩
    · rw [computed] at failed
      cases failed
    · obtain ⟨slot, found⟩ := filled i padding
      rw [missing] at found
      cases found
    · obtain ⟨length, _, rfl⟩ := Encoder.encode_error refused
      rfl

theorem assess_eq_attempt (fine : ¬r.Publishes p b c) :
    r.assess p branch b c = .ok (r.attempt p branch b c) := by
  unfold assess attempt
  cases built : r.witness p branch b.hints c with
  | ok w => rfl
  | error fault =>
    cases kind : fault.isRecoverable with
    | true => simp [kind]
    | false => exact absurd (witness_fatal built kind).1 fine

theorem assess_fatal {fault : Error} (failed : r.assess p branch b c = .error fault) :
    r.witness p branch b.hints c = .error fault ∧ fault.isRecoverable = false := by
  unfold assess at failed
  split at failed
  next => cases failed
  next reason built =>
    split at failed
    next => cases failed
    next fatal =>
      obtain rfl := Except.error.inj failed
      exact ⟨built, by simpa using fatal⟩

end Attempts

section Resolving

variable {r : Resolver} {p : Program}

theorem ofBranch_candidates (r : Resolver) {b : Branch}
    (made : ∃ cs, Candidate.ofBranch r.index r.encoder b = .ok cs) :
    Candidate.ofBranch r.index r.encoder b = .ok (r.candidates b) := by
  obtain ⟨cs, made⟩ := made
  rw [candidates, made]
  rfl

/-- Where every constant of the branches has an encoding and no literal over the limit is to be
published, every candidate is resolved by itself. -/
theorem resolve_separately
    (branches : ∀ b ∈ p.branches, ∃ cs, Candidate.ofBranch r.index r.encoder b = .ok cs)
    (fits : ¬r.PublishesOverlong p) : r.resolve p = .ok (r.separately p) := by
  have each : ∀ numbered ∈ p.branches.zipIdx, r.assessBranch p numbered.2 numbered.1 =
      .ok ((r.candidates numbered.1).map (r.attempt p numbered.2 numbered.1)) := by
    rintro ⟨b, branch⟩ member
    have inside : b ∈ p.branches := List.fst_mem_of_mem_zipIdx member
    refine bind_ok_iff.2 ⟨_, ofBranch_candidates r (branches b inside), mapM_ok_map fun c among => ?_⟩
    exact assess_eq_attempt fun publishes => fits ⟨b, inside, c, among, publishes⟩
  exact bind_ok_iff.2 ⟨_, mapM_ok_map each, rfl⟩

theorem resolve_error {fault : Error}
    (branches : ∀ b ∈ p.branches, ∃ cs, Candidate.ofBranch r.index r.encoder b = .ok cs)
    (failed : r.resolve p = .error fault) :
    ∃ length, r.encoder.maxLiteralBytes < length ∧
      fault = .literalTooLong length r.encoder.maxLiteralBytes := by
  rcases bind_error_iff.1 failed with failed | ⟨byBranch, _, failed⟩
  · obtain ⟨⟨b, branch⟩, member, failed⟩ := mapM_error failed
    have inside : b ∈ p.branches := List.fst_mem_of_mem_zipIdx member
    rcases bind_error_iff.1 failed with failed | ⟨cs, _, failed⟩
    · obtain ⟨cs, made⟩ := branches b inside
      rw [made] at failed
      cases failed
    · obtain ⟨c, _, failed⟩ := mapM_error failed
      obtain ⟨built, fatal⟩ := assess_fatal failed
      exact (witness_fatal built fatal).2
  · simp [pure, Except.pure] at failed

theorem resolve_assesses {resolution : Resolution} (resolved : r.resolve p = .ok resolution)
    {branch : Nat} {b : Branch} (numbered : p.branches[branch]? = some b) {c : Candidate}
    (among : c ∈ r.candidates b) : ∃ a, r.assess p branch b c = .ok a := by
  obtain ⟨byBranch, each, _⟩ := bind_ok_iff.1 resolved
  have member : (b, branch) ∈ p.branches.zipIdx := List.mem_zipIdx_iff_getElem?.2 numbered
  obtain ⟨list, listed, _⟩ := mapM_member each member
  obtain ⟨cs, made, assessed⟩ := bind_ok_iff.1 listed
  have same : cs = r.candidates b := by rw [candidates, made]; rfl
  obtain ⟨a, here, _⟩ := mapM_member assessed (same ▸ among)
  exact ⟨a, here⟩

end Resolving

end Resolver

section Signed

variable {quads : List Quad} {signedUnder config : Config} {signer : Signer} {d : Dataset}
  {tree : Commitment.Tree} {signature : Octets} {r : Resolver} {p : Program} {b : Branch}
  {c : Candidate}

theorem Resolver.ofDataset_ok (opened : Resolver.ofDataset d config = .ok r) :
    r = d.resolver config := by
  obtain ⟨_, _, made⟩ := bind_ok_iff.1 opened
  exact (pure_ok_iff.1 made).symm

/-- Every quad of a signed dataset fills a slot, whatever configuration the dataset is opened
under. -/
theorem Dataset.SignedBy.fills (s : d.SignedBy quads signedUnder signer tree signature) {k : Nat}
    (inside : k < d.quads.length) : ∃ slot, (d.resolver config).slot? k = some slot := by
  obtain ⟨slot, _, filled, _⟩ := s.slot_some inside
  exact ⟨slot, filled⟩

section Compiled

variable {query : NormalQuery} {fragments : List Fragment}

theorem Program.Compiles.candidates (compiles : p.Compiles config query fragments)
    (member : b ∈ p.branches) :
    Candidate.ofBranch (.ofDataset d) config.encoder b =
      .ok ((d.resolver config).candidates b) := by
  obtain ⟨f, _, t, linked, traces⟩ := compiles.traces member
  exact (d.resolver config).ofBranch_candidates (Candidate.ofBranch_ok (.ofDataset d)
    fun q inside position term => traces.encodable_constant inside)

theorem Program.Compiles.exceeding_term (compiles : p.Compiles config query fragments)
    (member : b ∈ p.branches) (among : c ∈ (d.resolver config).candidates b) {key : String}
    {value : Term} (held : c.row.get? key = some value)
    (exceeds : value.Exceeds config.maxLiteralBytes) :
    ∃ quad ∈ d.quads, ∃ position, quad.get? position = some value := by
  obtain ⟨f, _, t, linked, traces⟩ := compiles.traces member
  rcases (Candidate.drawn (compiles.candidates member) among).2 key value held with
    inQuad | ⟨x, inside, source⟩
  · exact inQuad
  · exact absurd exceeds (Encoder.encodable_iff.1 (traces.encodable_source inside source))

theorem Program.Compiles.fills (compiles : p.Compiles config query fragments)
    (member : b ∈ p.branches) (s : d.SignedBy quads signedUnder signer tree signature)
    (among : c ∈ (d.resolver config).candidates b) (nonempty : 0 < d.quads.length) :
    ∀ i ∈ Resolver.padded p.width c.quads, ∃ slot, (d.resolver config).slot? i = some slot := by
  intro k padding
  have inside := (Candidate.drawn (compiles.candidates member) among).1
  refine s.fills ?_
  simp only [Resolver.padded, List.mem_map, List.mem_range, List.getD_eq_getElem?_getD] at padding
  obtain ⟨place, _, rfl⟩ := padding
  cases found : c.quads[place]? with
  | some k => exact inside k (List.mem_of_getElem? found)
  | none =>
    cases first : c.quads with
    | nil => simpa using nonempty
    | cons k rest => exact inside k (by simp [first])

end Compiled

end Signed

/-- Over a dataset that was signed under any configuration, and for a program that was compiled
under the resolver's own, every candidate is resolved by itself unless one of them is to publish a
literal over the limit. Then the resolution fails. None of them is where the dataset was signed
under a limit that is not above the resolver's. -/
theorem candidates_resolved_separately (quads : List Quad) (signedUnder config : Config)
    (signer : Signer) (d : Dataset) (r : Resolver) (query : NormalQuery) (p : Program)
    (signed : Dataset.sign quads signedUnder signer = .ok d)
    (opened : Resolver.ofDataset d config = .ok r)
    (compiled : Program.ofNormal config query = .ok p) :
    (¬r.PublishesOverlong p → r.resolve p = .ok (r.separately p)) ∧
      (r.PublishesOverlong p → ∃ length, config.maxLiteralBytes < length ∧
        r.resolve p = .error (.literalTooLong length config.maxLiteralBytes)) ∧
      (signedUnder.maxLiteralBytes ≤ config.maxLiteralBytes → ¬r.PublishesOverlong p) := by
  obtain ⟨tree, signature, s⟩ := Dataset.sign_ok signed
  obtain ⟨fragments, compiles⟩ := Program.ofNormal_ok compiled
  obtain rfl := Resolver.ofDataset_ok opened
  have branches : ∀ b ∈ p.branches, ∃ cs,
      Candidate.ofBranch (d.resolver config).index (d.resolver config).encoder b = .ok cs :=
    fun b member => ⟨_, compiles.candidates member⟩
  refine ⟨Resolver.resolve_separately branches, ?_, ?_⟩
  · rintro ⟨b, member, c, among, publishes⟩
    obtain ⟨_, name, _, value, held, exceeds⟩ := id publishes
    obtain ⟨quad, inside, _⟩ := compiles.exceeding_term member among held exceeds
    have filled := compiles.fills member s among (List.length_pos_of_mem inside)
    obtain ⟨branch, numbered⟩ := List.getElem?_of_mem member
    obtain ⟨reason, failed, fatal⟩ := Resolver.witness_of_publishes branch publishes filled
    cases resolved : (d.resolver config).resolve p with
    | ok resolution =>
      obtain ⟨a, assessed⟩ := Resolver.resolve_assesses resolved numbered among
      simp [Resolver.assess, failed, fatal] at assessed
    | error fault =>
      obtain ⟨length, long, rfl⟩ := Resolver.resolve_error branches resolved
      exact ⟨length, long, rfl⟩
  · rintro within ⟨b, member, c, among, _, name, _, value, held, exceeds⟩
    obtain ⟨quad, inside, position, placed⟩ := compiles.exceeding_term member among held exceeds
    have short := Encoder.encodable_iff.1 (s.encodedBy.encodable inside placed)
    cases value with
    | literal text lang datatype => exact short (Nat.lt_of_le_of_lt within exceeds)
    | iri | blank | var | defaultGraph => exact exceeds

/-- Under the limit that the sample quad was signed under, every candidate is resolved by itself. -/
theorem candidates_resolved_separately_sample :
    Dataset.sign [sampleQuad] sampleConfig sampleSigner = .ok sampleDataset ∧
    ∃ r query p, Resolver.ofDataset sampleDataset sampleConfig = .ok r ∧
      Program.ofNormal sampleConfig query = .ok p ∧ ¬r.PublishesOverlong p ∧
      r.resolve p = .ok (r.separately p) := by
  obtain ⟨p, compiled⟩ := sample_compiles
  obtain ⟨query, normal⟩ := Program.compile_ok compiled
  have opened : Resolver.ofDataset sampleDataset sampleConfig =
      .ok (sampleDataset.resolver sampleConfig) := rfl
  obtain ⟨separate, _, within⟩ := candidates_resolved_separately [sampleQuad] sampleConfig
    sampleConfig sampleSigner sampleDataset _ query p sample_signs opened normal
  have fits := within (Nat.le_refl _)
  exact ⟨sample_signs, _, query, p, opened, normal, fits, separate fits⟩

/-! ## Two sample literals -/

def sampleTightConfig : Config := { sampleConfig with maxLiteralBytes := 3 }

def sampleObjectsText : String := "SELECT ?o WHERE \x7b ?s ?p ?o \x7d"

def sampleLiterals : List Quad :=
  [⟨.iri "http://e/a", .iri "http://e/p", .literal "abcdef" none xsdString, .defaultGraph⟩,
    ⟨.iri "http://e/b", .iri "http://e/p", .literal "xy" none xsdString, .defaultGraph⟩]

/-- A signer that knows the signature of the root over these quads, and gives it for every
message. -/
def sampleLiteralsSigner : Signer where
  scheme := .secp256k1Ecdsa
  publicKey := Octets.ofNatBig 33
    0x03ea11b218339d8d761299c4f446ca481e67be8da4e0d7e746cc1a6f1310dc7409
  sign _ := .ok (
    Octets.ofNatBig 32 0xb8cd3b71fdcf865e2a115a8b35ab5da41bdc87e6329ab5de78fa35cb4fd9a21e
      ++ Octets.ofNatBig 32 0x7dbe208b0e74bd26a5e3cc019759320ddd18ebf40aa58f5ee6a4a1bf59945639)

def sampleLiteralsOpened : Result (Dataset × Resolver × Program) := do
  let d ← Dataset.sign sampleLiterals sampleConfig sampleLiteralsSigner
  let r ← Resolver.ofDataset d sampleTightConfig
  return (d, r, ← Program.compile sampleTightConfig sampleObjectsText)

/-- Whether a resolution ends with a literal of six octets, although a candidate has a witness. -/
def endsBesideWitness (r : Resolver) (p : Program) : Bool :=
  (match r.resolve p with
    | .error (.literalTooLong length limit) => length == 6 && limit == 3
    | _ => false) &&
  p.branches.any fun b => (r.candidates b).any fun c => (r.witness p 0 b.hints c).isOk

set_option maxRecDepth 100000 in
theorem sampleLiterals_end :
    sampleLiteralsOpened.toOption.any (fun (_, r, p) => endsBesideWitness r p) = true := by
  decide +kernel

/-- A literal of six octets that is to be published ends the resolution, although the candidate
beside it has a witness. -/
theorem long_literal_ends_resolution :
    ∃ d r p, Dataset.sign sampleLiterals sampleConfig sampleLiteralsSigner = .ok d ∧
      Resolver.ofDataset d sampleTightConfig = .ok r ∧
      Program.compile sampleTightConfig sampleObjectsText = .ok p ∧
      r.resolve p = .error (.literalTooLong 6 3) ∧
      ∃ b ∈ p.branches, ∃ c ∈ r.candidates b, ∃ w, r.witness p 0 b.hints c = .ok w := by
  obtain ⟨⟨d, r, p⟩, opened, ends⟩ := exists_ok_of_any sampleLiterals_end
  obtain ⟨_, signed, opened⟩ := bind_ok_iff.1 opened
  obtain ⟨_, fits, opened⟩ := bind_ok_iff.1 opened
  obtain ⟨_, compiled, opened⟩ := bind_ok_iff.1 opened
  obtain ⟨rfl, rfl, rfl⟩ : _ ∧ _ ∧ _ := by simpa using pure_ok_iff.1 opened
  obtain ⟨stops, beside⟩ := Bool.and_eq_true_iff.1 ends
  refine ⟨_, _, _, signed, fits, compiled, ?_, ?_⟩
  · split at stops
    next length limit failed =>
      obtain ⟨rfl, rfl⟩ : length = 6 ∧ limit = 3 := by simpa using stops
      exact failed
    next => cases stops
  · obtain ⟨b, member, found⟩ := List.any_eq_true.1 beside
    obtain ⟨c, among, built⟩ := List.any_eq_true.1 found
    exact ⟨b, member, c, among, exists_ok_of_isOk built⟩

end AttestedQuery
