import AttestedQuery.Proofs.Solutions

/-!
# The tuples of a join

A join goes through tuples of quads, one quad for each pattern of a branch, by lookups of encodings
and by comparing terms; the equalities of the branch compare encodings between slots. Where distinct
terms have distinct encodings both speak of the same tuples, and the join lists them in
lexicographic order, each once.
-/

set_option autoImplicit false

namespace AttestedQuery

/-! ## The order of the join -/

/-- Tuples of one length keep their order when each gets one more member. -/
theorem append_lt_append {a b : List Nat} (earlier : a < b) (same : a.length = b.length)
    (i j : Nat) : a ++ [i] < b ++ [j] := by
  induction earlier with
  | nil => simp at same
  | rel less => exact List.Lex.rel less
  | cons _ induction => exact List.Lex.cons (induction (Nat.succ.inj same))

/-- Tuples that differ in their last member are in the order of the last members. -/
theorem append_lt_append_left (a : List Nat) {i j : Nat} (less : i < j) : a ++ [i] < a ++ [j] := by
  induction a with
  | nil => exact List.Lex.rel less
  | cons _ _ induction => exact List.Lex.cons induction

namespace Candidate

/-- Drafts with equally many quads, in the lexicographic order of their tuples. -/
structure Ordered (width : Nat) (drafts : List Draft) : Prop where
  length : ∀ draft ∈ drafts, draft.quads.length = width
  ascending : drafts.Pairwise fun a b => a.quads < b.quads

variable {d : Dataset} {e : Encoder} {p : Pattern} {consts : QuadOf (Option Field)}
  {draft next : Draft}

private theorem quads_of_bound {i : Nat} {found : Option Quad} {stored : Option (QuadOf Field)}
    (made : (do
      let quad ← found
      let codes ← stored
      let bound ← draft.bindQuad p quad codes
      return { bound with quads := bound.quads ++ [i] }) = some next) :
    next.quads = draft.quads ++ [i] := by
  obtain ⟨quad, _, made⟩ := Option.bind_eq_some_iff.1 made
  obtain ⟨codes, _, made⟩ := Option.bind_eq_some_iff.1 made
  obtain ⟨bound, binds, made⟩ := Option.bind_eq_some_iff.1 made
  obtain rfl := Option.some.inj made
  rw [(Draft.bindQuad_binds binds).quads]

theorem quads_extendBy (member : next ∈ extendBy (.ofDataset d) p consts draft) :
    ∃ i, next.quads = draft.quads ++ [i] := by
  obtain ⟨i, _, made⟩ := List.mem_filterMap.1 member
  exact ⟨i, quads_of_bound made⟩

theorem pairwise_extendBy (d : Dataset) (p : Pattern) (consts : QuadOf (Option Field))
    (draft : Draft) :
    (extendBy (.ofDataset d) p consts draft).Pairwise fun a b => a.quads < b.quads := by
  refine List.Pairwise.filterMap _ (fun i j less a first b second => ?_)
    (Dataset.Index.pairwise_candidates d (fixed draft p consts))
  rw [quads_of_bound first, quads_of_bound second]
  exact append_lt_append_left draft.quads less

theorem Ordered.extend {width : Nat} {drafts : List Draft} (ordered : Ordered width drafts)
    (d : Dataset) (p : Pattern) (consts : QuadOf (Option Field)) :
    Ordered (width + 1) (drafts.flatMap (extendBy (.ofDataset d) p consts)) where
  length next member := by
    obtain ⟨draft, among, member⟩ := List.mem_flatMap.1 member
    obtain ⟨i, quads⟩ := quads_extendBy member
    rw [quads, List.length_append, ordered.length draft among, List.length_singleton]
  ascending := by
    refine List.pairwise_flatMap.2 ⟨fun draft _ => pairwise_extendBy d p consts draft, ?_⟩
    refine ordered.ascending.imp_of_mem fun {a b} first second earlier x left y right => ?_
    obtain ⟨i, quads⟩ := quads_extendBy left
    obtain ⟨j, others⟩ := quads_extendBy right
    rw [quads, others]
    exact append_lt_append earlier
      ((ordered.length a first).trans (ordered.length b second).symm) i j

theorem ordered_joined (d : Dataset) (pairs : List (Pattern × QuadOf (Option Field))) :
    Ordered pairs.length (joined (.ofDataset d) pairs) := by
  induction pairs using List.reverseRecOn with
  | nil => exact ⟨by simp [joined, Draft.start], List.pairwise_singleton _ _⟩
  | append_singleton pairs pair induction =>
    rw [joined_append_singleton, List.length_append]
    exact induction.extend d pair.1 pair.2

theorem pairwise_ofBranch {b : Branch} {candidates : List Candidate}
    (made : ofBranch (.ofDataset d) e b = .ok candidates) :
    (candidates.map (·.quads)).Pairwise (· < ·) := by
  obtain ⟨pairs, _, whole⟩ := bind_ok_iff.1 made
  obtain rfl := pure_ok_iff.1 whole
  rw [List.pairwise_map]
  refine List.Pairwise.filterMap _ (fun a b earlier x first y second => ?_)
    (ordered_joined d pairs).ascending
  obtain ⟨_, _, rfl⟩ := Option.map_eq_some_iff.1 first
  obtain ⟨_, _, rfl⟩ := Option.map_eq_some_iff.1 second
  exact earlier

end Candidate

/-! ## Tuples over which the equalities hold -/

def View.ofSlots (slots : List (QuadOf Field)) : View := ⟨slots, KeyMap.empty, []⟩

/-- A tuple of quads, one for each pattern of a branch, over whose encodings all equalities of the
branch hold. -/
structure Branch.Ties (b : Branch) (h : Hasher) (d : Dataset) (tuple : List Nat) : Prop where
  length : tuple.length = b.patterns.length
  equalities : ∃ slots, List.Forall₂ (fun i codes => d.encoded[i]? = some codes) tuple slots ∧
    ∀ a ∈ b.equalities, (View.ofSlots slots).holds h a = .ok true

section Tuples

variable {d : Dataset} {e : Encoder} {h : Hasher} {projected : List String} {f : Fragment}
  {b : Branch} {t start final : Tracing} {linked : List Tracing.Place}
  {candidates : List Candidate} {tuple : List Nat} {slots : List (QuadOf Field)}

theorem View.shows_ofSlots (encoded : d.EncodedBy e)
    (stored : List.Forall₂ (fun i codes => d.encoded[i]? = some codes) tuple slots)
    {quads : List Quad} (found : List.Forall₂ (fun i quad => d.quads[i]? = some quad) tuple quads) :
    (View.ofSlots slots).Shows e quads := by
  intro place quad here
  obtain ⟨short, rfl⟩ := List.getElem?_eq_some_iff.1 here
  have inside : place < tuple.length := found.length_eq ▸ short
  have within : place < slots.length := stored.length_eq ▸ inside
  obtain ⟨codes, coded, encodes⟩ := encoded.codes (found.get inside short)
  obtain rfl := Option.some.inj ((stored.get inside within).symm.trans coded)
  exact ⟨_, List.getElem?_eq_getElem within, encodes⟩

theorem Candidate.ties (encoded : d.EncodedBy e) (applies : b.Applies e f start final)
    (traces : b.Traces e projected f t linked)
    (made : ofBranch (.ofDataset d) e b = .ok candidates) {c : Candidate}
    (member : c ∈ candidates) : b.Ties h d c.quads := by
  obtain ⟨inside, length, quads, matching, shows⟩ := exists_matches encoded applies made member
  obtain ⟨slots, stored⟩ : ∃ slots,
      List.Forall₂ (fun i codes => d.encoded[i]? = some codes) c.quads slots := by
    refine exists_forall₂ fun i among => ?_
    exact ⟨_, List.getElem?_eq_getElem (encoded.length.symm ▸ inside i among)⟩
  refine ⟨length, slots, stored, traces.equalities_hold (shows _ fun place i codes here coded => ?_)
    matching⟩
  obtain ⟨short, rfl⟩ := List.getElem?_eq_some_iff.1 here
  have within : place < slots.length := stored.length_eq ▸ short
  obtain rfl := Option.some.inj ((stored.get short within).symm.trans coded)
  exact List.getElem?_eq_getElem within

theorem Branch.Ties.exists_candidate (ties : b.Ties h d tuple) (encoded : d.EncodedBy e)
    (applies : b.Applies e f start final) (traces : b.Traces e projected f t linked)
    (distinct : e.Distinguishes (d.terms ++ b.constants))
    (made : Candidate.ofBranch (.ofDataset d) e b = .ok candidates) :
    ∃ c ∈ candidates, c.quads = tuple := by
  obtain ⟨slots, stored, equalities⟩ := ties.equalities
  obtain ⟨quads, found⟩ : ∃ quads,
      List.Forall₂ (fun i quad => d.quads[i]? = some quad) tuple quads := by
    refine exists_forall₂ fun i among => ?_
    obtain ⟨place, inside, rfl⟩ := List.getElem_of_mem among
    have coded := stored.get inside (stored.length_eq ▸ inside)
    have short := (List.getElem?_eq_some_iff.1 coded).1
    exact ⟨_, List.getElem?_eq_getElem (encoded.length ▸ short)⟩
  have terms : ∀ quad ∈ quads, quad ∈ d.quads := by
    intro quad among
    obtain ⟨place, inside, rfl⟩ := List.getElem_of_mem among
    exact List.mem_of_getElem? (found.get (found.length_eq ▸ inside) inside)
  have known : ∀ term ∈ b.known quads, term ∈ d.terms ++ b.constants := by
    intro term among
    refine (List.mem_append.1 among).elim (fun held => ?_) (List.mem_append_right _)
    obtain ⟨quad, inside, held⟩ := List.mem_flatMap.1 held
    exact List.mem_append_left _ (List.mem_flatMap.2 ⟨quad, terms quad inside, held⟩)
  have length : quads.length = b.patterns.length := found.length_eq.symm.trans ties.length
  obtain ⟨row, matching, _⟩ := traces.exists_reading (View.shows_ofSlots encoded stored found)
    length (fun x first y second => distinct x (known x first) y (known y second)) equalities
  have fits : List.Forall₂ (fun p i => ∃ quad, d.quads[i]? = some quad ∧
      p.Fits e.SameCode row quad) b.patterns tuple := by
    refine List.forall₂_iff_get.2 ⟨ties.length.symm, fun place inside short => ?_⟩
    have listed : place < quads.length := found.length_eq ▸ short
    have here := found.get short listed
    have exact := matching.fits.get inside listed
    refine ⟨_, here, ⟨fun position term held asked has => ?_, exact.key⟩⟩
    obtain rfl := exact.constant position term held asked has
    obtain ⟨code, encodes⟩ := encoded.encodable (List.mem_of_getElem? here) has
    exact ⟨code, encodes, encodes⟩
  obtain ⟨draft, covers, within, rfl⟩ := Candidate.exists_covers_at encoded fits
  have keys (key : String) : (draft.row.get? key).isSome ↔ (start.sources.get? key).isSome := by
    rw [covers.keys, Tracing.isSome_ofPatterns applies.traced, applies.patterns]
  have extended := (Candidate.foldlM_applyExtension applies.extensions keys).2
    ⟨within, matching.extended, fun key => by rw [matching.bound, applies.bound]⟩
  exact ⟨⟨row, draft.quads⟩,
    (Candidate.mem_ofBranch_iff encoded made _).2 ⟨draft, covers, extended, rfl⟩, rfl⟩

end Tuples

/-- The join of a branch lists the tuples of quads over whose encodings all equalities of the branch
hold, in lexicographic order and each once. -/
theorem join_lists_tied_tuples (quads : List Quad) (config : Config) (signer : Signer)
    (d : Dataset) (query : NormalQuery) (p : Program)
    (signed : Dataset.sign quads config signer = .ok d)
    (compiled : Program.ofNormal config query = .ok p)
    (distinct : config.encoder.Distinguishes (d.terms ++ p.constants)) (b : Branch)
    (member : b ∈ p.branches) :
    ∃ candidates, Candidate.ofBranch (.ofDataset d) config.encoder b = .ok candidates ∧
      (candidates.map (·.quads)).Pairwise (· < ·) ∧
      ∀ tuple, tuple ∈ candidates.map (·.quads) ↔ b.Ties config.hasher d tuple := by
  obtain ⟨tree, signature, s⟩ := Dataset.sign_ok signed
  obtain ⟨fragments, compiles⟩ := Program.ofNormal_ok compiled
  obtain ⟨i, branch⟩ := List.getElem?_of_mem member
  obtain ⟨f, t, linked, _, comes⟩ := compiles.of_branch branch
  have traces := comes.compiles.traces
  obtain ⟨start, final, applies⟩ := comes.applies
  obtain ⟨candidates, made⟩ := Candidate.ofBranch_ok (.ofDataset d)
    fun q inside position term => traces.encodable_constant inside
  refine ⟨candidates, made, Candidate.pairwise_ofBranch made, fun tuple => ⟨?_, fun ties => ?_⟩⟩
  · rw [List.mem_map]
    rintro ⟨c, among, rfl⟩
    exact Candidate.ties s.encodedBy applies traces made among
  · have known : ∀ term ∈ d.terms ++ b.constants, term ∈ d.terms ++ p.constants := by
      intro term among
      exact (List.mem_append.1 among).elim (List.mem_append_left _) fun constant =>
        List.mem_append_right _ (List.mem_flatMap.2 ⟨b, member, constant⟩)
    obtain ⟨c, among, rfl⟩ := ties.exists_candidate s.encodedBy applies traces
      (fun x first y second => distinct x (known x first) y (known y second)) made
    exact List.mem_map_of_mem among

/-- Two patterns that share the predicate, the second with a constant subject. -/
def samplePairs : Algebra :=
  .bgp [⟨.var "s", .var "p", .var "o", none⟩,
    ⟨.const (.iri "http://e/a"), .var "p", .var "x", some (.var "g")⟩]

set_option maxRecDepth 100000 in
theorem samplePairs_compiles : (sampleCompiles samplePairs.query).isOk = true := by decide +kernel

set_option maxRecDepth 100000 in
theorem samplePairs_single : (Program.ofNormal sampleConfig samplePairs.query).toOption.any
    (fun p => p.branches.length == 1) = true := by
  decide +kernel

/-- The join of the sample pairs over the sample quad. -/
theorem join_lists_tied_tuples_sample : ∃ p b,
    Dataset.sign [sampleQuad] sampleConfig sampleSigner = .ok sampleDataset ∧
    Program.ofNormal sampleConfig samplePairs.query = .ok p ∧
    sampleConfig.encoder.Distinguishes (sampleDataset.terms ++ p.constants) ∧ b ∈ p.branches ∧
    ∃ candidates,
      Candidate.ofBranch (.ofDataset sampleDataset) sampleConfig.encoder b = .ok candidates ∧
      (candidates.map (·.quads)).Pairwise (· < ·) ∧
      ∀ tuple, tuple ∈ candidates.map (·.quads) ↔
        b.Ties sampleConfig.hasher sampleDataset tuple := by
  obtain ⟨p, compiled, distinct⟩ := exists_sampleProgram samplePairs_compiles
  obtain ⟨again, made, single⟩ := exists_ok_of_any samplePairs_single
  obtain rfl := Except.ok.inj (compiled.symm.trans made)
  have member := List.getElem_mem (show 0 < p.branches.length by rw [eq_of_beq single]; decide)
  exact ⟨p, _, sample_signs, compiled, distinct, member,
    join_lists_tied_tuples [sampleQuad] sampleConfig sampleSigner sampleDataset samplePairs.query p
      sample_signs compiled distinct _ member⟩

end AttestedQuery
