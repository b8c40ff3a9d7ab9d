import AttestedQuery.Proofs.BoundRows
import AttestedQuery.Proofs.Integrity
import AttestedQuery.Proofs.JoinedTuples
import AttestedQuery.Proofs.SurfacedRows
import Mathlib.Data.Set.Card

/-!
# How many candidates there are

The join of a branch makes one row for each tuple of quads that fits its patterns. The extensions of
the branch drop the tuples that contradict them, and nothing records these. Every tuple that is left
is accepted, skipped, or rejected.
-/

set_option autoImplicit false

namespace AttestedQuery

/-! ## Encodings under other limits -/

theorem QuadOf.mapM_imp {α β ε : Type} {f g : α → Except ε β} {q : QuadOf α} {r : QuadOf β}
    (each : ∀ x y, f x = .ok y → g x = .ok y) (computed : q.mapM f = .ok r) : q.mapM g = .ok r := by
  obtain ⟨subject, predicate, object, graph⟩ := mapM_ok_iff.1 computed
  exact mapM_ok_iff.2 ⟨each _ _ subject, each _ _ predicate, each _ _ object, each _ _ graph⟩

namespace Encoder

def upTo (e : Encoder) (limit : Nat) : Encoder := { e with maxLiteralBytes := limit }

/-- Terms with one encoding, where a literal may be of any length. -/
def SameHash (e : Encoder) (a b : Term) : Prop := ∃ limit, (e.upTo limit).SameCode a b

section UpTo

variable {e : Encoder} {limit other : Nat} {t : Term} {code : Field}

theorem literalParts_upTo (higher : e.maxLiteralBytes ≤ limit) {value : String}
    {lang : Option String} {datatype : String} {parts : LiteralParts}
    (coded : e.literalParts value lang datatype = .ok parts) :
    (e.upTo limit).literalParts value lang datatype = .ok parts := by
  unfold literalParts at coded ⊢
  split at coded
  next => cases coded
  next short =>
    rw [if_neg (by change ¬_ > limit; omega)]
    exact coded

theorem encode_upTo (higher : e.maxLiteralBytes ≤ limit) (encodes : e.encode t = .ok code) :
    (e.upTo limit).encode t = .ok code := by
  cases t with
  | literal value lang datatype =>
    obtain ⟨_, inner, rfl⟩ := map_ok_iff.1 encodes
    obtain ⟨parts, coded, rfl⟩ := map_ok_iff.1 inner
    exact map_ok_iff.2 ⟨_, map_ok_iff.2 ⟨parts, literalParts_upTo higher coded, rfl⟩, rfl⟩
  | iri | blank | var | defaultGraph => exact encodes

theorem encode_unique {x y : Field} (first : (e.upTo limit).encode t = .ok x)
    (second : (e.upTo other).encode t = .ok y) : x = y := by
  have left := encode_upTo (e := e.upTo limit) (Nat.le_max_left limit other) first
  have right := encode_upTo (e := e.upTo other) (Nat.le_max_right limit other) second
  exact Except.ok.inj (left.symm.trans right)

theorem SameHash.sameCode {a b : Term} (same : e.SameHash a b)
    (first : ∃ code, (e.upTo limit).encode a = .ok code)
    (second : ∃ code, (e.upTo limit).encode b = .ok code) : (e.upTo limit).SameCode a b := by
  obtain ⟨other, z, left, right⟩ := same
  obtain ⟨x, encodes⟩ := first
  obtain ⟨y, encodesOther⟩ := second
  obtain rfl := encode_unique encodes left
  obtain rfl := encode_unique encodesOther right
  exact ⟨_, encodes, encodesOther⟩

theorem constants_upTo (higher : e.maxLiteralBytes ≤ limit) {p : Pattern}
    {consts : QuadOf (Option Field)} (coded : Candidate.constants e p = .ok consts) :
    Candidate.constants (e.upTo limit) p = .ok consts := by
  refine QuadOf.mapM_imp (fun position const here => ?_) coded
  rcases position with _ | term
  · exact here
  · cases term with
    | const value =>
      obtain ⟨code, encodes, rfl⟩ := map_ok_iff.1 here
      exact map_ok_iff.2 ⟨code, encode_upTo higher encodes, rfl⟩
    | _ => exact here

theorem encodedBy_upTo {d : Dataset} (higher : e.maxLiteralBytes ≤ limit)
    (encoded : d.EncodedBy e) : d.EncodedBy (e.upTo limit) := by
  refine (mapM_ok_iff _ _ _).2 (((mapM_ok_iff _ _ _).1 encoded).imp fun quad codes here => ?_)
  exact QuadOf.mapM_imp (fun term code => encode_upTo higher) here

end UpTo

end Encoder

/-! ## Tuples of quads -/

namespace Branch

def FitsIn (b : Branch) (d : Dataset) (e : Encoder) (row : Row) (tuple : List Nat) : Prop :=
  List.Forall₂ (fun p i => ∃ quad, d.quads[i]? = some quad ∧ p.Fits e.SameHash row quad)
    b.patterns tuple

/-- The tuples of quads that match the patterns of a branch. -/
def matched (b : Branch) (d : Dataset) (e : Encoder) : Set (List Nat) :=
  {tuple | ∃ row, b.FitsIn d e row tuple}

/-- The tuples that match the patterns of a branch but none of whose rows gives every extension the
value of its source. -/
def contradicted (b : Branch) (d : Dataset) (e : Encoder) : Set (List Nat) :=
  {tuple ∈ b.matched d e | ∀ row, b.FitsIn d e row tuple → ∃ x ∈ b.extensions, ¬x.Holds row}

end Branch

namespace Resolver

def joins (r : Resolver) (b : Branch) : List Candidate.Draft :=
  let pairs := b.patterns.mapM fun p =>
    (Candidate.constants r.encoder p).map fun consts => (p, consts)
  (pairs.toOption.map (Candidate.joined r.index)).getD []

/-- Whether the witness of a candidate satisfies everything that its branch asserts. -/
def passes (r : Resolver) (p : Program) (queued : Nat × Branch × Candidate) : Bool :=
  (r.witness p queued.1 queued.2.1.hints queued.2.2).toOption.any
    fun w => r.accepts w queued.2.1.assertion

/-- The number of candidates that pass every constraint. -/
def passing (r : Resolver) (p : Program) : Nat := (r.queue p).countP (r.passes p)

/-- The number of candidates that have a witness and do not pass. -/
def ruledOut (r : Resolver) (p : Program) : Nat :=
  (r.queue p).countP fun queued =>
    (r.witness p queued.1 queued.2.1.hints queued.2.2).isOk && !r.passes p queued

theorem candidates_eq (r : Resolver) (b : Branch) :
    r.candidates b = (r.joins b).filterMap fun draft =>
      (b.extensions.foldlM Candidate.applyExtension draft.row).map fun row =>
        ⟨row, draft.quads⟩ := by
  unfold candidates joins Candidate.ofBranch
  cases b.patterns.mapM fun p => (Candidate.constants r.encoder p).map fun consts => (p, consts) <;>
    rfl

theorem applyExtension_within {x : Extension} {row target : Row} (within : row.Within target)
    (holds : x.Holds target) :
    ∃ next, Candidate.applyExtension row x = some next ∧ next.Within target := by
  obtain ⟨value, given, named⟩ := holds
  unfold Candidate.applyExtension
  cases source : Candidate.sourceOf row x.source with
  | none => exact ⟨row, rfl, within⟩
  | some other =>
    obtain rfl := Option.some.inj ((Candidate.sourceOf_within within source).symm.trans given)
    cases held : row.get? x.name with
    | some bound =>
      obtain rfl := Option.some.inj ((within x.name bound held).symm.trans named)
      exact ⟨row, if_pos rfl, within⟩
    | none =>
      refine ⟨row.insert x.name other, rfl, fun key value found => ?_⟩
      rw [KeyMap.get_insert] at found
      split at found
      next same => exact same ▸ named.trans found
      next => exact within key value found

theorem foldlM_within {xs : List Extension} {row target : Row} (within : row.Within target)
    (holds : ∀ x ∈ xs, x.Holds target) :
    ∃ next, xs.foldlM Candidate.applyExtension row = some next := by
  induction xs generalizing row with
  | nil => exact ⟨row, rfl⟩
  | cons x rest induction =>
    obtain ⟨here, later⟩ := List.forall_mem_cons.1 holds
    obtain ⟨middle, applied, inside⟩ := applyExtension_within within here
    obtain ⟨next, others⟩ := induction inside later
    exact ⟨next, by rw [List.foldlM_cons, applied]; exact others⟩

theorem nodup_joins (r : Resolver) (b : Branch) (d : Dataset) (indexed : r.index = .ofDataset d) :
    ((r.joins b).map (·.quads)).Nodup := by
  unfold joins
  rw [indexed]
  cases b.patterns.mapM fun p =>
    (Candidate.constants r.encoder p).map fun consts => (p, consts) with
  | error fault => exact List.nodup_nil
  | ok pairs =>
    rw [List.Nodup, List.pairwise_map]
    exact (Candidate.ordered_joined d pairs).ascending.imp fun less => ne_of_lt less

/-- A branch whose constants have encodings, over a dataset whose stored encodings are those of a
limit that is not below the encoder's. -/
structure Encodes (e : Encoder) (d : Dataset) (b : Branch) (limit : Nat) : Prop where
  higher : e.maxLiteralBytes ≤ limit
  stored : d.EncodedBy (e.upTo limit)
  constants : ∀ p ∈ b.patterns, ∀ position term,
    p.positions.get? position = some (some (.const term)) → ∃ code, e.encode term = .ok code

section Join

variable {d : Dataset} {config : Config} {limit : Nat} {f : Fragment} {b : Branch}
  {start final : Tracing} {row : Row} {tuple : List Nat}

theorem mem_joins_iff (encodes : Encodes config.encoder d b limit) (draft : Candidate.Draft) :
    draft ∈ (d.resolver config).joins b ↔
      draft.Covers d (config.encoder.upTo limit) b.patterns := by
  obtain ⟨candidates, made⟩ := Candidate.ofBranch_ok (.ofDataset d) encodes.constants
  obtain ⟨pairs, paired, _⟩ := bind_ok_iff.1 made
  obtain ⟨patterns, constants⟩ := Candidate.paired_ok paired
  have all : (d.resolver config).joins b = Candidate.joined (.ofDataset d) pairs :=
    congrArg (fun made => (made.toOption.map (Candidate.joined (.ofDataset d))).getD []) paired
  rw [all, ← patterns]
  exact Candidate.mem_joined_iff encodes.stored
    (fun pair member => Encoder.constants_upTo encodes.higher (constants pair member)) draft

theorem fitsIn_iff (encodes : Encodes config.encoder d b limit) :
    b.FitsIn d config.encoder row tuple ↔
      List.Forall₂ (fun p i => ∃ quad, d.quads[i]? = some quad ∧
        p.Fits (config.encoder.upTo limit).SameCode row quad) b.patterns tuple := by
  constructor
  · intro fits
    refine ((List.forall₂_and_left _ _).2 ⟨fun p member => member, fits⟩).imp ?_
    intro p i ⟨member, quad, found, fits⟩
    refine ⟨quad, found, fun position term held asked here => ?_, fits.key⟩
    obtain ⟨code, coded⟩ := encodes.constants p member position term asked
    exact (fits.constant position term held asked here).sameCode
      ⟨code, Encoder.encode_upTo encodes.higher coded⟩
      (encodes.stored.encodable (List.mem_of_getElem? found) here)
  · intro fits
    refine fits.imp fun p i ⟨quad, found, fits⟩ => ⟨quad, found, ⟨?_, fits.key⟩⟩
    exact fun position term held asked here =>
      ⟨limit, fits.constant position term held asked here⟩

theorem exists_joins (encodes : Encodes config.encoder d b limit)
    (fits : b.FitsIn d config.encoder row tuple) :
    ∃ draft ∈ (d.resolver config).joins b, draft.quads = tuple ∧ draft.row.Within row := by
  obtain ⟨draft, covers, within, quads⟩ :=
    Candidate.exists_covers_at encodes.stored ((fitsIn_iff encodes).1 fits)
  exact ⟨draft, (mem_joins_iff encodes draft).2 covers, quads, within⟩

theorem matched_eq (encodes : Encodes config.encoder d b limit) :
    b.matched d config.encoder = {tuple | tuple ∈ ((d.resolver config).joins b).map (·.quads)} := by
  ext tuple
  constructor
  · rintro ⟨row, fits⟩
    obtain ⟨draft, member, rfl, _⟩ := exists_joins encodes fits
    exact List.mem_map_of_mem member
  · intro member
    obtain ⟨draft, joins, rfl⟩ := List.mem_map.1 member
    exact ⟨draft.row, (fitsIn_iff encodes).2 ((mem_joins_iff encodes draft).1 joins).fits⟩

/-- The extensions drop a draft exactly where its tuple contradicts them. -/
theorem contradicted_iff (encodes : Encodes config.encoder d b limit)
    (applies : b.Applies config.encoder f start final) {draft : Candidate.Draft}
    (joins : draft ∈ (d.resolver config).joins b) :
    draft.quads ∈ b.contradicted d config.encoder ↔
      b.extensions.foldlM Candidate.applyExtension draft.row = none := by
  have covers := (mem_joins_iff encodes draft).1 joins
  constructor
  · rintro ⟨_, contradicts⟩
    rw [Option.eq_none_iff_forall_ne_some]
    intro target extended
    have keys (key : String) : (draft.row.get? key).isSome ↔ (start.sources.get? key).isSome := by
      rw [covers.keys, Tracing.isSome_ofPatterns applies.traced, applies.patterns]
    obtain ⟨within, holds, _⟩ :=
      (Candidate.foldlM_applyExtension applies.extensions keys).1 extended
    have fits : b.FitsIn d config.encoder target draft.quads := by
      refine (fitsIn_iff encodes).2 (Candidate.fits_congr covers.fits fun p inside key keyed => ?_)
      obtain ⟨value, held⟩ := Option.isSome_iff_exists.1 ((covers.keys key).2 ⟨p, inside, keyed⟩)
      rw [held]
      exact within key value held
    obtain ⟨x, member, fails⟩ := contradicts target fits
    exact fails (holds x member)
  · intro dropped
    have matched : draft.quads ∈ b.matched d config.encoder := by
      rw [matched_eq encodes]
      exact List.mem_map_of_mem joins
    refine ⟨matched, fun row fits => ?_⟩
    by_contra none
    have agrees : ∀ x ∈ b.extensions, x.Holds row := fun x member =>
      by_contra fun fails => none ⟨x, member, fails⟩
    -- The draft is the only one with its tuple, so that it lies below the row.
    obtain ⟨other, among, same, within⟩ := exists_joins encodes fits
    obtain rfl : other = draft := List.inj_on_of_nodup_map (nodup_joins _ b d rfl) among joins same
    obtain ⟨next, extended⟩ := foldlM_within within agrees
    rw [dropped] at extended
    cases extended

theorem ncard_mem_of_nodup {tuples : List (List Nat)} (nodup : tuples.Nodup) :
    {tuple | tuple ∈ tuples}.ncard = tuples.length := by
  classical
  rw [← List.coe_toFinset, Set.ncard_coe_finset, List.toFinset_card_of_nodup nodup]

theorem ncard_matched (encodes : Encodes config.encoder d b limit) :
    (b.matched d config.encoder).ncard = ((d.resolver config).joins b).length := by
  rw [matched_eq encodes, ncard_mem_of_nodup (nodup_joins _ b d rfl), List.length_map]

theorem ncard_contradicted (encodes : Encodes config.encoder d b limit)
    (applies : b.Applies config.encoder f start final) :
    (b.contradicted d config.encoder).ncard = ((d.resolver config).joins b).countP fun draft =>
      (b.extensions.foldlM Candidate.applyExtension draft.row).isNone := by
  let dropped (draft : Candidate.Draft) : Bool :=
    (b.extensions.foldlM Candidate.applyExtension draft.row).isNone
  have same : b.contradicted d config.encoder =
      {tuple | tuple ∈ (((d.resolver config).joins b).filter dropped).map (·.quads)} := by
    ext tuple
    constructor
    · intro contradicts
      have matched := contradicts.1
      rw [matched_eq encodes] at matched
      obtain ⟨draft, joins, rfl⟩ := List.mem_map.1 matched
      have none := (contradicted_iff encodes applies joins).1 contradicts
      exact List.mem_map_of_mem (List.mem_filter.2 ⟨joins, Option.isNone_iff_eq_none.2 none⟩)
    · intro member
      obtain ⟨draft, kept, rfl⟩ := List.mem_map.1 member
      obtain ⟨joins, none⟩ := List.mem_filter.1 kept
      exact (contradicted_iff encodes applies joins).2 (Option.isNone_iff_eq_none.1 none)
  have nodup : ((((d.resolver config).joins b).filter dropped).map (·.quads)).Nodup :=
    (nodup_joins _ b d rfl).sublist (List.filter_sublist.map _)
  rw [same, ncard_mem_of_nodup nodup, List.length_map, ← List.countP_eq_length_filter]

theorem ncard_matched_eq_add (encodes : Encodes config.encoder d b limit)
    (applies : b.Applies config.encoder f start final) :
    (b.matched d config.encoder).ncard =
      ((d.resolver config).candidates b).length + (b.contradicted d config.encoder).ncard := by
  rw [ncard_matched encodes, ncard_contradicted encodes applies, candidates_eq,
    List.length_filterMap_eq_countP, List.length_eq_countP_add_countP fun draft =>
      ((b.extensions.foldlM Candidate.applyExtension draft.row).map fun row =>
        (⟨row, draft.quads⟩ : Candidate)).isSome]
  congr 1
  refine List.countP_congr fun draft _ => ?_
  simp

theorem finite_matched (encodes : Encodes config.encoder d b limit) :
    (b.matched d config.encoder).Finite := by
  rw [matched_eq encodes]
  exact List.finite_toSet _

end Join

/-! ## What becomes of the candidates -/

section Outcomes

variable {r : Resolver} {p : Program} {i : Nat} {b : Branch} {c : Candidate}

theorem passes_iff :
    r.passes p (i, b, c) = true ↔ (r.attempt p i b c).verdict.witness?.isSome = true := by
  have accepted : (r.attempt p i b c).verdict.witness?.isSome = true ↔
      ∃ w, (r.attempt p i b c).verdict = .accepted w := by
    cases (r.attempt p i b c).verdict <;> simp [Verdict.witness?]
  rw [accepted]
  simp only [attempt_accepted_iff]
  constructor
  · intro passing
    obtain ⟨w, built, accepts⟩ := exists_ok_of_any passing
    obtain ⟨structural, filters⟩ := holds_assertion_iff.1 (accepts_iff.1 accepts)
    exact ⟨w, ⟨built, structural⟩, filters⟩
  · rintro ⟨w, ⟨built, structural⟩, filters⟩
    simp only [passes, built]
    exact accepts_iff.2 (holds_assertion_iff.2 ⟨structural, filters⟩)

theorem isRejected_judge (w : Witness) :
    (r.judge b w).isRejected = !(r.judge b w).witness?.isSome := by
  unfold judge
  split
  next => split <;> rfl
  next => rfl

theorem isRejected_attempt : (r.attempt p i b c).verdict.isRejected =
    ((r.witness p i b.hints c).isOk && !r.passes p (i, b, c)) := by
  rw [Bool.eq_iff_iff.2 passes_iff]
  cases built : r.witness p i b.hints c with
  | ok w => simp only [attempt, built, Except.isOk, Except.toBool, Bool.true_and, isRejected_judge]
  | error fault => simp only [attempt, built, Except.isOk, Except.toBool, Verdict.isRejected,
      Bool.false_and]

end Outcomes

theorem separately_rejected (r : Resolver) (p : Program) :
    (r.separately p).rejected = r.ruledOut p := by
  change (r.attempts p).countP _ = _
  rw [attempts_eq, List.countP_map, ruledOut]
  exact List.countP_congr fun queued _ => Bool.eq_iff_iff.1 isRejected_attempt

theorem length_queue (r : Resolver) (p : Program) : (r.queue p).length =
    r.passing p + (r.separately p).rejected + (r.separately p).skipped.length := by
  have passing : r.passing p = (r.attempts p).countP fun a => a.verdict.witness?.isSome := by
    rw [passing, attempts_eq, List.countP_map]
    exact List.countP_congr fun queued _ => passes_iff
  have all : (r.queue p).length = (r.attempts p).length := by rw [attempts_eq, List.length_map]
  rw [passing, all, separately]
  dsimp only
  generalize r.attempts p = assessed
  induction assessed with
  | nil => rfl
  | cons a rest induction =>
    obtain ⟨branch, row, verdict⟩ := a
    cases verdict <;> simp [Verdict.witness?, Verdict.isRejected] at induction ⊢ <;> omega

theorem length_queue_eq_sum (r : Resolver) (p : Program) :
    (r.queue p).length = (p.branches.map fun b => (r.candidates b).length).sum := by
  simp only [queue, List.length_flatMap, List.length_map]
  conv_rhs => rw [← List.zipIdx_map_fst 0 p.branches, List.map_map]
  rfl

end Resolver

section Signed

variable {quads : List Quad} {signedUnder config : Config} {signer : Signer} {d : Dataset}
  {tree : Commitment.Tree} {signature : Octets} {query : NormalQuery} {p : Program}
  {fragments : List Fragment} {b : Branch}

/-- The branches of a compiled program over a dataset that was signed under any configuration. -/
theorem Program.Compiles.encodes (compiles : p.Compiles config query fragments)
    (s : d.SignedBy quads signedUnder signer tree signature)
    (fits : d.checkCompatible config = .ok ()) (member : b ∈ p.branches) :
    Resolver.Encodes config.encoder d b
      (max config.maxLiteralBytes signedUnder.maxLiteralBytes) where
  higher := Nat.le_max_left _ _
  stored := by
    have suite := (Dataset.checkCompatible_ok_iff.1 fits).1
    have hasher : signedUnder.hasher = config.hasher := by
      rw [Config.hasher, Config.hasher, ← suite, s.hashSuite]
    have higher := Nat.le_max_right config.maxLiteralBytes signedUnder.maxLiteralBytes
    have stored := Encoder.encodedBy_upTo higher s.encodedBy
    rwa [Encoder.upTo, Config.encoder, hasher] at stored
  constants p inside position term := by
    obtain ⟨f, _, t, linked, traces⟩ := compiles.traces member
    exact traces.encodable_constant inside

theorem Program.Compiles.sum_matched (compiles : p.Compiles config query fragments)
    (s : d.SignedBy quads signedUnder signer tree signature)
    (fits : d.checkCompatible config = .ok ()) :
    (p.branches.map fun b => (b.matched d config.encoder).ncard).sum =
      ((d.resolver config).queue p).length +
        (p.branches.map fun b => (b.contradicted d config.encoder).ncard).sum := by
  rw [Resolver.length_queue_eq_sum, ← List.sum_map_add]
  refine congrArg List.sum (List.map_congr_left fun b member => ?_)
  obtain ⟨f, t, linked, comes⟩ := compiles.exists_comes member
  obtain ⟨start, final, applies⟩ := comes.applies
  exact Resolver.ncard_matched_eq_add (compiles.encodes s fits member) applies

end Signed

/-- A tuple of quads that matches the patterns of a branch makes a candidate that passes every
constraint, is counted as rejected or is recorded as skipped, or it contradicts the extensions of
the branch and is not counted at all. -/
theorem candidates_counted_unless_contradicted (quads : List Quad) (signedUnder config : Config)
    (signer : Signer) (d : Dataset) (r : Resolver) (query : NormalQuery) (p : Program)
    (resolution : Resolution) (signed : Dataset.sign quads signedUnder signer = .ok d)
    (opened : Resolver.ofDataset d config = .ok r)
    (compiled : Program.ofNormal config query = .ok p)
    (resolved : r.resolve p = .ok resolution) :
    (∀ b ∈ p.branches, (b.matched d config.encoder).Finite) ∧
    resolution.rejected = r.ruledOut p ∧
    (p.branches.map fun b => (b.matched d config.encoder).ncard).sum =
      r.passing p + resolution.rejected + resolution.skipped.length +
        (p.branches.map fun b => (b.contradicted d config.encoder).ncard).sum ∧
    ((p.branches.map fun b => (b.matched d config.encoder).ncard).sum =
        r.passing p + resolution.rejected + resolution.skipped.length ↔
      ∀ b ∈ p.branches, b.contradicted d config.encoder = ∅) := by
  obtain ⟨tree, signature, s⟩ := Dataset.sign_ok signed
  obtain ⟨fragments, compiles⟩ := Program.ofNormal_ok compiled
  obtain ⟨_, fits, _⟩ := bind_ok_iff.1 opened
  obtain rfl := Resolver.ofDataset_ok opened
  obtain rfl := Resolver.resolve_eq resolved
  have finite : ∀ b ∈ p.branches, (b.matched d config.encoder).Finite :=
    fun b member => Resolver.finite_matched (compiles.encodes s fits member)
  have total := compiles.sum_matched s fits
  rw [Resolver.length_queue] at total
  refine ⟨finite, Resolver.separately_rejected _ p, total, ?_⟩
  rw [total, Nat.add_eq_left, List.sum_eq_zero_iff_forall_eq_nat, List.forall_mem_map]
  refine forall₂_congr fun b member => Set.ncard_eq_zero ?_
  exact (finite b member).subset fun tuple contradicts => contradicts.1

/-! ## A contradicted tuple -/

def sampleConflictText : String :=
  "SELECT * WHERE \x7b \x7b ?s ?p ?o \x7d \x7b BIND(<http://e/a> AS ?o) \x7d \x7d"

set_option maxRecDepth 100000 in
theorem sampleConflict_counts : (sampleOpened sampleConflictText).toOption.any (fun (r, p) =>
    (p.branches.map fun b => (r.joins b).length).sum == 1 && r.passing p == 0 &&
      (r.resolve p).toOption.any fun resolution =>
        resolution.rejected == 0 && resolution.skipped.length == 0) = true := by
  simp only [sampleOpened, Resolver.ofDataset, Program.compile, Program.ofNormal,
    Config.encoder_eq]
  decide +kernel

/-- One tuple matches the pattern, and nothing passes, is rejected or is skipped. -/
theorem sampleConflict_ok : ∃ r p resolution,
    Resolver.ofDataset sampleDataset sampleConfig = .ok r ∧
    Program.compile sampleConfig sampleConflictText = .ok p ∧ r.resolve p = .ok resolution ∧
    (p.branches.map fun b => (b.matched sampleDataset sampleConfig.encoder).ncard).sum = 1 ∧
    r.passing p = 0 ∧ resolution.rejected = 0 ∧ resolution.skipped.length = 0 := by
  obtain ⟨⟨r, p⟩, made, counts⟩ := exists_ok_of_any sampleConflict_counts
  obtain ⟨opened, compiled⟩ := sampleOpened_ok made
  obtain ⟨joined, found⟩ := Bool.and_eq_true_iff.1 counts
  obtain ⟨single, passing⟩ := Bool.and_eq_true_iff.1 joined
  obtain ⟨resolution, resolved, counts⟩ := exists_ok_of_any found
  obtain ⟨rejected, skipped⟩ := Bool.and_eq_true_iff.1 counts
  refine ⟨_, _, resolution, opened, compiled, resolved, ?_, eq_of_beq passing, eq_of_beq rejected,
    eq_of_beq skipped⟩
  obtain ⟨tree, signature, s⟩ := Dataset.sign_ok sample_signs
  obtain ⟨query, normal⟩ := Program.compile_ok compiled
  obtain ⟨fragments, compiles⟩ := Program.ofNormal_ok normal
  obtain ⟨_, fits, _⟩ := bind_ok_iff.1 opened
  obtain rfl := Resolver.ofDataset_ok opened
  rw [← eq_of_beq single]
  exact congrArg List.sum (List.map_congr_left fun b member =>
    Resolver.ncard_matched (compiles.encodes s fits member))

/-- The contradicted tuple is the only thing that matches the branch. -/
theorem candidates_counted_unless_contradicted_sample :
    Dataset.sign [sampleQuad] sampleConfig sampleSigner = .ok sampleDataset ∧
    ∃ r query p resolution, Resolver.ofDataset sampleDataset sampleConfig = .ok r ∧
      Program.ofNormal sampleConfig query = .ok p ∧ r.resolve p = .ok resolution ∧
      (p.branches.map fun b => (b.matched sampleDataset sampleConfig.encoder).ncard).sum = 1 ∧
      (p.branches.map fun b =>
        (b.contradicted sampleDataset sampleConfig.encoder).ncard).sum = 1 := by
  obtain ⟨r, p, resolution, opened, compiled, resolved, single, passing, rejected, skipped⟩ :=
    sampleConflict_ok
  obtain ⟨query, normal⟩ := Program.compile_ok compiled
  obtain ⟨_, _, total, _⟩ := candidates_counted_unless_contradicted [sampleQuad] sampleConfig
    sampleConfig sampleSigner sampleDataset r query p resolution sample_signs opened normal resolved
  refine ⟨sample_signs, r, query, p, resolution, opened, normal, resolved, single, ?_⟩
  rw [single, passing, rejected, skipped] at total
  simpa using total.symm

/-- A tuple that matches the only pattern of the query makes no candidate, and it is not counted as
rejected. -/
theorem contradicted_tuple_not_counted :
    ∃ r p resolution, Dataset.sign [sampleQuad] sampleConfig sampleSigner = .ok sampleDataset ∧
      Resolver.ofDataset sampleDataset sampleConfig = .ok r ∧
      Program.compile sampleConfig sampleConflictText = .ok p ∧ r.resolve p = .ok resolution ∧
      (p.branches.map fun b => (b.matched sampleDataset sampleConfig.encoder).ncard).sum ≠
        r.passing p + resolution.rejected + resolution.skipped.length := by
  obtain ⟨r, p, resolution, opened, compiled, resolved, single, passing, rejected, skipped⟩ :=
    sampleConflict_ok
  refine ⟨r, p, resolution, sample_signs, opened, compiled, resolved, ?_⟩
  rw [single, passing, rejected, skipped]
  decide

end AttestedQuery
