import AttestedQuery.Proofs.Fitting
import Mathlib.Data.List.Induction

/-!
# Rows that quads give

The join of a branch finds exactly the rows that some quads of the dataset fit and that bind the
keys of the patterns and no others.
-/

set_option autoImplicit false

namespace AttestedQuery

namespace Candidate

/-! ## The join of some patterns -/

/-- A draft whose quads fit the patterns in its row, which binds their keys and no others. -/
structure Draft.Covers (d : Dataset) (e : Encoder) (patterns : List Pattern) (draft : Draft) :
    Prop where
  fits : List.Forall₂ (fun p i => ∃ quad, d.quads[i]? = some quad ∧
    p.Fits e.SameCode draft.row quad) patterns draft.quads
  keys : ∀ key, (draft.row.get? key).isSome ↔ ∃ p ∈ patterns, key ∈ p.keys
  encoded : draft.Encoded e

theorem constants_get {e : Encoder} {p : Pattern} {consts : QuadOf (Option Field)}
    (encoded : constants e p = .ok consts) {position : Nat} {term : Option PatternTerm}
    (found : p.positions.get? position = some term) :
    (∃ c code, term = some (.const c) ∧ consts.get? position = some (some code) ∧
        e.encode c = .ok code) ∨
      ((∀ c, term ≠ some (.const c)) ∧ consts.get? position = some none) := by
  obtain ⟨code, stored, read⟩ := QuadOf.mapM_get encoded found
  split at read
  next c =>
    obtain ⟨x, encodes, rfl⟩ := map_ok_iff.1 read
    exact Or.inl ⟨c, x, rfl, stored, encodes⟩
  next other =>
    obtain rfl := Except.ok.inj read
    exact Or.inr ⟨fun c equal => other c equal, stored⟩

theorem agrees_of_fits {e : Encoder} {p : Pattern} {consts : QuadOf (Option Field)} {draft : Draft}
    {row : Row} {quad : Quad} {codes : QuadOf Field} (constants : constants e p = .ok consts)
    (encoded : draft.Encoded e) (within : draft.row.Within row)
    (encodes : e.encodeQuad quad = .ok codes) (fits : p.Fits e.SameCode row quad) :
    Dataset.Index.agrees (fixed draft p consts) codes = true := by
  rw [Dataset.Index.agrees_iff]
  intro position value wanted
  simp only [fixed, QuadOf.get_map, QuadOf.get_zip, Option.map_eq_some_iff,
    Option.bind_eq_some_iff] at wanted
  obtain ⟨_, ⟨term, asked, const, stored, rfl⟩, wanted⟩ := wanted
  cases held : quad.get? position with
  | none =>
    have absent := QuadOf.get_isSome_iff p.positions quad position
    simp [asked, held] at absent
  | some heldTerm =>
    obtain ⟨code, here, encodesHeld⟩ := Encoder.encodeQuad_get encodes held
    rw [here]
    rcases constants_get constants asked with ⟨c, x, rfl, found, encodesConst⟩ | ⟨_, found⟩
    · obtain rfl := Option.some.inj (found.symm.trans stored)
      obtain rfl : x = value := by simpa using wanted
      obtain ⟨y, first, second⟩ := fits.constant position c heldTerm asked held
      rw [Except.ok.inj (encodesHeld.symm.trans second), Except.ok.inj (encodesConst.symm.trans first)]
    · obtain rfl := Option.some.inj (found.symm.trans stored)
      obtain ⟨key, asks, looked⟩ := Option.bind_eq_some_iff.1 wanted
      obtain ⟨term, rfl, named⟩ := Option.bind_eq_some_iff.1 asks
      have bound := fits.key position term key asked named
      rw [held] at bound
      cases drafted : draft.row.get? key with
      | none => simp [(encoded key).2 drafted] at looked
      | some other =>
        obtain ⟨x, kept, encodesKept⟩ := (encoded key).1 other drafted
        obtain rfl := Option.some.inj (kept.symm.trans looked)
        obtain rfl := Option.some.inj ((within key other drafted).symm.trans bound)
        rw [Except.ok.inj (encodesHeld.symm.trans encodesKept)]

section Drafts

variable {index : Dataset.Index} {draft next : Draft}

theorem exists_of_mem_extendBy {p : Pattern} {consts : QuadOf (Option Field)}
    (extended : next ∈ extendBy index p consts draft) : ∃ i quad bound,
      index.dataset.quads[i]? = some quad ∧ Draft.Binds draft bound (Draft.entriesOf p quad) ∧
        next = { bound with quads := draft.quads ++ [i] } := by
  obtain ⟨i, _, made⟩ := List.mem_filterMap.1 extended
  obtain ⟨quad, found, made⟩ := Option.bind_eq_some_iff.1 made
  obtain ⟨codes, _, made⟩ := Option.bind_eq_some_iff.1 made
  obtain ⟨bound, binding, made⟩ := Option.bind_eq_some_iff.1 made
  obtain rfl := Option.some.inj made
  have binds := Draft.bindQuad_binds binding
  exact ⟨i, quad, bound, found, binds, by rw [binds.quads]⟩

theorem joined_append_singleton (pairs : List (Pattern × QuadOf (Option Field)))
    (pair : Pattern × QuadOf (Option Field)) : joined index (pairs ++ [pair]) =
      (joined index pairs).flatMap (extendBy index pair.1 pair.2) := by
  rw [joined, List.foldl_append]
  rfl

theorem joined_induction {motive : List (Pattern × QuadOf (Option Field)) → Draft → Prop}
    (start : motive [] .start)
    (step : ∀ pairs pair draft next, motive pairs draft →
      next ∈ extendBy index pair.1 pair.2 draft → motive (pairs ++ [pair]) next)
    {pairs : List (Pattern × QuadOf (Option Field))} (member : draft ∈ joined index pairs) :
    motive pairs draft := by
  induction pairs using List.reverseRecOn generalizing draft with
  | nil =>
    obtain rfl := List.mem_singleton.1 member
    exact start
  | append_singleton pairs pair induction =>
    rw [joined_append_singleton, List.mem_flatMap] at member
    obtain ⟨before, joins, extended⟩ := member
    exact step pairs pair before draft (induction joins) extended

end Drafts

section Join

variable {d : Dataset} {e : Encoder}

theorem mem_extendBy_iff (encoded : d.EncodedBy e) (p : Pattern) (consts : QuadOf (Option Field))
    (draft next : Draft) : next ∈ extendBy (.ofDataset d) p consts draft ↔
      ∃ i quad codes bound, d.quads[i]? = some quad ∧ d.encoded[i]? = some codes ∧
        Dataset.Index.agrees (fixed draft p consts) codes = true ∧
        draft.bindQuad p quad codes = some bound ∧
        next = { bound with quads := draft.quads ++ [i] } := by
  simp only [extendBy, List.mem_filterMap, Dataset.Index.mem_candidates_iff encoded.length]
  constructor
  · rintro ⟨i, ⟨codes, stored, agree⟩, whole⟩
    obtain ⟨quad, found, coded⟩ := Option.bind_eq_some_iff.1 whole
    obtain ⟨other, again, drafted⟩ := Option.bind_eq_some_iff.1 coded
    obtain rfl := Option.some.inj (stored.symm.trans again)
    obtain ⟨bound, binds, made⟩ := Option.bind_eq_some_iff.1 drafted
    refine ⟨i, quad, codes, bound, found, stored, agree, binds, ?_⟩
    rw [← (Draft.bindQuad_binds binds).quads]
    exact (Option.some.inj made).symm
  · rintro ⟨i, quad, codes, bound, found, stored, agree, binds, rfl⟩
    refine ⟨i, ⟨codes, stored, agree⟩, ?_⟩
    refine Option.bind_eq_some_iff.2 ⟨quad, found, ?_⟩
    refine Option.bind_eq_some_iff.2 ⟨codes, stored, ?_⟩
    refine Option.bind_eq_some_iff.2 ⟨bound, binds, ?_⟩
    rw [(Draft.bindQuad_binds binds).quads]
    rfl

theorem fits_of_agrees {p : Pattern} {consts : QuadOf (Option Field)} {draft next : Draft}
    {quad : Quad} {codes : QuadOf Field} (constants : constants e p = .ok consts)
    (encodes : e.encodeQuad quad = .ok codes)
    (agree : Dataset.Index.agrees (fixed draft p consts) codes = true)
    (binds : draft.Binds next (Draft.entriesOf p quad)) : p.Fits e.SameCode next.row quad where
  constant position term held asked found := by
    obtain ⟨code, here, encodesHeld⟩ := Encoder.encodeQuad_get encodes found
    rcases constants_get constants asked with ⟨c, x, same, stored, encodesConst⟩ | ⟨none, _⟩
    · obtain rfl : term = c := by simpa using same
      have wanted : (fixed draft p consts).get? position = some (some x) := by
        simp [fixed, QuadOf.get_zip, asked, stored]
      have equal := (Dataset.Index.agrees_iff _ _).1 agree position x wanted
      obtain rfl := Option.some.inj (here.symm.trans equal)
      exact ⟨code, encodesConst, encodesHeld⟩
    · exact absurd rfl (none term)
  key position term key asked named := by
    cases held : quad.get? position with
    | none =>
      have absent := QuadOf.get_isSome_iff p.positions quad position
      simp [asked, held] at absent
    | some value =>
      exact binds.entries key value (Draft.mem_entriesOf_iff.2 ⟨position, term, asked, named, held⟩)

theorem codes_of_encodes {quad : Quad} {codes : QuadOf Field}
    (encodes : e.encodeQuad quad = .ok codes) (position : Nat) (term : Term) (code : Field)
    (held : quad.get? position = some term) (stored : codes.get? position = some code) :
    e.encode term = .ok code := by
  obtain ⟨other, here, encoded⟩ := Encoder.encodeQuad_get encodes held
  obtain rfl := Option.some.inj (here.symm.trans stored)
  exact encoded

theorem mem_entriesOf_keys {p : Pattern} {quad : Quad} {key : String} :
    (∃ value, (some key, value) ∈ Draft.entriesOf p quad) ↔ key ∈ p.keys := by
  rw [p.mem_keys_iff]
  constructor
  · rintro ⟨value, member⟩
    obtain ⟨position, term, asked, named, _⟩ := Draft.mem_entriesOf_iff.1 member
    exact ⟨position, term, asked, named⟩
  · rintro ⟨position, term, asked, named⟩
    cases held : quad.get? position with
    | none =>
      have absent := QuadOf.get_isSome_iff p.positions quad position
      simp [asked, held] at absent
    | some value => exact ⟨value, Draft.mem_entriesOf_iff.2 ⟨position, term, asked, named, held⟩⟩

theorem fits_congr {patterns : List Pattern} {quads : List Nat} {row other : Row}
    (fits : List.Forall₂ (fun p i => ∃ quad, d.quads[i]? = some quad ∧
      p.Fits e.SameCode row quad) patterns quads)
    (same : ∀ p ∈ patterns, ∀ key ∈ p.keys, other.get? key = row.get? key) :
    List.Forall₂ (fun p i => ∃ quad, d.quads[i]? = some quad ∧ p.Fits e.SameCode other quad)
      patterns quads := by
  induction fits with
  | nil => exact List.Forall₂.nil
  | cons first others induction =>
    obtain ⟨held, stored, fits⟩ := first
    refine List.Forall₂.cons ⟨held, stored, fits.mono (same _ List.mem_cons_self)⟩ ?_
    exact induction fun p inside => same p (List.mem_cons_of_mem _ inside)

theorem covers_extendBy (encoded : d.EncodedBy e) {patterns : List Pattern} {p : Pattern}
    {consts : QuadOf (Option Field)} (constants : constants e p = .ok consts) {draft next : Draft}
    (covers : draft.Covers d e patterns) (member : next ∈ extendBy (.ofDataset d) p consts draft) :
    next.Covers d e (patterns ++ [p]) := by
  obtain ⟨i, quad, codes, bound, found, stored, agree, bindsQuad, rfl⟩ :=
    (mem_extendBy_iff encoded p consts draft next).1 member
  obtain ⟨codes', stored', encodes⟩ := encoded.codes found
  obtain rfl := Option.some.inj (stored.symm.trans stored')
  have binds := Draft.bindQuad_binds bindsQuad
  have coded : bound.Encoded e :=
    Draft.bindQuad_encoded covers.encoded (codes_of_encodes encodes) bindsQuad
  refine ⟨?_, ?_, coded⟩
  · refine List.rel_append (fits_congr covers.fits ?_) (List.Forall₂.cons ?_ List.Forall₂.nil)
    · -- The patterns before bind their keys already, and those stay as they are.
      intro q inside key keyed
      obtain ⟨value, held⟩ := Option.isSome_iff_exists.1 ((covers.keys key).2 ⟨q, inside, keyed⟩)
      rw [held]
      exact binds.within key value held
    · have here : p.Fits e.SameCode bound.row quad := fits_of_agrees constants encodes agree binds
      exact ⟨quad, found, here⟩
  · intro key
    rw [binds.keys, covers.keys, mem_entriesOf_keys]
    simp [or_and_right, exists_or]

/-- What a draft binds for some patterns, from the quads that it lists first. -/
def Draft.part (patterns : List Pattern) (draft : Draft) : Draft :=
  let keep (key : String) : Bool := decide (∃ p ∈ patterns, key ∈ p.keys)
  ⟨draft.row.restrict keep, draft.encoded.restrict keep, draft.quads.take patterns.length⟩

theorem Draft.part_within (patterns : List Pattern) (draft : Draft) :
    (draft.part patterns).row.Within draft.row :=
  Row.restrict_within draft.row _

theorem Draft.Covers.part {patterns more : List Pattern} {draft : Draft}
    (covers : draft.Covers d e (patterns ++ more)) :
    (draft.part patterns).Covers d e patterns where
  fits := by
    refine fits_congr (List.forall₂_take_append draft.quads patterns more covers.fits.flip).flip ?_
    intro p inside key keyed
    rw [Draft.part, KeyMap.get_restrict, if_pos (decide_eq_true ⟨p, inside, keyed⟩)]
  keys key := by
    rw [Draft.part, KeyMap.get_restrict]
    by_cases inside : ∃ p ∈ patterns, key ∈ p.keys
    · have bound := (covers.keys key).2 (inside.imp fun _ keyed =>
        ⟨List.mem_append_left more keyed.1, keyed.2⟩)
      simpa [inside] using bound
    · simp [inside]
  encoded key := by
    simp only [Draft.part, KeyMap.get_restrict]
    split
    · exact covers.encoded key
    · simp

theorem exists_extendBy (encoded : d.EncodedBy e) {patterns : List Pattern} {p : Pattern}
    {consts : QuadOf (Option Field)} (constants : constants e p = .ok consts) {next : Draft}
    (covers : next.Covers d e (patterns ++ [p])) :
    ∃ draft : Draft, draft.Covers d e patterns ∧ next ∈ extendBy (.ofDataset d) p consts draft := by
  have before := covers.part
  have within := Draft.part_within patterns next
  -- The last quad listed is the one that fits the last pattern.
  have last := (List.forall₂_drop_append next.quads patterns [p] covers.fits.flip).flip
  obtain ⟨i, _, ⟨quad, found, fits⟩, none, listed⟩ := List.forall₂_cons_left_iff.1 last
  rw [List.forall₂_nil_left_iff.1 none] at listed
  obtain ⟨codes, stored, encodes⟩ := encoded.codes found
  have entries (key : String) (value : Term) (member : (some key, value) ∈ Draft.entriesOf p quad) :
      next.row.get? key = some value := by
    obtain ⟨position, term, asked, named, held⟩ := Draft.mem_entriesOf_iff.1 member
    rw [fits.key position term key asked named, held]
  obtain ⟨bound, bindsQuad, inside⟩ := Draft.bindQuad_within codes within entries
  have binds := Draft.bindQuad_binds bindsQuad
  have coded : bound.Encoded e :=
    Draft.bindQuad_encoded before.encoded (codes_of_encodes encodes) bindsQuad
  have rows : bound.row = next.row := by
    refine inside.eq fun key held => ?_
    obtain ⟨q, member, keyed⟩ := (covers.keys key).1 held
    rw [binds.keys, before.keys, mem_entriesOf_keys]
    rcases List.mem_append.1 member with member | member
    · exact Or.inl ⟨q, member, keyed⟩
    · obtain rfl := List.mem_singleton.1 member
      exact Or.inr keyed
  refine ⟨next.part patterns, before, (mem_extendBy_iff encoded p consts _ _).2 ?_⟩
  refine ⟨i, quad, codes, bound, found, stored, ?_, bindsQuad, ?_⟩
  · exact agrees_of_fits constants before.encoded within encodes fits
  · obtain ⟨row, kept, quads⟩ := next
    have quadsSame : quads = quads.take patterns.length ++ [i] := by
      rw [← listed, List.take_append_drop]
    obtain rfl : bound.row = row := rows
    rw [Draft.encoded_unique covers.encoded coded, Draft.part, ← quadsSame]

theorem covers_start_iff (draft : Draft) : draft.Covers d e [] ↔ draft = .start := by
  constructor
  · intro covers
    obtain ⟨row, kept, quads⟩ := draft
    have rows : row = KeyMap.empty := by
      apply KeyMap.ext
      intro key
      have absent := covers.keys key
      simpa [KeyMap.get_empty] using absent
    cases covers.fits
    have start : Draft.start.Encoded e := by
      intro key
      simp [Draft.start, KeyMap.get_empty]
    subst rows
    rw [Draft.start, Draft.encoded_unique covers.encoded start]
  · rintro rfl
    refine ⟨List.Forall₂.nil, ?_, ?_⟩
    · simp [Draft.start, KeyMap.get_empty]
    · intro key
      simp [Draft.start, KeyMap.get_empty]

theorem mem_joined_iff (encoded : d.EncodedBy e) {pairs : List (Pattern × QuadOf (Option Field))}
    (coded : ∀ pair ∈ pairs, constants e pair.1 = .ok pair.2) (draft : Draft) :
    draft ∈ joined (.ofDataset d) pairs ↔ draft.Covers d e (pairs.map (·.1)) := by
  induction pairs using List.reverseRecOn generalizing draft with
  | nil => rw [joined, List.foldl_nil, List.mem_singleton, List.map_nil, covers_start_iff]
  | append_singleton pairs pair induction =>
    obtain ⟨p, consts⟩ := pair
    have before := induction fun other member => coded other (List.mem_append_left _ member)
    have here : constants e p = .ok consts := coded (p, consts) (by simp)
    rw [joined_append_singleton, List.mem_flatMap, List.map_append, List.map_singleton]
    constructor
    · rintro ⟨earlier, member, extended⟩
      exact covers_extendBy encoded here ((before earlier).1 member) extended
    · intro covers
      obtain ⟨earlier, coversEarlier, extended⟩ := exists_extendBy encoded here covers
      exact ⟨earlier, (before earlier).2 coversEarlier, extended⟩

theorem paired_ok {patterns : List Pattern} {pairs : List (Pattern × QuadOf (Option Field))}
    (paired : (patterns.mapM fun p => (constants e p).map fun consts => (p, consts)) = .ok pairs) :
    pairs.map (·.1) = patterns ∧ ∀ pair ∈ pairs, constants e pair.1 = .ok pair.2 := by
  have each := (mapM_ok_iff _ _ _).1 paired
  clear paired
  induction each with
  | nil => simp
  | cons first others induction =>
    obtain ⟨consts, coded, rfl⟩ := map_ok_iff.1 first
    simpa [coded] using induction

theorem mem_ofBranch_iff (encoded : d.EncodedBy e) {b : Branch} {candidates : List Candidate}
    (made : ofBranch (.ofDataset d) e b = .ok candidates) (c : Candidate) :
    c ∈ candidates ↔ ∃ draft : Draft, draft.Covers d e b.patterns ∧
      b.extensions.foldlM applyExtension draft.row = some c.row ∧ c.quads = draft.quads := by
  obtain ⟨pairs, paired, whole⟩ := bind_ok_iff.1 made
  obtain rfl := pure_ok_iff.1 whole
  have patterns := paired_ok paired
  rw [List.mem_filterMap]
  simp only [mem_joined_iff encoded patterns.2, patterns.1, Option.map_eq_some_iff]
  constructor
  · rintro ⟨draft, covers, row, extended, rfl⟩
    exact ⟨draft, covers, extended, rfl⟩
  · rintro ⟨draft, covers, extended, quads⟩
    exact ⟨draft, covers, c.row, extended, by rw [← quads]⟩

theorem constants_ok {p : Pattern}
    (encodable : ∀ position term, p.positions.get? position = some (some (.const term)) →
      ∃ code, e.encode term = .ok code) : ∃ consts, constants e p = .ok consts := by
  apply QuadOf.mapM_succeeds
  intro position term found
  split
  next value =>
    obtain ⟨code, coded⟩ := encodable position value found
    exact ⟨some code, by rw [coded]; rfl⟩
  next => exact ⟨none, rfl⟩

theorem ofBranch_ok (index : Dataset.Index) {b : Branch}
    (encodable : ∀ p ∈ b.patterns, ∀ position term,
      p.positions.get? position = some (some (.const term)) → ∃ code, e.encode term = .ok code) :
    ∃ candidates, ofBranch index e b = .ok candidates := by
  have each : ∀ p ∈ b.patterns, ∃ pair,
      ((constants e p).map fun consts => (p, consts)) = .ok pair := by
    intro p member
    obtain ⟨consts, coded⟩ := constants_ok (encodable p member)
    exact ⟨(p, consts), by rw [coded]; rfl⟩
  obtain ⟨pairs, paired⟩ := mapM_succeeds each
  exact ⟨_, bind_ok_iff.2 ⟨pairs, paired, rfl⟩⟩

end Join

end Candidate

end AttestedQuery
