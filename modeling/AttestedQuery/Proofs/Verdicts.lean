import AttestedQuery.Proofs.Admission
import AttestedQuery.Proofs.Completeness
import AttestedQuery.Proofs.Forgery
import AttestedQuery.Proofs.Truth

/-!
# What becomes of an admitted row

Over a signed dataset with a quad, every row that a branch admits has a witness. The witness meets
the public values and the equalities of the branch, and each filter exactly where it is true of the
row. So the verdict on a row is decided by its filters alone.
-/

set_option autoImplicit false

namespace AttestedQuery

def ScopedFilter.isTrue (e : Encoder) (row : Row) (x : ScopedFilter) : Bool :=
  Row.satisfies e (row.restrict x.visible.contains) x.condition

/-! ## Quads with the constants of their patterns -/

/-- The constant that a position asks for, and otherwise the term that stands there. -/
def PatternTerm.orHeld (asked : Option PatternTerm) (held : Term) : Term :=
  match asked with
  | some (.const term) => term
  | _ => held

/-- The terms of a quad, with the constants of a pattern in place of those that they stand for. -/
def Pattern.restated (p : Pattern) (quad : Quad) : Quad :=
  (p.positions.zip quad).map fun (asked, held) => PatternTerm.orHeld asked held

section Restated

variable {e : Encoder} {row : Row} {p : Pattern} {quad : Quad}

theorem Pattern.restated_get {position : Nat} {asked : Option PatternTerm} {held : Term}
    (here : p.positions.get? position = some asked) (found : quad.get? position = some held) :
    (p.restated quad).get? position = some (PatternTerm.orHeld asked held) := by
  simp only [restated, QuadOf.get_map, QuadOf.get_zip, here, found, Option.bind_some,
    Option.map_some]

theorem Pattern.Fits.restated (fits : p.Fits e.SameCode row quad) :
    p.Fits Eq row (p.restated quad) where
  constant position term held asked found := by
    cases stored : quad.get? position with
    | none =>
      have absent := QuadOf.get_isSome_iff p.positions quad position
      simp [asked, stored] at absent
    | some value =>
      rw [p.restated_get asked stored] at found
      exact Option.some.inj found
  key position term key asked named := by
    rw [fits.key position term key asked named]
    cases stored : quad.get? position with
    | none =>
      have absent := QuadOf.get_isSome_iff p.positions quad position
      simp [asked, stored] at absent
    | some value =>
      rw [p.restated_get asked stored]
      cases term with
      | const c => simp [PatternTerm.key?] at named
      | _ => rfl

theorem Pattern.Fits.encodes (fits : p.Fits e.SameCode row quad) {codes : QuadOf Field}
    (encoded : e.encodeQuad quad = .ok codes) : e.encodeQuad (p.restated quad) = .ok codes := by
  have one {position : Nat} {asked : Option PatternTerm} {held : Term} {code : Field}
      (here : p.positions.get? position = some asked) (found : quad.get? position = some held)
      (coded : e.encode held = .ok code) :
      e.encode (PatternTerm.orHeld asked held) = .ok code := by
    unfold PatternTerm.orHeld
    split
    next term =>
      obtain ⟨other, first, second⟩ := fits.constant position term held here found
      rw [first, ← Except.ok.inj (coded.symm.trans second)]
    next => exact coded
  obtain ⟨subject, predicate, object, graph⟩ := QuadOf.mapM_ok_iff.1 encoded
  exact QuadOf.mapM_ok_iff.2 ⟨one (show p.positions.get? 0 = _ from rfl) rfl subject,
    one (show p.positions.get? 1 = _ from rfl) rfl predicate,
    one (show p.positions.get? 2 = _ from rfl) rfl object,
    one (show p.positions.get? 3 = _ from rfl) rfl graph⟩

end Restated

/-! ## Compiled filters -/

/-- A numbered filter holds exactly where its expression is true of the row that a view presents. -/
structure NumberedFilter.Tests (s : Surroundings) (all : List Hint) (x : ScopedFilter)
    (filter : NumberedFilter) : Prop where
  number : filter.number = x.number
  holds : ∀ v row, View.Presents v s row all →
    v.holds s.encoder.hasher filter.assertion = .ok (row.satisfies s.encoder x.condition)

structure Branch.Comes (e : Encoder) (projected : List String) (all : List Hint) (f : Fragment)
    (b : Branch) (t : Tracing) (linked : List Tracing.Place) : Prop where
  compiles : b.Compiles e projected all f t linked
  filters : List.Forall₂ (fun x filter => NumberedFilter.Tests
    (t.surroundings e projected x.visible) all x filter) f.filters b.filters
  applies : ∃ start final, b.Applies e f start final

open Compiling in
theorem Branch.yields_comes (e : Encoder) (projected : List String) (f : Fragment) :
    Yields (ofFragment e projected f) fun all b =>
      ∃ t linked, b.Comes e projected all f t linked := by
  intro before b after compiled
  obtain ⟨t, linked, traces, filtered⟩ := ofFragment_traces compiled
  have expressed := yields_mapM fun x (_ : x ∈ f.filters) => yields_filterOf e projected t x
  have tested := yields_mapM fun x (_ : x ∈ f.filters) =>
    yields_bind (f := fun c => pure ⟨x.number, c.holds⟩)
      ((t.surroundings e projected x.visible).yields_satisfies x.condition) fun c =>
        show Yields _ fun all filter => _ → NumberedFilter.Tests _ all x filter from
          yields_pure fun all holds => ⟨rfl, holds⟩
  obtain ⟨grows, expresses⟩ := expressed before b.filters after filtered
  obtain ⟨_, tests⟩ := tested before b.filters after filtered
  exact ⟨grows, fun all continues => ⟨t, linked, ⟨traces, expresses all continues⟩,
    tests all continues, ofFragment_applies compiled⟩⟩

theorem Program.Compiles.comes {config : Config} {query : NormalQuery} {p : Program}
    {fragments : List Fragment} (compiles : Compiles config query p fragments) {i : Nat}
    {f : Fragment} {b : Branch} (fragment : fragments[i]? = some f)
    (branch : p.branches[i]? = some b) :
    ∃ t linked, b.Comes config.encoder p.projected p.hints f t linked := by
  have each := Compiling.yields_mapM fun f (_ : f ∈ fragments) =>
    Branch.yields_comes config.encoder query.projected f
  have all := (each [] p.branches p.hints compiles.branches).2 p.hints List.prefix_rfl
  obtain ⟨short, rfl⟩ := List.getElem?_eq_some_iff.1 fragment
  obtain ⟨inside, rfl⟩ := List.getElem?_eq_some_iff.1 branch
  rw [compiles.projected]
  exact all.get short inside

theorem Program.Compiles.length {config : Config} {query : NormalQuery} {p : Program}
    {fragments : List Fragment} (compiles : Compiles config query p fragments) :
    p.branches.length = fragments.length :=
  (run_mapM_each compiles.branches).length_eq.symm

theorem Program.Compiles.of_branch {config : Config} {query : NormalQuery} {p : Program}
    {fragments : List Fragment} (compiles : Compiles config query p fragments) {i : Nat}
    {b : Branch} (branch : p.branches[i]? = some b) : ∃ f t linked, fragments[i]? = some f ∧
      b.Comes config.encoder p.projected p.hints f t linked := by
  have short : i < fragments.length :=
    compiles.length ▸ (List.getElem?_eq_some_iff.1 branch).1
  have fragment := List.getElem?_eq_getElem short
  obtain ⟨t, linked, comes⟩ := compiles.comes fragment branch
  exact ⟨_, t, linked, fragment, comes⟩

theorem Program.Compiles.of_fragment {config : Config} {query : NormalQuery} {p : Program}
    {fragments : List Fragment} (compiles : Compiles config query p fragments) {i : Nat}
    {f : Fragment} (fragment : fragments[i]? = some f) : ∃ b t linked, p.branches[i]? = some b ∧
      b.Comes config.encoder p.projected p.hints f t linked := by
  have short : i < p.branches.length :=
    compiles.length ▸ (List.getElem?_eq_some_iff.1 fragment).1
  have branch := List.getElem?_eq_getElem short
  obtain ⟨t, linked, comes⟩ := compiles.comes fragment branch
  exact ⟨_, t, linked, branch, comes⟩

/-! ## Witnesses of admitted rows -/

section Candidates

variable {d : Dataset} {e : Encoder} {f : Fragment} {b : Branch} {candidates : List Candidate}
  {c : Candidate}

/-- The quads of a candidate, with the constants of the patterns in place, match the branch, and any
view shows them that holds the encodings of those quads of the dataset in its slots. -/
theorem Candidate.exists_matches (encoded : d.EncodedBy e) {start final : Tracing}
    (applies : b.Applies e f start final)
    (made : ofBranch (.ofDataset d) e b = .ok candidates) (member : c ∈ candidates) :
    (∀ k ∈ c.quads, k < d.quads.length) ∧ c.quads.length = b.patterns.length ∧
      ∃ quads, b.Matches quads c.row ∧ ∀ v : View, (∀ (i k : Nat) codes, c.quads[i]? = some k →
        d.encoded[k]? = some codes → v.slots[i]? = some codes) → v.Shows e quads := by
  obtain ⟨draft, covers, extended, same⟩ := (mem_ofBranch_iff encoded made c).1 member
  have keys (key : String) : (draft.row.get? key).isSome ↔ (start.sources.get? key).isSome := by
    rw [covers.keys, Tracing.isSome_ofPatterns applies.traced, applies.patterns]
  obtain ⟨within, holds, bound⟩ := (foldlM_applyExtension applies.extensions keys).1 extended
  have kept (p : Pattern) (inside : p ∈ b.patterns) (key : String) (keyed : key ∈ p.keys) :
      c.row.get? key = draft.row.get? key := by
    obtain ⟨value, held⟩ := Option.isSome_iff_exists.1 ((covers.keys key).2 ⟨p, inside, keyed⟩)
    rw [held]
    exact within key value held
  have fits := fits_congr covers.fits kept
  rw [← same] at fits
  have whole : (∀ k ∈ c.quads, k < d.quads.length) ∧ ∃ quads,
      List.Forall₂ (Pattern.Fits Eq c.row) b.patterns quads ∧
        List.Forall₂ (fun k quad => ∃ codes, d.encoded[k]? = some codes ∧
          e.encodeQuad quad = .ok codes) c.quads quads := by
    clear same made member extended covers
    generalize b.patterns = patterns at fits
    generalize c.quads = places at fits
    induction fits with
    | nil => exact ⟨by simp, [], .nil, .nil⟩
    | cons first _ induction =>
      obtain ⟨inside, quads, each, codes⟩ := induction
      obtain ⟨quad, found, here⟩ := first
      obtain ⟨coded, stored, encodes⟩ := encoded.codes found
      refine ⟨List.forall_mem_cons.2 ⟨(List.getElem?_eq_some_iff.1 found).1, inside⟩, _,
        .cons here.restated each, .cons ⟨coded, stored, here.encodes encodes⟩ codes⟩
  obtain ⟨inside, quads, each, codes⟩ := whole
  refine ⟨inside, fits.length_eq.symm, quads, ⟨each, holds, fun key => ?_⟩,
    fun v shown i quad found => ?_⟩
  · rw [applies.bound, Bool.eq_iff_iff]
    exact bound key
  · obtain ⟨short, rfl⟩ := List.getElem?_eq_some_iff.1 found
    have place : i < c.quads.length := by rw [codes.length_eq]; exact short
    obtain ⟨coded, stored, encodes⟩ := codes.get place short
    exact ⟨coded, shown i _ coded (List.getElem?_eq_getElem place) stored, encodes⟩

end Candidates

section Signed

variable {quads : List Quad} {config : Config} {signer : Signer} {d : Dataset}
  {tree : Commitment.Tree} {signature : Octets} {query : NormalQuery} {p : Program}
  {fragments : List Fragment} {i : Nat} {f : Fragment} {b : Branch} {candidates : List Candidate}
  {c : Candidate} {w : Witness} {t : Tracing} {linked : List Tracing.Place}

def Dataset.resolver (d : Dataset) (config : Config) : Resolver :=
  ⟨.ofDataset d, config.encoder⟩

theorem Dataset.SignedBy.slot_some (s : d.SignedBy quads config signer tree signature) {k : Nat}
    (inside : k < d.quads.length) : ∃ slot codes, (d.resolver config).slot? k = some slot ∧
      d.encoded[k]? = some codes ∧ slot.terms = codes := by
  have coded : k < d.encoded.length := by rw [s.encodedBy.length]; exact inside
  have opened : k < d.openings.length := by rw [s.length_openings]; exact inside
  refine ⟨⟨k, d.encoded[k], d.openings[k]⟩, d.encoded[k], ?_, List.getElem?_eq_getElem coded, rfl⟩
  refine Option.bind_eq_some_iff.2 ⟨d.encoded[k], List.getElem?_eq_getElem coded, ?_⟩
  exact Option.bind_eq_some_iff.2 ⟨d.openings[k], List.getElem?_eq_getElem opened, rfl⟩

theorem Resolver.slots_hold {used : List Nat}
    (builds : (d.resolver config).Builds p i used c w) (short : c.quads.length ≤ p.width)
    (place k : Nat) (codes : QuadOf Field) (found : c.quads[place]? = some k)
    (stored : d.encoded[k]? = some codes) : w.view.slots[place]? = some codes := by
  obtain ⟨inside, rfl⟩ := List.getElem?_eq_some_iff.1 found
  have padding : place < (padded p.width c.quads).length := by
    simp only [padded, List.length_map, List.length_range]
    omega
  have long := builds.slots.length_eq
  have filled := builds.slots.get padding (by rw [← long]; exact padding)
  have here : (padded p.width c.quads).get ⟨place, padding⟩ = c.quads[place] := by
    simp [padded, List.getD_eq_getElem?_getD, List.getElem?_eq_getElem inside]
  rw [here] at filled
  obtain ⟨terms, coded, filled⟩ := Option.bind_eq_some_iff.1 filled
  obtain ⟨opening, _, filled⟩ := Option.bind_eq_some_iff.1 filled
  obtain rfl := Option.some.inj (coded.symm.trans stored)
  have slot : w.slots[place]? = some ⟨c.quads[place], terms, opening⟩ := by
    rw [List.getElem?_eq_getElem (by rw [← long]; exact padding)]
    exact filled.symm
  simp [Witness.view, slot]

theorem Resolver.exists_witness (s : d.SignedBy quads config signer tree signature)
    (nonempty : d.quads ≠ []) (comes : b.Comes config.encoder p.projected p.hints f t linked)
    (made : Candidate.ofBranch (.ofDataset d) config.encoder b = .ok candidates)
    (member : c ∈ candidates) : ∃ w, (d.resolver config).witness p i b.hints c = .ok w := by
  obtain ⟨start, final, applies⟩ := comes.applies
  obtain ⟨inside, length, matched, matching, shown⟩ :=
    Candidate.exists_matches s.encodedBy applies made member
  have encodable := Candidate.encodable s.encodedBy comes.compiles.traces made member
  -- The hints only depend on the row, so any view with these slots shows that they exist.
  let view : View := ⟨c.quads.map fun k => (d.encoded[k]?).getD ⟨Field.zero, Field.zero,
    Field.zero, Field.zero⟩, KeyMap.empty, []⟩
  have shows : view.Shows config.encoder matched := by
    apply shown
    intro place k coded found stored
    simp [view, found, stored]
  obtain ⟨hints, computed, _⟩ :=
    Hint.computeAll_ok (comes.compiles.used_hints shows matching)
  refine bind_succeeds ⟨hints, computed⟩ fun hints _ => bind_succeeds (mapM_succeeds ?_)
    fun slots _ => bind_succeeds (mapM_succeeds ?_) fun values _ => ⟨_, rfl⟩
  · intro k padding
    have short : k < d.quads.length := by
      have some : 0 < d.quads.length := List.length_pos_iff.2 nonempty
      simp only [padded, List.mem_map, List.mem_range, List.getD_eq_getElem?_getD] at padding
      obtain ⟨place, _, rfl⟩ := padding
      cases found : c.quads[place]? with
      | some k => exact inside k (List.mem_of_getElem? found)
      | none =>
        cases first : c.quads with
        | nil => simpa using some
        | cons k rest => exact inside k (by simp [first])
    obtain ⟨slot, _, filled, _⟩ := s.slot_some short
    exact ⟨slot, by rw [filled]⟩
  · intro name _
    unfold publicValue
    cases held : c.row.get? name with
    | none => exact ⟨_, rfl⟩
    | some value =>
      obtain ⟨code, encodes⟩ := encodable name value held
      exact ⟨(name, code), map_ok_iff.2 ⟨code, encodes, rfl⟩⟩

theorem Resolver.values_hold {r : Resolver} {used : List Nat} (builds : r.Builds p i used c w)
    {name : String} (projected : name ∈ p.projected) : ∃ x,
      r.publicValue c.row name = .ok x ∧ w.values.get? name = some x := by
  obtain ⟨values, each, same⟩ := builds.values
  let value (name : String) : Field := (r.publicValue c.row name).toOption.getD Field.zero
  have listed : values = p.projected.map fun name => (name, value name) := by
    clear same builds projected
    generalize p.projected = names at each
    induction each with
    | nil => rfl
    | cons first _ induction =>
      obtain ⟨x, read, rfl⟩ := first
      rw [List.map_cons, ← induction]
      simp [value, read, Except.toOption]
  obtain ⟨place, inside, rfl⟩ := List.getElem_of_mem projected
  obtain ⟨x, read, _⟩ := each.get inside (by rw [← each.length_eq]; exact inside)
  refine ⟨x, read, ?_⟩
  rw [same, listed, KeyMap.get_ofList_map, if_pos projected]
  rw [List.get_eq_getElem] at read
  simp [value, read, Except.toOption]

/-- What a witness publishes is what its branch asks of it. -/
theorem Resolver.bindings_hold {matched : List Quad}
    (builds : (d.resolver config).Builds p i b.hints c w)
    (traces : b.Traces config.encoder p.projected f t linked)
    (shows : w.view.Shows config.encoder matched) (matching : b.Matches matched c.row) :
    ∀ a ∈ b.bindings, w.view.holds config.hasher a = .ok true := by
  intro a binding
  rw [traces.bindings] at binding
  obtain ⟨name, projected, rfl⟩ := List.mem_map.1 binding
  obtain ⟨x, published, stored⟩ := values_hold builds projected
  refine View.holds_eq_iff.2 ⟨x, ?_, ?_⟩
  · simp [View.field, Witness.view, stored]
  · have bound := matching.source_isSome traces name
    cases found : t.sources.get? name with
    | none =>
      rw [found, Option.isSome_none, Option.isSome_eq_false_iff,
        Option.isNone_iff_eq_none] at bound
      rw [publicValue, bound] at published
      rw [← Except.ok.inj published]
      rfl
    | some source =>
      obtain ⟨term, code, held, encodes, read⟩ :=
        traces.source_reads (h := config.hasher) shows matching found
      rw [publicValue, held] at published
      rw [← Except.ok.inj (Eq.trans (encodes.symm) published)]
      exact read

theorem Branch.Traces.presents {e : Encoder} {projected : List String} {all : List Hint} {v : View}
    {matched : List Quad} {row : Row} (traces : b.Traces e projected f t linked)
    (shows : v.Shows e matched) (matching : b.Matches matched row)
    (published : ∀ a ∈ b.bindings, v.holds e.hasher a = .ok true)
    (honest : v.hints = all.map (row.hintValue e)) (visible : KeySet) :
    v.Presents (t.surroundings e projected visible) (row.restrict visible.contains) all := by
  have length : all.length ≤ v.hints.length := by simp [honest]
  have holds := traces.view_holds shows matching published length visible
  have shown {key : String}
      (bound : ((t.surroundings e projected visible).keyWire? key).isSome = true) :
      visible.contains key = true := by
    obtain ⟨wire, found⟩ := Option.isSome_iff_exists.1 bound
    exact Surroundings.visible_of_keyWire found
  refine ⟨fun key => ?keys, fun key wire found => ?bound, fun h listed about => ?hints⟩
  case keys =>
    rw [KeyMap.get_restrict]
    cases seen : visible.contains key with
    | false =>
      have absent := (@shown key).mt (by simp [seen])
      simpa using absent
    | true =>
      rw [if_pos rfl, matching.source_isSome traces]
      simp [Surroundings.keyWire?, Tracing.surroundings, seen]
  case bound =>
    obtain ⟨term, code, held, encodes, read⟩ := holds.bound key wire found
    have coded : Row.code e (row.restrict visible.contains) key = code := by
      have encodes : e.encode term = .ok code := encodes
      rw [Row.code, KeyMap.get_restrict, if_pos (shown (by simp [found])), held]
      simp [encodes, Except.toOption]
    rw [show (t.surroundings e projected visible).encoder = e from rfl, coded]
    exact read
  case hints =>
    have told := View.field_hint holds.length listed e.hasher
    rw [honest, Hint.told_map listed] at told
    refine told.trans (congrArg Except.ok (Row.hintValue_congr fun key member => ?_))
    rw [KeyMap.get_restrict, if_pos (shown (about key member))]

/-- The witness of a candidate meets the public values and the equalities of its branch, and each
filter exactly where it is true of the row. -/
theorem Resolver.witness_holds (s : d.SignedBy quads config signer tree signature)
    (width : b.patterns.length ≤ p.width)
    (comes : b.Comes config.encoder p.projected p.hints f t linked)
    (made : Candidate.ofBranch (.ofDataset d) config.encoder b = .ok candidates)
    (member : c ∈ candidates) (builds : (d.resolver config).Builds p i b.hints c w) :
    (∀ a ∈ b.bindings ++ b.equalities, w.view.holds config.hasher a = .ok true) ∧
      List.Forall₂ (fun (x : ScopedFilter) (filter : NumberedFilter) => filter.number = x.number ∧
        w.view.holds config.hasher filter.assertion = .ok (x.isTrue config.encoder c.row))
          f.filters b.filters := by
  obtain ⟨start, final, applies⟩ := comes.applies
  obtain ⟨inside, length, matched, matching, shown⟩ :=
    Candidate.exists_matches s.encodedBy applies made member
  have shows : w.view.Shows config.encoder matched :=
    shown w.view (slots_hold builds (by rw [length]; exact width))
  have traces := comes.compiles.traces
  have bindings := bindings_hold builds traces shows matching
  refine ⟨?_, ?_⟩
  · rw [List.forall_mem_append]
    exact ⟨bindings, traces.equalities_hold shows matching⟩
  · -- The filters only read computed hints, so all hints may be taken from the row.
    let honest : View := { w.view with hints := p.hints.map (Row.hintValue config.encoder c.row) }
    have used := comes.compiles.used_hints shows matching
    obtain ⟨hints, computed, each⟩ := Hint.computeAll_ok used
    obtain rfl := Except.ok.inj (computed.symm.trans builds.hints)
    have same (filter : NumberedFilter) (inside : filter ∈ b.filters) :
        w.view.holds config.hasher filter.assertion =
          honest.holds config.hasher filter.assertion := by
      apply View.holds_congr
      refine ⟨rfl, rfl, fun index member => ?_⟩
      have listed : index ∈ b.hints := by
        rw [traces.hints, mem_sortedUnique]
        exact List.mem_flatMap.2 ⟨filter, inside, member⟩
      obtain ⟨h, x, found, value⟩ := used index listed
      have here : w.view.hints[index]? = some x := each index listed h x found value
      rw [here]
      simp [honest, found, Row.hintValue, value, Except.toOption]
    have published : ∀ a ∈ b.bindings, honest.holds config.encoder.hasher a = .ok true :=
      traces.published_iff.2 bindings
    refine List.forall₂_iff_get.2 ⟨comes.filters.length_eq, fun k short inside => ?_⟩
    have tests := comes.filters.get short inside
    have presents := traces.presents (v := honest) shows matching published rfl
    exact ⟨tests.number, (same _ (List.get_mem _ _)).trans (tests.holds honest _ (presents _))⟩

/-! ## Verdicts -/

def Fragment.Passes (e : Encoder) (f : Fragment) (row : Row) : Prop :=
  ∀ x ∈ f.filters, x.isTrue e row = true

structure Assessed.Judged (p : Program) (e : Encoder) (f : Fragment) (a : Assessed) : Prop where
  failed : ∃ failed, a.verdict.failed? = some failed ∧
    ∀ n, n ∈ failed ↔ ∃ x ∈ f.filters, x.isTrue e a.row = false ∧ x.number = n
  accepted : f.Passes e a.row → ∃ w, a.verdict = .accepted w
  witness : ∀ w, a.verdict = .accepted w →
    f.Passes e a.row ∧ w.bindings = a.row.restrict p.projected.contains

theorem Resolver.accepts_iff {r : Resolver} {w : Witness} {a : Assertion} :
    r.accepts w a = true ↔ w.view.holds r.encoder.hasher a = .ok true :=
  View.check_toBool a

theorem Resolver.judged (s : d.SignedBy quads config signer tree signature)
    (nonempty : d.quads ≠ []) (width : b.patterns.length ≤ p.width)
    (comes : b.Comes config.encoder p.projected p.hints f t linked)
    (made : Candidate.ofBranch (.ofDataset d) config.encoder b = .ok candidates)
    (member : c ∈ candidates) : ∃ a, (d.resolver config).assess p i b c = .ok a ∧ a.branch = i ∧
      a.row = c.row ∧ a.Judged p config.encoder f := by
  obtain ⟨w, built⟩ := exists_witness (i := i) s nonempty comes made member
  have builds := witness_ok built
  obtain ⟨consistent, filters⟩ := witness_holds s width comes made member builds
  have assessed : (d.resolver config).assess p i b c =
      .ok ⟨i, c.row, (d.resolver config).judge b w⟩ := by
    rw [assess, built]
  refine ⟨_, assessed, rfl, rfl, ?_⟩
  have holds : (d.resolver config).accepts w (.all (b.bindings ++ b.equalities)) = true :=
    accepts_iff.2 ((View.holds_all_iff _).2 consistent)
  -- The filters that fail are those that are not true of the row.
  have failing (n : Nat) : n ∈ (b.filters.filter fun filter =>
      !((d.resolver config).accepts w filter.assertion)).map (·.number) ↔
        ∃ x ∈ f.filters, x.isTrue config.encoder c.row = false ∧ x.number = n := by
    clear consistent holds assessed
    generalize b.filters = numbered at filters ⊢
    generalize f.filters = written at filters ⊢
    induction filters with
    | nil => simp
    | @cons x filter _ _ first _ induction =>
      obtain ⟨number, truth⟩ := first
      have accepted : (d.resolver config).accepts w filter.assertion =
          x.isTrue config.encoder c.row := by
        rw [Bool.eq_iff_iff, accepts_iff]
        exact (congrArg (· = Except.ok true) truth).to_iff.trans (by simp)
      rw [List.filter_cons, accepted]
      cases isTrue : x.isTrue config.encoder c.row with
      | true => simpa [isTrue] using induction
      | false =>
        rw [Bool.not_false, if_pos rfl, List.map_cons, List.mem_cons, induction, number,
          List.exists_mem_cons_iff, isTrue, eq_self, true_and, eq_comm]
  have none : (b.filters.filter fun filter =>
      !((d.resolver config).accepts w filter.assertion)) = [] ↔
        f.Passes config.encoder c.row := by
    rw [← List.map_eq_nil_iff (f := fun filter : NumberedFilter => filter.number),
      List.eq_nil_iff_forall_not_mem]
    simp only [failing]
    constructor
    · intro nothing x inside
      by_contra fails
      exact nothing x.number ⟨x, inside, by simpa using fails, rfl⟩
    · rintro passes n ⟨x, inside, fails, _⟩
      rw [passes x inside] at fails
      exact Bool.noConfusion fails
  rw [judge, if_pos holds]
  generalize b.filters.filter (fun filter =>
    !((d.resolver config).accepts w filter.assertion)) = failed at failing none ⊢
  cases failed with
  | nil =>
    have passes := none.1 rfl
    refine ⟨⟨[], rfl, failing⟩, fun _ => ⟨w, rfl⟩, ?_⟩
    rintro _ ⟨⟩
    exact ⟨passes, builds.bindings⟩
  | cons first rest =>
    refine ⟨⟨_, rfl, failing⟩, fun passes => absurd (none.2 passes) (by simp), ?_⟩
    intro other impossible
    cases impossible

end Signed

end AttestedQuery
