import AttestedQuery.Proofs.Soundness
import AttestedQuery.Proofs.WrongHints

/-!
# What the filters of a branch say

Slots that hold the encodings of matching quads give every key of the branch the encoding of its
term, and meet the equalities. What is left of the assertion of a branch are the public values and
the filters, and a filter holds exactly where its expression is true in the reading of the view.
-/

set_option autoImplicit false

namespace AttestedQuery

section Shown

variable {e : Encoder} {h : Hasher} {v : View} {projected : List String} {f : Fragment}
  {b : Branch} {t : Tracing} {linked : List Tracing.Place} {quads : List Quad} {row : Row}

theorem Branch.Matches.length (matching : b.Matches quads row) :
    quads.length = b.patterns.length :=
  matching.fits.length_eq.symm

/-- A key at a position of a pattern has the term whose encoding the position shows. -/
theorem Branch.Traces.place_reads (traces : b.Traces e projected f t linked)
    (shows : v.Shows e quads) (matching : b.Matches quads row) {place : Tracing.Place}
    (member : place ∈ Tracing.places f.patterns) {key : String}
    (asks : Tracing.keyOf place = some key) :
    ∃ term code, row.get? key = some term ∧ e.encode term = .ok code ∧
      v.field h place.1 = .ok code := by
  obtain ⟨i, p, position, found, asked, wire⟩ := Tracing.mem_places_iff.1 member
  rw [← traces.patterns] at found
  obtain ⟨short, rfl⟩ := List.getElem?_eq_some_iff.1 found
  have inside : i < quads.length := by rw [matching.length]; exact short
  obtain ⟨term, held⟩ : ∃ term, quads[i].get? position = some term := by
    rw [← Option.isSome_iff_exists, QuadOf.get_isSome_iff _ b.patterns[i].positions, asked]
    rfl
  obtain ⟨code, read, encoded⟩ := shows.slot (List.getElem?_eq_getElem inside) held
  obtain ⟨asking, here, named⟩ := Option.bind_eq_some_iff.1 asks
  rw [here] at asked
  have bound := (matching.fits.get short inside).key position asking key asked named
  exact ⟨term, code, bound.trans held, encoded, wire ▸ read⟩

theorem Branch.Traces.source_reads (traces : b.Traces e projected f t linked)
    (shows : v.Shows e quads) (matching : b.Matches quads row) {key : String} {source : Wire}
    (found : t.sources.get? key = some source) :
    ∃ term code, row.get? key = some term ∧ e.encode term = .ok code ∧
      v.field h source = .ok code := by
  refine traces.extended.sourced (fun key source => ∃ term code, row.get? key = some term ∧
    e.encode term = .ok code ∧ v.field h source = .ok code) ?_ ?_ ?_ key source found
  · intro place member key asks
    exact traces.place_reads shows matching member asks
  · intro x member term code source encoded
    obtain ⟨value, given, bound⟩ := matching.extended x member
    rw [source] at given
    obtain rfl : term = value := Option.some.inj given
    exact ⟨term, code, bound, encoded, rfl⟩
  · intro x member key wire source reads
    obtain ⟨term, code, here, encoded, read⟩ := reads
    obtain ⟨value, given, bound⟩ := matching.extended x member
    rw [source] at given
    obtain rfl : term = value := Option.some.inj (here.symm.trans given)
    exact ⟨term, code, bound, encoded, read⟩

theorem Branch.Matches.source_isSome (matching : b.Matches quads row)
    (traces : b.Traces e projected f t linked) (key : String) :
    (row.get? key).isSome = (t.sources.get? key).isSome := by
  rw [matching.bound, traces.bound, KeySet.contains_ofKeys, List.contains_eq_mem, Bool.eq_iff_iff,
    decide_eq_true_iff, KeyMap.mem_keys_iff]

theorem Branch.Traces.equalities_hold (traces : b.Traces e projected f t linked)
    (shows : v.Shows e quads) (matching : b.Matches quads row) :
    ∀ a ∈ b.equalities, v.holds h a = .ok true := by
  rw [traces.equalities]
  refine (traces.extended.records.satisfied h v
    (traces.readable shows matching.length)).2 fun place member => ⟨?_, ?_⟩
  · intro term asked
    rcases List.mem_append.1 member with pattern | link
    · obtain ⟨i, p, position, found, here, wire⟩ := Tracing.mem_places_iff.1 pattern
      rw [← traces.patterns] at found
      obtain ⟨short, rfl⟩ := List.getElem?_eq_some_iff.1 found
      have inside : i < quads.length := by rw [matching.length]; exact short
      rw [asked] at here
      obtain ⟨held, has⟩ : ∃ held, quads[i].get? position = some held := by
        rw [← Option.isSome_iff_exists, QuadOf.get_isSome_iff _ b.patterns[i].positions, here]
        rfl
      obtain ⟨code, read, encoded⟩ := shows.slot (h := h) (List.getElem?_eq_getElem inside) has
      obtain rfl := (matching.fits.get short inside).constant position term held here has
      exact ⟨code, encoded, wire ▸ read⟩
    · obtain ⟨x, _, named, _⟩ := traces.linked_supplies link
      simp [named] at asked
  · intro key asks
    have bound := traces.extended.records.bound place member key asks
    obtain ⟨source, found⟩ := Option.isSome_iff_exists.1 bound
    obtain ⟨term, code, held, encoded, read⟩ :=
      traces.source_reads (h := h) shows matching found
    refine ⟨source, code, found, ?_, read⟩
    rcases List.mem_append.1 member with pattern | link
    · obtain ⟨other, x, here, coded, readPlace⟩ :=
        traces.place_reads (h := h) shows matching pattern asks
      obtain rfl := Option.some.inj (held.symm.trans here)
      rw [readPlace, ← Except.ok.inj (coded.symm.trans encoded)]
    · obtain ⟨x, inside, named, supplies⟩ := traces.linked_supplies link
      obtain rfl : x.name = key := by simpa [Tracing.keyOf, named, PatternTerm.key?] using asks
      obtain ⟨value, given, bound⟩ := matching.extended x inside
      obtain rfl := Option.some.inj (bound.symm.trans held)
      cases origin : x.source with
      | term c =>
        rw [origin] at supplies given
        obtain ⟨other, coded, wire⟩ := supplies
        obtain rfl : c = value := Option.some.inj given
        rw [wire, ← Except.ok.inj (coded.symm.trans encoded)]
        rfl
      | key other =>
        rw [origin] at supplies given
        obtain ⟨_, y, here, coded, readSource⟩ :=
          traces.source_reads (h := h) shows matching supplies
        obtain rfl := Option.some.inj (here.symm.trans given)
        rw [readSource, ← Except.ok.inj (coded.symm.trans encoded)]

def Tracing.surroundings (t : Tracing) (e : Encoder) (projected : List String) (visible : KeySet) :
    Surroundings :=
  ⟨e, projected, t.sources, visible⟩

/-- Where the public values are those of the sources, the wires of keys hold the encodings of the
terms of a matching row. -/
theorem Branch.Traces.view_holds (traces : b.Traces e projected f t linked)
    (shows : v.Shows e quads) (matching : b.Matches quads row)
    (published : ∀ a ∈ b.bindings, v.holds e.hasher a = .ok true) {all : List Hint}
    (length : all.length ≤ v.hints.length) (visible : KeySet) :
    v.Holds (t.surroundings e projected visible) row all where
  length := length
  unbound key absent shown := by
    have visible : visible.contains key = true := shown
    have none : t.sources.get? key = none := by
      simpa [Tracing.surroundings, Surroundings.keyWire?, visible] using absent
    simpa [none] using matching.source_isSome traces key
  bound key wire found := by
    unfold Surroundings.keyWire? at found
    split at found
    next shown =>
      obtain ⟨source, stored, chosen⟩ := Option.map_eq_some_iff.1 found
      obtain ⟨term, code, held, encoded, read⟩ :=
        traces.source_reads (h := e.hasher) shows matching stored
      refine ⟨term, code, held, encoded, ?_⟩
      rw [← chosen]
      split
      next asked =>
        have member : Branch.bindingOf t.sources key ∈ b.bindings := by
          rw [traces.bindings]
          exact List.mem_map_of_mem (List.contains_iff_mem.1 asked)
        obtain ⟨x, readPublic, readSource⟩ := View.holds_eq_iff.1 (published _ member)
        have same : t.sources.get? key = some source := stored
        rw [same, Option.getD_some] at readSource
        exact readPublic.trans (readSource.symm.trans read)
      next => exact read
    next => simp at found

end Shown

/-! ## Compiled filters -/

structure NumberedFilter.Expresses (s : Surroundings) (all : List Hint) (x : ScopedFilter)
    (filter : NumberedFilter) : Prop where
  number : filter.number = x.number
  condition : ∃ c : Condition, filter.assertion = c.holds ∧
    c.Means s all fun r => r.outcome x.condition

section Filters

variable {s : Surroundings} {all : List Hint} {x : ScopedFilter} {filter : NumberedFilter}

theorem NumberedFilter.Expresses.reads (expresses : filter.Expresses s all x) :
    filter.assertion.Reads (s.Known all) := by
  obtain ⟨c, same, means⟩ := expresses.condition
  rw [same]
  apply Assertion.reads_all
  simp [means.defined, means.value]

theorem NumberedFilter.Expresses.holds_iff (expresses : filter.Expresses s all x) {v : View} {r : Reading}
    (represents : v.Represents s all r) :
    v.holds s.encoder.hasher filter.assertion = .ok true ↔
      r.outcome x.condition = some true := by
  obtain ⟨c, same, means⟩ := expresses.condition
  rw [← means.holds v r represents, same, ← View.truth_iff, Condition.holds, View.truth_all,
    Condition.outcome]
  by_cases defined : v.truth s.encoder.hasher c.defined = true
  · simp [defined]
  · simp [defined]

open Compiling

theorem Branch.yields_filterOf (e : Encoder) (projected : List String) (t : Tracing)
    (x : ScopedFilter) :
    Yields (filterOf e projected t.sources x) fun all filter =>
      filter.Expresses (t.surroundings e projected x.visible) all x := by
  apply yields_bind (Surroundings.yields_condition x.condition)
  intro c
  apply yields_pure
  intro all means
  exact ⟨rfl, c, rfl, means⟩

structure Branch.Compiles (e : Encoder) (projected : List String) (all : List Hint) (f : Fragment)
    (b : Branch) (t : Tracing) (linked : List Tracing.Place) : Prop where
  traces : b.Traces e projected f t linked
  filters : List.Forall₂ (fun x filter => filter.Expresses
    (t.surroundings e projected x.visible) all x) f.filters b.filters

theorem Branch.yields_ofFragment (e : Encoder) (projected : List String) (f : Fragment) :
    Yields (ofFragment e projected f) fun all b =>
      ∃ t linked, b.Compiles e projected all f t linked := by
  intro before b after compiled
  obtain ⟨t, linked, traces, filtered⟩ := ofFragment_traces compiled
  have each := yields_mapM fun x (_ : x ∈ f.filters) =>
    yields_filterOf e projected t x
  obtain ⟨grows, expresses⟩ := each before b.filters after filtered
  exact ⟨grows, fun all continues => ⟨t, linked, traces, expresses all continues⟩⟩

theorem Program.Compiles.branch {config : Config} {query : NormalQuery} {p : Program}
    {fragments : List Fragment} (compiles : Compiles config query p fragments) {i : Nat}
    {f : Fragment} {b : Branch} (fragment : fragments[i]? = some f)
    (branch : p.branches[i]? = some b) :
    ∃ t linked, b.Compiles config.encoder p.projected p.hints f t linked := by
  have each := yields_mapM fun f (_ : f ∈ fragments) =>
    Branch.yields_ofFragment config.encoder query.projected f
  have all := (each [] p.branches p.hints compiles.branches).2 p.hints List.prefix_rfl
  obtain ⟨short, rfl⟩ := List.getElem?_eq_some_iff.1 fragment
  obtain ⟨inside, rfl⟩ := List.getElem?_eq_some_iff.1 branch
  rw [compiles.projected]
  exact all.get short inside

end Filters

end AttestedQuery
