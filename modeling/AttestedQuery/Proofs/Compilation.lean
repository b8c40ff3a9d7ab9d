import AttestedQuery.Proofs.Lookup
import AttestedQuery.Proofs.Signing
import AttestedQuery.Proofs.Tracing

/-!
# The branches of a compiled program

Every branch of a program is compiled from one fragment of its query, in order, while the list of
hints grows.
-/

set_option autoImplicit false

namespace AttestedQuery

theorem run_mapM_each {ε σ α β : Type} {f : α → StateT σ (Except ε) β} {xs : List α} {ys : List β}
    {s t : σ} (mapped : xs.mapM f s = .ok (ys, t)) :
    List.Forall₂ (fun x y => ∃ before after, f x before = .ok (y, after)) xs ys := by
  induction xs generalizing ys s with
  | nil =>
    obtain ⟨rfl, _⟩ := run_pure_ok_iff.1 mapped
    exact List.Forall₂.nil
  | cons x rest induction =>
    rw [List.mapM_cons] at mapped
    obtain ⟨y, middle, first, others⟩ := run_bind_ok_iff.1 mapped
    obtain ⟨ys, last, later, whole⟩ := run_bind_ok_iff.1 others
    obtain ⟨rfl, rfl⟩ := run_pure_ok_iff.1 whole
    exact List.Forall₂.cons ⟨s, middle, first⟩ (induction later)

namespace Program

structure Compiles (config : Config) (query : NormalQuery) (p : Program)
    (fragments : List Fragment) : Prop where
  folded : ∃ next, Fragment.ofAlgebra 0 (bodyOf query.algebra) = .ok (fragments, next)
  branches : fragments.mapM (Branch.ofFragment config.encoder query.projected) [] =
    .ok (p.branches, p.hints)
  projected : p.projected = query.projected
  hashSuite : p.hashSuite = config.hashSuite
  skipSigning : p.skipSigning = config.skipSigning
  fingerprint : p.fingerprint = config.fingerprint

variable {config : Config} {query : NormalQuery} {p : Program}

theorem ofNormal_ok (compiled : ofNormal config query = .ok p) :
    ∃ fragments, Compiles config query p fragments := by
  obtain ⟨⟨fragments, next⟩, folded, compiled⟩ := bind_ok_iff.1 compiled
  obtain ⟨⟨branches, hints⟩, mapped, compiled⟩ := bind_ok_iff.1 compiled
  obtain rfl := pure_ok_iff.1 compiled
  exact ⟨fragments, ⟨next, folded⟩, mapped, rfl, rfl, rfl, rfl⟩

theorem compile_ok {text : String} (compiled : compile config text = .ok p) :
    ∃ query, ofNormal config query = .ok p := by
  obtain ⟨_, _, compiled⟩ := bind_ok_iff.1 compiled
  obtain ⟨parsed, _, compiled⟩ := bind_ok_iff.1 compiled
  obtain ⟨query, _, compiled⟩ := bind_ok_iff.1 compiled
  exact ⟨query, compiled⟩

theorem Compiles.traces {fragments : List Fragment} (c : Compiles config query p fragments)
    {b : Branch} (member : b ∈ p.branches) :
    ∃ f ∈ fragments, ∃ t linked, b.Traces config.encoder p.projected f t linked := by
  have each := run_mapM_each c.branches
  obtain ⟨i, inside, rfl⟩ := List.getElem_of_mem member
  have bound : i < fragments.length := by rw [each.length_eq]; exact inside
  obtain ⟨before, after, made⟩ := each.get bound inside
  obtain ⟨t, linked, traces, _⟩ := Branch.ofFragment_traces made
  refine ⟨fragments[i], List.getElem_mem bound, t, linked, ?_⟩
  rw [c.projected]
  exact traces

end Program

/-! ## Constants -/

section Constants

variable {e : Encoder} {projected : List String} {f : Fragment} {b : Branch} {t : Tracing}
  {linked : List Tracing.Place}

theorem Tracing.mem_places_iff {patterns : List Pattern} {place : Tracing.Place} :
    place ∈ Tracing.places patterns ↔ ∃ i p position, patterns[i]? = some p ∧
      p.positions.get? position = some place.2 ∧ place.1 = .slot i position := by
  simp only [places, placesOf, List.mem_flatMap, List.mem_map, Prod.exists,
    List.mem_zipIdx_iff_getElem?, QuadOf.toList_getElem]
  constructor
  · rintro ⟨p, i, found, term, position, asked, rfl⟩
    exact ⟨i, p, position, found, asked, rfl⟩
  · rintro ⟨i, p, position, found, asked, wire⟩
    exact ⟨p, i, found, place.2, position, asked, Prod.ext wire.symm rfl⟩

theorem Branch.Traces.encodable_constant (traces : b.Traces e projected f t linked) {p : Pattern}
    (member : p ∈ b.patterns) {position : Nat} {term : Term}
    (asked : p.positions.get? position = some (some (.const term))) :
    ∃ code, e.encode term = .ok code := by
  rw [traces.patterns] at member
  obtain ⟨i, inside, rfl⟩ := List.getElem_of_mem member
  have place : ((.slot i position, some (.const term)) : Tracing.Place) ∈
      Tracing.places f.patterns :=
    Tracing.mem_places_iff.2 ⟨i, _, position, List.getElem?_eq_getElem inside, asked, rfl⟩
  exact traces.extended.records.encodable _ (List.mem_append_left _ place) term rfl

theorem Branch.Traces.supplied (traces : b.Traces e projected f t linked) {x : Extension}
    (member : x ∈ b.extensions) :
    ∃ wire, (wire, some (.var x.name)) ∈ linked ∧ Tracing.Supplies e t.sources x.source wire := by
  have each : List.Forall₂ (fun (x : Extension) place => place.2 = some (.var x.name) ∧
      Tracing.Supplies e t.sources x.source place.1) b.extensions linked := traces.extended.linked
  generalize b.extensions = extensions at each member
  generalize linked = places at each
  induction each with
  | nil => simp at member
  | cons first others induction =>
    rcases List.mem_cons.1 member with rfl | member
    · obtain ⟨asked, supplies⟩ := first
      refine ⟨_, List.mem_cons.2 (Or.inl ?_), supplies⟩
      exact Prod.ext rfl asked.symm
    · obtain ⟨wire, inside, supplies⟩ := induction member
      exact ⟨wire, List.mem_cons_of_mem _ inside, supplies⟩

theorem Branch.Traces.linked_supplies (traces : b.Traces e projected f t linked)
    {place : Tracing.Place} (member : place ∈ linked) :
    ∃ x ∈ b.extensions, place.2 = some (.var x.name) ∧
      Tracing.Supplies e t.sources x.source place.1 := by
  have each : List.Forall₂ (fun (x : Extension) place => place.2 = some (.var x.name) ∧
      Tracing.Supplies e t.sources x.source place.1) b.extensions linked := traces.extended.linked
  generalize b.extensions = extensions at each
  generalize linked = places at each member
  induction each with
  | nil => simp at member
  | cons first others induction =>
    rcases List.mem_cons.1 member with rfl | member
    · exact ⟨_, List.mem_cons_self, first⟩
    · obtain ⟨x, inside, supplies⟩ := induction member
      exact ⟨x, List.mem_cons_of_mem _ inside, supplies⟩

theorem Branch.Traces.encodable_source (traces : b.Traces e projected f t linked) {x : Extension}
    (member : x ∈ b.extensions) {term : Term} (source : x.source = .term term) :
    ∃ code, e.encode term = .ok code := by
  obtain ⟨wire, _, supplies⟩ := traces.supplied member
  rw [source] at supplies
  obtain ⟨code, encoded, _⟩ := supplies
  exact ⟨code, encoded⟩

end Constants

/-! ## A compiled query -/

def sampleText : String := "SELECT ?s WHERE \x7b ?s <http://e/p> ?o \x7d"

set_option maxRecDepth 100000 in
theorem sample_compiles : ∃ p, Program.compile sampleConfig sampleText = .ok p :=
  exists_ok_of_isOk (by decide +kernel)

end AttestedQuery
