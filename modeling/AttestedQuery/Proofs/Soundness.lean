import AttestedQuery.Checker
import AttestedQuery.Proofs.Collision
import AttestedQuery.Proofs.Compilation
import AttestedQuery.Proofs.Matching
import Mathlib.Data.List.Nodup

/-!
# What an accepted witness proves

Whoever made it, a witness that passes every check under the root of a signed dataset shows quads of
that dataset that match a branch of the program, and publishes the encodings of what the match
binds. Distinct terms of the dataset and of the query are assumed to have distinct encodings; beyond
that the only way out is a collision, or an input of digest zero, among inputs that the dataset and
the witness exhibit.
-/

set_option autoImplicit false

namespace AttestedQuery

/-- The quads of all slots match a branch and bind a row: each fits its pattern, every extension
gives its name the value of its source, and exactly the keys of the branch are bound. -/
structure Branch.Matches (b : Branch) (quads : List Quad) (row : Row) : Prop where
  fits : List.Forall₂ (Pattern.Fits Eq row) b.patterns quads
  extended : ∀ x ∈ b.extensions, ∃ value, Candidate.sourceOf row x.source = some value ∧
    row.get? x.name = some value
  bound : ∀ key, (row.get? key).isSome = b.bound.contains key

/-- The public value of a variable: the encoding of its term, or zero where it has none. -/
structure Encoder.Publishes (e : Encoder) (term : Option Term) (x : Field) : Prop where
  bound : ∀ t, term = some t → e.encode t = .ok x
  unbound : term = none → x = Field.zero

def Dataset.terms (d : Dataset) : List Term := d.quads.flatMap QuadOf.toList

/-- The constants that a branch compares encodings with. -/
def Branch.constants (b : Branch) : List Term :=
  b.patterns.flatMap (fun p => p.positions.toList.filterMap fun position =>
      match position with
      | some (.const term) => some term
      | _ => none)
    ++ b.extensions.filterMap fun x =>
      match x.source with
      | .term term => some term
      | .key _ => none

def Program.constants (p : Program) : List Term := p.branches.flatMap Branch.constants

theorem Branch.mem_constants_of_pattern {b : Branch} {p : Pattern} (member : p ∈ b.patterns)
    {position : Nat} {term : Term} (asked : p.positions.get? position = some (some (.const term))) :
    term ∈ b.constants := by
  refine List.mem_append_left _ (List.mem_flatMap.2 ⟨p, member, List.mem_filterMap.2 ?_⟩)
  exact ⟨some (.const term), (QuadOf.mem_toList_iff _ _).2 ⟨position, asked⟩, rfl⟩

theorem Branch.mem_constants_of_extension {b : Branch} {x : Extension} (member : x ∈ b.extensions)
    {term : Term} (source : x.source = .term term) : term ∈ b.constants := by
  refine List.mem_append_right _ (List.mem_filterMap.2 ⟨x, member, ?_⟩)
  rw [source]

/-! ## The match behind the assertion of a branch -/

section Match

variable {e : Encoder} {h : Hasher} {v : View} {projected : List String} {f : Fragment}
  {b : Branch} {t : Tracing} {linked : List Tracing.Place} {quads : List Quad}

/-- The first slots of a view hold the encodings of some quads. -/
def View.Shows (v : View) (e : Encoder) (quads : List Quad) : Prop :=
  ∀ (i : Nat) (quad : Quad), quads[i]? = some quad →
    ∃ codes, v.slots[i]? = some codes ∧ e.encodeQuad quad = .ok codes

theorem View.Shows.slot (shows : v.Shows e quads) {i position : Nat} {quad : Quad} {term : Term}
    (found : quads[i]? = some quad) (held : quad.get? position = some term) :
    ∃ x, v.field h (.slot i position) = .ok x ∧ e.encode term = .ok x := by
  obtain ⟨codes, stored, encodes⟩ := shows i quad found
  obtain ⟨code, here, encoded⟩ := Encoder.encodeQuad_get encodes held
  refine ⟨code, ?_, encoded⟩
  simp [View.field, View.slot?, stored, here]

theorem Branch.Traces.place_shows (traces : b.Traces e projected f t linked)
    (shows : v.Shows e quads) (length : quads.length = b.patterns.length) {place : Tracing.Place}
    (member : place ∈ Tracing.places f.patterns) :
    ∃ quad ∈ quads, ∃ position term x, quad.get? position = some term ∧
      v.field h place.1 = .ok x ∧ e.encode term = .ok x := by
  obtain ⟨i, p, position, found, asked, wire⟩ := Tracing.mem_places_iff.1 member
  have inside : i < quads.length := by
    rw [length, traces.patterns]
    exact (List.getElem?_eq_some_iff.1 found).1
  obtain ⟨term, held⟩ : ∃ term, quads[i].get? position = some term := by
    rw [← Option.isSome_iff_exists, QuadOf.get_isSome_iff _ p.positions, asked]
    rfl
  obtain ⟨x, read, encoded⟩ := shows.slot (List.getElem?_eq_getElem inside) held
  exact ⟨quads[i], List.getElem_mem inside, position, term, x, held, wire ▸ read, encoded⟩

theorem Branch.Traces.source_shows (traces : b.Traces e projected f t linked)
    (shows : v.Shows e quads) (length : quads.length = b.patterns.length) {key : String}
    {source : Wire} (found : t.sources.get? key = some source) :
    ∃ term x, (term ∈ quads.flatMap QuadOf.toList ∨ term ∈ b.constants) ∧
      v.field h source = .ok x ∧ e.encode term = .ok x := by
  rcases traces.extended.grounded key source found with ⟨place, member, rfl⟩ |
    ⟨made, member, term, code, origin, encoded, rfl⟩
  · obtain ⟨quad, inside, position, term, x, held, read, encoded⟩ :=
      traces.place_shows shows length member
    refine ⟨term, x, Or.inl ?_, read, encoded⟩
    exact List.mem_flatMap.2 ⟨quad, inside, (QuadOf.mem_toList_iff _ _).2 ⟨position, held⟩⟩
  · exact ⟨term, code, Or.inr (Branch.mem_constants_of_extension member origin), rfl, encoded⟩

theorem Branch.Traces.readable (traces : b.Traces e projected f t linked)
    (shows : v.Shows e quads) (length : quads.length = b.patterns.length) (place : Tracing.Place)
    (member : place ∈ Tracing.places f.patterns ++ linked) : ∃ x, v.field h place.1 = .ok x := by
  rcases List.mem_append.1 member with pattern | link
  · obtain ⟨_, _, _, _, x, _, read, _⟩ := traces.place_shows shows length pattern
    exact ⟨x, read⟩
  · obtain ⟨x, _, _, supplies⟩ := traces.linked_supplies link
    cases source : x.source with
    | key key =>
      rw [source] at supplies
      obtain ⟨_, x, _, read, _⟩ := traces.source_shows shows length supplies
      exact ⟨x, read⟩
    | term term =>
      rw [source] at supplies
      obtain ⟨code, _, same⟩ := supplies
      exact ⟨code, by rw [same]; rfl⟩

/-- Terms of some list have distinct encodings. -/
def Encoder.Distinguishes (e : Encoder) (terms : List Term) : Prop :=
  ∀ a ∈ terms, ∀ b ∈ terms, e.SameCode a b → a = b

/-- A row that binds the keys of a tracing to the terms whose encodings their sources show. -/
structure Tracing.Reads (e : Encoder) (h : Hasher) (v : View) (known : List Term) (t : Tracing)
    (row : Row) : Prop where
  bound : ∀ key, (row.get? key).isSome = (t.sources.get? key).isSome
  shown : ∀ key source term x, t.sources.get? key = some source → v.field h source = .ok x →
    term ∈ known → e.encode term = .ok x → row.get? key = some term
  known : ∀ key source, t.sources.get? key = some source →
    ∃ term x, term ∈ known ∧ v.field h source = .ok x ∧ e.encode term = .ok x

def Branch.known (b : Branch) (quads : List Quad) : List Term :=
  quads.flatMap QuadOf.toList ++ b.constants

theorem Branch.mem_known_of_quad (b : Branch) {i position : Nat} {quad : Quad} {term : Term}
    (found : quads[i]? = some quad) (held : quad.get? position = some term) :
    term ∈ b.known quads :=
  List.mem_append_left _ (List.mem_flatMap.2 ⟨quad, List.mem_of_getElem? found,
    (QuadOf.mem_toList_iff _ _).2 ⟨position, held⟩⟩)

theorem Branch.Traces.exists_row (traces : b.Traces e projected f t linked)
    (shows : v.Shows e quads) (length : quads.length = b.patterns.length)
    (distinct : e.Distinguishes (b.known quads)) : ∃ row, t.Reads e h v (b.known quads) row := by
  have sources (key : String) (source : Wire) (found : t.sources.get? key = some source) :
      ∃ term x, term ∈ b.known quads ∧ v.field h source = .ok x ∧ e.encode term = .ok x := by
    obtain ⟨term, x, known, read, encoded⟩ := traces.source_shows shows length found
    exact ⟨term, x, List.mem_append.2 known, read, encoded⟩
  have choice (key : String) : ∃ term, ∀ source, t.sources.get? key = some source →
      term ∈ b.known quads ∧ ∃ x, v.field h source = .ok x ∧ e.encode term = .ok x := by
    cases found : t.sources.get? key with
    | none => exact ⟨default, by simp⟩
    | some source =>
      obtain ⟨term, x, known, read, encoded⟩ := sources key source found
      refine ⟨term, ?_⟩
      rintro _ ⟨⟩
      exact ⟨known, x, read, encoded⟩
  choose term shown using choice
  let row : Row := KeyMap.ofList (t.sources.keys.map fun key => (key, term key))
  have lookup (key : String) :
      row.get? key = if (t.sources.get? key).isSome then some (term key) else none := by
    simp only [row, KeyMap.get_ofList_map, KeyMap.mem_keys_iff]
  refine ⟨row, ?_, ?_, sources⟩
  · intro key
    rw [lookup]
    split <;> simp_all
  · intro key source other x found read known encoded
    obtain ⟨member, y, readAgain, encodes⟩ := shown key source found
    obtain rfl := Except.ok.inj (read.symm.trans readAgain)
    rw [lookup, found, Option.isSome_some, if_pos rfl,
      distinct _ member _ known ⟨x, encodes, encoded⟩]

section Reading

variable {row : Row} (traces : b.Traces e projected f t linked) (shows : v.Shows e quads)
  (length : quads.length = b.patterns.length)
  (meets : ∀ place ∈ Tracing.places f.patterns ++ linked, Tracing.Meets e h v t.sources place)
  (reads : t.Reads e h v (b.known quads) row)

include traces shows meets reads

/-- Where everything that was asked is met, each quad fits its pattern. -/
theorem Branch.Traces.fits (distinct : e.Distinguishes (b.known quads)) {i : Nat} {p : Pattern}
    {quad : Quad} (pattern : b.patterns[i]? = some p) (found : quads[i]? = some quad) :
    p.Fits Eq row quad := by
  have place {position : Nat} {asked : Option PatternTerm}
      (here : p.positions.get? position = some asked) :
      Tracing.Meets e h v t.sources (.slot i position, asked) := by
    refine meets _ (List.mem_append_left _ (Tracing.mem_places_iff.2 ?_))
    exact ⟨i, p, position, traces.patterns ▸ pattern, here, rfl⟩
  refine ⟨?_, ?_⟩
  · intro position c held asked here
    obtain ⟨code, encoded, read⟩ := (place asked).constant c rfl
    obtain ⟨x, readAgain, encodes⟩ := shows.slot found here
    obtain rfl := Except.ok.inj (readAgain.symm.trans read)
    exact distinct _ (List.mem_append_right _ (Branch.mem_constants_of_pattern
      (List.mem_of_getElem? pattern) asked)) _ (b.mem_known_of_quad found here)
      ⟨x, encoded, encodes⟩
  · intro position asked key here named
    obtain ⟨source, x, stored, read, readSource⟩ :=
      (place here).key key (by simp [Tracing.keyOf, named])
    obtain ⟨held, has⟩ : ∃ held, quad.get? position = some held := by
      rw [← Option.isSome_iff_exists, QuadOf.get_isSome_iff _ p.positions, here]
      rfl
    obtain ⟨y, readAgain, encodes⟩ := shows.slot found has
    obtain rfl := Except.ok.inj (readAgain.symm.trans read)
    rw [has]
    exact reads.shown key source held y stored readSource (b.mem_known_of_quad found has) encodes

omit shows in
/-- Where everything that was asked is met, each extension has the value of its source. -/
theorem Branch.Traces.extension (x : Extension) (member : x ∈ b.extensions) :
    ∃ value, Candidate.sourceOf row x.source = some value ∧ row.get? x.name = some value := by
  obtain ⟨wire, inside, supplies⟩ := traces.supplied member
  obtain ⟨source, y, stored, read, readSource⟩ :=
    (meets _ (List.mem_append_right _ inside)).key x.name rfl
  cases origin : x.source with
  | term c =>
    rw [origin] at supplies
    obtain ⟨code, encoded, rfl⟩ := supplies
    obtain rfl : code = y := Except.ok.inj read
    have known : c ∈ b.known quads :=
      List.mem_append_right _ (Branch.mem_constants_of_extension member origin)
    exact ⟨c, rfl, reads.shown x.name source c code stored readSource known encoded⟩
  | key key =>
    rw [origin] at supplies
    obtain ⟨term, z, known, readAgain, encoded⟩ := reads.known key wire supplies
    obtain rfl := Except.ok.inj (read.symm.trans readAgain)
    exact ⟨term, reads.shown key wire term y supplies read known encoded,
      reads.shown x.name source term y stored readSource known encoded⟩

end Reading

theorem Tracing.Reads.publishes {row : Row} (reads : t.Reads e h v (b.known quads) row)
    {name : String}
    (published : v.holds h (Branch.bindingOf t.sources name) = .ok true) :
    ∃ x, v.values.get? name = some x ∧ e.Publishes (row.get? name) x := by
  obtain ⟨x, read, same⟩ := View.holds_eq_iff.1 published
  refine ⟨x, ?_, ?_⟩
  · simp only [View.field] at read
    split at read
    next y stored => rw [stored, Except.ok.inj read]
    next => simp at read
  · cases found : t.sources.get? name with
    | none =>
      have absent : row.get? name = none := by
        simpa [found] using reads.bound name
      rw [absent]
      refine ⟨by simp, fun _ => ?_⟩
      simpa [found, View.field, eq_comm] using same
    | some source =>
      obtain ⟨term, z, known, readAgain, encoded⟩ := reads.known name source found
      rw [found, Option.getD_some] at same
      obtain rfl := Except.ok.inj (same.symm.trans readAgain)
      rw [reads.shown name source term x found same known encoded]
      refine ⟨?_, by simp⟩
      rintro _ ⟨⟩
      exact encoded

/-- A view over which the equalities of a branch hold shows a match of the branch, and the sources
show the encodings of what the match binds. -/
theorem Branch.Traces.exists_reading (traces : b.Traces e projected f t linked)
    (shows : v.Shows e quads) (length : quads.length = b.patterns.length)
    (distinct : e.Distinguishes (b.known quads))
    (equalities : ∀ a ∈ b.equalities, v.holds h a = .ok true) :
    ∃ row, b.Matches quads row ∧ t.Reads e h v (b.known quads) row := by
  have meets := (traces.extended.records.satisfied h v
    (traces.readable shows length)).1 (traces.equalities ▸ equalities)
  obtain ⟨row, reads⟩ := traces.exists_row shows length distinct
  refine ⟨row, ⟨?_, traces.extension meets reads, ?_⟩, reads⟩
  · refine List.forall₂_iff_get.2 ⟨length.symm, fun i short inside => ?_⟩
    exact traces.fits shows meets reads distinct (List.getElem?_eq_getElem short)
      (List.getElem?_eq_getElem inside)
  · intro key
    rw [reads.bound, traces.bound, KeySet.contains_ofKeys, List.contains_eq_mem, Bool.eq_iff_iff,
      decide_eq_true_iff, KeyMap.mem_keys_iff]

/-- A view over which the assertion of a branch holds shows a match of the branch, and publishes the
encodings of what the match binds. -/
theorem Branch.Traces.exists_match (traces : b.Traces e projected f t linked)
    (shows : v.Shows e quads) (length : quads.length = b.patterns.length)
    (distinct : e.Distinguishes (b.known quads)) (holds : v.holds h b.assertion = .ok true) :
    ∃ row, b.Matches quads row ∧ ∀ name ∈ projected,
      ∃ x, v.values.get? name = some x ∧ e.Publishes (row.get? name) x := by
  rw [Branch.assertion, View.holds_all_iff] at holds
  have bindings : ∀ a ∈ b.bindings, v.holds h a = .ok true := fun a member =>
    holds a (List.mem_append_left _ (List.mem_append_left _ member))
  have equalities : ∀ a ∈ b.equalities, v.holds h a = .ok true := fun a member =>
    holds a (List.mem_append_left _ (List.mem_append_right _ member))
  obtain ⟨row, matching, reads⟩ := traces.exists_reading shows length distinct equalities
  refine ⟨row, matching, fun name member => ?_⟩
  exact reads.publishes (bindings _ (traces.bindings ▸ List.mem_map_of_mem member))

end Match

/-! ## Accepted witnesses -/

/-- The inputs hashed to sign a dataset: the quadruples of its leaves, and the pairs of its tree. -/
def Dataset.inputs (h : Hasher) (d : Dataset) : List Preimage :=
  let leaves := d.encoded.map h.onQuad
  d.encoded.map .ofQuad
    ++ Commitment.Tree.inputs
      ⟨d.depth, leaves, Commitment.levelsAbove h d.depth Field.zero leaves⟩

/-- The inputs hashed to check the openings of a witness. -/
def Witness.inputs (h : Hasher) (w : Witness) : List Preimage :=
  w.slots.flatMap fun slot => .ofQuad slot.terms :: slot.opening.inputs h (h.onQuad slot.terms)

theorem Checker.checkOpenings_ok {h : Hasher} {root : Field} {slots : List Slot} {index : Nat}
    (opened : checkOpenings h root index slots = .ok ()) :
    ∀ slot ∈ slots, slot.opening.verifies h (h.onQuad slot.terms) root = true := by
  induction slots generalizing index with
  | nil => simp
  | cons slot rest induction =>
    rw [checkOpenings] at opened
    split at opened
    next verifies =>
      rw [List.forall_mem_cons]
      exact ⟨verifies, induction opened⟩
    next => simp at opened

theorem Checker.execute_ok {h : Hasher} {p : Program} {w : Witness} {trace : Trace}
    (signing : p.skipSigning = false) (accepted : execute h p w = .ok trace) :
    ∃ b, p.branches[w.branch]? = some b ∧ w.slots.length = p.width ∧
      w.hints.length = p.hints.length ∧
        (∀ slot ∈ w.slots, slot.opening.verifies h (h.onQuad slot.terms) w.root = true) ∧
          w.view.holds h b.assertion = .ok true := by
  obtain ⟨_, checked, _⟩ := bind_ok_iff.1 accepted
  unfold check at checked
  split at checked
  next => simp at checked
  next b branch =>
    obtain ⟨_, shape, checked⟩ := bind_ok_iff.1 checked
    simp only [signing, Bool.not_false, if_true] at checked
    obtain ⟨_, committed, holds⟩ := bind_ok_iff.1 checked
    obtain ⟨publicKey, _, committed⟩ := bind_ok_iff.1 committed
    obtain ⟨signature, _, committed⟩ := bind_ok_iff.1 committed
    refine ⟨b, branch, ?_, ?_, ?_, (View.check_ok_iff b.assertion).1 holds⟩
    · unfold checkShape at shape
      split at shape <;> simp_all
    · unfold checkShape at shape
      split at shape
      · simp at shape
      · split at shape <;> simp_all
    · split at committed
      · exact checkOpenings_ok committed
      · simp at committed

/-- A program is as wide as its widest branch, and has at least one slot. -/
theorem Program.width_bounds (p : Program) :
    1 ≤ p.width ∧ ∀ b ∈ p.branches, b.slotCount ≤ p.width := by
  have general (branches : List Branch) (start : Nat) :
      start ≤ branches.foldl (fun width branch => max width branch.slotCount) start ∧
        ∀ b ∈ branches, b.slotCount ≤
          branches.foldl (fun width branch => max width branch.slotCount) start := by
    induction branches generalizing start with
    | nil => simp
    | cons first rest induction =>
      obtain ⟨grows, each⟩ := induction (max start first.slotCount)
      rw [List.foldl_cons, List.forall_mem_cons]
      exact ⟨by omega, by omega, each⟩
  exact general p.branches 1

theorem Program.slotCount_le_width {p : Program} {b : Branch} (member : b ∈ p.branches) :
    b.slotCount ≤ p.width :=
  p.width_bounds.2 b member

section Accepted

variable {quads : List Quad} {config : Config} {signer : Signer} {d : Dataset}
  {tree : Commitment.Tree} {signature : Octets}

theorem Dataset.SignedBy.opened_quad (s : d.SignedBy quads config signer tree signature)
    {inputs : List Preimage} (separates : config.hasher.Separates inputs)
    (exhibited : ∀ input ∈ d.inputs config.hasher, input ∈ inputs) {slot : Slot}
    (hashed : ∀ input ∈ Preimage.ofQuad slot.terms ::
      slot.opening.inputs config.hasher (config.hasher.onQuad slot.terms), input ∈ inputs)
    (verifies : slot.opening.verifies config.hasher (config.hasher.onQuad slot.terms)
      d.root = true) :
    ∃ quad ∈ d.quads, config.encoder.encodeQuad quad = .ok slot.terms := by
  have shape := (Commitment.Tree.build_ok_iff.1 s.built).2.2
  have onQuad : config.encoder.leaf = config.hasher.onQuad := rfl
  have member : slot.terms ∈ d.encoded := by
    have leads : slot.opening.rootFrom config.hasher (config.hasher.onQuad slot.terms) =
        Commitment.node config.hasher tree.bottom config.treeDepth 0 := by
      rw [← Commitment.Tree.root_eq_node s.built, ← s.root]
      simp only [Opening.verifies, Bool.and_eq_true, beq_iff_eq] at verifies
      exact verifies.2
    refine Commitment.reaches_leaf separates ?_ ?_ ?_ (hashed _ List.mem_cons_self)
      config.treeDepth 0 (le_refl _) (slot.opening.siblings.zip slot.opening.directions) ?_ leads
    · intro height below place
      refine exhibited _ (List.mem_append_right _ ?_)
      have inside := Commitment.Tree.mem_inputs s.built below place
      rw [shape, onQuad, ← s.depth] at inside
      rw [shape, onQuad]
      exact inside
    · intro place
      rw [shape]
      simp only [Commitment.Tree.bottom, Commitment.nodeAt, List.getElem?_map]
      cases stored : d.encoded[place]? with
      | none => exact Or.inl rfl
      | some row => exact Or.inr ⟨row, List.mem_of_getElem? stored, rfl⟩
    · intro row inside
      exact exhibited _ (List.mem_append_left _ (List.mem_map_of_mem inside))
    · exact fun input inside => hashed input (List.mem_cons_of_mem _ inside)
  obtain ⟨i, inside, same⟩ := List.getElem_of_mem member
  have bound : i < d.quads.length := by rw [← s.encodedBy.length]; exact inside
  obtain ⟨codes, stored, encodes⟩ := s.encodedBy.codes (List.getElem?_eq_getElem bound)
  rw [List.getElem?_eq_getElem inside, same] at stored
  obtain rfl := Option.some.inj stored
  exact ⟨d.quads[i], List.getElem_mem bound, encodes⟩

end Accepted

/-- Whoever made it, a witness accepted under the root of a signed dataset shows quads of the
dataset that match its branch, and publishes the encodings of what the match binds. -/
theorem accepted_witness_matches (quads : List Quad) (config : Config) (signer : Signer)
    (text : String) (d : Dataset) (p : Program) (w : Witness) (trace : Trace)
    (signed : Dataset.sign quads config signer = .ok d)
    (compiled : Program.compile config text = .ok p) (signing : config.skipSigning = false)
    (distinct : config.encoder.Distinguishes (d.terms ++ p.constants)) (root : w.root = d.root)
    (accepted : Checker.execute config.hasher p w = .ok trace) :
    (∃ b matched row, p.branches[w.branch]? = some b ∧
      (∀ quad ∈ matched, quad ∈ d.quads) ∧
      (∀ (i : Nat) (quad : Quad), matched[i]? = some quad → ∃ slot, w.slots[i]? = some slot ∧
        config.encoder.encodeQuad quad = .ok slot.terms) ∧
      b.Matches matched row ∧
      ∀ name ∈ p.projected, config.encoder.Publishes (row.get? name) (w.valueOf name)) ∨
    config.hasher.Collides (d.inputs config.hasher ++ w.inputs config.hasher) ∨
    config.hasher.Vanishes (d.inputs config.hasher ++ w.inputs config.hasher) := by
  refine (config.hasher.separates_or _).imp_left fun separates => ?_
  obtain ⟨tree, signature, s⟩ := Dataset.sign_ok signed
  obtain ⟨query, normal⟩ := Program.compile_ok compiled
  obtain ⟨fragments, compiles⟩ := Program.ofNormal_ok normal
  obtain ⟨b, branch, slots, _, opened, holds⟩ :=
    Checker.execute_ok (compiles.skipSigning.trans signing) accepted
  have member : b ∈ p.branches := List.mem_of_getElem? branch
  obtain ⟨f, _, t, linked, traces⟩ := compiles.traces member
  -- Each slot opens to a quad of the dataset; the first ones are those of the patterns.
  have each : ∀ slot ∈ w.slots.take b.slotCount, ∃ quad, quad ∈ d.quads ∧
      config.encoder.encodeQuad quad = .ok slot.terms := by
    intro slot inside
    have here := List.mem_of_mem_take inside
    refine s.opened_quad separates (fun input => List.mem_append_left _) ?_
      (root ▸ opened slot here)
    intro input hashed
    exact List.mem_append_right _ (List.mem_flatMap.2 ⟨slot, here, hashed⟩)
  obtain ⟨matched, shown⟩ := exists_forall₂ each
  have length : matched.length = b.patterns.length := by
    rw [← shown.length_eq, List.length_take, slots]
    exact min_eq_left (Program.slotCount_le_width member)
  have slot {i : Nat} {quad : Quad} (found : matched[i]? = some quad) :
      quad ∈ d.quads ∧ ∃ slot, w.slots[i]? = some slot ∧
        config.encoder.encodeQuad quad = .ok slot.terms := by
    obtain ⟨inside, rfl⟩ := List.getElem?_eq_some_iff.1 found
    have short : i < (w.slots.take b.slotCount).length := by rw [shown.length_eq]; exact inside
    obtain ⟨stored, encodes⟩ := shown.get short inside
    refine ⟨stored, _, ?_, encodes⟩
    rw [List.get_eq_getElem, List.getElem_take]
    exact List.getElem?_eq_getElem _
  have shows : w.view.Shows config.encoder matched := by
    intro i quad found
    obtain ⟨_, slot, stored, encodes⟩ := slot found
    exact ⟨slot.terms, by simp [Witness.view, stored], encodes⟩
  have known (term : Term) (inside : term ∈ b.known matched) : term ∈ d.terms ++ p.constants := by
    rcases List.mem_append.1 inside with held | constant
    · obtain ⟨quad, member, term⟩ := List.mem_flatMap.1 held
      obtain ⟨i, bound, rfl⟩ := List.getElem_of_mem member
      exact List.mem_append_left _ (List.mem_flatMap.2
        ⟨_, (slot (List.getElem?_eq_getElem bound)).1, term⟩)
    · exact List.mem_append_right _ (List.mem_flatMap.2 ⟨b, member, constant⟩)
  obtain ⟨row, matches_, published⟩ := traces.exists_match shows length
    (fun a insideA c insideC => distinct a (known a insideA) c (known c insideC)) holds
  refine ⟨b, matched, row, branch, ?_, fun i quad found => (slot found).2, matches_, ?_⟩
  · intro quad inside
    obtain ⟨i, bound, rfl⟩ := List.getElem_of_mem inside
    exact (slot (List.getElem?_eq_getElem bound)).1
  · intro name projected
    obtain ⟨x, stored, publishes⟩ := published name projected
    rw [Witness.valueOf, show w.values.get? name = some x from stored]
    exact publishes

theorem Encoder.distinguishes_of_nodup {e : Encoder} {terms listed : List Term}
    {codes : List Field} (subset : ∀ term ∈ terms, term ∈ listed)
    (coded : listed.mapM e.encode = .ok codes) (nodup : codes.Nodup) : e.Distinguishes terms := by
  intro a insideA b insideB ⟨code, codeA, codeB⟩
  have each := (mapM_ok_iff _ _ _).1 coded
  obtain ⟨i, boundA, rfl⟩ := List.getElem_of_mem (subset a insideA)
  obtain ⟨j, boundB, rfl⟩ := List.getElem_of_mem (subset b insideB)
  have first := each.get boundA (by rw [← each.length_eq]; exact boundA)
  have second := each.get boundB (by rw [← each.length_eq]; exact boundB)
  have same : i = j := nodup.getElem_inj_iff.1 <|
    (Except.ok.inj (first.symm.trans codeA)).trans (Except.ok.inj (second.symm.trans codeB)).symm
  subst same
  rfl

def sampleWitness : Witness where
  branch := 0
  slots := [⟨0, sampleCodes, ⟨0, [Field.zero], [false]⟩⟩]
  values := KeyMap.ofList [("s", sampleCodes.subject)]
  bindings := KeyMap.empty
  hints := []
  root := sampleRoot
  signature := sampleDataset.signature
  publicKey := sampleDataset.publicKey
  scheme := .secp256k1Ecdsa

def sampleAcceptance : Result Unit := do
  let p ← Program.compile sampleConfig sampleText
  let _ ← Checker.execute sampleConfig.hasher p sampleWitness
  if p.projected = ["s"] ∧ ∀ term ∈ sampleDataset.terms ++ p.constants, term ∈ sampleQuad.toList
  then return ()
  else .error .badQuery

set_option maxRecDepth 100000 in
theorem sampleAcceptance_ok : sampleAcceptance.isOk = true := by
  simp only [sampleAcceptance, Program.compile, Program.ofNormal, Config.encoder_eq,
    Config.hasher_eq]
  decide +kernel

theorem sample_accepted : ∃ p trace, Program.compile sampleConfig sampleText = .ok p ∧
    Checker.execute sampleConfig.hasher p sampleWitness = .ok trace ∧ p.projected = ["s"] ∧
    ∀ term ∈ sampleDataset.terms ++ p.constants, term ∈ sampleQuad.toList := by
  obtain ⟨_, accepted⟩ := exists_ok_of_isOk sampleAcceptance_ok
  obtain ⟨p, compiled, executes⟩ := bind_ok_iff.1 accepted
  obtain ⟨trace, executed, checks⟩ := bind_ok_iff.1 executes
  split at checks
  next tests => exact ⟨p, trace, compiled, executed, tests⟩
  next => cases checks

/-- The sample witness shows a match. -/
theorem accepted_witness_matches_sample : ∃ p trace,
    Dataset.sign [sampleQuad] sampleConfig sampleSigner = .ok sampleDataset ∧
    Program.compile sampleConfig sampleText = .ok p ∧
    sampleConfig.encoder.Distinguishes (sampleDataset.terms ++ p.constants) ∧
    Checker.execute sampleConfig.hasher p sampleWitness = .ok trace ∧
    ((∃ b matched row, p.branches[sampleWitness.branch]? = some b ∧
      (∀ quad ∈ matched, quad ∈ sampleDataset.quads) ∧
      (∀ (i : Nat) (quad : Quad), matched[i]? = some quad → ∃ slot,
        sampleWitness.slots[i]? = some slot ∧
          sampleConfig.encoder.encodeQuad quad = .ok slot.terms) ∧
      b.Matches matched row ∧
      ∀ name ∈ p.projected,
        sampleConfig.encoder.Publishes (row.get? name) (sampleWitness.valueOf name)) ∨
    sampleConfig.hasher.Collides
      (sampleDataset.inputs sampleConfig.hasher ++ sampleWitness.inputs sampleConfig.hasher) ∨
    sampleConfig.hasher.Vanishes
      (sampleDataset.inputs sampleConfig.hasher ++ sampleWitness.inputs sampleConfig.hasher)) := by
  obtain ⟨p, trace, compiled, executed, _, subset⟩ := sample_accepted
  obtain ⟨subject, predicate, object, graph⟩ := QuadOf.mapM_ok_iff.1 sample_encodes
  have coded : sampleQuad.toList.mapM sampleConfig.encoder.encode = .ok sampleCodes.toList := by
    simp only [QuadOf.toList, List.mapM_cons, List.mapM_nil, subject, predicate, object, graph]
    rfl
  have distinct := Encoder.distinguishes_of_nodup subset coded (by decide)
  exact ⟨p, trace, sample_signs, compiled, distinct, executed,
    accepted_witness_matches [sampleQuad] sampleConfig sampleSigner sampleText sampleDataset p
      sampleWitness trace sample_signs compiled rfl distinct rfl executed⟩

end AttestedQuery
