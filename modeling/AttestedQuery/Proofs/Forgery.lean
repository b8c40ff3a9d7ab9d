import AttestedQuery.Proofs.Filters
import AttestedQuery.Proofs.Polarity
import AttestedQuery.Proofs.Witnesses

/-!
# What a prover gains by other hints

The hints of a witness are chosen by its prover. Among hash inputs without collision the filters of
a branch only see which tied hints do not have the value that the row gives them, and are read as
if nothing were known about the terms of these. So other hints gain something exactly where some
set of wrong hints makes the filters true that are not true of the row; by the place of negations
in a filter one can often tell that there is none.
-/

set_option autoImplicit false

namespace AttestedQuery

def Reading.withFaults (e : Encoder) (row : Row) (visible : KeySet) (wrong : Hint → Bool) :
    Reading where
  encoder := e
  row key := if visible.contains key then row.get? key else none
  wrong := wrong
  trusted _ := Field.zero

/-- All filters of a fragment are true of a row when some hints are wrong. -/
def Fragment.passes (f : Fragment) (e : Encoder) (row : Row) (wrong : Hint → Bool) : Bool :=
  f.filters.all fun x =>
    (Reading.withFaults e row x.visible wrong).outcome x.condition == some true

def Row.Gives (e : Encoder) (row : Row) (all : List Hint) (wrong : Hint → Bool) : Prop :=
  ∀ h, wrong h = true → h ∈ all ∧ (Reading.given e row h).isSome = true

/-- Filters that are not true of a row do not become true by wrong hints. -/
def Fragment.Withstands (f : Fragment) (e : Encoder) (row : Row) (all : List Hint) : Prop :=
  ∀ wrong, row.Gives e all wrong → f.passes e row wrong = true →
    f.passes e row (fun _ => false) = true

/-- The values that a row gives the hints of a list, with some of them replaced. -/
def Hint.forged (e : Encoder) (row : Row) (all : List Hint) (wrong : Hint → Bool) : List Field :=
  all.map fun h =>
    let x := (Reading.given e row h).getD Field.zero
    if wrong h then (if x = Field.zero then Field.ofNat 1 else Field.zero) else x

/-- The inputs hashed to encode a row, and by the constraints on some hints and on those that the
row gives. -/
def Hint.exhibited (e : Encoder) (row : Row) (all : List Hint) (values : List Field) :
    List Preimage :=
  row.inputs e ++ inputs e.hasher all values
    ++ inputs e.hasher all (forged e row all fun _ => false)

/-- A view with these hints satisfies the assertion of a branch. -/
def Branch.Accepts (b : Branch) (h : Hasher) (v : View) (hints : List Field) : Prop :=
  View.holds h { v with hints := hints } b.assertion = .ok true

/-! ## Faults -/

section Faults

variable {e : Encoder} {row : Row} {all : List Hint} {wrong : Hint → Bool} {values : List Field}

theorem Hint.told_padded (values : List Field) (count : Nat) (h : Hint) :
    told all (values ++ List.replicate count Field.zero) h = told all values h := by
  unfold told
  by_cases inside : all.idxOf h < values.length
  · rw [List.getElem?_append_left inside]
  · have beyond : values.length ≤ all.idxOf h := by omega
    rw [List.getElem?_append_right beyond, List.getElem?_eq_none beyond]
    cases found : (List.replicate count Field.zero)[all.idxOf h - values.length]? with
    | none => rfl
    | some x => exact List.eq_of_mem_replicate (List.mem_of_getElem? found)

theorem Hint.inputs_padded (h : Hasher) (values : List Field) (count : Nat) :
    inputs h all (values ++ List.replicate count Field.zero) = inputs h all values := by
  simp only [inputs, told_padded]

theorem Reading.isFault_gives : row.Gives e all (isFault e row all values) := by
  intro h fault
  simp only [isFault, Bool.and_eq_true, List.contains_iff_mem] at fault
  obtain ⟨⟨listed, _⟩, differs⟩ := fault
  refine ⟨listed, ?_⟩
  cases found : given e row h with
  | none => simp [found] at differs
  | some x => rfl

theorem Reading.isFault_forged (tied : ∀ h ∈ all, h.isTied = true)
    (gives : row.Gives e all wrong) :
    isFault e row all (Hint.forged e row all wrong) = wrong := by
  funext h
  by_cases listed : h ∈ all
  · have value := Hint.told_map (g := fun h =>
      let x := (given e row h).getD Field.zero
      if wrong h then (if x = Field.zero then Field.ofNat 1 else Field.zero) else x) listed
    rw [isFault, Hint.forged, value, List.contains_iff_mem.2 listed, tied h listed, Bool.true_and]
    cases found : given e row h with
    | none =>
      cases chosen : wrong h with
      | false => simp
      | true => simpa [found] using (gives h chosen).2
    | some x =>
      have different : Field.ofNat 1 ≠ Field.zero := by decide
      cases chosen : wrong h with
      | false => simp
      | true =>
        by_cases zero : x = Field.zero
        · simp [zero, different.symm]
        · simp [zero]
  · have outside : wrong h = false := by
      rw [Bool.eq_false_iff]
      exact fun chosen => listed (gives h chosen).1
    have unlisted : all.contains h = false := by simpa using listed
    rw [isFault, unlisted, outside, Bool.false_and, Bool.false_and]

/-- Where no hint is taken on trust, only the faults of hints matter. -/
theorem Reading.ofHints_tied (tied : ∀ h ∈ all, h.isTied = true) (visible : KeySet) :
    ofHints e row visible all values = withFaults e row visible (isFault e row all values) := by
  have nothing (h : Hint) : (all.contains h && !h.isTied) = false := by
    by_cases listed : h ∈ all
    · rw [tied h listed, Bool.not_true, Bool.and_false]
    · have unlisted : all.contains h = false := by simpa using listed
      rw [unlisted, Bool.false_and]
  simp only [ofHints, withFaults, nothing, Bool.false_eq_true, if_false]

theorem Reading.withFaults_within {visible : KeySet} :
    (withFaults e row visible wrong).Within (withFaults e row visible fun _ => false) where
  encoder := rfl
  row := rfl
  trusted := rfl
  wrong _ fault := absurd fault Bool.false_ne_true

/-- Filters without a type test that they want false withstand all wrong hints. -/
theorem Fragment.withstands_of_affirms {f : Fragment}
    (affirm : ∀ x ∈ f.filters, x.condition.affirms true = true) : f.Withstands e row all := by
  intro wrong _ forged
  simp only [passes, List.all_eq_true, beq_iff_eq] at forged ⊢
  intro x member
  exact Reading.withFaults_within.outcome x.condition (affirm x member) (forged x member)

end Faults

/-! ## The assertion of a branch -/

theorem mem_insertSorted {n k : Nat} {sorted : List Nat} :
    k ∈ insertSorted n sorted ↔ k = n ∨ k ∈ sorted := by
  induction sorted with
  | nil => simp [insertSorted]
  | cons m rest induction =>
    unfold insertSorted
    split
    · simp
    · split
      next same => simp [same]
      next => rw [List.mem_cons, List.mem_cons, induction, or_left_comm]

theorem mem_sortedUnique {k : Nat} {numbers : List Nat} : k ∈ sortedUnique numbers ↔ k ∈ numbers := by
  suffices general : ∀ start, k ∈ numbers.foldl (fun sorted n => insertSorted n sorted) start ↔
      k ∈ numbers ∨ k ∈ start by simpa [sortedUnique] using general []
  induction numbers with
  | nil => simp
  | cons n rest induction =>
    intro start
    rw [List.foldl_cons, induction, mem_insertSorted, List.mem_cons, or_assoc, or_left_comm]

theorem Branch.holds_assertion_iff {h : Hasher} {v : View} {b : Branch} :
    v.holds h b.assertion = .ok true ↔ (∀ a ∈ b.bindings, v.holds h a = .ok true) ∧
      (∀ a ∈ b.equalities, v.holds h a = .ok true) ∧
        ∀ filter ∈ b.filters, v.holds h filter.assertion = .ok true := by
  simp only [assertion, View.holds_all_iff, List.forall_mem_append, List.mem_singleton, forall_eq,
    filterAssertion, List.forall_mem_map, and_assoc]

section Branch

variable {e : Encoder} {v : View} {projected : List String} {f : Fragment} {b : Branch}
  {t : Tracing} {linked : List Tracing.Place} {quads : List Quad} {row : Row} {all : List Hint}
  {hints : List Field}

theorem Branch.Traces.source_hints (traces : b.Traces e projected f t linked) {key : String}
    {source : Wire} (found : t.sources.get? key = some source) :
    source.hints = [] ∧ source.leaves = [source] := by
  rcases traces.extended.grounded key source found with ⟨place, member, rfl⟩ |
    ⟨_, _, _, code, _, _, rfl⟩
  · obtain ⟨i, p, position, _, _, wire⟩ := Tracing.mem_places_iff.1 member
    rw [wire]
    exact ⟨rfl, rfl⟩
  · exact ⟨rfl, rfl⟩

/-- A filter reads a key from a slot, a constant or a public value. -/
theorem Branch.Traces.keyWire (traces : b.Traces e projected f t linked) {visible : KeySet}
    {key : String} {wire : Wire}
    (found : (t.surroundings e projected visible).keyWire? key = some wire) :
    (∃ source, t.sources.get? key = some source) ∧ wire.leaves = [wire] ∧ wire.hints = [] := by
  unfold Surroundings.keyWire? at found
  split at found
  next =>
    obtain ⟨source, stored, chosen⟩ := Option.map_eq_some_iff.1 found
    refine ⟨⟨source, stored⟩, ?_⟩
    rw [← chosen]
    split
    · exact ⟨rfl, rfl⟩
    · exact (traces.source_hints stored).symm
  next => simp at found

theorem Branch.Traces.published_iff (traces : b.Traces e projected f t linked) {h : Hasher} :
    (∀ a ∈ b.bindings, View.holds h { v with hints := hints } a = .ok true) ↔
      ∀ a ∈ b.bindings, v.holds h a = .ok true := by
  refine forall₂_congr fun a member => ?_
  have none : a.hints = [] := by
    rw [traces.bindings] at member
    obtain ⟨name, _, rfl⟩ := List.mem_map.1 member
    rw [Branch.bindingOf, Assertion.hints, Wire.hints, List.nil_append]
    cases found : t.sources.get? name with
    | none => rfl
    | some source => exact (traces.source_hints found).1
  have same : View.holds h { v with hints := hints } a = v.holds h a :=
    View.holds_congr a ⟨rfl, rfl, by simp [none]⟩
  rw [same]

theorem Branch.Accepts.padded {h : Hasher} (accepts : b.Accepts h v hints) (more : List Field) :
    b.Accepts h v (hints ++ more) := by
  have extended : View.Extends { v with hints := hints ++ more } { v with hints := hints } := by
    refine ⟨rfl, rfl, fun index x found => ?_⟩
    rw [List.getElem?_append_left (List.getElem?_eq_some_iff.1 found).1]
    exact found
  exact View.holds_mono extended b.assertion accepts

/-- A branch accepts hints exactly where its filters are true as the row is read with their
faults. -/
theorem Branch.Compiles.accepts_iff (compiles : b.Compiles e projected all f t linked)
    (tied : ∀ h ∈ all, h.isTied = true) (shows : v.Shows e quads) (matching : b.Matches quads row)
    (published : ∀ a ∈ b.bindings, v.holds e.hasher a = .ok true)
    (length : all.length ≤ hints.length) {exhibited : List Preimage}
    (clear : ¬ e.hasher.Collides exhibited) (rows : ∀ input ∈ row.inputs e, input ∈ exhibited)
    (inputs : ∀ input ∈ Hint.inputs e.hasher all hints, input ∈ exhibited) :
    b.Accepts e.hasher v hints ↔ f.passes e row (Reading.isFault e row all hints) = true := by
  have others : View.Shows { v with hints := hints } e quads := shows
  have publishes : ∀ a ∈ b.bindings,
      View.holds e.hasher { v with hints := hints } a = .ok true :=
    compiles.traces.published_iff.2 published
  have equalities := compiles.traces.equalities_hold (h := e.hasher) others matching
  rw [Branch.Accepts, Branch.holds_assertion_iff, and_iff_right publishes,
    and_iff_right equalities, Fragment.passes, List.all_eq_true]
  have each : List.Forall₂ (fun (x : ScopedFilter) (filter : NumberedFilter) =>
      View.holds e.hasher { v with hints := hints } filter.assertion = .ok true ↔
        ((Reading.withFaults e row x.visible (Reading.isFault e row all hints)).outcome
          x.condition == some true) = true) f.filters b.filters := by
    refine compiles.filters.imp ?_
    intro x filter expresses
    have holds := compiles.traces.view_holds others matching publishes length x.visible
    have represents := holds.represents clear rows inputs
    rw [beq_iff_eq, ← Reading.ofHints_tied tied]
    exact expresses.holds_iff represents
  generalize f.filters = scopedFilters at each
  generalize b.filters = filters at each
  induction each with
  | nil => simp
  | cons first rest induction =>
    rw [List.forall_mem_cons, List.forall_mem_cons]
    exact and_congr first induction

theorem Hint.value_ok {h : Hint} (plain : h.isPlain = true)
    (bound : ∀ key ∈ h.keys, ∃ t code, row.get? key = some t ∧ e.encode t = .ok code) :
    ∃ x, h.value e row = .ok x := by
  have term (operand : Operand) (about : ∀ key ∈ operand.keys, key ∈ h.keys) :
      ∃ t, termOf row operand = .ok t := by
    cases operand with
    | term t => exact ⟨t, rfl⟩
    | key key =>
      obtain ⟨t, _, held, _⟩ := bound key (about key (by simp [Operand.keys]))
      exact ⟨t, by simp [termOf, held]⟩
  have part (key : String) (about : key ∈ h.keys) (select : LiteralParts → Field) :
      ∃ t x, termOf row (.key key) = .ok t ∧ literalPart e select t = .ok x := by
    obtain ⟨t, code, held, encoded⟩ := bound key about
    have found : termOf row (.key key) = .ok t := by simp [termOf, held]
    cases t with
    | literal value lang datatype =>
      obtain ⟨parts, made, _⟩ := Encoder.encode_literal encoded
      exact ⟨_, select parts, found, by simp [literalPart, made, ofEncoder, Except.map]⟩
    | iri _ | blank _ | defaultGraph | _ => exact ⟨_, Field.zero, found, rfl⟩
  cases h with
  | lexicalHash operand | strLen operand =>
    obtain ⟨t, found⟩ := term operand fun key member => member
    exact ⟨_, by rw [value, found]; rfl⟩
  | stringOrder left right =>
    obtain ⟨t, found⟩ := term left fun key member => List.mem_append_left _ member
    obtain ⟨u, other⟩ := term right fun key member => List.mem_append_right _ member
    exact ⟨_, by rw [value, found, other]; rfl⟩
  | specialValue operand | langHash operand | datatypeEncoding operand =>
    cases operand with
    | term t => simp [isPlain] at plain
    | key key =>
      obtain ⟨t, x, found, made⟩ := part key (by simp [keys, Operand.keys]) _
      exact ⟨x, by rw [value, found]; exact made⟩
  | termInner operand =>
    cases operand with
    | term t => simp [isPlain] at plain
    | key key =>
      obtain ⟨t, code, held, encoded⟩ := bound key (by simp [keys, Operand.keys])
      obtain ⟨inner, found, _⟩ := Encoder.encode_ok encoded
      exact ⟨inner, by simp [value, termOf, held, found, ofEncoder, bind, Except.bind]⟩

/-- A hint that the filters of a branch read is one of the program, and is about keys that have a
source in the branch. -/
theorem Branch.Compiles.listed_hint (compiles : b.Compiles e projected all f t linked)
    {index : Nat} (member : index ∈ b.hints) : ∃ h, all[index]? = some h ∧ h.isPlain = true ∧
      ∀ key ∈ h.keys, ∃ source, t.sources.get? key = some source := by
  rw [compiles.traces.hints, mem_sortedUnique, List.mem_flatMap] at member
  obtain ⟨filter, inside, member⟩ := member
  obtain ⟨x, _, expresses⟩ : ∃ x ∈ f.filters, filter.Expresses
      (t.surroundings e projected x.visible) all x := by
    obtain ⟨i, bound, rfl⟩ := List.getElem_of_mem inside
    have short : i < f.filters.length := by rw [compiles.filters.length_eq]; exact bound
    exact ⟨_, List.getElem_mem short, compiles.filters.get short bound⟩
  have known := expresses.reads _ (Assertion.mem_hints filter.assertion member)
  generalize read : Wire.hint index = leaf at known
  cases known with
  | const y => simp at read
  | key found inside =>
    -- A key is read from a slot, a constant or a public value, never from a hint.
    obtain ⟨_, leaves, hints⟩ := compiles.traces.keyWire found
    rw [leaves, List.mem_singleton] at inside
    rw [← inside, ← read] at hints
    simp [Wire.hints] at hints
  | hint listed plain about =>
    rename_i h
    obtain rfl := Wire.hint.inj read
    refine ⟨h, List.getElem?_idxOf listed, plain, fun key inside => ?_⟩
    obtain ⟨wire, found⟩ := Option.isSome_iff_exists.1 (about key inside)
    exact (compiles.traces.keyWire found).1

theorem Branch.Compiles.used_hints (compiles : b.Compiles e projected all f t linked)
    (shows : v.Shows e quads) (matching : b.Matches quads row) :
    ∀ index ∈ b.hints, ∃ h x, all[index]? = some h ∧ h.value e row = .ok x := by
  intro index member
  obtain ⟨h, found, plain, about⟩ := compiles.listed_hint member
  have bound : ∀ key ∈ h.keys, ∃ t code, row.get? key = some t ∧ e.encode t = .ok code := by
    intro key inside
    obtain ⟨source, stored⟩ := about key inside
    obtain ⟨t, code, held, encoded, _⟩ :=
      compiles.traces.source_reads (h := e.hasher) shows matching stored
    exact ⟨t, code, held, encoded⟩
  obtain ⟨x, value⟩ := Hint.value_ok plain bound
  exact ⟨h, x, found, value⟩

theorem Branch.Compiles.accepts_computed (compiles : b.Compiles e projected all f t linked)
    (shows : v.Shows e quads) (matching : b.Matches quads row) :
    ∃ honest, Hint.computeAll e all row b.hints = .ok honest ∧
      (b.Accepts e.hasher v honest ↔
        b.Accepts e.hasher v (Hint.forged e row all fun _ => false)) := by
  have used := compiles.used_hints shows matching
  obtain ⟨honest, computed, each⟩ := Hint.computeAll_ok used
  refine ⟨honest, computed, ?_⟩
  have same : ∀ index ∈ b.hints, honest[index]? =
      (Hint.forged e row all fun _ => false)[index]? := by
    intro index member
    obtain ⟨h, x, found, value⟩ := used index member
    rw [each index member h x found value, Hint.forged, List.getElem?_map, found]
    simp [Reading.given, value, Except.toOption]
  have published (hints : List Field) :
      (∀ a ∈ b.bindings, View.holds e.hasher { v with hints := hints } a = .ok true) ↔
        ∀ a ∈ b.bindings, v.holds e.hasher a = .ok true := compiles.traces.published_iff
  rw [Branch.Accepts, Branch.Accepts, Branch.holds_assertion_iff, Branch.holds_assertion_iff,
    published honest, published (Hint.forged e row all fun _ => false)]
  refine and_congr Iff.rfl (and_congr ?_ (forall₂_congr fun filter member => ?_))
  · have first := compiles.traces.equalities_hold (v := { v with hints := honest })
      (h := e.hasher) shows matching
    have second := compiles.traces.equalities_hold
      (v := { v with hints := Hint.forged e row all fun _ => false }) (h := e.hasher) shows matching
    exact iff_of_true first second
  · have upTo : View.SameUpTo { v with hints := honest }
        { v with hints := Hint.forged e row all fun _ => false } filter.assertion.hints := by
      refine ⟨rfl, rfl, fun index inside => same index ?_⟩
      rw [compiles.traces.hints, mem_sortedUnique]
      exact List.mem_flatMap.2 ⟨filter, member, inside⟩
    rw [View.holds_congr filter.assertion upTo]

end Branch

/-- What a prover gains by other hints, for slots that show quads matching a branch, where no hint
is taken on trust. Filters that withstand wrong hints accept no hints unless they accept the
computed ones or a collision is exhibited; filters that do not are forged by replacing hints that
are wrong, unless a collision is exhibited. Filters without a type test that they want false
withstand all wrong hints. -/
theorem other_hints_gain (config : Config) (query : NormalQuery) (p : Program)
    (fragments : List Fragment) (next i : Nat) (f : Fragment) (b : Branch) (quads : List Quad)
    (row : Row) (v : View)
    (folded : Fragment.ofAlgebra 0 (Program.bodyOf query.algebra) = .ok (fragments, next))
    (compiled : Program.ofNormal config query = .ok p)
    (tied : ∀ h ∈ p.hints, h.isTied = true)
    (fragment : fragments[i]? = some f) (branch : p.branches[i]? = some b)
    (shows : v.Shows config.encoder quads) (matching : b.Matches quads row) :
    ∃ honest, Hint.computeAll config.encoder p.hints row b.hints = .ok honest ∧
      (f.Withstands config.encoder row p.hints → ∀ hints, b.Accepts config.hasher v hints →
        b.Accepts config.hasher v honest ∨
          config.hasher.Collides (Hint.exhibited config.encoder row p.hints hints)) ∧
      (∀ wrong, row.Gives config.encoder p.hints wrong →
        f.passes config.encoder row wrong = true →
        f.passes config.encoder row (fun _ => false) = false →
        (∀ a ∈ b.bindings, v.holds config.hasher a = .ok true) →
        (b.Accepts config.hasher v (Hint.forged config.encoder row p.hints wrong) ∧
          ¬ b.Accepts config.hasher v honest) ∨
          config.hasher.Collides (Hint.exhibited config.encoder row p.hints
            (Hint.forged config.encoder row p.hints wrong))) ∧
      ((∀ x ∈ f.filters, x.condition.affirms true = true) →
        f.Withstands config.encoder row p.hints) := by
  obtain ⟨others, compiles⟩ := Program.ofNormal_ok compiled
  obtain ⟨later, again⟩ := compiles.folded
  obtain rfl : fragments = others := (Prod.mk.inj (Except.ok.inj (folded.symm.trans again))).1
  obtain ⟨t, linked, compiles⟩ := compiles.branch fragment branch
  obtain ⟨honest, computed, same⟩ := compiles.accepts_computed shows matching
  have hasher : config.hasher = config.encoder.hasher := rfl
  have none : row.Gives config.encoder p.hints fun _ => false :=
    fun h impossible => absurd impossible Bool.false_ne_true
  -- The computed hints are accepted exactly where the filters are true without any wrong hint.
  have honestly (published : ∀ a ∈ b.bindings, v.holds config.hasher a = .ok true)
      {hints : List Field}
      (clear : ¬ config.hasher.Collides (Hint.exhibited config.encoder row p.hints hints)) :
      b.Accepts config.hasher v honest ↔
        f.passes config.encoder row (fun _ => false) = true := by
    rw [hasher, same, compiles.accepts_iff tied shows matching published (by simp [Hint.forged])
      clear (by simp +contextual [Hint.exhibited]) (by simp +contextual [Hint.exhibited]),
      Reading.isFault_forged tied none]
  refine ⟨honest, computed, ?_, ?_, Fragment.withstands_of_affirms⟩
  · intro withstands hints accepts
    by_cases clear : config.hasher.Collides (Hint.exhibited config.encoder row p.hints hints)
    · exact Or.inr clear
    · refine Or.inl ?_
      have published : ∀ a ∈ b.bindings, v.holds config.hasher a = .ok true :=
        compiles.traces.published_iff.1 (Branch.holds_assertion_iff.1 accepts).1
      have padded := accepts.padded (List.replicate p.hints.length Field.zero)
      rw [hasher, compiles.accepts_iff tied shows matching published (by simp) clear
        (by simp +contextual [Hint.exhibited])
        (by simp +contextual [Hint.exhibited, Hint.inputs_padded])] at padded
      rw [honestly published clear]
      exact withstands _ Reading.isFault_gives padded
  · intro wrong gives forged rejected published
    by_cases clear : config.hasher.Collides (Hint.exhibited config.encoder row p.hints
        (Hint.forged config.encoder row p.hints wrong))
    · exact Or.inr clear
    · refine Or.inl ⟨?_, ?_⟩
      · rw [hasher, compiles.accepts_iff tied shows matching published (by simp [Hint.forged])
          clear (by simp +contextual [Hint.exhibited]) (by simp +contextual [Hint.exhibited]),
          Reading.isFault_forged tied gives]
        exact forged
      · rw [honestly published clear, rejected]
        exact Bool.false_ne_true

/-! ## A denied test -/

def denialText : String := "SELECT ?s WHERE \x7b ?s <http://e/p> ?o FILTER(!isIRI(?o)) \x7d"

def denialPattern : Pattern := ⟨.var "s", .const (.iri "http://e/p"), .var "o", none⟩

def denialRow : Row := KeyMap.ofList [("s", .iri "http://e/a"), ("o", .iri "http://e/b")]

def denialView : View := ⟨[sampleCodes], KeyMap.ofList [("s", sampleCodes.subject)], []⟩

/-- The values below the kinds of the subject and the object of the sample quad. -/
def denialSubject : Field :=
  .ofNat 0x29e52c9bfe3347cee01ebf8074b9b102f19953cb4b715dfc4bf66cc525f82a35

def denialObject : Field :=
  .ofNat 0x3b5300f0edbec8fdae5484e94001fc7ba4b21e7bb56a976a802c0f6aa0bbb83

set_option maxRecDepth 100000 in
theorem denial_texts : sampleConfig.hasher.onText "http://e/a" = denialSubject ∧
    sampleConfig.hasher.onText "http://e/b" = denialObject := by
  rw [Config.hasher_eq]
  decide +kernel

def denialAccepts (b : Branch) (hints : List Field) : Option Bool :=
  (View.holds sampleConfig.hasher { denialView with hints := hints } b.assertion).toOption

def denialTest (p : Program) : Bool :=
  decide (p.hints = [.termInner (.key "o")]) && p.branches[0]?.any fun b =>
    decide (b.patterns = [denialPattern]) && decide (b.extensions = []) &&
      decide (b.bound = KeySet.ofKeys ["s", "o"]) && decide (b.hints = [0]) &&
      decide (denialAccepts b [Field.zero] = some true) &&
      decide (denialAccepts b [denialObject] = some false)

set_option maxRecDepth 100000 in
theorem denial_tested :
    (Program.compile sampleConfig denialText).toOption.any denialTest = true := by
  simp only [Program.compile, Program.ofNormal, Config.encoder_eq]
  decide +kernel

theorem denialAccepts_iff {b : Branch} {hints : List Field} {value : Bool}
    (found : denialAccepts b hints = some value) :
    b.Accepts sampleConfig.hasher denialView hints ↔ value = true := by
  rw [Branch.Accepts, eq_ok_of_toOption found, Except.ok.injEq]

theorem denial_fits : denialPattern.Fits Eq denialRow sampleQuad :=
  Pattern.fits_iff.2 ⟨PatternTerm.fits_var_iff.2 rfl, PatternTerm.fits_const_iff.2 rfl,
    PatternTerm.fits_var_iff.2 rfl, nofun⟩

theorem denial_shows : denialView.Shows sampleConfig.encoder [sampleQuad] := by
  intro i quad found
  match i with
  | 0 =>
    obtain rfl : sampleQuad = quad := by simpa using found
    exact ⟨sampleCodes, rfl, sample_encodes⟩
  | n + 1 => simp at found

theorem denial_matches {b : Branch} (patterns : b.patterns = [denialPattern])
    (extensions : b.extensions = []) (bound : b.bound = KeySet.ofKeys ["s", "o"]) :
    b.Matches [sampleQuad] denialRow where
  fits := by
    rw [patterns]
    exact List.Forall₂.cons denial_fits List.Forall₂.nil
  extended x member := by simp [extensions] at member
  bound key := by
    let value (name : String) : Term := .iri (if name = "s" then "http://e/a" else "http://e/b")
    have same : denialRow = KeyMap.ofList (["s", "o"].map fun name => (name, value name)) := rfl
    rw [same, KeyMap.get_ofList_map, bound, KeySet.contains_ofKeys, List.contains_eq_mem]
    split
    next member => simp [member]
    next outside => simp [outside]

theorem denial_compiles : ∃ (p : Program) (b : Branch), Program.compile sampleConfig denialText = .ok p ∧
    p.hints = [.termInner (.key "o")] ∧ p.branches[0]? = some b ∧ b.hints = [0] ∧
    b.Matches [sampleQuad] denialRow ∧ b.Accepts sampleConfig.hasher denialView [Field.zero] ∧
    ¬ b.Accepts sampleConfig.hasher denialView [denialObject] := by
  obtain ⟨p, compiled, test⟩ := exists_ok_of_any denial_tested
  simp only [denialTest, Bool.and_eq_true, decide_eq_true_eq, Option.any_eq_true] at test
  obtain ⟨hints, b, branch, ⟨⟨⟨⟨⟨patterns, extensions⟩, bound⟩, used⟩, forged⟩, honest⟩⟩ := test
  refine ⟨p, b, compiled, hints, branch, used, denial_matches patterns extensions bound, ?_, ?_⟩
  · exact (denialAccepts_iff forged).2 rfl
  · rw [denialAccepts_iff honest]
    exact Bool.false_ne_true

/-- What other hints gain for the sample quad and the sample query. -/
theorem other_hints_gain_sample : ∃ query p fragments next f b honest,
    Fragment.ofAlgebra 0 (Program.bodyOf query.algebra) = .ok (fragments, next) ∧
    Program.ofNormal sampleConfig query = .ok p ∧ (∀ h ∈ p.hints, h.isTied = true) ∧
    fragments[0]? = some f ∧ p.branches[0]? = some b ∧
    denialView.Shows sampleConfig.encoder [sampleQuad] ∧ b.Matches [sampleQuad] denialRow ∧
    Hint.computeAll sampleConfig.encoder p.hints denialRow b.hints = .ok honest ∧
    (f.Withstands sampleConfig.encoder denialRow p.hints → ∀ hints,
      b.Accepts sampleConfig.hasher denialView hints →
        b.Accepts sampleConfig.hasher denialView honest ∨ sampleConfig.hasher.Collides
          (Hint.exhibited sampleConfig.encoder denialRow p.hints hints)) := by
  obtain ⟨p, b, compiled, hints, branch, _, matching, _⟩ := denial_compiles
  obtain ⟨query, normal⟩ := Program.compile_ok compiled
  obtain ⟨fragments, compiles⟩ := Program.ofNormal_ok normal
  obtain ⟨next, folded⟩ := compiles.folded
  have tied : ∀ h ∈ p.hints, h.isTied = true := by simp [hints, Hint.isTied]
  obtain ⟨f, fragment⟩ : ∃ f, fragments[0]? = some f := by
    have long := (run_mapM_each compiles.branches).length_eq
    have short : 0 < p.branches.length := (List.getElem?_eq_some_iff.1 branch).1
    exact ⟨_, List.getElem?_eq_getElem (by rw [long]; exact short)⟩
  obtain ⟨honest, computed, gains, _⟩ := other_hints_gain sampleConfig query p fragments next 0 f b
    [sampleQuad] denialRow denialView folded normal tied fragment branch denial_shows matching
  exact ⟨query, p, fragments, next, f, b, honest, folded, normal, tied, fragment, branch,
    denial_shows, matching, computed, gains⟩

def denialInputs : List Preimage :=
  let kinds : List TermKind := [.iri, .blank, .literal, .var, .defaultGraph]
  .pair (Field.ofNat TermKind.iri.code) denialSubject
    :: kinds.map (fun kind => .pair (Field.ofNat kind.code) Field.zero)
    ++ kinds.map (fun kind => .pair (Field.ofNat kind.code) denialObject)

def denialDigests : List Field :=
  [.ofNat 0x20a3cfb43b024865b1cb28b60342d9ba3cbe906aae5b2090eca89f96dbc4a92a,
    .ofNat 0x1227c9323fc18f1d0c4ef4951711db717d7e9be348dd9ddce89c6f19acdb09ab,
    .ofNat 0xb4c75e00e1a57a458f4e36ca005b976cbe1aeef6d2fa979b0ff12e20eb820c6,
    .ofNat 0x2478f0669cbb3b04a15b5553da3ae43d853f9733f0739b49deb62c1899d04a06,
    .ofNat 0xdca57eb98ae5beeaedf80030c3aad808fb349987732da9d415c65a892068846,
    .ofNat 0x1aaaeeea169ca83d31f374e9780fe541fed8ca0d07d91c04a964f23a43e4f4f,
    .ofNat 0x1431265b1b3b7acb9263fa927de57e7c73e5baaa2a8c954d1b19bd2e5d05bbc7,
    .ofNat 0x242c3a5ac63c88e946df9a6c101f4548b44e172dce7864b23f3d20c21c4a0296,
    .ofNat 0x2ff0171d79e79c02f45ddaf94811f04f22765263220e12f7b9fada197e2a7596,
    .ofNat 0x1fffffd0e74b81d96d38df89be1528332c6963ec09ae5cb8619cc033e602539c,
    .ofNat 0x2df8fce8c7f4103da7641497dd44dd914f139bc5d58bdb879d0e176e6a4cc9f9]

set_option maxRecDepth 100000 in
theorem denial_digests : denialInputs.map sampleConfig.hasher.digest = denialDigests := by
  rw [Config.hasher_eq]
  decide +kernel

theorem denial_exhibited (input : Preimage)
    (member : input ∈ Hint.exhibited sampleConfig.encoder denialRow [.termInner (.key "o")]
      [Field.zero]) : input ∈ denialInputs := by
  let kinds : List TermKind := [.iri, .blank, .literal, .var, .defaultGraph]
  let tagged (x : Field) (kind : TermKind) : Preimage := .pair (Field.ofNat kind.code) x
  have listed : Hint.exhibited sampleConfig.encoder denialRow [.termInner (.key "o")]
      [Field.zero] =
        [tagged (sampleConfig.hasher.onText "http://e/b") .iri,
          tagged (sampleConfig.hasher.onText "http://e/a") .iri]
        ++ kinds.map (tagged Field.zero)
        ++ kinds.map (tagged (sampleConfig.hasher.onText "http://e/b")) := rfl
  rw [listed, denial_texts.1, denial_texts.2] at member
  change input ∈ tagged denialSubject .iri :: kinds.map (tagged Field.zero)
    ++ kinds.map (tagged denialObject)
  rcases List.mem_append.1 member with member | object
  · rcases List.mem_append.1 member with held | zero
    · rcases List.mem_pair.1 held with rfl | rfl
      · exact List.mem_append_right _ (List.mem_map_of_mem List.mem_cons_self)
      · exact List.mem_append_left _ List.mem_cons_self
    · exact List.mem_append_left _ (List.mem_cons_of_mem _ zero)
  · exact List.mem_append_right _ object

theorem denial_clear : ¬ sampleConfig.hasher.Collides (Hint.exhibited sampleConfig.encoder
    denialRow [.termInner (.key "o")] [Field.zero]) := by
  refine Hasher.clear_of_nodup denial_exhibited ?_
  rw [denial_digests]
  decide

/-- A row that a denied type test rejects is accepted with a zero in place of the hint of the test,
over a signed dataset and without any collision. -/
theorem denied_test_forged : ∃ p b honest,
    Dataset.sign [sampleQuad] sampleConfig sampleSigner = .ok sampleDataset ∧
    Program.compile sampleConfig denialText = .ok p ∧ (∀ h ∈ p.hints, h.isTied = true) ∧
    p.branches[0]? = some b ∧ denialView.Shows sampleConfig.encoder [sampleQuad] ∧
    b.Matches [sampleQuad] denialRow ∧
    Hint.computeAll sampleConfig.encoder p.hints denialRow b.hints = .ok honest ∧
    b.Accepts sampleConfig.hasher denialView [Field.zero] ∧
    ¬ b.Accepts sampleConfig.hasher denialView honest ∧
    ¬ sampleConfig.hasher.Collides
      (Hint.exhibited sampleConfig.encoder denialRow p.hints [Field.zero]) := by
  obtain ⟨p, b, compiled, hints, branch, used, matching, forged, honest⟩ := denial_compiles
  have computed : Hint.computeAll sampleConfig.encoder p.hints denialRow b.hints =
      .ok [sampleConfig.hasher.onText "http://e/b"] := by
    rw [hints, used]
    rfl
  rw [denial_texts.2] at computed
  refine ⟨p, b, [denialObject], sample_signs, compiled, ?_, branch, denial_shows, matching,
    computed, forged, honest, ?_⟩
  · simp [hints, Hint.isTied]
  · rw [hints]
    exact denial_clear

end AttestedQuery
