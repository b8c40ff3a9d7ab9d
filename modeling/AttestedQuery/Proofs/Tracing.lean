import AttestedQuery.Program.OfQuery
import AttestedQuery.Proofs.Evaluation
import AttestedQuery.Proofs.KeyMap

/-!
# What tracing records

A branch asks something of each position of its patterns, and of the value of each extension: to be
the encoding of a constant, or to be the value of a key. Tracing turns what is asked into sources
and equalities. The equalities hold exactly where everything that was asked is met, and every
source is a wire of which its key was asked.
-/

set_option autoImplicit false

namespace AttestedQuery

theorem View.holds_eq_iff {h : Hasher} {v : View} {a b : Wire} :
    v.holds h (.eq a b) = .ok true ↔ ∃ x, v.field h a = .ok x ∧ v.field h b = .ok x := by
  rw [holds, bind_ok_iff]
  constructor
  · rintro ⟨x, left, later⟩
    obtain ⟨y, right, equal⟩ := bind_ok_iff.1 later
    have same : x = y := by simpa [pure_ok_iff] using equal
    exact ⟨x, left, same ▸ right⟩
  · rintro ⟨x, left, right⟩
    exact ⟨x, left, bind_ok_iff.2 ⟨x, right, by simp [pure_ok_iff]⟩⟩

namespace Tracing

abbrev Place := Wire × Option PatternTerm

def keyOf (place : Place) : Option String := place.2.bind PatternTerm.key?

structure Meets (e : Encoder) (h : Hasher) (v : View) (sources : KeyMap Wire) (place : Place) :
    Prop where
  constant : ∀ term, place.2 = some (.const term) →
    ∃ code, e.encode term = .ok code ∧ v.field h place.1 = .ok code
  key : ∀ key, keyOf place = some key →
    ∃ source x, sources.get? key = some source ∧ v.field h place.1 = .ok x ∧
      v.field h source = .ok x

/-- The places that have been traced: what the sources and equalities so far say about them. -/
structure Records (e : Encoder) (t : Tracing) (asked : List Place) : Prop where
  satisfied : ∀ h v, (∀ place ∈ asked, ∃ x, v.field h place.1 = .ok x) →
    ((∀ a ∈ t.equalities, v.holds h a = .ok true) ↔
      ∀ place ∈ asked, Meets e h v t.sources place)
  bound : ∀ place ∈ asked, ∀ key, keyOf place = some key → (t.sources.get? key).isSome
  origin : ∀ key wire, t.sources.get? key = some wire →
    ∃ place ∈ asked, place.1 = wire ∧ keyOf place = some key
  encodable : ∀ place ∈ asked, ∀ term, place.2 = some (.const term) →
    ∃ code, e.encode term = .ok code

theorem records_initial (e : Encoder) : initial.Records e [] where
  satisfied := by simp [initial]
  bound := by simp
  origin := by simp [initial, KeyMap.get_empty]
  encodable := by simp

section Step

variable {e : Encoder} {t : Tracing} {asked : List Place} {here : Wire}

theorem Records.add_nothing (records : t.Records e asked) {term : Option PatternTerm}
    (noConstant : ∀ c, term ≠ some (.const c)) (noKey : term.bind PatternTerm.key? = none) :
    t.Records e (asked ++ [(here, term)]) where
  satisfied h v readable := by
    have earlier := records.satisfied h v fun place member =>
      readable place (List.mem_append_left _ member)
    have nothing : Meets e h v t.sources (here, term) :=
      ⟨fun c equal => absurd equal (noConstant c), fun key equal => by simp [keyOf, noKey] at equal⟩
    rw [earlier, List.forall_mem_append]
    simp [nothing]
  bound := by
    rw [List.forall_mem_append]
    exact ⟨records.bound, by simp [keyOf, noKey]⟩
  origin key wire found := by
    obtain ⟨place, member, same⟩ := records.origin key wire found
    exact ⟨place, List.mem_append_left _ member, same⟩
  encodable := by
    rw [List.forall_mem_append]
    exact ⟨records.encodable, by simpa using fun c equal => absurd equal (noConstant c)⟩

theorem Records.add_constant (records : t.Records e asked) {term : Term} {code : Field}
    (encoded : e.encode term = .ok code) :
    (t.withEquality here (.const code)).Records e (asked ++ [(here, some (.const term))]) where
  satisfied h v readable := by
    have earlier := records.satisfied h v fun place member =>
      readable place (List.mem_append_left _ member)
    have last : v.holds h (.eq here (.const code)) = .ok true ↔
        Meets e h v t.sources (here, some (.const term)) := by
      rw [View.holds_eq_iff]
      constructor
      · rintro ⟨x, read, equal⟩
        obtain rfl : code = x := by simpa [View.field] using equal
        refine ⟨fun c same => ?_, fun key same => by simp [keyOf, PatternTerm.key?] at same⟩
        obtain rfl : term = c := by simpa using same
        exact ⟨code, encoded, read⟩
      · intro meets
        obtain ⟨x, same, read⟩ := meets.constant term rfl
        obtain rfl : code = x := Except.ok.inj (encoded.symm.trans same)
        exact ⟨code, read, rfl⟩
    simp only [withEquality, List.forall_mem_append, List.mem_singleton, forall_eq, last, earlier]
  bound := by
    rw [List.forall_mem_append]
    exact ⟨records.bound, by simp [keyOf, PatternTerm.key?]⟩
  origin key wire found := by
    obtain ⟨place, member, same⟩ := records.origin key wire found
    exact ⟨place, List.mem_append_left _ member, same⟩
  encodable := by
    rw [List.forall_mem_append]
    refine ⟨records.encodable, ?_⟩
    simpa using ⟨code, encoded⟩

theorem Records.add_repeated (records : t.Records e asked) {term : PatternTerm} {key : String}
    {source a b : Wire} (named : term.key? = some key) (found : t.sources.get? key = some source)
    (sides : (a = here ∧ b = source) ∨ (a = source ∧ b = here)) :
    (t.withEquality a b).Records e (asked ++ [(here, some term)]) where
  satisfied h v readable := by
    have earlier := records.satisfied h v fun place member =>
      readable place (List.mem_append_left _ member)
    have last : v.holds h (.eq a b) = .ok true ↔ Meets e h v t.sources (here, some term) := by
      have either : v.holds h (.eq a b) = .ok true ↔
          ∃ x, v.field h here = .ok x ∧ v.field h source = .ok x := by
        rw [View.holds_eq_iff]
        rcases sides with ⟨rfl, rfl⟩ | ⟨rfl, rfl⟩
        · rfl
        · simp only [and_comm]
      rw [either]
      constructor
      · rintro ⟨x, read, equal⟩
        refine ⟨fun c same => ?_, fun other same => ?_⟩
        · obtain rfl : term = .const c := by simpa using same
          simp [PatternTerm.key?] at named
        · obtain rfl : key = other := by simpa [keyOf, named] using same
          exact ⟨source, x, found, read, equal⟩
      · intro meets
        obtain ⟨other, x, stored, read, equal⟩ := meets.key key (by simp [keyOf, named])
        obtain rfl : source = other := Option.some.inj (found.symm.trans stored)
        exact ⟨x, read, equal⟩
    simp only [withEquality, List.forall_mem_append, List.mem_singleton, forall_eq, last, earlier]
  bound := by
    rw [List.forall_mem_append]
    refine ⟨records.bound, ?_⟩
    simp [keyOf, named, withEquality, found]
  origin key wire found := by
    obtain ⟨place, member, same⟩ := records.origin key wire found
    exact ⟨place, List.mem_append_left _ member, same⟩
  encodable := by
    rw [List.forall_mem_append]
    refine ⟨records.encodable, ?_⟩
    simp only [List.mem_singleton, forall_eq, Option.some.injEq]
    rintro c rfl
    simp [PatternTerm.key?] at named

/-- A place that asks for a key without a source becomes the source. -/
theorem Records.add_first (records : t.Records e asked) {term : PatternTerm} {key : String}
    (named : term.key? = some key) (absent : t.sources.get? key = none) :
    Records e { t with sources := t.sources.insert key here } (asked ++ [(here, some term)]) where
  satisfied h v readable := by
    have earlier := records.satisfied h v fun place member =>
      readable place (List.mem_append_left _ member)
    have kept (place : Place) (member : place ∈ asked) :
        Meets e h v t.sources place ↔ Meets e h v (t.sources.insert key here) place := by
      -- No earlier place asked for this key, so it is looked up as before.
      have other (k : String) (asks : keyOf place = some k) : k ≠ key := by
        rintro rfl
        simpa [absent] using records.bound place member k asks
      constructor
      · intro meets
        refine ⟨meets.constant, fun k asks => ?_⟩
        rw [KeyMap.get_insert_other here (other k asks)]
        exact meets.key k asks
      · intro meets
        refine ⟨meets.constant, fun k asks => ?_⟩
        have looked := meets.key k asks
        rwa [KeyMap.get_insert_other here (other k asks)] at looked
    have last : Meets e h v (t.sources.insert key here) (here, some term) := by
      obtain ⟨x, read⟩ := readable (here, some term) (by simp)
      refine ⟨fun c same => ?_, fun k asks => ?_⟩
      · obtain rfl : term = .const c := by simpa using same
        simp [PatternTerm.key?] at named
      · obtain rfl : key = k := by simpa [keyOf, named] using asks
        exact ⟨here, x, KeyMap.get_insert_same t.sources key here, read, read⟩
    rw [List.forall_mem_append, earlier]
    simp only [List.mem_singleton, forall_eq, last, and_true]
    exact forall₂_congr kept
  bound := by
    rw [List.forall_mem_append]
    constructor
    · intro place member k asks
      rw [KeyMap.get_insert]
      split
      · rfl
      · exact records.bound place member k asks
    · simp [keyOf, named, KeyMap.get_insert_same]
  origin k wire found := by
    rw [KeyMap.get_insert] at found
    split at found
    next same =>
      obtain rfl := Option.some.inj found
      exact ⟨(here, some term), by simp, rfl, by simp [keyOf, named, same]⟩
    next other =>
      obtain ⟨place, member, same⟩ := records.origin k wire found
      exact ⟨place, List.mem_append_left _ member, same⟩
  encodable := by
    rw [List.forall_mem_append]
    refine ⟨records.encodable, ?_⟩
    simp only [List.mem_singleton, forall_eq, Option.some.injEq]
    rintro c rfl
    simp [PatternTerm.key?] at named

end Step

/-! ## Patterns -/

private theorem records_named {e : Encoder} {t next : Tracing} {places : List Place} {here : Wire}
    {term : PatternTerm} {key : String} (records : t.Records e places)
    (named : term.key? = some key)
    (traced : (match t.sources.get? key with
      | some first => (.ok (t.withEquality here first) : Result Tracing)
      | none => .ok { t with sources := t.sources.insert key here }) = .ok next) :
    next.Records e (places ++ [(here, some term)]) := by
  split at traced
  next first found =>
    obtain rfl := Except.ok.inj traced
    exact records.add_repeated named found (Or.inl ⟨rfl, rfl⟩)
  next absent =>
    obtain rfl := Except.ok.inj traced
    exact records.add_first named absent

theorem records_withPosition {e : Encoder} {t next : Tracing} {places : List Place} {here : Wire}
    {term : Option PatternTerm} (records : t.Records e places)
    (traced : t.withPosition e here term = .ok next) :
    next.Records e (places ++ [(here, term)]) := by
  match term, traced with
  | none, traced =>
    obtain rfl := Except.ok.inj traced
    exact records.add_nothing (by simp) rfl
  | some (.const c), traced =>
    rw [withPosition, bind_ok_iff] at traced
    obtain ⟨code, encoded, whole⟩ := traced
    obtain rfl := pure_ok_iff.1 whole
    exact records.add_constant encoded
  | some (.var name), traced => exact records_named records rfl traced
  | some (.blank label), traced => exact records_named records rfl traced

private theorem records_foldlM {α : Type} {e : Encoder} {f : Tracing → α → Result Tracing}
    {asks : α → List Place} {xs : List α} {start final : Tracing} {places : List Place}
    (records : start.Records e places) (folded : xs.foldlM f start = .ok final)
    (step : ∀ t next x earlier, t.Records e earlier → f t x = .ok next →
      next.Records e (earlier ++ asks x)) :
    final.Records e (places ++ xs.flatMap asks) := by
  induction xs generalizing start places with
  | nil =>
    obtain rfl := pure_ok_iff.1 folded
    simpa using records
  | cons x rest induction =>
    rw [List.foldlM_cons, bind_ok_iff] at folded
    obtain ⟨next, first, later⟩ := folded
    have whole := induction (step start next x places records first) later
    rwa [List.append_assoc, ← List.flatMap_cons] at whole

def placesOf (entry : Pattern × Nat) : List Place :=
  entry.1.positions.toList.zipIdx.map fun (term, position) => (.slot entry.2 position, term)

theorem records_withPattern {e : Encoder} {t next : Tracing} {places : List Place}
    {entry : Pattern × Nat} (records : t.Records e places)
    (traced : t.withPattern e entry = .ok next) :
    next.Records e (places ++ placesOf entry) := by
  let asks (position : Option PatternTerm × Nat) : List Place :=
    [(.slot entry.2 position.2, position.1)]
  have folded : next.Records e (places ++ entry.1.positions.toList.zipIdx.flatMap asks) :=
    records_foldlM records traced fun t next position earlier before traced =>
      records_withPosition before traced
  simpa [asks, placesOf, List.flatMap_singleton', ← List.map_eq_flatMap] using folded

def places (patterns : List Pattern) : List Place := patterns.zipIdx.flatMap placesOf

theorem records_ofPatterns {e : Encoder} {patterns : List Pattern} {t : Tracing}
    (traced : ofPatterns e patterns = .ok t) : t.Records e (places patterns) := by
  have folded : t.Records e ([] ++ patterns.zipIdx.flatMap placesOf) :=
    records_foldlM (records_initial e) traced fun t next entry earlier before traced =>
      records_withPattern before traced
  simpa [places] using folded

/-! ## Extensions -/

theorem records_withKey {e : Encoder} {t : Tracing} {places : List Place} {key : String}
    {wire : Wire} (records : t.Records e places) :
    (t.withKey key wire).Records e (places ++ [(wire, some (.var key))]) := by
  unfold withKey
  split
  next source found => exact records.add_repeated rfl found (Or.inr ⟨rfl, rfl⟩)
  next absent => exact records.add_first rfl absent

theorem withKey_keeps {t : Tracing} {key other : String} {wire source : Wire}
    (found : t.sources.get? other = some source) :
    (t.withKey key wire).sources.get? other = some source := by
  unfold withKey
  split
  next => exact found
  next absent =>
    rw [KeyMap.get_insert_other wire]
    · exact found
    · rintro rfl
      simp [absent] at found

def Supplies (e : Encoder) (sources : KeyMap Wire) : Operand → Wire → Prop
  | .term term, wire => ∃ code, e.encode term = .ok code ∧ wire = .const code
  | .key key, wire => sources.get? key = some wire

theorem extension_supplies {e : Encoder} {t : Tracing} {x : ScopedExtension} {made : Extension}
    {wire : Wire} (found : t.extension? e x = .ok (some (made, wire))) :
    Supplies e t.sources made.source wire := by
  unfold extension? at found
  split at found
  next c _ =>
    obtain ⟨code, encoded, whole⟩ := bind_ok_iff.1 found
    obtain ⟨rfl, rfl⟩ := Prod.mk.inj (Option.some.inj (pure_ok_iff.1 whole))
    exact ⟨code, encoded, rfl⟩
  next key _ =>
    split at found
    next source _ stored _ =>
      split at found
      · obtain ⟨rfl, rfl⟩ := Prod.mk.inj (Option.some.inj (Except.ok.inj found))
        exact stored
      · simp at found
    next => simp at found
    next source stored _ =>
      obtain ⟨rfl, rfl⟩ := Prod.mk.inj (Option.some.inj (Except.ok.inj found))
      exact stored
    next =>
      split at found
      next source stored =>
        obtain ⟨rfl, rfl⟩ := Prod.mk.inj (Option.some.inj (Except.ok.inj found))
        exact stored
      next => simp at found
  next => simp at found

def Linked (e : Encoder) (sources : KeyMap Wire) (extensions : List Extension)
    (linked : List Place) : Prop :=
  List.Forall₂ (fun x place => place.2 = some (.var x.name) ∧ Supplies e sources x.source place.1)
    extensions linked

theorem Linked.mono {e : Encoder} {sources more : KeyMap Wire} {extensions : List Extension}
    {linked : List Place} (before : Linked e sources extensions linked)
    (kept : ∀ key source, sources.get? key = some source → more.get? key = some source) :
    Linked e more extensions linked := by
  refine List.Forall₂.imp ?_ before
  rintro ⟨name, source⟩ place ⟨asks, supplied⟩
  refine ⟨asks, ?_⟩
  cases source with
  | key key => exact kept key place.1 supplied
  | term term => exact supplied

def Sourced (e : Encoder) (patterns : List Pattern) (extensions : List Extension)
    (sources : KeyMap Wire) : Prop :=
  ∀ shows : String → Wire → Prop,
    (∀ place ∈ places patterns, ∀ key, keyOf place = some key → shows key place.1) →
    (∀ x ∈ extensions, ∀ term code, x.source = .term term → e.encode term = .ok code →
      shows x.name (.const code)) →
    (∀ x ∈ extensions, ∀ key wire, x.source = .key key → shows key wire → shows x.name wire) →
    ∀ key wire, sources.get? key = some wire → shows key wire

theorem Sourced.add {e : Encoder} {patterns : List Pattern} {extensions : List Extension}
    {t : Tracing} {made : Extension} {wire : Wire}
    (sourced : Sourced e patterns extensions t.sources)
    (supplies : Supplies e t.sources made.source wire) :
    Sourced e patterns (extensions ++ [made]) (t.withKey made.name wire).sources := by
  intro shows slots constants handed
  have before := sourced shows slots
    (fun x member => constants x (List.mem_append_left _ member))
    (fun x member => handed x (List.mem_append_left _ member))
  have last : made ∈ extensions ++ [made] := by simp
  intro key source found
  unfold withKey at found
  split at found
  · exact before key source found
  · rw [KeyMap.get_insert] at found
    split at found
    next same =>
      obtain rfl := Option.some.inj found
      subst same
      cases origin : made.source with
      | key key =>
        rw [origin] at supplies
        exact handed made last key wire origin (before key wire supplies)
      | term term =>
        rw [origin] at supplies
        obtain ⟨code, encoded, rfl⟩ := supplies
        exact constants made last term code origin encoded
    next => exact before key source found

/-- What the patterns and the extensions so far have left: the places of the patterns and those that
the extensions add are recorded. -/
structure Extended (e : Encoder) (patterns : List Pattern) (state : Tracing × List Extension)
    (linked : List Place) : Prop where
  records : state.1.Records e (places patterns ++ linked)
  linked : Linked e state.1.sources state.2 linked
  sourced : Sourced e patterns state.2 state.1.sources

theorem extended_start {e : Encoder} {patterns : List Pattern} {t : Tracing}
    (traced : ofPatterns e patterns = .ok t) : Extended e patterns (t, []) [] where
  records := by
    rw [List.append_nil]
    exact records_ofPatterns traced
  linked := List.Forall₂.nil
  sourced shows slots _ _ key wire found := by
    obtain ⟨place, member, same, named⟩ := (records_ofPatterns traced).origin key wire found
    rw [← same]
    exact slots place member key named

theorem Extended.grounded {e : Encoder} {patterns : List Pattern} {state : Tracing × List Extension}
    {linked : List Place} (extended : Extended e patterns state linked) (key : String) (wire : Wire)
    (found : state.1.sources.get? key = some wire) :
    (∃ place ∈ places patterns, place.1 = wire) ∨
      ∃ x ∈ state.2, ∃ term code, x.source = .term term ∧ e.encode term = .ok code ∧
        wire = .const code := by
  refine extended.sourced (fun _ wire => (∃ place ∈ places patterns, place.1 = wire) ∨
      ∃ x ∈ state.2, ∃ term code, x.source = .term term ∧ e.encode term = .ok code ∧
        wire = .const code) ?_ ?_ ?_ key wire found
  · intro place member key _
    exact Or.inl ⟨place, member, rfl⟩
  · intro x member term code source encoded
    exact Or.inr ⟨x, member, term, code, source, encoded, rfl⟩
  · intro x _ key wire _ shows
    exact shows

theorem extended_withExtension {e : Encoder} {patterns : List Pattern}
    {state next : Tracing × List Extension} {linked : List Place} {x : ScopedExtension}
    (before : Extended e patterns state linked) (traced : withExtension e state x = .ok next) :
    ∃ more, Extended e patterns next more := by
  rw [withExtension, bind_ok_iff] at traced
  obtain ⟨made, found, later⟩ := traced
  cases made with
  | none =>
    obtain rfl := pure_ok_iff.1 later
    exact ⟨linked, before⟩
  | some made =>
    obtain ⟨made, wire⟩ := made
    obtain rfl := pure_ok_iff.1 later
    have supplied := extension_supplies found
    refine ⟨linked ++ [(wire, some (.var made.name))], ?_, ?_, before.sourced.add supplied⟩
    · rw [← List.append_assoc]
      exact records_withKey before.records
    · refine List.rel_append ((before.linked.mono fun key source => withKey_keeps)) ?_
      refine List.Forall₂.cons ⟨rfl, ?_⟩ List.Forall₂.nil
      cases source : made.source with
      | key key =>
        rw [source] at supplied
        exact withKey_keeps supplied
      | term term =>
        rw [source] at supplied
        exact supplied

theorem extended_foldlM {e : Encoder} {patterns : List Pattern}
    {start final : Tracing × List Extension} {linked : List Place}
    {extensions : List ScopedExtension} (before : Extended e patterns start linked)
    (folded : extensions.foldlM (withExtension e) start = .ok final) :
    ∃ more, Extended e patterns final more := by
  refine foldlM_preserves (fun state => ∃ linked, Extended e patterns state linked) folded
    ⟨linked, before⟩ ?_
  rintro state x next _ ⟨linked, before⟩ traced
  exact extended_withExtension before traced

end Tracing

/-! ## Branches -/

structure Branch.Traces (e : Encoder) (projected : List String) (f : Fragment) (b : Branch)
    (t : Tracing) (linked : List Tracing.Place) : Prop where
  extended : Tracing.Extended e f.patterns (t, b.extensions) linked
  patterns : b.patterns = f.patterns
  bindings : b.bindings = projected.map (Branch.bindingOf t.sources)
  equalities : b.equalities = t.equalities
  exclusiveOf : b.exclusiveOf = f.exclusiveOf
  bound : b.bound = KeySet.ofKeys t.sources.keys
  hints : b.hints = sortedUnique (b.filters.flatMap fun filter => filter.assertion.hints)

theorem Branch.ofFragment_ok_iff {e : Encoder} {projected : List String} {f : Fragment}
    {b : Branch} {before after : List Hint} :
    Branch.ofFragment e projected f before = .ok (b, after) ↔ ∃ plain t extensions filters,
      Tracing.ofPatterns e f.patterns = .ok plain ∧
      f.extensions.foldlM (Tracing.withExtension e) (plain, []) = .ok (t, extensions) ∧
      f.filters.mapM (filterOf e projected t.sources) before = .ok (filters, after) ∧
      b = {
        patterns := f.patterns
        extensions := extensions
        bindings := projected.map (bindingOf t.sources)
        equalities := t.equalities
        filters := filters
        hints := sortedUnique (filters.flatMap fun filter => filter.assertion.hints)
        exclusiveOf := f.exclusiveOf
        bound := KeySet.ofKeys t.sources.keys } := by
  constructor
  · intro compiled
    unfold ofFragment at compiled
    obtain ⟨plain, _, lifted, compiled⟩ := run_bind_ok_iff.1 compiled
    obtain ⟨traced, rfl⟩ := run_lift_ok_iff.1 lifted
    obtain ⟨⟨t, extensions⟩, _, lifted, compiled⟩ := run_bind_ok_iff.1 compiled
    obtain ⟨folded, rfl⟩ := run_lift_ok_iff.1 lifted
    obtain ⟨filters, last, filtered, compiled⟩ := run_bind_ok_iff.1 compiled
    obtain ⟨rfl, rfl⟩ := run_pure_ok_iff.1 compiled
    exact ⟨plain, t, extensions, filters, traced, folded, filtered, rfl⟩
  · rintro ⟨plain, t, extensions, filters, traced, folded, filtered, rfl⟩
    unfold ofFragment
    exact run_bind_ok_iff.2 ⟨plain, before, run_lift_ok_iff.2 ⟨traced, rfl⟩,
      run_bind_ok_iff.2 ⟨_, before, run_lift_ok_iff.2 ⟨folded, rfl⟩,
        run_bind_ok_iff.2 ⟨filters, after, filtered, rfl⟩⟩⟩

theorem Branch.ofFragment_traces {e : Encoder} {projected : List String} {f : Fragment}
    {b : Branch} {before after : List Hint}
    (compiled : Branch.ofFragment e projected f before = .ok (b, after)) :
    ∃ t linked, b.Traces e projected f t linked ∧
      f.filters.mapM (filterOf e projected t.sources) before = .ok (b.filters, after) := by
  obtain ⟨plain, t, extensions, filters, traced, folded, filtered, rfl⟩ :=
    ofFragment_ok_iff.1 compiled
  obtain ⟨linked, extended⟩ := Tracing.extended_foldlM (Tracing.extended_start traced) folded
  exact ⟨t, linked, ⟨extended, rfl, rfl, rfl, rfl, rfl, rfl⟩, filtered⟩

end AttestedQuery
