import AttestedQuery.Resolution.Candidate
import AttestedQuery.Proofs.KeyMap
import AttestedQuery.Proofs.Lookup
import AttestedQuery.Proofs.Signing

/-!
# Quads that fit a pattern

A quad fits a pattern in a row where the keys of the pattern stand for the terms of the quad and its
constants agree with them. A draft that takes a quad binds these keys and keeps what it has bound.
-/

set_option autoImplicit false

namespace AttestedQuery

/-- How a quad fits a pattern in a row, where constants are compared by a given relation. -/
structure Pattern.Fits (agrees : Term → Term → Prop) (row : Row) (p : Pattern) (quad : Quad) :
    Prop where
  constant : ∀ position term held, p.positions.get? position = some (some (.const term)) →
    quad.get? position = some held → agrees term held
  key : ∀ position term key, p.positions.get? position = some (some term) →
    term.key? = some key → row.get? key = quad.get? position

/-- Terms with one encoding. -/
def Encoder.SameCode (e : Encoder) (a b : Term) : Prop :=
  ∃ code, e.encode a = .ok code ∧ e.encode b = .ok code

/-- A row whose bindings all stand in another row. -/
def Row.Within (row other : Row) : Prop :=
  ∀ key value, row.get? key = some value → other.get? key = some value

theorem Row.Within.trans {a b c : Row} (first : a.Within b) (second : b.Within c) : a.Within c :=
  fun key value found => second key value (first key value found)

theorem Row.Within.eq {row other : Row} (within : row.Within other)
    (keys : ∀ key, (other.get? key).isSome → (row.get? key).isSome) : row = other := by
  apply KeyMap.ext
  intro key
  cases found : row.get? key with
  | some value => exact (within key value found).symm
  | none =>
    cases other : other.get? key with
    | none => rfl
    | some value =>
      have bound := keys key (by simp [other])
      simp [found] at bound

theorem Row.restrict_within (row : Row) (keep : String → Bool) :
    Row.Within (row.restrict keep) row := by
  intro key value held
  rw [KeyMap.get_restrict] at held
  split at held
  · exact held
  · simp at held

theorem Pattern.mem_keys_iff (p : Pattern) (key : String) :
    key ∈ p.keys ↔ ∃ position term, p.positions.get? position = some (some term) ∧
      term.key? = some key := by
  simp only [Pattern.keys, List.mem_filterMap, QuadOf.mem_toList_iff]
  constructor
  · rintro ⟨term, ⟨position, found⟩, named⟩
    cases term with
    | none => simp at named
    | some term => exact ⟨position, term, found, named⟩
  · rintro ⟨position, term, found, named⟩
    exact ⟨some term, ⟨position, found⟩, named⟩

/-- How a term of a pattern fits a term in a row: a constant agrees with it, a key is bound to it. -/
def PatternTerm.Fits (agrees : Term → Term → Prop) (row : Row) (t : PatternTerm) (x : Term) : Prop :=
  (∀ term, t = .const term → agrees term x) ∧ ∀ key, t.key? = some key → row.get? key = some x

theorem PatternTerm.fits_const_iff {agrees : Term → Term → Prop} {row : Row} {term x : Term} :
    (const term).Fits agrees row x ↔ agrees term x := by
  simp [Fits, key?]

theorem PatternTerm.fits_var_iff {agrees : Term → Term → Prop} {row : Row} {name : String}
    {x : Term} : (var name).Fits agrees row x ↔ row.get? name = some x := by
  simp [Fits, key?]

theorem Pattern.fits_iff {agrees : Term → Term → Prop} {row : Row} {p : Pattern} {quad : Quad} :
    p.Fits agrees row quad ↔ p.subject.Fits agrees row quad.subject ∧
      p.predicate.Fits agrees row quad.predicate ∧ p.object.Fits agrees row quad.object ∧
      ∀ t ∈ p.graph, t.Fits agrees row quad.graph := by
  constructor
  · intro fits
    have fitted (position : Nat) {t : PatternTerm} {x : Term}
        (asked : p.positions.get? position = some (some t)) (held : quad.get? position = some x) :
        t.Fits agrees row x := by
      refine ⟨?_, fun key named => (fits.key position t key asked named).trans held⟩
      rintro term rfl
      exact fits.constant position term x asked held
    exact ⟨fitted 0 rfl rfl, fitted 1 rfl rfl, fitted 2 rfl rfl,
      fun t listed => fitted 3 (congrArg some listed) rfl⟩
  · rintro ⟨subject, predicate, object, graph⟩
    have fitted {position : Nat} {t : PatternTerm}
        (asked : p.positions.get? position = some (some t)) :
        ∃ x, quad.get? position = some x ∧ t.Fits agrees row x := by
      obtain ⟨rfl, here⟩ | ⟨rfl, here⟩ | ⟨rfl, here⟩ | ⟨rfl, here⟩ :=
        QuadOf.get_eq_some_iff.1 asked
      · exact ⟨_, rfl, Option.some.inj here ▸ subject⟩
      · exact ⟨_, rfl, Option.some.inj here ▸ predicate⟩
      · exact ⟨_, rfl, Option.some.inj here ▸ object⟩
      · exact ⟨_, rfl, graph t here⟩
    constructor
    · intro position term held asked found
      obtain ⟨x, same, fits⟩ := fitted asked
      obtain rfl := Option.some.inj (same.symm.trans found)
      exact fits.1 term rfl
    · intro position t key asked named
      obtain ⟨x, same, fits⟩ := fitted asked
      exact (fits.2 key named).trans same.symm

theorem Pattern.Fits.mono {agrees : Term → Term → Prop} {row other : Row} {p : Pattern}
    {quad : Quad} (fits : p.Fits agrees row quad)
    (same : ∀ key ∈ p.keys, other.get? key = row.get? key) : p.Fits agrees other quad where
  constant := fits.constant
  key position term key found named := by
    rw [same key ((p.mem_keys_iff key).2 ⟨position, term, found, named⟩)]
    exact fits.key position term key found named

namespace Candidate

namespace Draft

def Encoded (e : Encoder) (d : Draft) : Prop :=
  ∀ key, (∀ value, d.row.get? key = some value →
      ∃ code, d.encoded.get? key = some code ∧ e.encode value = .ok code) ∧
    (d.row.get? key = none → d.encoded.get? key = none)

/-- The row of a draft decides the encodings that the draft keeps. -/
theorem encoded_unique {e : Encoder} {row : Row} {a b : KeyMap Field} {m n : List Nat}
    (first : Encoded e ⟨row, a, m⟩) (second : Encoded e ⟨row, b, n⟩) : a = b := by
  apply KeyMap.ext
  intro key
  cases held : row.get? key with
  | none => rw [(first key).2 held, (second key).2 held]
  | some value =>
    obtain ⟨x, storedFirst, encodesFirst⟩ := (first key).1 value held
    obtain ⟨y, storedSecond, encodesSecond⟩ := (second key).1 value held
    rw [storedFirst, storedSecond, Except.ok.inj (encodesFirst.symm.trans encodesSecond)]

/-- What binding keys to values changes. -/
structure Binds (d next : Draft) (entries : List (Option String × Term)) : Prop where
  quads : next.quads = d.quads
  within : d.row.Within next.row
  keys : ∀ key, (next.row.get? key).isSome ↔
    (d.row.get? key).isSome ∨ ∃ value, (some key, value) ∈ entries
  entries : ∀ key value, (some key, value) ∈ entries → next.row.get? key = some value

theorem Binds.refl (d : Draft) : Binds d d [] where
  quads := rfl
  within _ _ found := found
  keys := by simp
  entries := by simp

theorem Binds.trans {d next last : Draft} {first second : List (Option String × Term)}
    (before : Binds d next first) (after : Binds next last second) :
    Binds d last (first ++ second) where
  quads := after.quads.trans before.quads
  within := before.within.trans after.within
  keys key := by
    rw [after.keys, before.keys]
    simp only [List.mem_append, exists_or]
    tauto
  entries key value member := by
    rcases List.mem_append.1 member with member | member
    · exact after.within key value (before.entries key value member)
    · exact after.entries key value member

theorem bind_binds {d next : Draft} {key : String} {value : Term} {code : Field}
    (bound : d.bind key value code = some next) : Binds d next [(some key, value)] := by
  unfold bind at bound
  split at bound
  next held found =>
    split at bound
    next same =>
      obtain rfl := Option.some.inj bound
      subst same
      refine ⟨rfl, fun _ _ found => found, ?_, ?_⟩
      · intro other
        constructor
        · exact Or.inl
        · rintro (inside | ⟨value, member⟩)
          · exact inside
          · obtain ⟨rfl, rfl⟩ : other = key ∧ value = held := by simpa using member
            simp [found]
      · intro other value member
        obtain ⟨rfl, rfl⟩ : other = key ∧ value = held := by simpa using member
        exact found
    next => simp at bound
  next absent =>
    obtain rfl := Option.some.inj bound
    refine ⟨rfl, ?_, ?_, ?_⟩
    · intro other held found
      rw [KeyMap.get_insert_other value]
      · exact found
      · rintro rfl
        simp [absent] at found
    · intro other
      rw [KeyMap.get_insert]
      by_cases same : other = key <;> simp [same]
    · intro other held member
      obtain ⟨rfl, rfl⟩ : other = key ∧ held = value := by simpa using member
      exact KeyMap.get_insert_same d.row other held

theorem bind_encoded {e : Encoder} {d next : Draft} {key : String} {value : Term} {code : Field}
    (encoded : d.Encoded e) (encodes : e.encode value = .ok code)
    (bound : d.bind key value code = some next) : next.Encoded e := by
  unfold bind at bound
  split at bound
  next held found =>
    split at bound
    next same =>
      obtain rfl := Option.some.inj bound
      exact encoded
    next => simp at bound
  next absent =>
    obtain rfl := Option.some.inj bound
    intro other
    simp only [KeyMap.get_insert]
    by_cases same : other = key
    · simp [same, encodes]
    · simpa [same] using encoded other

theorem bind_within {d : Draft} {target : Row} {key : String} {value : Term} {code : Field}
    (within : d.row.Within target) (held : target.get? key = some value) :
    ∃ next, d.bind key value code = some next ∧ next.row.Within target := by
  unfold bind
  cases found : d.row.get? key with
  | some other =>
    obtain rfl : other = value := Option.some.inj ((within key other found).symm.trans held)
    exact ⟨d, by simp, within⟩
  | none =>
    refine ⟨_, rfl, ?_⟩
    intro other bound stored
    rw [KeyMap.get_insert] at stored
    split at stored
    next same =>
      obtain rfl := Option.some.inj stored
      rw [same]
      exact held
    next => exact within other bound stored

/-! ## One pattern -/

def entriesOf (p : Pattern) (quad : Quad) : List (Option String × Term) :=
  (p.positions.zip quad).toList.map fun (position, value) =>
    (position >>= PatternTerm.key?, value)

theorem mem_entriesOf_iff {p : Pattern} {quad : Quad} {key : String} {value : Term} :
    (some key, value) ∈ entriesOf p quad ↔ ∃ position term,
      p.positions.get? position = some (some term) ∧ term.key? = some key ∧
        quad.get? position = some value := by
  simp only [entriesOf, List.mem_map, Prod.exists, Prod.mk.injEq, QuadOf.mem_toList_iff,
    QuadOf.get_zip, Option.bind_eq_some_iff, Option.map_eq_some_iff]
  constructor
  · rintro ⟨term, _, ⟨position, _, found, _, held, rfl, rfl⟩, named, rfl⟩
    obtain ⟨term, rfl, named⟩ := Option.bind_eq_some_iff.1 named
    exact ⟨position, term, found, named, held⟩
  · rintro ⟨position, term, found, named, held⟩
    exact ⟨some term, value, ⟨position, some term, found, value, held, rfl, rfl⟩, named, rfl⟩

private def bindPosition (d : Draft) (entry : Option PatternTerm × Term × Field) : Option Draft :=
  match entry.1 >>= PatternTerm.key? with
  | some key => d.bind key entry.2.1 entry.2.2
  | none => some d

private theorem bindQuad_eq (d : Draft) (p : Pattern) (quad : Quad) (codes : QuadOf Field) :
    d.bindQuad p quad codes = (p.positions.zip (quad.zip codes)).toList.foldlM bindPosition d := rfl

private theorem foldlM_binds {entries : List (Option PatternTerm × Term × Field)} {d next : Draft}
    (bound : entries.foldlM bindPosition d = some next) :
    Binds d next (entries.map fun entry => (entry.1 >>= PatternTerm.key?, entry.2.1)) := by
  induction entries generalizing d with
  | nil =>
    obtain rfl : d = next := by simpa using bound
    exact Binds.refl d
  | cons entry rest induction =>
    rw [List.foldlM_cons, Option.bind_eq_bind, Option.bind_eq_some_iff] at bound
    obtain ⟨middle, first, later⟩ := bound
    have before : Binds d middle [(entry.1 >>= PatternTerm.key?, entry.2.1)] := by
      unfold bindPosition at first
      split at first
      next key named =>
        rw [named]
        exact bind_binds first
      next unnamed =>
        obtain rfl := Option.some.inj first
        rw [unnamed]
        exact ⟨rfl, fun _ _ found => found, by simp, by simp⟩
    exact before.trans (induction later)

private theorem foldlM_encoded {e : Encoder} {entries : List (Option PatternTerm × Term × Field)}
    {d next : Draft} (encoded : d.Encoded e)
    (codes : ∀ entry ∈ entries, e.encode entry.2.1 = .ok entry.2.2)
    (bound : entries.foldlM bindPosition d = some next) : next.Encoded e := by
  induction entries generalizing d with
  | nil =>
    obtain rfl : d = next := by simpa using bound
    exact encoded
  | cons entry rest induction =>
    rw [List.foldlM_cons, Option.bind_eq_bind, Option.bind_eq_some_iff] at bound
    obtain ⟨middle, first, later⟩ := bound
    refine induction ?_ (fun other member => codes other (List.mem_cons_of_mem entry member)) later
    unfold bindPosition at first
    split at first
    next key named => exact bind_encoded encoded (codes entry List.mem_cons_self) first
    next unnamed =>
      obtain rfl := Option.some.inj first
      exact encoded

private theorem foldlM_within {entries : List (Option PatternTerm × Term × Field)} {d : Draft}
    {target : Row} (within : d.row.Within target)
    (held : ∀ entry ∈ entries, ∀ key, entry.1 >>= PatternTerm.key? = some key →
      target.get? key = some entry.2.1) :
    ∃ next, entries.foldlM bindPosition d = some next ∧ next.row.Within target := by
  induction entries generalizing d with
  | nil => exact ⟨d, rfl, within⟩
  | cons entry rest induction =>
    have first : ∃ middle, bindPosition d entry = some middle ∧ middle.row.Within target := by
      unfold bindPosition
      cases named : entry.1 >>= PatternTerm.key? with
      | none => exact ⟨d, rfl, within⟩
      | some key => exact bind_within within (held entry List.mem_cons_self key named)
    obtain ⟨middle, bound, inside⟩ := first
    obtain ⟨next, later, last⟩ := induction inside fun other member =>
      held other (List.mem_cons_of_mem entry member)
    refine ⟨next, ?_, last⟩
    rw [List.foldlM_cons, bound]
    exact later

theorem bindQuad_binds {d next : Draft} {p : Pattern} {quad : Quad} {codes : QuadOf Field}
    (bound : d.bindQuad p quad codes = some next) : Binds d next (entriesOf p quad) := by
  rw [bindQuad_eq] at bound
  exact foldlM_binds bound

theorem bindQuad_encoded {e : Encoder} {d next : Draft} {p : Pattern} {quad : Quad}
    {codes : QuadOf Field} (encoded : d.Encoded e)
    (codes_ok : ∀ position term code, quad.get? position = some term →
      codes.get? position = some code → e.encode term = .ok code)
    (bound : d.bindQuad p quad codes = some next) : next.Encoded e := by
  rw [bindQuad_eq] at bound
  refine foldlM_encoded encoded ?_ bound
  intro entry member
  rw [QuadOf.mem_toList_iff] at member
  obtain ⟨position, found⟩ := member
  simp only [QuadOf.get_zip, Option.bind_eq_some_iff, Option.map_eq_some_iff] at found
  obtain ⟨_, _, _, ⟨term, held, code, stored, rfl⟩, rfl⟩ := found
  exact codes_ok position term code held stored

theorem bindQuad_within {d : Draft} {p : Pattern} {quad : Quad} (codes : QuadOf Field)
    {target : Row} (within : d.row.Within target)
    (held : ∀ key value, (some key, value) ∈ entriesOf p quad → target.get? key = some value) :
    ∃ next, d.bindQuad p quad codes = some next ∧ next.row.Within target := by
  rw [bindQuad_eq]
  apply foldlM_within within
  intro entry member key named
  apply held key
  rw [QuadOf.mem_toList_iff] at member
  obtain ⟨position, found⟩ := member
  simp only [QuadOf.get_zip, Option.bind_eq_some_iff, Option.map_eq_some_iff] at found
  obtain ⟨asked, wanted, _, ⟨term, held, code, stored, rfl⟩, rfl⟩ := found
  obtain ⟨term', rfl, named⟩ := Option.bind_eq_some_iff.1 named
  exact mem_entriesOf_iff.2 ⟨position, term', wanted, named, held⟩

end Draft

end Candidate

end AttestedQuery
