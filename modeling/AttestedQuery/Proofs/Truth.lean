import AttestedQuery.Proofs.Simulation
import AttestedQuery.Proofs.WrongHints

/-!
# Whether a filter is true of a row

A filter is true of a row where what it is compiled to holds for the encodings and the hints of the
row, wherever it is compiled. This depends on nothing but the terms of the names that occur in the
filter. Where no hash inputs of the row and its hints collide, it is what the filter means: true
among the three values.
-/

set_option autoImplicit false

namespace AttestedQuery

/-! ## Truth of a row -/

namespace Row

def code (e : Encoder) (row : Row) (key : String) : Field :=
  ((row.get? key).bind fun value => (e.encode value).toOption).getD Field.zero

def hintValue (e : Encoder) (row : Row) (h : Hint) : Field :=
  (h.value e row).toOption.getD Field.zero

def surroundings (e : Encoder) (row : Row) : Surroundings where
  encoder := e
  projected := []
  sources := KeyMap.ofList (row.keys.map fun key => (key, .const (row.code e key)))
  visible := KeySet.ofKeys row.keys

def view (e : Encoder) (row : Row) (hints : List Hint) : View :=
  ⟨[], KeyMap.empty, hints.map (row.hintValue e)⟩

/-- Whether an expression is true of a row: whether the constraint that it is compiled to holds for
the encodings and the hints of the row. -/
def satisfies (e : Encoder) (row : Row) (expression : Expr) : Bool :=
  match (row.surroundings e).condition expression [] with
  | .ok (c, hints) => (row.view e hints).truth e.hasher c.holds
  | .error _ => false

theorem contains_keys (row : Row) (key : String) :
    (KeySet.ofKeys row.keys).contains key = (row.get? key).isSome := by
  rw [KeySet.contains_ofKeys, List.contains_eq_mem, Bool.eq_iff_iff, decide_eq_true_iff,
    KeyMap.mem_keys_iff]

theorem keyWire_surroundings (e : Encoder) (row : Row) (key : String) :
    (row.surroundings e).keyWire? key =
      if (row.get? key).isSome then some (.const (row.code e key)) else none := by
  have source : (row.surroundings e).sources.get? key =
      if (row.get? key).isSome then some (.const (row.code e key)) else none := by
    simp only [surroundings, KeyMap.get_ofList_map, KeyMap.mem_keys_iff]
  rw [Surroundings.keyWire?, source]
  simp only [surroundings, contains_keys]
  split <;> simp

theorem hintValue_congr {e : Encoder} {row other : Row} {h : Hint}
    (same : ∀ key ∈ h.keys, row.get? key = other.get? key) :
    row.hintValue e h = other.hintValue e h := by
  have term (operand : Operand) (about : ∀ key ∈ operand.keys, key ∈ h.keys) :
      Hint.termOf row operand = Hint.termOf other operand := by
    cases operand with
    | term t => rfl
    | key key => rw [Hint.termOf, Hint.termOf, same key (about key (by simp [Operand.keys]))]
  have values : h.value e row = h.value e other := by
    cases h with
    | stringOrder left right =>
      simp only [Hint.value, term left fun key member => List.mem_append_left _ member,
        term right fun key member => List.mem_append_right _ member]
    | _ operand => simp only [Hint.value, term operand fun key member => member]
  rw [hintValue, hintValue, values]

end Row

/-- A view gives the keys of surroundings the encodings of a row, and all hints about them the
values that the row gives. -/
structure View.Presents (v : View) (s : Surroundings) (row : Row) (all : List Hint) : Prop where
  keys : ∀ key, (row.get? key).isSome = (s.keyWire? key).isSome
  bound : ∀ key wire, s.keyWire? key = some wire →
    v.field s.encoder.hasher wire = .ok (row.code s.encoder key)
  hints : ∀ h ∈ all, (∀ key ∈ h.keys, (s.keyWire? key).isSome) →
    v.field s.encoder.hasher (h.wire all) = .ok (row.hintValue s.encoder h)

theorem View.Presents.twins {v : View} {s : Surroundings} {row : Row} {all : List Hint}
    (presents : v.Presents s row all) : s.Twins (row.surroundings s.encoder) := by
  refine ⟨rfl, fun key => ?_⟩
  rw [Row.keyWire_surroundings, ← presents.keys]
  split <;> simp_all

/-- Wherever an expression is compiled, it becomes a condition that holds exactly if the expression
is true of the row that the view presents. -/
theorem Surroundings.yields_satisfies (s : Surroundings) (expression : Expr) :
    Compiling.Yields (s.condition expression) fun all c => ∀ v row, View.Presents v s row all →
      v.holds s.encoder.hasher c.holds = .ok (row.satisfies s.encoder expression) := by
  have plain := s.yields_condition expression
  intro before c after compiled
  refine ⟨(plain before c after compiled).1, fun all continues v row presents => ?_⟩
  obtain ⟨d, final, ran, _, _, _, same⟩ :=
    Surroundings.matches_condition presents.twins expression before [] c after compiled
  have agree : s.Agree (row.surroundings s.encoder) all final v (row.view s.encoder final) := by
    constructor
    · intro key a b here there
      rw [Row.keyWire_surroundings] at there
      split at there
      · obtain rfl := Option.some.inj there
        exact ⟨_, presents.bound key a here, rfl⟩
      · simp at there
    · intro h listed listed' about
      refine ⟨_, presents.hints h listed about, ?_⟩
      simp [Hint.wire, View.field, Row.view, List.getElem?_idxOf listed']
  have alike := (same all final v _ continues List.prefix_rfl agree).holds
  rw [Row.satisfies, ran]
  exact alike.left.trans (congrArg Except.ok alike.same)

/-! ## Names that an expression reads -/

namespace Expr

mutual

/-- The names that occur in an expression. -/
def names : Expr → List String
  | .const _ => []
  | .var name | .bound name => [name]
  | .equal a b | .sameTerm a b | .compare _ a b | .and a b | .or a b => a.names ++ b.names
  | .isIn needle items => needle.names ++ namesOfAll items
  | .not a => a.names
  | .ite condition a b => condition.names ++ a.names ++ b.names
  | .call _ argument => argument.names

def namesOfAll : List Expr → List String
  | [] => []
  | item :: rest => item.names ++ namesOfAll rest

end

end Expr

/-! ## Fewer visible keys -/

namespace Surroundings

open Compiling

variable {s : Surroundings} {names : List String}

def narrowed (s : Surroundings) (names : List String) : Surroundings :=
  { s with visible := s.visible.restrict names.contains }

theorem keyWire_narrowed (key : String) :
    (s.narrowed names).keyWire? key = if names.contains key then s.keyWire? key else none := by
  simp only [keyWire?, narrowed, KeyMap.contains_eq_isSome, KeyMap.get_restrict]
  split <;> simp

theorem value_narrowed : (expression : Expr) → (∀ key ∈ expression.names, key ∈ names) →
    (s.narrowed names).value expression = s.value expression
  | .const _, _ => rfl
  | .var key, read => by
    have here : names.contains key = true :=
      List.contains_iff_mem.2 (read key (by simp [Expr.names]))
    rw [value, value, keyWire_narrowed, if_pos here]
  | .call builtin argument, read => by
    rw [value, value, value_narrowed argument fun key member => read key (by simpa [Expr.names])]
    rfl
  | .equal .., _ | .sameTerm .., _ | .isIn .., _ | .compare .., _ | .and .., _ | .or .., _
  | .not _, _ | .ite .., _ | .bound _, _ => rfl

/-- A test of the value of an expression, where the test knows the encoder only. -/
theorem test_narrowed {α : Type} (test : Surroundings → Guarded → Compiling α)
    (same : test (s.narrowed names) = test s) {expression : Expr}
    (read : ∀ key ∈ expression.names, key ∈ names) :
    ((s.narrowed names).value expression >>= test (s.narrowed names)) =
      s.value expression >>= test s := by
  rw [same, value_narrowed expression read]

theorem pair_narrowed (test : Surroundings → Guarded → Guarded → Compiling Condition)
    (same : test (s.narrowed names) = test s) {a b : Expr}
    (read : ∀ key ∈ a.names ++ b.names, key ∈ names) :
    (do let a ← (s.narrowed names).value a
        test (s.narrowed names) a (← (s.narrowed names).value b)) =
      (do let a ← s.value a
          test s a (← s.value b)) := by
  rw [List.forall_mem_append] at read
  rw [same, value_narrowed a read.1, value_narrowed b read.2]

theorem isIn_narrowed {needle : Expr} {items : List Expr} (start : Condition)
    (read : ∀ key ∈ needle.names, key ∈ names) (each : ∀ key ∈ Expr.namesOfAll items, key ∈ names) :
    (items.foldlM (fun found item => do
      let needle ← (s.narrowed names).value needle
      return found.either (← (s.narrowed names).equality false needle
        (← (s.narrowed names).value item))) start) =
    items.foldlM (fun found item => do
      let needle ← s.value needle
      return found.either (← s.equality false needle (← s.value item))) start := by
  induction items generalizing start with
  | nil => rfl
  | cons item rest induction =>
    simp only [Expr.namesOfAll, List.mem_append] at each
    simp only [List.foldlM_cons, value_narrowed needle read,
      value_narrowed item fun key member => each key (Or.inl member)]
    refine congrArg _ (funext fun found => ?_)
    rw [← induction found fun key member => each key (Or.inr member)]
    simp only [value_narrowed needle read]

/-- An expression is compiled alike where no keys are visible but those that it reads. -/
theorem condition_narrowed : (expression : Expr) → (∀ key ∈ expression.names, key ∈ names) →
    (s.narrowed names).condition expression = s.condition expression
  | .and a b, read | .or a b, read => by
    rw [Expr.names, List.forall_mem_append] at read
    rw [condition, condition, condition_narrowed a read.1, condition_narrowed b read.2]
  | .not a, read => by
    rw [condition, condition, condition_narrowed a read]
  | .ite c a b, read => by
    rw [Expr.names, List.forall_mem_append, List.forall_mem_append] at read
    rw [condition, condition, condition_narrowed c read.1.1, condition_narrowed a read.1.2,
      condition_narrowed b read.2]
  | .bound key, read => by
    have here : names.contains key = true :=
      List.contains_iff_mem.2 (read key (by simp [Expr.names]))
    rw [condition, condition, keyWire_narrowed, if_pos here]
  | .equal _ _, read => pair_narrowed (equality · false) rfl read
  | .sameTerm _ _, read => pair_narrowed (equality · true) rfl read
  | .compare op _ _, read => pair_narrowed (comparison · op) rfl read
  | .isIn needle items, read => by
    rw [Expr.names, List.forall_mem_append] at read
    rw [condition, condition]
    exact isIn_narrowed _ read.1 read.2
  | .call builtin argument, read => by
    cases builtin with
    | isIri => exact test_narrowed (fun _ => kindTest .iri) rfl read
    | isBlank => exact test_narrowed (fun _ => kindTest .blank) rfl read
    | isLiteral => exact test_narrowed (fun _ => kindTest .literal) rfl read
    | isNumeric => exact test_narrowed numericTest rfl read
    | str | lang | datatype | strLen => exact test_narrowed truthOf rfl read
  | .const _, read | .var _, read => test_narrowed truthOf rfl read

end Surroundings

/-! ## Rows with the same terms -/

namespace Row

variable {e : Encoder} {row other : Row} {expression : Expr}

theorem isSome_keyWire_narrowed (key : String) (names : List String) :
    (((row.surroundings e).narrowed names).keyWire? key).isSome =
      (names.contains key && (row.get? key).isSome) := by
  rw [Surroundings.keyWire_narrowed, keyWire_surroundings]
  cases names.contains key <;> cases (row.get? key).isSome <;> rfl

theorem twins_narrowed {names : List String} (same : ∀ key ∈ names, row.get? key = other.get? key) :
    ((row.surroundings e).narrowed names).Twins ((other.surroundings e).narrowed names) := by
  refine ⟨rfl, fun key => ?_⟩
  rw [isSome_keyWire_narrowed, isSome_keyWire_narrowed]
  by_cases member : key ∈ names
  · rw [same key member]
  · simp [member]

/-- Two rows that hold the same under some names give the keys and hints about them the same
values. -/
theorem agree_narrowed {names : List String} (same : ∀ key ∈ names, row.get? key = other.get? key)
    (hints others : List Hint) :
    ((row.surroundings e).narrowed names).Agree ((other.surroundings e).narrowed names) hints others
      (row.view e hints) (other.view e others) := by
  have named {key : String}
      (bound : (((row.surroundings e).narrowed names).keyWire? key).isSome = true) :
      key ∈ names := by
    rw [isSome_keyWire_narrowed, Bool.and_eq_true, List.contains_iff_mem] at bound
    exact bound.1
  constructor
  · intro key a b here there
    have member : key ∈ names := named (by rw [here]; rfl)
    rw [Surroundings.keyWire_narrowed, if_pos (List.contains_iff_mem.2 member),
      keyWire_surroundings] at here there
    rw [← same key member] at there
    split at here
    · obtain rfl := Option.some.inj here
      rw [if_pos ‹_›] at there
      obtain rfl := Option.some.inj there
      exact ⟨_, rfl, by rw [code, ← same key member]; rfl⟩
    · cases here
  · intro h listed listed' about
    have value : row.hintValue e h = other.hintValue e h :=
      hintValue_congr fun key member => same key (named (about key member))
    refine ⟨row.hintValue e h, ?_, ?_⟩
    · simp [Hint.wire, View.field, Row.view, List.getElem?_idxOf listed]
    · simp [Hint.wire, View.field, Row.view, List.getElem?_idxOf listed', value]

theorem satisfies_congr (same : ∀ key ∈ expression.names, row.get? key = other.get? key) :
    row.satisfies e expression = other.satisfies e expression := by
  have narrow (any : Surroundings) :
      (any.narrowed expression.names).condition expression = any.condition expression :=
    Surroundings.condition_narrowed expression fun _ member => member
  have compiled {row other : Row} {c : Condition} {hints : List Hint}
      (same : ∀ key ∈ expression.names, row.get? key = other.get? key)
      (ran : (row.surroundings e).condition expression [] = .ok (c, hints)) :
      row.satisfies e expression = other.satisfies e expression := by
    obtain ⟨d, final, ran', _, _, _, alike⟩ := Surroundings.matches_condition
      (twins_narrowed (e := e) same) expression [] [] c hints (narrow (row.surroundings e) ▸ ran)
    rw [narrow] at ran'
    rw [satisfies, satisfies, ran, ran']
    exact (alike hints final _ _ List.prefix_rfl List.prefix_rfl
      (agree_narrowed same hints final)).holds.same
  -- Where neither row can be compiled against, both are refused.
  cases first : (row.surroundings e).condition expression [] with
  | ok found => exact compiled same first
  | error _ =>
    cases second : (other.surroundings e).condition expression [] with
    | ok found => exact (compiled (fun key member => (same key member).symm) second).symm
    | error _ => rw [satisfies, satisfies, first, second]

theorem condition_bound (e : Encoder) (row : Row) (key : String) :
    (row.surroundings e).condition (.bound key) [] =
      .ok (.ofBool (row.get? key).isSome, []) := by
  have same : ((row.surroundings e).keyWire? key).isSome = (row.get? key).isSome := by
    rw [keyWire_surroundings]
    split <;> simp_all
  rw [← same]
  rfl

theorem satisfies_bound (e : Encoder) (row : Row) (key : String) :
    row.satisfies e (.bound key) = (row.get? key).isSome := by
  rw [satisfies, condition_bound]
  cases row.get? key <;> rfl

/-- A test that a name is not bound is true of the rows that do not bind it. -/
theorem satisfies_not_bound (e : Encoder) (row : Row) (key : String) :
    row.satisfies e (.not (.bound key)) = (row.get? key).isNone := by
  have ran : (row.surroundings e).condition (.not (.bound key)) [] =
      .ok ((Condition.ofBool (row.get? key).isSome).negated, []) :=
    run_bind_ok_iff.2 ⟨_, [], condition_bound e row key, rfl⟩
  rw [satisfies, ran]
  cases row.get? key <;> rfl

end Row

/-! ## Truth and meaning -/

namespace Row

variable {e : Encoder} {row : Row} {expression : Expr} {c : Condition} {hints : List Hint}

/-- What a filter that may read all of a row reads, where every hint is the one the row gives. -/
def reading (e : Encoder) (row : Row) : Reading where
  encoder := e
  row := row.get?
  wrong _ := false
  trusted := row.hintValue e

/-- The inputs hashed to encode a row, and by the constraints on the hints that the row gives. -/
def exhibited (e : Encoder) (row : Row) (hints : List Hint) : List Preimage :=
  row.inputs e ++ Hint.inputs e.hasher hints (hints.map (row.hintValue e))

theorem told_hintValue {h : Hint} (listed : h ∈ hints) :
    h.told hints (hints.map (row.hintValue e)) = row.hintValue e h := by
  simp [Hint.told, List.getElem?_idxOf listed]

theorem isFault_hintValue (h : Hint) :
    Reading.isFault e row hints (hints.map (row.hintValue e)) h = false := by
  by_cases listed : h ∈ hints
  · rw [Reading.isFault, told_hintValue listed, hintValue, Reading.given]
    cases (h.value e row).toOption <;> simp
  · have unlisted : hints.contains h = false := by simpa using listed
    rw [Reading.isFault, unlisted, Bool.false_and, Bool.false_and]

/-- An expression is true of a row exactly if it means true in the reading of the row, where the view
of the row represents its reading. -/
theorem satisfies_iff_of_represents
    (compiled : (row.surroundings e).condition expression [] = .ok (c, hints))
    (represents : (row.view e hints).Represents (row.surroundings e) hints (row.reading e)) :
    row.satisfies e expression = true ↔ (row.reading e).outcome expression = some true := by
  have means := ((row.surroundings e).yields_condition expression [] c hints compiled).2 hints
    List.prefix_rfl
  have outcome := means.holds _ _ represents
  rw [← outcome, satisfies, compiled, Condition.outcome]
  change (row.view e hints).truth e.hasher (.all [c.defined, c.value]) = true ↔
    (if (row.view e hints).truth e.hasher c.defined = true then
      some ((row.view e hints).truth e.hasher c.value) else none) = some true
  rw [View.truth_all, List.all_cons, List.all_cons, List.all_nil, Bool.and_true]
  cases (row.view e hints).truth e.hasher c.defined <;> simp

section Encoded

variable (encodes : ∀ key t, row.get? key = some t → ∃ code, e.encode t = .ok code)

include encodes

theorem view_holds : (row.view e hints).Holds (row.surroundings e) row hints where
  length := by simp [view]
  unbound key absent _ := by
    rw [keyWire_surroundings] at absent
    split at absent
    next => cases absent
    next unbound => exact Option.not_isSome_iff_eq_none.1 unbound
  bound key wire found := by
    rw [keyWire_surroundings] at found
    split at found
    next held =>
      obtain ⟨t, held⟩ := Option.isSome_iff_exists.1 held
      obtain ⟨code, encoded⟩ := encodes key t held
      obtain rfl := Option.some.inj found
      refine ⟨t, code, held, encoded, congrArg Except.ok ?_⟩
      rw [Row.code, held, Option.bind_some, encoded]
      rfl
    next => cases found

/-- Among hash inputs without collision the view of a row represents the reading of the row. -/
theorem represents (clear : ¬ e.hasher.Collides (row.exhibited e hints)) :
    (row.view e hints).Represents (row.surroundings e) hints (row.reading e) := by
  have known := (view_holds encodes).represents clear
    (fun _ member => List.mem_append_left _ member)
    fun _ member => List.mem_append_right _ member
  have terms (key : String) :
      (if (row.surroundings e).visible.contains key then row.get? key else none) =
        row.get? key := by
    rw [surroundings, contains_keys]
    cases row.get? key <;> rfl
  have same : Reading.ofHints e row (row.surroundings e).visible hints (row.view e hints).hints =
      { row.reading e with trusted := (Reading.ofHints e row (row.surroundings e).visible hints
        (row.view e hints).hints).trusted } := by
    rw [Reading.ofHints, reading, Reading.mk.injEq]
    exact ⟨rfl, funext terms, funext isFault_hintValue, rfl⟩
  rw [show (row.surroundings e).encoder = e from rfl, same] at known
  refine { known with trusted := fun h listed _ => ?_ }
  simp [Hint.wire, View.field, view, reading, List.getElem?_idxOf listed]

end Encoded

end Row

end AttestedQuery
