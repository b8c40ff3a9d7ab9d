import AttestedQuery.Proofs.ComputedValues

/-!
# Errors of calls

A test of calls of a variable has no value on a row where one of the calls is an error: the guards
of a call are among those of every call of it. There is one exception. The language and the datatype
of a computed string are known whatever the string is, and such a call is compiled to a constant
without the guards of its argument. A test of it is the test of the constant, on rows where the
string is an error as on others.
-/

set_option autoImplicit false

namespace AttestedQuery

/-! ## Tests of a value -/

/-- The places of an atomic test in which a value may stand. -/
inductive Probe where
  | equalLeft (other : Expr)
  | equalRight (other : Expr)
  | sameLeft (other : Expr)
  | sameRight (other : Expr)
  | compareLeft (op : CompareOp) (other : Expr)
  | compareRight (op : CompareOp) (other : Expr)
  /-- The value is looked for among some items. -/
  | needle (first : Expr) (rest : List Expr)
  /-- The value is one of the items. -/
  | item (sought : Expr) (before after : List Expr)
  | isIri
  | isBlank
  | isLiteral
  | isNumeric
  /-- Whether the value counts as true. -/
  | truth

namespace Probe

/-- The test of an expression. -/
def on (e : Expr) : Probe → Expr
  | .equalLeft other => .equal e other
  | .equalRight other => .equal other e
  | .sameLeft other => .sameTerm e other
  | .sameRight other => .sameTerm other e
  | .compareLeft op other => .compare op e other
  | .compareRight op other => .compare op other e
  | .needle first rest => .isIn e (first :: rest)
  | .item sought before after => .isIn sought (before ++ e :: after)
  | .isIri => .call .isIri e
  | .isBlank => .call .isBlank e
  | .isLiteral => .call .isLiteral e
  | .isNumeric => .call .isNumeric e
  | .truth => e

/-- No other item equals what is looked for: one that does makes the whole true. -/
def Alone (r : Reading) : Probe → Prop
  | .item sought before after =>
    ∀ other ∈ before ++ after, r.outcome (.equal sought other) ≠ some true
  | _ => True

end Probe

/-! ## Missing values -/

/-- A value that is missing on the row, but not as a constant without an encoding is. -/
inductive Meaning.Void : Meaning → Prop
  | error : Void .error
  | number : Void (.number none)
  | term {origin : Origin} (varies : ∀ t, origin ≠ .const t) : Void (.term none origin)

namespace Reading

variable {r : Reading} {m other : Meaning}

theorem numberEquals_void {number code : Option Field} {origin : Origin}
    (missing : number = none ∨ code = none ∧ ∀ t, origin ≠ .const t) :
    r.numberEquals number code origin = none := by
  obtain rfl | ⟨rfl, varies⟩ := missing
  · cases origin with
    | const t => simp only [numberEquals]; split <;> rfl
    | key _ | str | lang | datatype => rfl
  · cases origin with
    | const t => exact absurd rfl (varies t)
    | key key => cases number <;> rfl
    | str | lang | datatype => rfl

theorem equality_void_left (void : m.Void) (sameTerm : Bool) :
    r.equality sameTerm m other = none := by
  cases void with
  | error => rfl
  | number =>
    cases other with
    | term code origin => exact numberEquals_void (Or.inl rfl)
    | number _ | error => rfl
  | @term origin varies =>
    cases other with
    | term code other =>
      cases origin with
      | const t => exact absurd rfl (varies t)
      | key _ | str | lang | datatype => rfl
    | number _ => exact numberEquals_void (Or.inr ⟨rfl, varies⟩)
    | error => rfl

theorem equality_void_right (void : m.Void) (sameTerm : Bool) :
    r.equality sameTerm other m = none := by
  cases void with
  | error => cases other <;> rfl
  | number =>
    cases other with
    | term code origin => exact numberEquals_void (Or.inl rfl)
    | number value => cases value <;> rfl
    | error => rfl
  | @term origin varies =>
    cases other with
    | term code other =>
      cases origin with
      | const t => exact absurd rfl (varies t)
      | key _ | str | lang | datatype => cases other <;> cases code <;> rfl
    | number _ => exact numberEquals_void (Or.inr ⟨rfl, varies⟩)
    | error => rfl

theorem ordinal_void (void : m.Void) (space : ValueSpace) : r.ordinal space m = none := by
  cases void with
  | error => rfl
  | number => simp [ordinal]
  | @term origin varies =>
    cases origin with
    | const t => exact absurd rfl (varies t)
    | key _ | str | lang | datatype => rfl

theorem stringOperand_void (void : m.Void) : r.stringOperand m = none := by
  cases void with
  | error | number => rfl
  | @term origin varies =>
    cases origin with
    | const t => exact absurd rfl (varies t)
    | key _ | str | lang | datatype => rfl

theorem ordered_void (op : CompareOp) {a b : Meaning} (void : a.Void ∨ b.Void) :
    r.ordered op a b = none := by
  have strings : r.stringOrder op a b = none := by
    obtain left | right := void
    · rw [stringOrder, stringOperand_void left, Option.bind_none]
    · simp [stringOrder, stringOperand_void right]
  have numbers (space : ValueSpace) : r.numberOrder op space a b = none := by
    obtain left | right := void
    · rw [numberOrder, ordinal_void left, Option.bind_none]
    · simp [numberOrder, ordinal_void right]
  rw [ordered]
  split
  · exact strings
  · exact numbers _

theorem comparison_void (op : CompareOp) {a b : Meaning} (void : a.Void ∨ b.Void) :
    r.comparison op a b = none := by
  unfold comparison
  split
  · obtain left | right := void
    · cases left with
      | term varies => exact absurd rfl (varies _)
    · cases right with
      | term varies => exact absurd rfl (varies _)
  · exact ordered_void op void

theorem kindTest_void (void : m.Void) (kind : TermKind) : r.kindTest kind m = none := by
  cases void <;> rfl

theorem numericTest_void (void : m.Void) : r.numericTest m = none := by
  cases void <;> rfl

theorem truthOf_void (void : m.Void) : r.truthOf m = none := by
  cases void with
  | error | number => rfl
  | @term origin varies =>
    cases origin with
    | const t => exact absurd rfl (varies t)
    | key _ | str | lang | datatype => rfl

/-- Once a part of a disjunction has no value, the whole is true or has none. -/
theorem foldl_eitherTrue_none {α : Type} {test : α → Option Bool} {items : List α}
    (none_true : ∀ item ∈ items, test item ≠ some true) :
    items.foldl (fun found item => eitherTrue found (test item)) none = none := by
  induction items with
  | nil => rfl
  | cons item rest induction =>
    rw [List.forall_mem_cons] at none_true
    have first : eitherTrue none (test item) = none := by
      cases value : test item with
      | none => rfl
      | some b =>
        cases b with
        | false => rfl
        | true => exact absurd value none_true.1
    rw [List.foldl_cons, first]
    exact induction none_true.2

theorem foldl_eitherTrue_ne {α : Type} {test : α → Option Bool} {items : List α}
    (none_true : ∀ item ∈ items, test item ≠ some true) :
    items.foldl (fun found item => eitherTrue found (test item)) (some false) ≠ some true := by
  induction items with
  | nil => simp
  | cons item rest induction =>
    rw [List.forall_mem_cons] at none_true
    rw [List.foldl_cons]
    cases value : test item with
    | none =>
      rw [show eitherTrue (some false) none = none from rfl, foldl_eitherTrue_none none_true.2]
      decide
    | some b =>
      cases b with
      | false => exact induction none_true.2
      | true => exact absurd value none_true.1

/-- A test of a missing value has no value. -/
theorem outcome_void {e : Expr} (void : (r.meaning e).Void)
    (counts : r.outcome e = r.truthOf (r.meaning e)) (probe : Probe) (alone : probe.Alone r) :
    r.outcome (probe.on e) = none := by
  cases probe with
  | equalLeft other | sameLeft other =>
    rw [Probe.on, outcome]
    exact equality_void_left void _
  | equalRight other | sameRight other =>
    rw [Probe.on, outcome]
    exact equality_void_right void _
  | compareLeft op other =>
    rw [Probe.on, outcome]
    exact comparison_void op (Or.inl void)
  | compareRight op other =>
    rw [Probe.on, outcome]
    exact comparison_void op (Or.inr void)
  | needle first rest =>
    rw [Probe.on, outcome, List.foldl_cons]
    simp only [equality_void_left void]
    exact foldl_eitherTrue_none fun _ _ => by decide
  | item sought before after =>
    have each : ∀ other ∈ before ++ after,
        r.equality false (r.meaning sought) (r.meaning other) ≠ some true := by
      intro other member
      have different := alone other member
      rwa [outcome] at different
    rw [List.forall_mem_append] at each
    rw [Probe.on, outcome, List.foldl_append, List.foldl_cons, equality_void_right void]
    have missing {found : Option Bool} (different : found ≠ some true) :
        eitherTrue found none = none := by
      cases found with
      | none => rfl
      | some b => cases b with
        | false => rfl
        | true => exact absurd rfl different
    -- The items before are not true, so the one that is missing leaves no value for good.
    rw [missing (foldl_eitherTrue_ne each.1)]
    exact foldl_eitherTrue_none each.2
  | isIri | isBlank | isLiteral =>
    rw [Probe.on, outcome]
    exact kindTest_void void _
  | isNumeric =>
    rw [Probe.on, outcome]
    exact numericTest_void void
  | truth =>
    rw [Probe.on, counts]
    exact truthOf_void void

theorem outcome_on_congr {e f : Expr} (same : r.meaning e = r.meaning f)
    (first : r.outcome e = r.truthOf (r.meaning e)) (second : r.outcome f = r.truthOf (r.meaning f))
    (probe : Probe) : r.outcome (probe.on e) = r.outcome (probe.on f) := by
  cases probe with
  | truth => rw [Probe.on, Probe.on, first, second, same]
  | item sought before after => simp [Probe.on, outcome, same]
  | _ => simp only [Probe.on, outcome, same]

end Reading

/-! ## Chains of calls on a row -/

inductive Accessor.Strings : List Accessor → Prop
  | str : Strings [.str]
  | lang : Strings [.lang]
  | again {inner : List Accessor} (strings : Strings inner) : Strings (.str :: inner)

/-- Calls that ask for the language or the datatype of a computed string, with the constant that
they are compiled to. -/
inductive Accessor.Folds : List Accessor → Term → Prop
  | lang {inner : List Accessor} (strings : Strings inner) : Folds (.lang :: inner) (.simple "")
  | datatype {inner : List Accessor} (strings : Strings inner) :
    Folds (.datatype :: inner) (.iri xsdString)

theorem Expr.applied_append (outer inner : List Accessor) (e : Expr) :
    Expr.applied (outer ++ inner) e = Expr.applied outer (Expr.applied inner e) :=
  List.foldr_append

namespace Reading

variable {r : Reading}

theorem meaning_applied_congr {e f : Expr} (same : r.meaning e = r.meaning f)
    (calls : List Accessor) :
    r.meaning (Expr.applied calls e) = r.meaning (Expr.applied calls f) := by
  induction calls with
  | nil => exact same
  | cons call rest induction =>
    exact congrArg (r.callOf call.builtin) induction

theorem outcome_applied {e : Expr} (counts : r.outcome e = r.truthOf (r.meaning e))
    (calls : List Accessor) :
    r.outcome (Expr.applied calls e) = r.truthOf (r.meaning (Expr.applied calls e)) := by
  cases calls with
  | nil => exact counts
  | cons call rest => cases call <;> rfl

/-- A call of a missing value is missing, unless it is a constant for all strings. -/
theorem callOf_void {m : Meaning} (void : m.Void) (call : Accessor) :
    (r.callOf call.builtin m).Void ∨ ∃ origin, m = .term none origin ∧
      (origin = .str ∨ origin = .lang) ∧ (call = .lang ∨ call = .datatype) := by
  cases void with
  | error | number => exact Or.inl .error
  | @term origin varies =>
    cases origin with
    | const t => exact absurd rfl (varies t)
    | key key =>
      cases call with
      | strLen => exact Or.inl .number
      | str | lang | datatype => exact Or.inl (.term (by simp))
    | str | lang =>
      cases call with
      | str => exact Or.inl (.term (by simp))
      | strLen => exact Or.inl .error
      | lang => exact Or.inr ⟨_, rfl, by simp, by simp⟩
      | datatype => exact Or.inr ⟨_, rfl, by simp, by simp⟩
    | datatype => cases call <;> exact Or.inl .error

theorem callOf_const {call : Accessor} {before code : Option Field} {t : Term} {origin : Origin}
    (meant : r.callOf call.builtin (.term before (.const t)) = .term code origin) :
    ∃ u, origin = .const u := by
  cases call with
  | str =>
    simp only [callOf, Accessor.builtin, strOf] at meant
    split at meant <;> cases meant
    exact ⟨_, rfl⟩
  | lang | datatype =>
    cases t <;> cases meant
    exact ⟨_, rfl⟩
  | strLen => cases t <;> cases meant

def LeadsTo (calls : List Accessor) : Origin → Prop
  | .key _ => calls = []
  | .str | .lang => Accessor.Strings calls
  | .const _ | .datatype => True

theorem leadsTo_origin {key : String} {calls : List Accessor} {code : Option Field}
    {origin : Origin} (meant : r.meaning (Expr.applied calls (.var key)) = .term code origin) :
    LeadsTo calls origin := by
  induction calls generalizing code origin with
  | nil =>
    rw [Expr.applied, List.foldr_nil, meaning] at meant
    split at meant
    · cases meant
      rfl
    · cases meant
  | cons call rest induction =>
    change r.callOf call.builtin (r.meaning (Expr.applied rest (.var key))) = _ at meant
    cases inner : r.meaning (Expr.applied rest (.var key)) with
    | error | number _ =>
      rw [inner] at meant
      cases meant
    | term before source =>
      have leads := induction inner
      rw [inner] at meant
      cases source with
      | key other =>
        obtain rfl : rest = [] := leads
        cases call <;> cases meant
        · exact .str
        · exact .lang
        · trivial
      | const t =>
        obtain ⟨u, rfl⟩ := callOf_const meant
        trivial
      | str | lang =>
        cases call <;> cases meant
        · exact .again leads
        · trivial
        · trivial
      | datatype => cases call <;> cases meant

end Reading

/-- What calls of a variable mean over a row where none of them is an error, unless a string is
computed and asked for its language or datatype. -/
inductive Row.Tells (row : Row) : Meaning → Computed → Prop
  | key {code : Field} {key : String} {t : Term} (held : row.get? key = some t) :
    Tells row (.term (some code) (.key key)) (.term t)
  | string {code : Option Field} {origin : Origin} {text : String}
    (computed : origin = .str ∨ origin = .lang) : Tells row (.term code origin) (.term (.simple text))
  | datatype {code : Option Field} {text : String} :
    Tells row (.term code .datatype) (.term (.iri text))
  | number {value : Option Field} {n : Nat} : Tells row (.number value) (.number n)

namespace Row

variable {e : Encoder} {row : Row} {key : String} {t : Term} {m : Meaning} {x : Computed}

theorem callOf_key (held : row.get? key = some t) (code : Field) (call : Accessor) :
    ((row.reading e).callOf call.builtin (.term (some code) (.key key))).Void ∨
      ∃ y, t.result? call = some y ∧
        row.Tells ((row.reading e).callOf call.builtin (.term (some code) (.key key))) y := by
  have read : (row.reading e).row key = some t := held
  have absent (other : ∀ value lang datatype, t ≠ .literal value lang datatype) :
      (row.reading e).parts? key = none :=
    Reading.parts_eq_none fun value lang datatype known =>
      other value lang datatype (Option.some.inj (held.symm.trans known))
  cases t with
  | literal value lang datatype =>
    cases call with
    | str => exact Or.inr ⟨_, rfl, .string (Or.inl rfl)⟩
    | lang => exact Or.inr ⟨_, rfl, .string (Or.inr rfl)⟩
    | datatype => exact Or.inr ⟨_, rfl, .datatype⟩
    | strLen => exact Or.inr ⟨_, rfl, .number⟩
  | iri text =>
    have parts := absent (by simp)
    cases call with
    | str => exact Or.inr ⟨_, rfl, .string (Or.inl rfl)⟩
    | lang | datatype | strLen =>
      simp only [Reading.callOf, Accessor.builtin, Reading.langOf, Reading.datatypeOf,
        Reading.lengthOf, parts]
      first | exact Or.inl .number | exact Or.inl (.term (by simp))
  | blank _ | var _ | defaultGraph =>
    have parts := absent (by simp)
    have text : (row.reading e).textHash? key = none := by
      rw [Reading.textHash?, read, parts]
      rfl
    cases call <;>
    · simp only [Reading.callOf, Accessor.builtin, Reading.strOf, Reading.langOf,
        Reading.datatypeOf, Reading.lengthOf, parts, text]
      first | exact Or.inl .number | exact Or.inl (.term (by simp))

theorem callOf_tells (tells : row.Tells m x) (call : Accessor) :
    ((row.reading e).callOf call.builtin m).Void ∨
      (∃ y, x.result? call = some y ∧ row.Tells ((row.reading e).callOf call.builtin m) y) ∨
        ∃ code origin, m = .term code origin ∧ (origin = .str ∨ origin = .lang) ∧
          (call = .lang ∨ call = .datatype) := by
  cases tells with
  | key held =>
    exact (callOf_key held _ call).imp_right Or.inl
  | @string code origin text computed =>
    cases call with
    | str =>
      refine Or.inr (Or.inl ⟨_, rfl, ?_⟩)
      obtain rfl | rfl := computed
      · exact .string (Or.inl rfl)
      · exact .string (Or.inr rfl)
    | lang => exact Or.inr (Or.inr ⟨_, _, rfl, computed, Or.inl rfl⟩)
    | datatype => exact Or.inr (Or.inr ⟨_, _, rfl, computed, Or.inr rfl⟩)
    | strLen =>
      obtain rfl | rfl := computed
      · exact Or.inl .error
      · exact Or.inl .error
  | datatype => cases call <;> exact Or.inl .error
  | number => exact Or.inl .error

/-- Calls of a variable are compiled to a constant, are missing, or mean what they give. -/
theorem folds_or_void_or_tells (encodes : row.Encodes e) (held : row.get? key = some t)
    (calls : List Accessor) :
    (∃ outer inner u, calls = outer ++ inner ∧ Accessor.Folds inner u) ∨
      ((row.reading e).meaning (Expr.applied calls (.var key))).Void ∨
        ∃ x, t.chain? calls = some x ∧
          row.Tells ((row.reading e).meaning (Expr.applied calls (.var key))) x := by
  -- From the variable outwards. A missing value stays missing under every call but those that ask a
  -- computed string for its language or datatype, and its origin shows that it is one.
  induction calls with
  | nil =>
    obtain ⟨code, _, meant⟩ := meaning_key encodes held
    exact Or.inr (Or.inr ⟨.term t, rfl, meant ▸ .key held⟩)
  | cons call rest induction =>
    have folds {code : Option Field} {origin : Origin}
        (meant : (row.reading e).meaning (Expr.applied rest (.var key)) = .term code origin)
        (computed : origin = .str ∨ origin = .lang) (asks : call = .lang ∨ call = .datatype) :
        ∃ outer inner u, call :: rest = outer ++ inner ∧ Accessor.Folds inner u := by
      have strings : Accessor.Strings rest := by
        have leads := Reading.leadsTo_origin meant
        obtain rfl | rfl := computed
        · exact leads
        · exact leads
      obtain rfl | rfl := asks
      · exact ⟨[], _, _, rfl, .lang strings⟩
      · exact ⟨[], _, _, rfl, .datatype strings⟩
    obtain ⟨outer, inner, u, rfl, inside⟩ | void | ⟨x, chained, tells⟩ := induction
    · exact Or.inl ⟨call :: outer, inner, u, rfl, inside⟩
    · obtain missing | ⟨origin, meant, computed, asks⟩ := Reading.callOf_void void call
      · exact Or.inr (Or.inl missing)
      · exact Or.inl (folds meant computed asks)
    · obtain missing | ⟨y, result, further⟩ | ⟨code, origin, meant, computed, asks⟩ :=
        callOf_tells (e := e) tells call
      · exact Or.inr (Or.inl missing)
      · refine Or.inr (Or.inr ⟨y, ?_, further⟩)
        exact Option.bind_eq_some_iff.2 ⟨x, chained, result⟩
      · exact Or.inl (folds meant computed asks)

theorem meaning_strings (held : row.get? key = some t) {calls : List Accessor}
    (strings : Accessor.Strings calls) : ∃ code origin, (origin = .str ∨ origin = .lang) ∧
      (row.reading e).meaning (Expr.applied calls (.var key)) = .term code origin := by
  obtain ⟨code, meant⟩ : ∃ code, (row.reading e).meaning (.var key) = .term code (.key key) := by
    have read : (row.reading e).row key = some t := held
    rw [Reading.meaning, read]
    exact ⟨_, rfl⟩
  induction strings with
  | str => exact ⟨_, .str, Or.inl rfl, congrArg ((row.reading e).callOf .str) meant⟩
  | lang => exact ⟨_, .lang, Or.inr rfl, congrArg ((row.reading e).callOf .lang) meant⟩
  | again strings induction =>
    obtain ⟨code, origin, computed, inner⟩ := induction
    refine ⟨code, origin, computed, (congrArg ((row.reading e).callOf .str) inner).trans ?_⟩
    obtain rfl | rfl := computed <;> rfl

/-- Calls that are compiled to a constant mean the constant, whatever the term of the variable. -/
theorem meaning_folds (held : row.get? key = some t) {calls : List Accessor} {u : Term}
    (folds : Accessor.Folds calls u) :
    (row.reading e).meaning (Expr.applied calls (.var key)) = (row.reading e).meaning (.const u) := by
  cases folds with
  | lang strings =>
    obtain ⟨code, origin, computed, inner⟩ := meaning_strings (e := e) held strings
    refine (congrArg ((row.reading e).callOf .lang) inner).trans ?_
    obtain rfl | rfl := computed <;> rfl
  | datatype strings =>
    obtain ⟨code, origin, computed, inner⟩ := meaning_strings (e := e) held strings
    refine (congrArg ((row.reading e).callOf .datatype) inner).trans ?_
    obtain rfl | rfl := computed <;> rfl

/-- A test of calls, one of them an error on the row, has no value exactly where no part of the calls
is compiled to a constant of which the test has one. -/
theorem outcome_failed (encodes : row.Encodes e) (held : row.get? key = some t)
    {calls : List Accessor} (fails : t.chain? calls = none) (probe : Probe)
    (alone : probe.Alone (row.reading e)) :
    (row.reading e).outcome (probe.on (Expr.applied calls (.var key))) = none ↔
      ∀ outer inner u, calls = outer ++ inner → Accessor.Folds inner u →
        (row.reading e).outcome (probe.on (Expr.applied outer (.const u))) = none := by
  have counts : (row.reading e).outcome (.var key) =
      (row.reading e).truthOf ((row.reading e).meaning (.var key)) := rfl
  have same {outer inner : List Accessor} {u : Term} (split : calls = outer ++ inner)
      (folds : Accessor.Folds inner u) :
      (row.reading e).outcome (probe.on (Expr.applied calls (.var key))) =
        (row.reading e).outcome (probe.on (Expr.applied outer (.const u))) := by
    refine Reading.outcome_on_congr ?_ (Reading.outcome_applied counts calls)
      (Reading.outcome_applied rfl outer) probe
    rw [split, Expr.applied_append]
    exact Reading.meaning_applied_congr (meaning_folds held folds) outer
  constructor
  · intro missing outer inner u split folds
    rw [← same split folds, missing]
  · intro constants
    obtain ⟨outer, inner, u, split, folds⟩ | void | ⟨x, chained, _⟩ :=
      folds_or_void_or_tells encodes held calls
    · rw [same split folds]
      exact constants outer inner u split folds
    · exact Reading.outcome_void void (Reading.outcome_applied counts calls) probe alone
    · rw [fails] at chained
      cases chained

end Row

/-- A test of calls of a variable, on a row where one of the calls is an error: neither the test nor
its negation holds over a view that presents the row, with the hints of the row, exactly if wherever
the calls ask for the language or the datatype of a computed string, the rest of the calls gives the
test no value for that constant. Hash inputs of the row that collide may spoil this. -/
theorem failed_calls_fail_tests (s : Surroundings) (probe : Probe) (calls : List Accessor)
    (key : String) (before after : List Hint) (c : Condition)
    (compiled : s.condition (probe.on (Expr.applied calls (.var key))) before = .ok (c, after))
    (v : View) (row : Row) (all : List Hint) (continues : after <+: all)
    (presents : v.Presents s row all) (encodes : row.Encodes s.encoder) (t : Term)
    (held : row.get? key = some t) (fails : t.chain? calls = none)
    (alone : probe.Alone (row.reading s.encoder)) :
    ((v.holds s.encoder.hasher c.holds ≠ .ok true ∧
        v.holds s.encoder.hasher c.negated.holds ≠ .ok true) ↔
      ∀ outer inner u, calls = outer ++ inner → Accessor.Folds inner u →
        (row.reading s.encoder).outcome (probe.on (Expr.applied outer (.const u))) = none) ∨
    row.Collides s.encoder := by
  by_cases collides : row.Collides s.encoder
  · exact Or.inr collides
  refine Or.inl ?_
  have negation := Surroundings.condition_not compiled
  rw [← Row.outcome_failed encodes held fails probe alone, ne_eq, ne_eq,
    presents.holds_iff continues compiled encodes collides,
    presents.holds_iff continues negation encodes collides, Reading.outcome]
  cases (row.reading s.encoder).outcome (probe.on (Expr.applied calls (.var key))) with
  | none => simp
  | some value => cases value <;> simp

/-! ## The language of the text of a blank node -/

def blankRow : Row := KeyMap.ofList [("s", .blank "b")]

theorem blank_encodes : blankRow.Encodes sampleConfig.encoder :=
  Row.encodes_single "s" rfl

def emptyProbe : Probe := .equalLeft (.const (.simple ""))

theorem failed_calls_fail_tests_sample : ∃ c v,
    (blankRow.surroundings sampleConfig.encoder).condition
      (emptyProbe.on (Expr.applied [.lang, .str] (.var "s"))) [] = .ok (c, Hint.parts "s") ∧
    View.Presents v (blankRow.surroundings sampleConfig.encoder) blankRow (Hint.parts "s") ∧
    blankRow.Encodes sampleConfig.encoder ∧ blankRow.get? "s" = some (.blank "b") ∧
    (Term.blank "b").chain? [.lang, .str] = none ∧
    emptyProbe.Alone (blankRow.reading sampleConfig.encoder) ∧
    (((v.holds sampleConfig.hasher c.holds ≠ .ok true ∧
          v.holds sampleConfig.hasher c.negated.holds ≠ .ok true) ↔
        ∀ outer inner u, [Accessor.lang, .str] = outer ++ inner → Accessor.Folds inner u →
          (blankRow.reading sampleConfig.encoder).outcome
            (emptyProbe.on (Expr.applied outer (.const u))) = none) ∨
      blankRow.Collides sampleConfig.encoder) := by
  have presents := blankRow.presents sampleConfig.encoder (Hint.parts "s")
  exact ⟨_, _, rfl, presents, blank_encodes, rfl, rfl, trivial,
    failed_calls_fail_tests (blankRow.surroundings sampleConfig.encoder) emptyProbe [.lang, .str] "s"
      [] (Hint.parts "s") _ rfl _ blankRow _ List.prefix_rfl presents blank_encodes _ rfl rfl trivial⟩

/-- The text of a blank node is an error, and so is its language; but the row satisfies the test that
the language is empty. -/
theorem failed_language_satisfied : (Term.blank "b").chain? [.lang, .str] = none ∧
    blankRow.satisfies sampleConfig.encoder
      (emptyProbe.on (Expr.applied [.lang, .str] (.var "s"))) = true :=
  ⟨rfl, rfl⟩

end AttestedQuery
