import AttestedQuery.Proofs.AlikeConditions

/-!
# Two runs of the compiler

An expression is compiled twice, in surroundings that bind the same keys and with hints listed
before that need not be the same. Where the first run succeeds the second does, with a value of the
same origin; and over views that give keys and hints the same values, the two values are alike.
-/

set_option autoImplicit false

namespace AttestedQuery

/-! ## Two runs of the compiler -/

structure Surroundings.Twins (s t : Surroundings) : Prop where
  encoder : t.encoder = s.encoder
  keys : ∀ key, (t.keyWire? key).isSome = (s.keyWire? key).isSome

/-- Two views give the wires of each key one value, and so the hints of both lists that are about
bound keys. -/
structure Surroundings.Agree (s t : Surroundings) (all others : List Hint) (v u : View) : Prop where
  keys : ∀ key a b, s.keyWire? key = some a → t.keyWire? key = some b →
    Wire.Alike s.encoder.hasher v u a b
  hints : ∀ hint ∈ all, hint ∈ others → (∀ key ∈ hint.keys, (s.keyWire? key).isSome) →
    Wire.Alike s.encoder.hasher v u (hint.wire all) (hint.wire others)

namespace Compiling

variable {s t : Surroundings} {α β : Type}

/-- Where one computation succeeds the other does, with a result of the same shape; and whatever
follows, the results are alike over views that agree. -/
def Matches (s t : Surroundings) (x y : Compiling α) (shape : α → α → Prop)
    (alike : View → View → α → α → Prop) : Prop :=
  ∀ before start a after, x before = .ok (a, after) →
    ∃ b final, y start = .ok (b, final) ∧ before <+: after ∧ start <+: final ∧ shape a b ∧
      ∀ all others v u, after <+: all → final <+: others → s.Agree t all others v u → alike v u a b

def anyShape (_ _ : α) : Prop := True

theorem matches_pure {a b : α} {shape : α → α → Prop} {alike : View → View → α → α → Prop}
    (shaped : shape a b) (same : ∀ v u, alike v u a b) :
    Matches s t (pure a) (pure b) shape alike := by
  intro before start result after succeeded
  obtain ⟨rfl, rfl⟩ := run_pure_ok_iff.1 succeeded
  exact ⟨b, start, rfl, List.prefix_rfl, List.prefix_rfl, shaped, fun _ _ v u _ _ _ => same v u⟩

theorem matches_bind {x y : Compiling β} {f g : β → Compiling α} {middle : β → β → Prop}
    {between : View → View → β → β → Prop} {shape : α → α → Prop}
    {alike : View → View → α → α → Prop} (first : Matches s t x y middle between)
    (second : ∀ a b, middle a b → Matches s t (f a) (g b) shape
      fun v u c d => between v u a b → alike v u c d) :
    Matches s t (x >>= f) (y >>= g) shape alike := by
  intro before start c after succeeded
  obtain ⟨a, part, ran, continued⟩ := run_bind_ok_iff.1 succeeded
  obtain ⟨b, other, ran', grows, grows', shaped, same⟩ := first before start a part ran
  obtain ⟨d, final, continued', grown, grown', whole, leads⟩ :=
    second a b shaped part other c after continued
  refine ⟨d, final, run_bind_ok_iff.2 ⟨b, other, ran', continued'⟩, grows.trans grown,
    grows'.trans grown', whole, fun all others v u continues continues' agree => ?_⟩
  exact leads all others v u continues continues' agree
    (same all others v u (grown.trans continues) (grown'.trans continues') agree)

theorem Matches.imp {x y : Compiling α} {shape : α → α → Prop}
    {alike weaker : View → View → α → α → Prop} (matching : Matches s t x y shape alike)
    (weakens : ∀ v u a b, alike v u a b → weaker v u a b) : Matches s t x y shape weaker := by
  intro before start a after succeeded
  obtain ⟨b, final, ran, grows, grows', shaped, same⟩ := matching before start a after succeeded
  exact ⟨b, final, ran, grows, grows', shaped, fun all others v u continues continues' agree =>
    weakens v u a b (same all others v u continues continues' agree)⟩

theorem matches_lifted (x : Result α) :
    Matches s t (liftM x) (liftM x) Eq fun _ _ _ _ => True := by
  intro before start a after succeeded
  obtain ⟨found, rfl⟩ := run_lift_ok_iff.1 succeeded
  exact ⟨a, start, run_lift_ok_iff.2 ⟨found, rfl⟩, List.prefix_rfl, List.prefix_rfl, rfl,
    fun _ _ _ _ _ _ _ => trivial⟩

theorem matches_refuse {construct : Construct} {y : Compiling α} {shape : α → α → Prop}
    {alike : View → View → α → α → Prop} : Matches s t (refuse construct) y shape alike := by
  intro before start a after succeeded
  cases succeeded

theorem hint_ok (h : Hint) (before : List Hint) :
    ∃ wire after, hint h before = .ok (wire, after) := by
  by_cases listed : before.contains h = true
  · refine ⟨.hint (before.idxOf h), before, run_bind_ok_iff.2 ⟨before, before, rfl, ?_⟩⟩
    rw [if_pos listed]
    rfl
  · refine ⟨.hint before.length, before ++ [h], run_bind_ok_iff.2 ⟨before, before, rfl, ?_⟩⟩
    rw [if_neg listed]
    rfl

theorem matches_hint {h : Hint} (bound : ∀ key ∈ h.keys, (s.keyWire? key).isSome) :
    Matches s t (hint h) (hint h) anyShape (Wire.Alike s.encoder.hasher) := by
  intro before start wire after succeeded
  obtain ⟨other, final, ran⟩ := hint_ok h start
  obtain ⟨grows, known⟩ := yields_hint h before wire after succeeded
  obtain ⟨grows', known'⟩ := yields_hint h start other final ran
  refine ⟨other, final, ran, grows, grows', trivial,
    fun all others v u continues continues' agree => ?_⟩
  obtain ⟨listed, rfl⟩ := known all continues
  obtain ⟨listed', rfl⟩ := known' others continues'
  exact agree.hints h listed listed' bound

theorem matches_literalParts {key : String} (bound : (s.keyWire? key).isSome) (a b : Wire) :
    Matches s t (literalParts key a) (literalParts key b) anyShape fun v u p q =>
      Wire.Alike s.encoder.hasher v u a b → Parts.Alike s.encoder.hasher v u p q := by
  have about : ∀ other ∈ (Operand.key key).keys, (s.keyWire? other).isSome := by
    simpa [Operand.keys] using bound
  refine matches_bind (matches_hint about) fun _ _ _ => ?_
  refine matches_bind (matches_hint about) fun _ _ _ => ?_
  refine matches_bind (matches_hint about) fun _ _ _ => ?_
  refine matches_bind (matches_hint about) fun _ _ _ => ?_
  refine matches_pure trivial fun v u datatype lang special lexical here => ?_
  exact ⟨lexical, special, lang, datatype,
    Assertion.alike_eq here (.tagged .literal (lexical.hash4 special lang datatype))⟩

end Compiling

/-! ## Values -/

namespace Surroundings

open Compiling

variable {s t : Surroundings}

theorem alike_simpleWire {v u : View} {a b : Wire} (e : Surroundings)
    (same : Wire.Alike e.encoder.hasher v u a b) :
    Wire.Alike e.encoder.hasher v u (e.simpleWire a) (e.simpleWire b) :=
  Wire.Alike.tagged .literal
    (Wire.Alike.hash4 same same (Wire.alike_const _) (Wire.alike_const _))

theorem alike_datatypeIn {v u : View} {p q : Parts} (names : List String)
    (same : p.Alike s.encoder.hasher v u q) :
    Assertion.Alike s.encoder.hasher v u (s.datatypeIn p names) (s.datatypeIn q names) := by
  refine Assertion.AllAlike.any ?_
  induction names with
  | nil => exact .nil
  | cons name rest induction =>
    exact .cons (Assertion.alike_eq same.datatype (Wire.alike_const _)) induction

def Maps (s t : Surroundings) (g k : Guarded) (x y : Compiling Guarded) : Prop :=
  Matches s t x y (fun g k => g.value.Twins s k.value) fun v u result other =>
    g.Alike s.encoder.hasher v u k → result.Alike s.encoder.hasher v u other

def Judges (s t : Surroundings) (g k : Guarded) (x y : Compiling Condition) : Prop :=
  Matches s t x y anyShape fun v u c d =>
    g.Alike s.encoder.hasher v u k → c.Alike s.encoder.hasher v u d

theorem matches_constant (x : Term) : Matches s t (s.constant x) (s.constant x)
    (fun g k => g.value.Twins s k.value) (Guarded.Alike s.encoder.hasher) := by
  refine matches_bind (matches_lifted _) fun a b same => ?_
  subst same
  exact matches_pure (.term _ _ _ (by simp)) fun v u _ => ⟨.nil, Wire.alike_const a⟩

theorem maps_constant {g k : Guarded} (x : Term) : Maps s t g k (s.constant x) (s.constant x) :=
  (matches_constant x).imp fun _ _ _ _ alike _ => alike

theorem maps_error {g k : Guarded} : Maps s t g k (pure .error) (pure .error) :=
  matches_pure .error fun _ _ _ => ⟨.nil, trivial⟩

section Term

variable {a b : Wire} {guards others : List Assertion}

theorem maps_parts {key : String} (bound : (s.keyWire? key).isSome) {origin : Origin}
    (computed : ∀ key, origin ≠ .key key) {guard guard' : Parts → Assertion}
    {wire wire' : Parts → Wire}
    (alike : ∀ v u p q, Wire.Alike s.encoder.hasher v u a b → p.Alike s.encoder.hasher v u q →
      (guard p).Alike s.encoder.hasher v u (guard' q) ∧
        (wire p).Alike s.encoder.hasher v u (wire' q)) :
    Maps s t ⟨guards, .term a (.key key)⟩ ⟨others, .term b (.key key)⟩
      (do let p ← literalParts key a
          return ⟨guards ++ [guard p], .term (wire p) origin⟩)
      (do let q ← literalParts key b
          return ⟨others ++ [guard' q], .term (wire' q) origin⟩) := by
  refine matches_bind (matches_literalParts bound a b) fun p q _ => ?_
  refine matches_pure (.term _ _ _ fun key same => absurd same (computed key)) ?_
  rintro v u parts ⟨each, here⟩
  obtain ⟨guarded, value⟩ := alike v u p q here (parts here)
  exact ⟨List.rel_append each (.cons guarded .nil), value⟩

theorem maps_strOf (origin : Origin)
    (bound : ∀ key, origin = .key key → (s.keyWire? key).isSome) :
    Maps s t ⟨guards, .term a origin⟩ ⟨others, .term b origin⟩ (s.strOf a guards origin)
      (s.strOf b others origin) := by
  cases origin with
  | const x =>
    simp only [strOf]
    split
    · exact maps_constant _
    · exact maps_error
  | key key =>
    refine maps_parts (bound key rfl) (by simp) fun v u p q here same => ?_
    have iri := Assertion.alike_eq here (Wire.Alike.tagged .iri same.lexical)
    exact ⟨(Assertion.allAlike_pair iri same.tie).any, alike_simpleWire s same.lexical⟩
  | str | lang =>
    exact matches_pure (.term _ _ _ (by simp)) fun v u alike => alike
  | datatype => exact matches_refuse

theorem maps_langOf (origin : Origin)
    (bound : ∀ key, origin = .key key → (s.keyWire? key).isSome) :
    Maps s t ⟨guards, .term a origin⟩ ⟨others, .term b origin⟩ (s.langOf a guards origin)
      (s.langOf b others origin) := by
  cases origin with
  | const x =>
    cases x with
    | literal value lang datatype => exact maps_constant _
    | _ => exact maps_error
  | key key =>
    exact maps_parts (bound key rfl) (by simp) fun v u p q _ same =>
      ⟨same.tie, alike_simpleWire s same.lang⟩
  | str | lang => exact maps_constant _
  | datatype => exact maps_error

theorem maps_datatypeOf (origin : Origin)
    (bound : ∀ key, origin = .key key → (s.keyWire? key).isSome) :
    Maps s t ⟨guards, .term a origin⟩ ⟨others, .term b origin⟩ (s.datatypeOf a guards origin)
      (s.datatypeOf b others origin) := by
  cases origin with
  | const x =>
    cases x with
    | literal value lang datatype => exact maps_constant _
    | _ => exact maps_error
  | key key =>
    exact maps_parts (bound key rfl) (by simp) fun v u p q _ same => ⟨same.tie, same.datatype⟩
  | str | lang => exact maps_constant _
  | datatype => exact maps_error

theorem maps_lengthOf (origin : Origin)
    (bound : ∀ key, origin = .key key → (s.keyWire? key).isSome) :
    Maps s t ⟨guards, .term a origin⟩ ⟨others, .term b origin⟩ (lengthOf a guards origin)
      (lengthOf b others origin) := by
  cases origin with
  | const x =>
    cases x with
    | literal value lang datatype =>
      exact matches_pure (.number _ _) fun v u _ => ⟨.nil, Wire.alike_const _⟩
    | _ => exact maps_error
  | key key =>
    refine matches_bind (matches_literalParts (bound key rfl) a b) fun p q _ => ?_
    refine matches_bind (matches_hint (h := .strLen (.key key)) ?_) fun _ _ _ => ?_
    · simpa [Hint.keys, Operand.keys] using bound key rfl
    · refine matches_pure (.number _ _) ?_
      rintro v u length parts ⟨each, here⟩
      exact ⟨List.rel_append each (.cons (parts here).tie .nil), length⟩
  | str | lang => exact matches_refuse
  | datatype => exact maps_error

end Term

theorem maps_callOf (builtin : Builtin) {g k : Guarded} (twins : g.value.Twins s k.value) :
    Maps s t g k (s.callOf builtin g) (s.callOf builtin k) := by
  obtain ⟨guards, value⟩ := g
  obtain ⟨others, other⟩ := k
  cases twins with
  | error => exact maps_error
  | number a b => exact matches_refuse
  | term a b origin bound =>
    cases builtin with
    | str => exact maps_strOf origin bound
    | lang => exact maps_langOf origin bound
    | datatype => exact maps_datatypeOf origin bound
    | strLen => exact maps_lengthOf origin bound
    | isIri | isBlank | isLiteral | isNumeric => exact matches_refuse

end Surroundings

end AttestedQuery
