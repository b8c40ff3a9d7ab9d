import AttestedQuery.Proofs.Representation

/-!
# Compiled values hold what expressions denote

The wire of a compiled value holds, where its guards are met, the encoding or the number that the
expression denotes over any reading that the view represents.
-/

set_option autoImplicit false

namespace AttestedQuery

namespace View

variable {h : Hasher} {v : View}

def under (h : Hasher) (v : View) (guards : List Assertion) (w : Wire) : Option Field :=
  if guards.all (v.truth h) then (v.field h w).toOption else none

theorem under_ok {guards : List Assertion} {w : Wire} {x : Field} (read : v.field h w = .ok x) :
    v.under h guards w = if guards.all (v.truth h) then some x else none := by
  rw [under, read]
  rfl

theorem bind_under {α : Type} {guards : List Assertion} {w : Wire} {x : Field}
    (read : v.field h w = .ok x) (f : Field → Option α) :
    (v.under h guards w).bind f = if guards.all (v.truth h) then f x else none := by
  rw [under_ok read]
  cases guards.all (v.truth h) <;> rfl

theorem under_nil {w : Wire} {x : Field} (read : v.field h w = .ok x) :
    v.under h [] w = some x := by
  rw [under_ok read]
  rfl

theorem field_hash2 {a b : Wire} {x y : Field} (first : v.field h a = .ok x)
    (second : v.field h b = .ok y) : v.field h (.hash2 a b) = .ok (h.pair x y) := by
  simp [field, first, second, bind, Except.bind, pure, Except.pure]

theorem field_hash4 {a b c d : Wire} {x y z w : Field} (first : v.field h a = .ok x)
    (second : v.field h b = .ok y) (third : v.field h c = .ok z) (fourth : v.field h d = .ok w) :
    v.field h (.hash4 a b c d) = .ok (h.quadruple x y z w) := by
  simp [field, first, second, third, fourth, bind, Except.bind, pure, Except.pure]

theorem holds_eq {a b : Wire} {x y : Field} (left : v.field h a = .ok x)
    (right : v.field h b = .ok y) : v.holds h (.eq a b) = .ok (x == y) := by
  simp [holds, left, right, bind, Except.bind, pure, Except.pure]

theorem truth_eq {a b : Wire} {x y : Field} (left : v.field h a = .ok x)
    (right : v.field h b = .ok y) : v.truth h (.eq a b) = (x == y) :=
  truth_of_holds (holds_eq left right)

theorem decides_eq {a b : Wire} {x y : Field} (left : v.field h a = .ok x)
    (right : v.field h b = .ok y) : v.Decides h (.eq a b) :=
  decides_of_holds (holds_eq left right)

end View

def Guarded.meaning (h : Hasher) (v : View) (g : Guarded) : Meaning :=
  match g.value with
  | .error => .error
  | .term wire origin => .term (v.under h g.guards wire) origin
  | .number wire => .number (v.under h g.guards wire)

structure Guarded.Grounded (s : Surroundings) (all : List Hint) (g : Guarded) : Prop where
  guards : ∀ a ∈ g.guards, a.Reads (s.Known all)
  term : ∀ wire origin, g.value = .term wire origin → ∀ leaf ∈ wire.leaves, s.Known all leaf
  number : ∀ wire, g.value = .number wire → ∀ leaf ∈ wire.leaves, s.Known all leaf
  key : ∀ wire key, g.value = .term wire (.key key) → s.keyWire? key = some wire

/-- A compiled value reads known leaves and holds what is denoted. -/
structure Guarded.Denotes (s : Surroundings) (all : List Hint) (g : Guarded)
    (denoted : Reading → Meaning) : Prop where
  grounded : g.Grounded s all
  holds : ∀ v r, View.Represents v s all r → g.meaning s.encoder.hasher v = denoted r

section Values

variable {s : Surroundings} {all : List Hint} {g : Guarded} {denoted : Reading → Meaning}

theorem Guarded.denotes_error (never : ∀ v r, View.Represents v s all r → denoted r = .error) :
    Guarded.error.Denotes s all denoted where
  grounded := ⟨by simp [Guarded.error], by simp [Guarded.error], by simp [Guarded.error],
    by simp [Guarded.error]⟩
  holds v r represents := (never v r represents).symm

theorem Guarded.grounded_term {guards : List Assertion} {wire : Wire} {origin : Origin}
    (reads : ∀ a ∈ guards, a.Reads (s.Known all)) (known : ∀ leaf ∈ wire.leaves, s.Known all leaf)
    (noKey : ∀ key, origin ≠ .key key) : Guarded.Grounded s all ⟨guards, .term wire origin⟩ where
  guards := reads
  term := by
    rintro _ _ ⟨⟩
    exact known
  number := by simp
  key := by
    rintro _ key ⟨⟩
    exact absurd rfl (noKey key)

theorem Guarded.Grounded.field_term (grounded : g.Grounded s all) {wire : Wire} {origin : Origin}
    (shape : g.value = .term wire origin) {v : View} {r : Reading}
    (represents : v.Represents s all r) : ∃ x, v.field s.encoder.hasher wire = .ok x :=
  represents.wire (grounded.term wire origin shape)

theorem Guarded.Grounded.field_number (grounded : g.Grounded s all) {wire : Wire}
    (shape : g.value = .number wire) {v : View} {r : Reading}
    (represents : v.Represents s all r) : ∃ x, v.field s.encoder.hasher wire = .ok x :=
  represents.wire (grounded.number wire shape)

theorem Guarded.meaning_term {h : Hasher} {v : View} {wire : Wire} {origin : Origin}
    (shape : g.value = .term wire origin) :
    g.meaning h v = .term (v.under h g.guards wire) origin := by
  rw [Guarded.meaning, shape]

theorem Guarded.meaning_number {h : Hasher} {v : View} {wire : Wire}
    (shape : g.value = .number wire) : g.meaning h v = .number (v.under h g.guards wire) := by
  rw [Guarded.meaning, shape]

/-- A value that is read beside one more guard, which is met where something is known of the row. -/
theorem View.under_append {h : Hasher} {v : View} {α : Type} {guards : List Assertion}
    {extra : Assertion} {wire w : Wire} {code : Field} {known : Option α} {value : α → Field}
    (read : v.field h wire = .ok code) (met : v.truth h extra = known.isSome)
    (holds : ∀ a, known = some a → v.field h w = .ok (value a)) :
    v.under h (guards ++ [extra]) w =
      (v.under h guards wire).bind fun _ => known.map value := by
  rw [View.under, View.under_ok read, List.all_append, List.all_cons, List.all_nil, Bool.and_true,
    met]
  cases guards.all (v.truth h) with
  | false => rfl
  | true =>
    cases found : known with
    | none => rfl
    | some a =>
      rw [holds a found]
      rfl

/-! ## Calls -/

open Compiling

theorem Surroundings.yields_constant (t : Term) :
    Yields (s.constant t) fun all g => g.Denotes s all (·.constant t) := by
  apply yields_bind (yields_lifted (s.encoder.encode t))
  intro code
  apply yields_pure
  intro all encoded
  refine ⟨Guarded.grounded_term (by simp) (s.known_const code) (by simp), ?_⟩
  intro v r represents
  have read : v.field s.encoder.hasher (.const code) = .ok code := rfl
  rw [Guarded.meaning_term rfl, Reading.constant, represents.encoder, encoded]
  exact congrArg (Meaning.term · (.const t)) (View.under_nil read)

theorem Surroundings.known_simpleWire {lexical : Wire}
    (known : ∀ leaf ∈ lexical.leaves, s.Known all leaf) :
    ∀ leaf ∈ (s.simpleWire lexical).leaves, s.Known all leaf := by
  apply s.known_tagged
  simp only [Wire.leaves, List.forall_mem_append]
  exact ⟨⟨⟨known, known⟩, s.known_const _⟩, s.known_const _⟩

theorem Surroundings.field_simpleWire {v : View} {r : Reading} (represents : v.Represents s all r)
    {lexical : Wire} {x : Field} (read : v.field s.encoder.hasher lexical = .ok x) :
    v.field s.encoder.hasher (s.simpleWire lexical) = .ok (r.simpleCode x) := by
  rw [Reading.simpleCode, represents.encoder]
  exact View.field_hash2 rfl (View.field_hash4 read read rfl rfl)

theorem Guarded.Denotes.congr {other : Reading → Meaning} (denotes : g.Denotes s all denoted)
    (same : ∀ v r, View.Represents v s all r → denoted r = other r) : g.Denotes s all other where
  grounded := denotes.grounded
  holds v r represents := (denotes.holds v r represents).trans (same v r represents)

theorem Guarded.Denotes.of_term {wire : Wire} {guards : List Assertion} {origin : Origin}
    (denotes : Guarded.Denotes s all ⟨guards, .term wire origin⟩ denoted) {v : View} {r : Reading}
    (represents : v.Represents s all r) :
    denoted r = .term (v.under s.encoder.hasher guards wire) origin :=
  (denotes.holds v r represents).symm

theorem Guarded.Denotes.constant {wire : Wire} {guards : List Assertion} {origin : Origin}
    {builtin : Builtin} {t : Term}
    (denotes : Guarded.Denotes s all ⟨guards, .term wire origin⟩ denoted)
    (finds : ∀ (r : Reading) code, r.callOf builtin (.term code origin) = r.constant t)
    (constant : g.Denotes s all (·.constant t)) :
    g.Denotes s all fun r => r.callOf builtin (denoted r) :=
  constant.congr fun v r represents => by rw [denotes.of_term represents, finds]

theorem Guarded.Denotes.nothing {wire : Wire} {guards : List Assertion} {origin : Origin}
    {builtin : Builtin} (denotes : Guarded.Denotes s all ⟨guards, .term wire origin⟩ denoted)
    (fails : ∀ (r : Reading) code, r.callOf builtin (.term code origin) = .error) :
    Guarded.error.Denotes s all fun r => r.callOf builtin (denoted r) :=
  Guarded.denotes_error fun v r represents => by rw [denotes.of_term represents, fails]

/-- A term computed from what is known of a key, below one more guard. -/
theorem Guarded.Denotes.computed {α : Type} {guards : List Assertion} {wire w : Wire} {key : String}
    {origin : Origin} {builtin : Builtin} {extra : Assertion} {known : Reading → Option α}
    {value : Reading → α → Field}
    (argument : Guarded.Denotes s all ⟨guards, .term wire (.key key)⟩ denoted)
    (noKey : ∀ key, origin ≠ .key key) (reads : extra.Reads (s.Known all))
    (leaves : ∀ leaf ∈ w.leaves, s.Known all leaf)
    (met : ∀ v r, View.Represents v s all r → v.truth s.encoder.hasher extra = (known r).isSome)
    (holds : ∀ v r, View.Represents v s all r → ∀ a, known r = some a →
      v.field s.encoder.hasher w = .ok (value r a))
    (same : ∀ (r : Reading) code, r.callOf builtin (.term code (.key key)) =
      .term (code.bind fun _ => (known r).map (value r)) origin) :
    Guarded.Denotes s all ⟨guards ++ [extra], .term w origin⟩
      fun r => r.callOf builtin (denoted r) where
  grounded := by
    refine Guarded.grounded_term ?_ leaves noKey
    rw [List.forall_mem_append, List.forall_mem_singleton]
    exact ⟨argument.grounded.guards, reads⟩
  holds v r represents := by
    obtain ⟨_, code, _, _, read⟩ := represents.bound key wire (argument.grounded.key wire key rfl)
    rw [argument.of_term represents, Guarded.meaning_term rfl, same]
    exact congrArg (Meaning.term · origin)
      (View.under_append read (met v r represents) (holds v r represents))

theorem Surroundings.yields_strOf (wire : Wire) (guards : List Assertion) (origin : Origin) :
    Yields (s.strOf wire guards origin) fun all g => ∀ denoted,
      Guarded.Denotes s all ⟨guards, .term wire origin⟩ denoted →
        g.Denotes s all fun r => r.callOf .str (denoted r) := by
  cases origin with
  | const t =>
    cases lexical : t.lexical? with
    | none =>
      simp only [strOf, lexical]
      apply yields_pure
      intro all denoted argument
      exact argument.nothing fun r code => by simp [Reading.callOf, Reading.strOf, lexical]
    | some text =>
      simp only [strOf, lexical]
      apply (s.yields_constant (.simple text)).imp
      intro all g constant denoted argument
      exact argument.constant (fun r code => by simp [Reading.callOf, Reading.strOf, lexical])
        constant
  | key key =>
    apply yields_bind (yields_literalParts key wire)
    intro parts
    apply yields_pure
    rintro all ⟨rfl, listed⟩ denoted argument
    have found := argument.grounded.key wire key rfl
    have grounded := Parts.ofKey_grounded found listed
    have iri := Assertion.reads_eq (s.known_key found) (s.known_tagged .iri grounded.lexical)
    have either : ∀ a ∈ [Assertion.eq wire (taggedWire .iri (Parts.ofKey all key wire).lexical),
        (Parts.ofKey all key wire).tie], a.Reads (s.Known all) := by
      rw [List.forall_mem_cons, List.forall_mem_singleton]
      exact ⟨iri, grounded.tie⟩
    exact argument.computed (by simp) (Assertion.reads_any either)
      (s.known_simpleWire grounded.lexical)
      (fun v r represents => represents.text key wire found listed)
      (fun v r represents x hash => s.field_simpleWire represents
        (represents.textHash key wire found listed x hash)) fun _ _ => rfl
  | str =>
    apply yields_pure
    intro all denoted argument
    exact argument.congr fun v r represents => by rw [argument.of_term represents]; rfl
  | lang =>
    apply yields_pure
    intro all denoted argument
    exact argument.congr fun v r represents => by rw [argument.of_term represents]; rfl
  | datatype => exact yields_refuse _

theorem Surroundings.yields_langOf (wire : Wire) (guards : List Assertion) (origin : Origin) :
    Yields (s.langOf wire guards origin) fun all g => ∀ denoted,
      Guarded.Denotes s all ⟨guards, .term wire origin⟩ denoted →
        g.Denotes s all fun r => r.callOf .lang (denoted r) := by
  cases origin with
  | const t =>
    cases t with
    | literal value lang datatype =>
      apply (s.yields_constant (.simple (lang.getD ""))).imp
      intro all g constant denoted argument
      exact argument.constant (fun r code => rfl) constant
    | iri _ | blank _ | defaultGraph | _ =>
      apply yields_pure
      intro all denoted argument
      exact argument.nothing fun r code => rfl
  | key key =>
    apply yields_bind (yields_literalParts key wire)
    intro parts
    apply yields_pure
    rintro all ⟨rfl, listed⟩ denoted argument
    have found := argument.grounded.key wire key rfl
    have grounded := Parts.ofKey_grounded found listed
    exact argument.computed (by simp) grounded.tie (s.known_simpleWire grounded.lang)
      (fun v r represents => represents.tie key wire found listed)
      (fun v r represents parts known => s.field_simpleWire represents
        (represents.parts key wire found listed parts known).2.2.1) fun _ _ => rfl
  | str | lang =>
    apply (s.yields_constant (.simple "")).imp
    intro all g constant denoted argument
    exact argument.constant (fun r code => rfl) constant
  | datatype =>
    apply yields_pure
    intro all denoted argument
    exact argument.nothing fun r code => rfl

theorem Surroundings.yields_datatypeOf (wire : Wire) (guards : List Assertion) (origin : Origin) :
    Yields (s.datatypeOf wire guards origin) fun all g => ∀ denoted,
      Guarded.Denotes s all ⟨guards, .term wire origin⟩ denoted →
        g.Denotes s all fun r => r.callOf .datatype (denoted r) := by
  cases origin with
  | const t =>
    cases t with
    | literal value lang datatype =>
      apply (s.yields_constant (.iri datatype)).imp
      intro all g constant denoted argument
      exact argument.constant (fun r code => rfl) constant
    | iri _ | blank _ | defaultGraph | _ =>
      apply yields_pure
      intro all denoted argument
      exact argument.nothing fun r code => rfl
  | key key =>
    apply yields_bind (yields_literalParts key wire)
    intro parts
    apply yields_pure
    rintro all ⟨rfl, listed⟩ denoted argument
    have found := argument.grounded.key wire key rfl
    have grounded := Parts.ofKey_grounded found listed
    exact argument.computed (by simp) grounded.tie grounded.datatype
      (fun v r represents => represents.tie key wire found listed)
      (fun v r represents parts known =>
        (represents.parts key wire found listed parts known).2.2.2) fun _ _ => rfl
  | str | lang =>
    apply (s.yields_constant (.iri xsdString)).imp
    intro all g constant denoted argument
    exact argument.constant (fun r code => rfl) constant
  | datatype =>
    apply yields_pure
    intro all denoted argument
    exact argument.nothing fun r code => rfl

theorem Surroundings.yields_lengthOf (wire : Wire) (guards : List Assertion) (origin : Origin) :
    Yields (lengthOf wire guards origin) fun all g => ∀ denoted,
      Guarded.Denotes s all ⟨guards, .term wire origin⟩ denoted →
        g.Denotes s all fun r => r.callOf .strLen (denoted r) := by
  cases origin with
  | const t =>
    cases t with
    | literal value lang datatype =>
      apply yields_pure
      intro all denoted argument
      refine ⟨⟨by simp, by simp, ?_, by simp⟩, ?_⟩
      · rintro _ ⟨⟩
        exact s.known_const _
      · intro v r represents
        rw [argument.of_term represents, Guarded.meaning_number rfl]
        exact congrArg Meaning.number (View.under_nil rfl)
    | iri _ | blank _ | defaultGraph | _ =>
      apply yields_pure
      intro all denoted argument
      exact argument.nothing fun r code => rfl
  | key key =>
    apply yields_bind (yields_literalParts key wire)
    intro parts
    apply yields_bind (yields_hint (.strLen (.key key)))
    intro length
    apply yields_pure
    rintro all ⟨member, rfl⟩ ⟨rfl, listed⟩ denoted argument
    have found := argument.grounded.key wire key rfl
    have grounded := Parts.ofKey_grounded found listed
    refine ⟨⟨?_, by simp, ?_, by simp⟩, ?_⟩
    · rw [List.forall_mem_append, List.forall_mem_singleton]
      exact ⟨argument.grounded.guards, grounded.tie⟩
    · rintro _ ⟨⟩
      exact s.known_hint found member rfl
    · intro v r represents
      obtain ⟨_, code, _, _, read⟩ := represents.bound key wire found
      rw [argument.of_term represents, Guarded.meaning_number rfl]
      refine congrArg Meaning.number ?_
      apply View.under_append read (represents.tie key wire found listed)
      intro parts known
      exact represents.trusted _ member rfl
  | str | lang => exact yields_refuse _
  | datatype =>
    apply yields_pure
    intro all denoted argument
    exact argument.nothing fun r code => rfl

theorem Surroundings.yields_callOf (builtin : Builtin) (argument : Guarded) :
    Yields (s.callOf builtin argument) fun all g => ∀ denoted, argument.Denotes s all denoted →
      g.Denotes s all fun r => r.callOf builtin (denoted r) := by
  obtain ⟨guards, value⟩ := argument
  cases value with
  | error =>
    apply yields_pure
    intro all denoted argument
    apply Guarded.denotes_error
    intro v r represents
    rw [← argument.holds v r represents]
    rfl
  | number wire => exact yields_refuse _
  | term wire origin =>
    cases builtin with
    | str => exact s.yields_strOf wire guards origin
    | lang => exact s.yields_langOf wire guards origin
    | datatype => exact s.yields_datatypeOf wire guards origin
    | strLen => exact yields_lengthOf wire guards origin
    | isIri | isBlank | isLiteral | isNumeric => exact yields_refuse _

theorem Surroundings.yields_value :
    (expression : Expr) → Yields (s.value expression) fun all g =>
      g.Denotes s all (·.meaning expression)
  | .const t => s.yields_constant t
  | .var key => by
    apply yields_pure
    intro all
    cases found : s.keyWire? key with
    | none =>
      apply Guarded.denotes_error
      intro v r represents
      rw [Reading.meaning, represents.unbound key found]
    | some wire =>
      refine ⟨⟨by simp [Guarded.ofTerm], ?_, by simp [Guarded.ofTerm], ?_⟩, ?_⟩
      · rintro _ _ ⟨⟩
        exact s.known_key found
      · rintro _ _ ⟨⟩
        exact found
      · intro v r represents
        obtain ⟨t, code, held, encoded, read⟩ := represents.bound key wire found
        rw [Reading.meaning, held, represents.encoder, Guarded.meaning_term rfl]
        dsimp only
        rw [encoded]
        exact congrArg (Meaning.term · (.key key)) (View.under_nil read)
  | .call builtin argument => by
    rw [value]
    apply yields_bind (yields_value argument)
    intro g
    apply (s.yields_callOf builtin g).imp
    intro all result leads denotes
    exact leads _ denotes
  | .equal .. | .sameTerm .. | .compare .. | .isIn .. | .and .. | .or .. | .not _ | .ite .. |
    .bound _ => yields_refuse _

end Values

end AttestedQuery
