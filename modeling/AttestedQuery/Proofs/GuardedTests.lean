import AttestedQuery.Proofs.Connectives

/-!
# Guarded tests

A test of values is compiled to one assertion below the guards of these values. It has a value where
all guards hold, and then the value of the assertion. The tests of one value follow: its truth, its
kind and whether it is numeric.
-/

set_option autoImplicit false

namespace AttestedQuery

open Compiling

theorem Assertion.all_joined {guards first second : List Assertion}
    (joined : ∀ g, g ∈ guards ↔ g ∈ first ∨ g ∈ second) (met : Assertion → Bool) :
    guards.all met = (first.all met && second.all met) := by
  rw [Bool.eq_iff_iff, Bool.and_eq_true, List.all_eq_true, List.all_eq_true, List.all_eq_true]
  constructor
  · intro each
    exact ⟨fun g member => each g ((joined g).2 (Or.inl member)),
      fun g member => each g ((joined g).2 (Or.inr member))⟩
  · rintro ⟨left, right⟩ g member
    exact ((joined g).1 member).elim (left g) (right g)

theorem Assertion.mem_interleaved (first second third fourth : List Assertion) (g : Assertion) :
    g ∈ first ++ second ++ third ++ fourth ↔ g ∈ first ++ third ∨ g ∈ second ++ fourth := by
  simp only [List.mem_append]
  constructor
  · rintro (((one | two) | three) | four)
    · exact Or.inl (Or.inl one)
    · exact Or.inr (Or.inl two)
    · exact Or.inl (Or.inr three)
    · exact Or.inr (Or.inr four)
  · rintro ((one | three) | (two | four))
    · exact Or.inl (Or.inl (Or.inl one))
    · exact Or.inl (Or.inr three)
    · exact Or.inl (Or.inl (Or.inr two))
    · exact Or.inr four

namespace View

variable {h : Hasher} {v : View}

theorem outcome_guardedBy (guards : List Assertion) (a : Assertion) :
    (Surroundings.guardedBy guards a).outcome h v =
      if guards.all (v.truth h) then some (v.truth h a) else none := by
  rw [Condition.outcome, Surroundings.guardedBy, truth_all]

theorem outcome_single {guards : List Assertion} {a : Assertion} {w : Wire} {x : Field}
    {test : Field → Bool} (read : v.field h w = .ok x) (decided : v.truth h a = test x) :
    (Surroundings.guardedBy guards a).outcome h v = (v.under h guards w).map test := by
  rw [outcome_guardedBy, under_ok read, decided]
  cases guards.all (v.truth h) <;> rfl

/-- A test of two values, below the guards of both in any order. -/
theorem outcome_pair {guards first second : List Assertion}
    (joined : ∀ g, g ∈ guards ↔ g ∈ first ∨ g ∈ second) {a : Assertion} {w u : Wire} {x y : Field}
    {test : Field → Field → Bool} (left : v.field h w = .ok x) (right : v.field h u = .ok y)
    (decided : v.truth h a = test x y) :
    (Surroundings.guardedBy guards a).outcome h v =
      (v.under h first w).bind fun x => (v.under h second u).map (test x) := by
  rw [outcome_guardedBy, bind_under left, under_ok right, decided, Assertion.all_joined joined]
  cases first.all (v.truth h) <;> cases second.all (v.truth h) <;> rfl

theorem truth_compare {op : CompareOp} {a b : Wire} {x y : Field} (left : v.field h a = .ok x)
    (right : v.field h b = .ok y) : v.truth h (.compare op a b) = compares op x y := by
  apply truth_of_holds
  simp [holds, left, right, bind, Except.bind, pure, Except.pure]

theorem truth_differs {a b : Wire} {x y : Field} (left : v.field h a = .ok x)
    (right : v.field h b = .ok y) : v.truth h (Assertion.eq a b).negated = !(x == y) := by
  rw [truth_negated (decides_eq left right), truth_eq left right]

end View

section Tests

variable {s : Surroundings} {all : List Hint}

theorem Surroundings.reads_guardedBy {guards : List Assertion} {a : Assertion}
    {meant : Reading → Option Bool} (guarded : ∀ g ∈ guards, g.Reads (s.Known all))
    (reads : a.Reads (s.Known all))
    (holds : ∀ v r, View.Represents v s all r →
      (guardedBy guards a).outcome s.encoder.hasher v = meant r) :
    (guardedBy guards a).Means s all meant :=
  ⟨Assertion.reads_all guarded, reads, holds⟩

section Key

variable {v : View} {r : Reading} {key : String} {wire : Wire}
  (represents : v.Represents s all r) (found : s.keyWire? key = some wire)
  (listed : ∀ h ∈ Hint.parts key, h ∈ all)

include represents found listed

theorem View.Represents.truth_datatypeIn {parts : LiteralParts}
    (known : r.parts? key = some parts) (names : List String) :
    v.truth s.encoder.hasher (s.datatypeIn (Parts.ofKey all key wire) names) =
      r.typed parts names := by
  have read := (represents.parts key wire found listed parts known).2.2.2
  rw [Surroundings.datatypeIn, View.truth_any, Reading.typed, List.any_map, represents.encoder]
  · congr 1
    funext name
    exact View.truth_eq read rfl
  · intro part member
    obtain ⟨name, _, rfl⟩ := List.mem_map.1 member
    exact View.decides_eq read rfl

theorem View.Represents.typed_guards (guards : List Assertion) (names : List String) :
    (guards ++ [(Parts.ofKey all key wire).tie,
        s.datatypeIn (Parts.ofKey all key wire) names]).all (v.truth s.encoder.hasher) =
      (guards.all (v.truth s.encoder.hasher) && (r.parts? key).any (r.typed · names)) := by
  rw [List.all_append, List.all_cons, List.all_cons, List.all_nil, Bool.and_true,
    represents.tie key wire found listed]
  cases known : r.parts? key with
  | none => rfl
  | some parts => simp [represents.truth_datatypeIn found listed known]

theorem View.Represents.bind_typed {α : Type} (guards : List Assertion) (names : List String)
    {part : LiteralParts → α} {given : α}
    (gives : ∀ parts, r.parts? key = some parts → part parts = given) :
    ((v.under s.encoder.hasher guards wire).bind fun _ => (r.parts? key).bind fun parts =>
        if r.typed parts names then some (part parts) else none) =
      if (guards ++ [(Parts.ofKey all key wire).tie,
          s.datatypeIn (Parts.ofKey all key wire) names]).all (v.truth s.encoder.hasher)
        then some given else none := by
  obtain ⟨_, code, _, _, read⟩ := represents.bound key wire found
  rw [View.bind_under read, represents.typed_guards found listed]
  cases guards.all (v.truth s.encoder.hasher) with
  | false => rfl
  | true =>
    cases known : r.parts? key with
    | none => rfl
    | some parts => simp [gives parts known]

theorem View.Represents.outcome_typed (guards : List Assertion) (names : List String)
    {a : Assertion} {test : LiteralParts → Bool}
    (decided : ∀ parts, r.parts? key = some parts →
      v.truth s.encoder.hasher a = test parts) :
    (Surroundings.guardedBy (guards ++ [(Parts.ofKey all key wire).tie,
        s.datatypeIn (Parts.ofKey all key wire) names]) a).outcome s.encoder.hasher v =
      (v.under s.encoder.hasher guards wire).bind fun _ => (r.parts? key).bind fun parts =>
        if r.typed parts names then some (test parts) else none := by
  rw [View.outcome_guardedBy, represents.bind_typed found listed]
  intro parts known
  exact (decided parts known).symm

end Key

theorem Surroundings.reads_typed {key : String} {wire : Wire} {guards : List Assertion}
    (found : s.keyWire? key = some wire) (listed : ∀ h ∈ Hint.parts key, h ∈ all)
    (guarded : ∀ g ∈ guards, g.Reads (s.Known all)) (names : List String) :
    ∀ g ∈ guards ++ [(Parts.ofKey all key wire).tie,
      s.datatypeIn (Parts.ofKey all key wire) names], g.Reads (s.Known all) := by
  have grounded := Parts.ofKey_grounded found listed
  simp only [List.forall_mem_append, List.forall_mem_cons]
  exact ⟨guarded, grounded.tie, s.reads_datatypeIn grounded names, by simp⟩

/-! ## Truth and kinds -/

variable {denoted : Reading → Meaning}

theorem Guarded.Denotes.untested {g : Guarded} (denotes : g.Denotes s all denoted)
    (test : Reading → Meaning → Option Bool)
    (fails : ∀ v r, View.Represents v s all r → test r (g.meaning s.encoder.hasher v) = none) :
    Condition.error.Means s all fun r => test r (denoted r) :=
  Condition.means_error fun v r represents => by
    rw [← denotes.holds v r represents, fails v r represents]

theorem Guarded.Denotes.tests_number {guards : List Assertion} {wire : Wire}
    (argument : Guarded.Denotes s all ⟨guards, .number wire⟩ denoted) {a : Assertion}
    {test : Field → Bool} {outcome : Reading → Meaning → Option Bool}
    (reads : a.Reads (s.Known all))
    (decided : ∀ (v : View) x, v.field s.encoder.hasher wire = .ok x →
      v.truth s.encoder.hasher a = test x)
    (same : ∀ (r : Reading) value, outcome r (.number value) = value.map test) :
    (Surroundings.guardedBy guards a).Means s all fun r => outcome r (denoted r) := by
  apply s.reads_guardedBy argument.grounded.guards reads
  intro v r represents
  obtain ⟨x, read⟩ := argument.grounded.field_number rfl represents
  rw [← argument.holds v r represents, Guarded.meaning_number rfl, same]
  exact View.outcome_single read (decided v x read)

theorem Guarded.Denotes.truth_key {guards : List Assertion} {wire : Wire} {key : String}
    (argument : Guarded.Denotes s all ⟨guards, .term wire (.key key)⟩ denoted)
    (listed : ∀ h ∈ Hint.parts key, h ∈ all) :
    (Surroundings.guardedBy
      (guards ++ [(Parts.ofKey all key wire).tie,
        s.datatypeIn (Parts.ofKey all key wire) ["boolean"]])
      (.eq (Parts.ofKey all key wire).special (.const (Field.ofNat 1)))).Means s all
        fun r => r.truthOf (denoted r) := by
  have found := argument.grounded.key wire key rfl
  apply s.reads_guardedBy (s.reads_typed found listed argument.grounded.guards _)
  · exact Assertion.reads_eq (Parts.ofKey_grounded found listed).special (s.known_const _)
  · intro v r represents
    rw [← argument.holds v r represents, Guarded.meaning_term rfl]
    apply represents.outcome_typed found listed
    intro parts known
    exact View.truth_eq (represents.parts key wire found listed parts known).2.1 rfl

/-- A computed text is true unless it is empty. -/
theorem Guarded.Denotes.truth_text {guards : List Assertion} {wire : Wire} {origin : Origin}
    (text : origin = .str ∨ origin = .lang)
    (argument : Guarded.Denotes s all ⟨guards, .term wire origin⟩ denoted) {empty : Field}
    (encoded : s.encoder.encode (.simple "") = .ok empty) :
    (Surroundings.guardedBy guards (Assertion.eq wire (.const empty)).negated).Means s all
      fun r => r.truthOf (denoted r) := by
  apply s.reads_guardedBy argument.grounded.guards
  · exact Assertion.reads_negated
      (Assertion.reads_eq (argument.grounded.term wire _ rfl) (s.known_const _))
  · intro v r represents
    obtain ⟨x, read⟩ := argument.grounded.field_term rfl represents
    have differs : (Surroundings.guardedBy guards
        (Assertion.eq wire (.const empty)).negated).outcome s.encoder.hasher v =
          (v.under s.encoder.hasher guards wire).map fun code => !(code == empty) :=
      View.outcome_single read (View.truth_differs read rfl)
    rw [differs, ← argument.holds v r represents, Guarded.meaning_term rfl, Option.map_eq_bind]
    rcases text with rfl | rfl <;> simp only [Reading.truthOf, represents.encoder, encoded] <;> rfl

theorem Surroundings.yields_truthOf (g : Guarded) :
    Yields (s.truthOf g) fun all c => ∀ denoted, g.Denotes s all denoted →
      c.Means s all fun r => r.truthOf (denoted r) := by
  obtain ⟨guards, value⟩ := g
  cases value with
  | error =>
    apply yields_pure
    intro all denoted argument
    exact argument.untested Reading.truthOf fun _ _ _ => rfl
  | number wire =>
    apply yields_pure
    intro all denoted argument
    refine argument.tests_number (Assertion.reads_negated (Assertion.reads_eq
      (argument.grounded.number wire rfl) (s.known_const _))) ?_ fun _ _ => rfl
    exact fun v x read => View.truth_differs read rfl
  | term wire origin =>
    cases origin with
    | const t =>
      apply yields_pure
      intro all denoted argument
      cases truth : Constant.truth? t with
      | none =>
        apply argument.untested Reading.truthOf
        intro v r represents
        exact truth
      | some b =>
        apply (Condition.means_ofBool b).congr
        intro v r represents
        rw [← argument.holds v r represents]
        exact truth.symm
    | key key =>
      apply yields_bind (yields_literalParts key wire)
      intro parts
      apply yields_pure
      rintro all ⟨rfl, listed⟩ denoted argument
      exact argument.truth_key listed
    | str | lang =>
      apply yields_bind (yields_lifted (s.encoder.encode (.simple "")))
      intro empty
      apply yields_pure
      intro all encoded denoted argument
      exact argument.truth_text (by simp) encoded
    | datatype =>
      apply yields_pure
      intro all denoted argument
      exact argument.untested Reading.truthOf fun _ _ _ => rfl

def Assertion.TestsTerm (s : Surroundings) (all : List Hint) (guards : List Assertion) (wire : Wire)
    (origin : Origin) (test : Reading → Bool) (a : Assertion) : Prop :=
  ∀ denoted, Guarded.Denotes s all ⟨guards, .term wire origin⟩ denoted →
    a.Reads (s.Known all) ∧
      ∀ v r, View.Represents v s all r → v.truth s.encoder.hasher a = test r

theorem Assertion.testsTerm_ofBool {guards : List Assertion} {wire : Wire} {origin : Origin}
    (b : Bool) : (ofBool b).TestsTerm s all guards wire origin fun _ => b :=
  fun _ _ => ⟨reads_ofBool b, fun _ _ _ => View.truth_ofBool b⟩

theorem Assertion.TestsTerm.means {guards : List Assertion} {wire : Wire} {origin : Origin}
    {test : Reading → Bool} {a : Assertion} {outcome : Reading → Meaning → Option Bool}
    (tests : a.TestsTerm s all guards wire origin test)
    (argument : Guarded.Denotes s all ⟨guards, .term wire origin⟩ denoted)
    (same : ∀ (r : Reading) code, outcome r (.term code origin) = code.map fun _ => test r) :
    (Surroundings.guardedBy guards a).Means s all fun r => outcome r (denoted r) := by
  obtain ⟨reads, decided⟩ := tests denoted argument
  apply s.reads_guardedBy argument.grounded.guards reads
  intro v r represents
  obtain ⟨x, read⟩ := argument.grounded.field_term rfl represents
  rw [← argument.holds v r represents, Guarded.meaning_term rfl, same]
  exact View.outcome_single read (decided v r represents)

theorem Surroundings.yields_kindTest (kind : TermKind) (g : Guarded) :
    Yields (kindTest kind g) fun all c => ∀ denoted, g.Denotes s all denoted →
      c.Means s all fun r => r.kindTest kind (denoted r) := by
  obtain ⟨guards, value⟩ := g
  cases value with
  | error =>
    apply yields_pure
    intro all denoted argument
    exact argument.untested (fun r => r.kindTest kind) fun _ _ _ => rfl
  | number wire =>
    apply yields_pure
    intro all denoted argument
    exact argument.tests_number (Assertion.reads_ofBool _) (fun _ _ _ => View.truth_ofBool _)
      fun _ _ => rfl
  | term wire origin =>
    cases origin with
    | key key =>
      apply yields_bind (yields_hint _)
      intro inner
      apply yields_pure
      rintro all ⟨listed, rfl⟩ denoted argument
      have found := argument.grounded.key wire key rfl
      apply Assertion.TestsTerm.means _ argument fun r code => rfl
      intro _ _
      refine ⟨Assertion.reads_eq (s.known_key found)
        (s.known_tagged kind (s.known_hint found listed rfl)), ?_⟩
      intro v r represents
      exact represents.kind key wire kind found listed
    | const _ | str | lang | datatype =>
      apply yields_pure
      intro all denoted argument
      exact (Assertion.testsTerm_ofBool _).means argument fun r code => rfl

theorem Surroundings.yields_numericTest (g : Guarded) :
    Yields (s.numericTest g) fun all c => ∀ denoted, g.Denotes s all denoted →
      c.Means s all fun r => r.numericTest (denoted r) := by
  obtain ⟨guards, value⟩ := g
  cases value with
  | error =>
    apply yields_pure
    intro all denoted argument
    exact argument.untested Reading.numericTest fun _ _ _ => rfl
  | number wire =>
    apply yields_pure
    intro all denoted argument
    exact argument.tests_number (Assertion.reads_ofBool true) (fun _ _ _ => View.truth_ofBool true)
      fun _ _ => rfl
  | term wire origin =>
    cases origin with
    | key key =>
      apply yields_bind (yields_literalParts key wire)
      intro parts
      apply yields_pure
      rintro all ⟨rfl, listed⟩ denoted argument
      have found := argument.grounded.key wire key rfl
      apply Assertion.TestsTerm.means _ argument fun r code => rfl
      intro _ _
      refine ⟨Assertion.reads_all
        (s.reads_typed found listed (List.forall_mem_nil _) numericTypes), ?_⟩
      intro v r represents
      rw [View.truth_all]
      exact represents.typed_guards found listed [] numericTypes
    | const t =>
      cases t with
      | literal _ _ _ =>
        apply yields_pure
        intro all denoted argument
        exact (Assertion.testsTerm_ofBool _).means argument fun r code => rfl
      | iri _ | blank _ | defaultGraph | _ =>
        apply yields_pure
        intro all denoted argument
        exact (Assertion.testsTerm_ofBool false).means argument fun r code => rfl
    | str | lang | datatype =>
      apply yields_pure
      intro all denoted argument
      exact (Assertion.testsTerm_ofBool false).means argument fun r code => rfl

end Tests

end AttestedQuery
