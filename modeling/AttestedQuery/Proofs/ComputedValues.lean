import AttestedQuery.Proofs.HonestHints
import AttestedQuery.Proofs.Signing

/-!
# Values of calls

STR, LANG, DATATYPE and STRLEN of a variable are compiled to wires that put a result together from
the hints about the term of the variable. With the hints of the row, the guards of such a value hold
wherever no call is an error, and its wire holds what the encoder makes of the result. No hash
inputs have to differ for this; only what a test of a variable denies relies on them.
-/

set_option autoImplicit false

namespace AttestedQuery

/-! ## Chains of calls -/

/-- The calls that read something off a term. -/
inductive Accessor where
  | str
  | lang
  | datatype
  | strLen
  deriving DecidableEq

inductive Computed where
  | term (t : Term)
  | number (n : Nat)

def Accessor.builtin : Accessor → Builtin
  | .str => .str
  | .lang => .lang
  | .datatype => .datatype
  | .strLen => .strLen

def Term.result? : Term → Accessor → Option Computed
  | t, .str => t.lexical?.map fun lexical => .term (.simple lexical)
  | .literal _ lang _, .lang => some (.term (.simple (lang.getD "")))
  | .literal _ _ datatype, .datatype => some (.term (.iri datatype))
  | .literal value _ _, .strLen => some (.number value.length)
  | _, _ => none

def Computed.result? (call : Accessor) : Computed → Option Computed
  | .term t => t.result? call
  | .number _ => none

/-- Calls of an expression, each of what the next one gives. -/
def Expr.applied (calls : List Accessor) (argument : Expr) : Expr :=
  calls.foldr (fun call inner => .call call.builtin inner) argument

/-- What calls give for a term, each of what the next one gives; none where one is an error. -/
def Term.chain? (t : Term) (calls : List Accessor) : Option Computed :=
  calls.foldr (fun call inner => inner.bind (Computed.result? call)) (some (.term t))

/-! ## Values that hold a result -/

/-- A compiled value gives a result over a view: its guards hold, and its wire holds the number, or
the encoding that the term has. -/
inductive Guarded.Gives (e : Encoder) (v : View) : Guarded → Computed → Prop
  | term {guards : List Assertion} {wire : Wire} {origin : Origin} {t : Term}
    (met : ∀ a ∈ guards, v.holds e.hasher a = .ok true)
    (coded : ∀ code, e.encode t = .ok code → v.field e.hasher wire = .ok code) :
    Gives e v ⟨guards, .term wire origin⟩ (.term t)
  | number {guards : List Assertion} {wire : Wire} {n : Nat}
    (met : ∀ a ∈ guards, v.holds e.hasher a = .ok true)
    (read : v.field e.hasher wire = .ok (Field.ofNat n)) :
    Gives e v ⟨guards, .number wire⟩ (.number n)

def Surroundings.Fits (s : Surroundings) (row : Row) (wire : Wire) (t : Term) : Origin → Prop
  | .key key => s.keyWire? key = some wire ∧ row.get? key = some t
  | .const u => u = t
  | .str | .lang => ∃ text, t = .simple text
  | .datatype => ∃ text, t = .iri text

structure Guarded.Follows (s : Surroundings) (row : Row) (v : View) (g : Guarded) (x : Computed) :
    Prop where
  gives : g.Gives s.encoder v x
  fits : ∀ wire origin t, g.value = .term wire origin → x = .term t → s.Fits row wire t origin

section Steps

variable {s : Surroundings} {row : Row} {v : View} {all : List Hint}

theorem Guarded.follows_term {guards : List Assertion} {wire : Wire} {origin : Origin} {t : Term}
    (met : ∀ a ∈ guards, v.holds s.encoder.hasher a = .ok true)
    (coded : ∀ code, s.encoder.encode t = .ok code → v.field s.encoder.hasher wire = .ok code)
    (fits : s.Fits row wire t origin) :
    Guarded.Follows s row v ⟨guards, .term wire origin⟩ (.term t) where
  gives := .term met coded
  fits := by
    rintro _ _ _ ⟨⟩ ⟨⟩
    exact fits

theorem Guarded.follows_number {guards : List Assertion} {wire : Wire} {n : Nat}
    (met : ∀ a ∈ guards, v.holds s.encoder.hasher a = .ok true)
    (read : v.field s.encoder.hasher wire = .ok (Field.ofNat n)) :
    Guarded.Follows s row v ⟨guards, .number wire⟩ (.number n) where
  gives := .number met read
  fits := by rintro _ _ _ ⟨⟩

theorem View.met_append {h : Hasher} {guards : List Assertion} {extra : Assertion}
    (met : ∀ a ∈ guards, v.holds h a = .ok true) (holds : v.holds h extra = .ok true) :
    ∀ a ∈ guards ++ [extra], v.holds h a = .ok true := by
  rw [List.forall_mem_append, List.forall_mem_singleton]
  exact ⟨met, holds⟩

/-- The encoding of a simple literal is put together from the hash of its lexical form. -/
theorem Surroundings.field_simple {wire : Wire} {text : String} {code : Field}
    (read : v.field s.encoder.hasher wire = .ok (s.encoder.hasher.onText text))
    (encoded : s.encoder.encode (.simple text) = .ok code) :
    v.field s.encoder.hasher (s.simpleWire wire) = .ok code := by
  -- Strings have no special value of their own, so their text is hashed in two of the four parts.
  have raw : Special.ofLiteral text xsdString = .raw := by
    have named : xsdLocalName? xsdString = some "string" := xsdLocalName_iff.2 rfl
    rw [Special.ofLiteral, named]
    rfl
  obtain ⟨inner, found, rfl⟩ := map_ok_iff.1 encoded
  obtain ⟨parts, made, rfl⟩ := map_ok_iff.1 found
  rw [Encoder.parts_of_ok made, raw]
  exact View.field_hash2 rfl (View.field_hash4 read read rfl rfl)

open Compiling

theorem Surroundings.yields_constant_follows (t : Term) :
    Yields (s.constant t) fun _ g => ∀ v row, g.Follows s row v (.term t) := by
  apply yields_bind (yields_lifted (s.encoder.encode t))
  intro code
  apply yields_pure
  intro _ encoded v row
  refine Guarded.follows_term (by simp) (fun other again => ?_) (Eq.refl t)
  rw [encoded] at again
  exact again

theorem View.Presents.holds_textOrTie (presents : v.Presents s row all) {key : String} {wire : Wire}
    (found : s.keyWire? key = some wire) (listed : ∀ h ∈ Hint.parts key, h ∈ all)
    (encodes : row.Encodes s.encoder) {t : Term} {text : String} (held : row.get? key = some t)
    (lexical : t.lexical? = some text) :
    v.holds s.encoder.hasher (.any [.eq wire (taggedWire .iri (Parts.ofKey all key wire).lexical),
      (Parts.ofKey all key wire).tie]) = .ok true := by
  have read (h : Hint) (part : h ∈ Hint.parts key) (about : h.keys = [key]) :
      v.field s.encoder.hasher (h.wire all) = .ok (row.hintValue s.encoder h) :=
    presents.hints h (listed h part) (by simp [about, found])
  have first := read (.lexicalHash (.key key)) (by simp [Hint.parts]) rfl
  have second := read (.specialValue (.key key)) (by simp [Hint.parts]) rfl
  have third := read (.langHash (.key key)) (by simp [Hint.parts]) rfl
  have fourth := read (.datatypeEncoding (.key key)) (by simp [Hint.parts]) rfl
  have decided : ∀ part ∈ [Assertion.eq wire (taggedWire .iri (Parts.ofKey all key wire).lexical),
      (Parts.ofKey all key wire).tie], v.Decides s.encoder.hasher part := by
    rw [List.forall_mem_cons, List.forall_mem_singleton]
    exact ⟨View.decides_eq (presents.bound key wire found) (View.field_hash2 rfl first),
      View.decides_eq (presents.bound key wire found)
        (View.field_hash2 rfl (View.field_hash4 first second third fourth))⟩
  rw [View.holds_any_decided decided]
  refine congrArg Except.ok (List.any_eq_true.2 ?_)
  cases t with
  | iri other =>
    obtain rfl := Option.some.inj lexical
    exact ⟨_, List.mem_cons_self, View.truth_of_holds (presents.holds_text found listed held)⟩
  | literal value lang datatype =>
    obtain ⟨parts, made⟩ := encodes.parts held
    exact ⟨_, List.mem_cons_of_mem _ List.mem_cons_self,
      View.truth_of_holds (presents.holds_tie found listed held made)⟩
  | blank _ | defaultGraph | _ => cases lexical

def Guarded.Steps (s : Surroundings) (call : Accessor) (argument : Guarded) (all : List Hint)
    (g : Guarded) : Prop :=
  ∀ v row x y, View.Presents v s row all → row.Encodes s.encoder → argument.Follows s row v x →
    x.result? call = some y → g.Follows s row v y

section Calls

variable {wire : Wire} {guards : List Assertion} {origin : Origin} {call : Accessor} {g : Guarded}

theorem Guarded.steps_of_term (steps : ∀ v row t y, View.Presents v s row all →
    row.Encodes s.encoder → (∀ a ∈ guards, v.holds s.encoder.hasher a = .ok true) →
      (∀ code, s.encoder.encode t = .ok code → v.field s.encoder.hasher wire = .ok code) →
        s.Fits row wire t origin → t.result? call = some y → g.Follows s row v y) :
    Guarded.Steps s call ⟨guards, .term wire origin⟩ all g := by
  rintro v row _ y presents encodes ⟨⟨met, coded⟩, fits⟩ result
  exact steps v row _ y presents encodes met coded (fits _ _ _ rfl rfl) result

theorem Guarded.steps_nothing
    (never : ∀ row t, s.Fits row wire t origin → t.result? call = none) :
    Guarded.Steps s call ⟨guards, .term wire origin⟩ all g := by
  refine Guarded.steps_of_term fun v row t y _ _ _ _ fits result => ?_
  rw [never row t fits] at result
  cases result

theorem Guarded.steps_constant {u : Term}
    (finds : ∀ row t, s.Fits row wire t origin → t.result? call = some (.term u))
    (follows : ∀ v row, g.Follows s row v (.term u)) :
    Guarded.Steps s call ⟨guards, .term wire origin⟩ all g := by
  refine Guarded.steps_of_term fun v row t y _ _ _ _ fits result => ?_
  obtain rfl := Option.some.inj ((finds row t fits).symm.trans result)
  exact follows v row

theorem Guarded.steps_literal {key : String} {value : Value}
    (listed : ∀ h ∈ Hint.parts key, h ∈ all) (other : call ≠ .str)
    (steps : ∀ v row text lang datatype parts y, View.Presents v s row all →
      s.keyWire? key = some wire → row.get? key = some (.literal text lang datatype) →
        s.encoder.literalParts text lang datatype = .ok parts →
          (∀ a ∈ guards ++ [(Parts.ofKey all key wire).tie],
            v.holds s.encoder.hasher a = .ok true) →
              (Term.literal text lang datatype).result? call = some y →
                Guarded.Follows s row v ⟨guards ++ [(Parts.ofKey all key wire).tie], value⟩ y) :
    Guarded.Steps s call ⟨guards, .term wire (.key key)⟩ all
      ⟨guards ++ [(Parts.ofKey all key wire).tie], value⟩ := by
  refine Guarded.steps_of_term fun v row t y presents encodes met _ fits result => ?_
  obtain ⟨found, held⟩ := fits
  cases t with
  | literal text lang datatype =>
    obtain ⟨parts, made⟩ := encodes.parts held
    exact steps v row text lang datatype parts y presents found held made
      (View.met_append met (presents.holds_tie found listed held made)) result
  -- No other term has a part that such a call reads.
  | iri _ | blank _ | defaultGraph | _ => cases call <;> first | exact absurd rfl other | cases result

end Calls

variable (wire : Wire) (guards : List Assertion) (origin : Origin)

theorem Surroundings.yields_strOf_steps :
    Yields (s.strOf wire guards origin) (Guarded.Steps s .str ⟨guards, .term wire origin⟩) := by
  cases origin with
  | const t =>
    cases lexical : t.lexical? with
    | none =>
      simp only [strOf, lexical]
      apply yields_pure
      intro all
      apply Guarded.steps_nothing
      rintro row _ rfl
      simp [Term.result?, lexical]
    | some text =>
      simp only [strOf, lexical]
      apply (s.yields_constant_follows (.simple text)).imp
      intro all g
      apply Guarded.steps_constant
      rintro row _ rfl
      simp [Term.result?, lexical]
  | key key =>
    apply yields_bind (yields_literalParts key wire)
    intro parts
    apply yields_pure
    rintro all ⟨rfl, listed⟩
    -- STR reads IRIs as well, so its guard is met in one of two ways.
    refine Guarded.steps_of_term fun v row t y presents encodes met _ fits result => ?_
    obtain ⟨found, held⟩ := fits
    obtain ⟨text, lexical, rfl⟩ := Option.map_eq_some_iff.1 result
    refine Guarded.follows_term ?_ (fun code encoded => ?_) ⟨text, rfl⟩
    · exact View.met_append met (presents.holds_textOrTie found listed encodes held lexical)
    · exact Surroundings.field_simple (presents.field_lexical found listed held lexical) encoded
  | str | lang =>
    apply yields_pure
    intro all
    refine Guarded.steps_of_term fun v row t y _ _ met coded fits result => ?_
    obtain ⟨text, rfl⟩ := fits
    obtain rfl := Option.some.inj result
    exact Guarded.follows_term met coded ⟨text, rfl⟩
  | datatype => exact yields_refuse _

theorem Surroundings.yields_langOf_steps :
    Yields (s.langOf wire guards origin) (Guarded.Steps s .lang ⟨guards, .term wire origin⟩) := by
  cases origin with
  | const t =>
    cases t with
    | literal value lang datatype =>
      apply (s.yields_constant_follows (.simple (lang.getD ""))).imp
      intro all g
      apply Guarded.steps_constant
      rintro row _ rfl
      rfl
    | iri _ | blank _ | defaultGraph | _ =>
      apply yields_pure
      intro all
      apply Guarded.steps_nothing
      rintro row _ rfl
      rfl
  | key key =>
    apply yields_bind (yields_literalParts key wire)
    intro parts
    apply yields_pure
    rintro all ⟨rfl, listed⟩
    refine Guarded.steps_literal listed (by decide) ?_
    intro v row text lang datatype parts y presents found held made met result
    obtain rfl := Option.some.inj result
    have read := (presents.field_parts found listed held made).2.2.1
    rw [Encoder.parts_of_ok made] at read
    exact Guarded.follows_term met (fun code encoded => Surroundings.field_simple read encoded)
      ⟨_, rfl⟩
  | str | lang =>
    apply (s.yields_constant_follows (.simple "")).imp
    intro all g
    apply Guarded.steps_constant
    rintro row _ ⟨text, rfl⟩
    rfl
  | datatype =>
    apply yields_pure
    intro all
    apply Guarded.steps_nothing
    rintro row _ ⟨text, rfl⟩
    rfl

theorem Surroundings.yields_datatypeOf_steps :
    Yields (s.datatypeOf wire guards origin)
      (Guarded.Steps s .datatype ⟨guards, .term wire origin⟩) := by
  cases origin with
  | const t =>
    cases t with
    | literal value lang datatype =>
      apply (s.yields_constant_follows (.iri datatype)).imp
      intro all g
      apply Guarded.steps_constant
      rintro row _ rfl
      rfl
    | iri _ | blank _ | defaultGraph | _ =>
      apply yields_pure
      intro all
      apply Guarded.steps_nothing
      rintro row _ rfl
      rfl
  | key key =>
    apply yields_bind (yields_literalParts key wire)
    intro parts
    apply yields_pure
    rintro all ⟨rfl, listed⟩
    refine Guarded.steps_literal listed (by decide) ?_
    intro v row text lang datatype parts y presents found held made met result
    obtain rfl := Option.some.inj result
    have read := (presents.field_parts found listed held made).2.2.2
    rw [Encoder.parts_of_ok made] at read
    exact Guarded.follows_term met (fun code encoded => read.trans encoded) ⟨_, rfl⟩
  | str | lang =>
    apply (s.yields_constant_follows (.iri xsdString)).imp
    intro all g
    apply Guarded.steps_constant
    rintro row _ ⟨text, rfl⟩
    rfl
  | datatype =>
    apply yields_pure
    intro all
    apply Guarded.steps_nothing
    rintro row _ ⟨text, rfl⟩
    rfl

theorem Surroundings.yields_lengthOf_steps :
    Yields (lengthOf wire guards origin) (Guarded.Steps s .strLen ⟨guards, .term wire origin⟩) := by
  cases origin with
  | const t =>
    cases t with
    | literal value lang datatype =>
      apply yields_pure
      intro all
      refine Guarded.steps_of_term fun v row t y _ _ _ _ fits result => ?_
      obtain rfl : Term.literal value lang datatype = t := fits
      obtain rfl := Option.some.inj result
      exact Guarded.follows_number (by simp) rfl
    | iri _ | blank _ | defaultGraph | _ =>
      apply yields_pure
      intro all
      apply Guarded.steps_nothing
      rintro row _ rfl
      rfl
  | key key =>
    apply yields_bind (yields_literalParts key wire)
    intro parts
    apply yields_bind (yields_hint (.strLen (.key key)))
    intro length
    apply yields_pure
    rintro all ⟨member, rfl⟩ ⟨rfl, listed⟩
    refine Guarded.steps_literal listed (by decide) ?_
    intro v row text lang datatype parts y presents found held made met result
    obtain rfl := Option.some.inj result
    refine Guarded.follows_number met (presents.field_hint found member rfl ?_)
    simp [Reading.given, Hint.value, Hint.termOf, held, Term.lexical?, bind, Except.bind, pure,
      Except.pure, Except.toOption]
  | str | lang => exact yields_refuse _
  | datatype =>
    apply yields_pure
    intro all
    apply Guarded.steps_nothing
    rintro row _ ⟨text, rfl⟩
    rfl

theorem Surroundings.yields_callOf_steps (call : Accessor) (argument : Guarded) :
    Yields (s.callOf call.builtin argument) (Guarded.Steps s call argument) := by
  obtain ⟨guards, value⟩ := argument
  cases value with
  | error =>
    apply yields_pure
    rintro all v row x y _ _ ⟨⟨⟩, _⟩
  | number wire => exact yields_refuse _
  | term wire origin =>
    cases call with
    | str => exact s.yields_strOf_steps wire guards origin
    | lang => exact s.yields_langOf_steps wire guards origin
    | datatype => exact s.yields_datatypeOf_steps wire guards origin
    | strLen => exact Surroundings.yields_lengthOf_steps wire guards origin

theorem Surroundings.yields_applied (calls : List Accessor) (key : String) :
    Yields (s.value (Expr.applied calls (.var key))) fun all g => ∀ v row t x,
      View.Presents v s row all → row.Encodes s.encoder → row.get? key = some t →
        t.chain? calls = some x → g.Follows s row v x := by
  induction calls with
  | nil =>
    apply yields_pure
    intro all v row t x presents encodes held result
    obtain rfl := Option.some.inj result
    have bound := presents.keys key
    rw [held] at bound
    obtain ⟨wire, found⟩ := Option.isSome_iff_exists.1 bound.symm
    rw [found]
    refine Guarded.follows_term (by simp) (fun code encoded => ?_) ⟨found, held⟩
    exact presents.field_key found held encoded
  | cons call rest induction =>
    apply yields_bind induction
    intro argument
    apply (s.yields_callOf_steps call argument).imp
    intro all g steps follows v row t x presents encodes held result
    obtain ⟨inner, chained, result⟩ := Option.bind_eq_some_iff.1 result
    exact steps v row inner x presents encodes (follows v row t inner presents encodes held chained)
      result

end Steps

/-! ## Tests of a variable -/

/-- The kind of term that a test asks for. -/
def Builtin.kind? : Builtin → Option TermKind
  | .isIri => some .iri
  | .isBlank => some .blank
  | .isLiteral => some .literal
  | _ => none

def Term.isNumeric : Term → Bool
  | .literal _ _ datatype => isXsdType numericTypes datatype
  | _ => false

namespace Row

variable {e : Encoder} {row : Row} {key : String} {t : Term}

theorem outcome_kind (encodes : row.Encodes e) (held : row.get? key = some t) {test : Builtin}
    {kind : TermKind} (asks : test.kind? = some kind) :
    (row.reading e).outcome (.call test (.var key)) = some (t.kind == kind) := by
  obtain ⟨code, _, meant⟩ := meaning_key encodes held
  have decided : (row.reading e).kindTest kind ((row.reading e).meaning (.var key)) =
      some (t.kind == kind) := by
    rw [meant]
    simp [Reading.kindTest, reading, held]
  cases test with
  | isIri | isBlank | isLiteral =>
    obtain rfl := Option.some.inj asks
    rw [Reading.outcome, decided]
  | str | lang | datatype | strLen | isNumeric => cases asks

theorem outcome_numeric (encodes : row.Encodes e) (clear : ¬ row.Confuses e)
    (held : row.get? key = some t) :
    (row.reading e).outcome (.call .isNumeric (.var key)) = some t.isNumeric := by
  obtain ⟨code, _, meant⟩ := meaning_key encodes held
  rw [Reading.outcome, meant]
  simp only [Reading.numericTest, Option.map_some]
  refine congrArg some ?_
  have other (unlike : ∀ value lang datatype, t ≠ .literal value lang datatype) :
      (row.reading e).parts? key = none :=
    Reading.parts_eq_none fun value lang datatype known =>
      unlike value lang datatype (Option.some.inj (held.symm.trans known))
  cases t with
  | literal value lang datatype =>
    obtain ⟨parts, made⟩ := encodes.parts held
    have tested : ∀ name ∈ numericTypes, name ∈ testedTypes :=
      fun name member => List.mem_append_left _ member
    rw [parts_reading held made, Option.any_some, typed_iff clear held made tested]
    rfl
  | iri _ | blank _ | defaultGraph | _ =>
    rw [other (by simp)]
    rfl

end Row

theorem View.Presents.holds_of_outcome {v : View} {s : Surroundings} {row : Row}
    {before after all : List Hint} {expression : Expr} {c : Condition} {value : Bool}
    (presents : v.Presents s row all) (continues : after <+: all)
    (compiled : s.condition expression before = .ok (c, after))
    (encodes : row.Encodes s.encoder) (clear : ¬ row.Collides s.encoder)
    (meant : (row.reading s.encoder).outcome expression = some value) :
    v.holds s.encoder.hasher c.holds = .ok value := by
  have decided := (s.yields_satisfies expression before c after compiled).2 all continues v row
    presents
  have truth := presents.holds_iff continues compiled encodes clear
  rw [decided, meant, Except.ok.injEq, Option.some.injEq, ← Bool.eq_iff_iff] at truth
  rw [decided, truth]

/-- What calls and tests of a variable hold over a view that presents a row, with the hints of the
row: a compiled chain of calls, of which none is an error, gives the result of the calls; a test of
the kind of a term or for a number says what the term is, unless hash inputs collide. -/
theorem calls_give_encodings (s : Surroundings) (row : Row) (key : String) (t : Term)
    (encodes : row.Encodes s.encoder) (held : row.get? key = some t) (v : View) (all : List Hint)
    (presents : v.Presents s row all) :
    (∀ calls before after g x, s.value (Expr.applied calls (.var key)) before = .ok (g, after) →
      after <+: all → t.chain? calls = some x → g.Gives s.encoder v x) ∧
    (∀ test kind before after c, Builtin.kind? test = some kind →
      s.condition (.call test (.var key)) before = .ok (c, after) → after <+: all →
        v.holds s.encoder.hasher c.holds = .ok (t.kind == kind) ∨ row.Collides s.encoder) ∧
    ∀ before after c, s.condition (.call .isNumeric (.var key)) before = .ok (c, after) →
      after <+: all → v.holds s.encoder.hasher c.holds = .ok t.isNumeric ∨
        row.Collides s.encoder ∨ row.Confuses s.encoder := by
  refine ⟨fun calls before after g x compiled continues result => ?_,
    fun test kind before after c asks compiled continues => ?_,
    fun before after c compiled continues => ?_⟩
  · exact ((s.yields_applied calls key before g after compiled).2 all continues v row t x presents
      encodes held result).gives
  · by_cases collides : row.Collides s.encoder
    · exact Or.inr collides
    · exact Or.inl (presents.holds_of_outcome continues compiled encodes collides
        (Row.outcome_kind encodes held asks))
  · by_cases collides : row.Collides s.encoder
    · exact Or.inr (Or.inl collides)
    · by_cases confuses : row.Confuses s.encoder
      · exact Or.inr (Or.inr confuses)
      · exact Or.inl (presents.holds_of_outcome continues compiled encodes collides
          (Row.outcome_numeric encodes confuses held))

/-! ## The language of a greeting -/

def greeting : Term := .literal "hallo" (some "de") rdfLangString

def greetingRow : Row := KeyMap.ofList [("o", greeting)]

theorem greeting_encodes : greetingRow.Encodes sampleConfig.encoder :=
  Row.encodes_single "o" rfl

theorem calls_give_encodings_sample : ∃ g literal numeric,
    greetingRow.Encodes sampleConfig.encoder ∧ greetingRow.get? "o" = some greeting ∧
    (greetingRow.surroundings sampleConfig.encoder).value (Expr.applied [.str, .lang] (.var "o")) []
      = .ok (g, Hint.parts "o") ∧
    greeting.chain? [.str, .lang] = some (.term (.simple "de")) ∧
    (greetingRow.surroundings sampleConfig.encoder).condition (.call .isLiteral (.var "o"))
      (Hint.parts "o") = .ok (literal, Hint.parts "o" ++ [.termInner (.key "o")]) ∧
    (greetingRow.surroundings sampleConfig.encoder).condition (.call .isNumeric (.var "o"))
      (Hint.parts "o") = .ok (numeric, Hint.parts "o") ∧
    ∃ v, View.Presents v (greetingRow.surroundings sampleConfig.encoder) greetingRow
        (Hint.parts "o" ++ [.termInner (.key "o")]) ∧
      g.Gives sampleConfig.encoder v (.term (.simple "de")) ∧
      (v.holds sampleConfig.hasher literal.holds = .ok true ∨
        greetingRow.Collides sampleConfig.encoder) ∧
      (v.holds sampleConfig.hasher numeric.holds = .ok false ∨
        greetingRow.Collides sampleConfig.encoder ∨ greetingRow.Confuses sampleConfig.encoder) := by
  have presents := greetingRow.presents sampleConfig.encoder
    (Hint.parts "o" ++ [.termInner (.key "o")])
  obtain ⟨chain, kind, numeric⟩ := calls_give_encodings
    (greetingRow.surroundings sampleConfig.encoder) greetingRow "o" greeting greeting_encodes rfl
    _ _ presents
  exact ⟨_, _, _, greeting_encodes, rfl, rfl, rfl, rfl, rfl, _, presents,
    chain [.str, .lang] [] _ _ _ rfl (List.prefix_append _ _) rfl,
    kind .isLiteral .literal (Hint.parts "o") _ _ rfl rfl List.prefix_rfl,
    numeric (Hint.parts "o") _ _ rfl (List.prefix_append _ _)⟩

end AttestedQuery
