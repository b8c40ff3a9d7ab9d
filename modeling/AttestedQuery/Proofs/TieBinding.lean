import AttestedQuery.Proofs.EncodedTerms
import AttestedQuery.Proofs.FoldedOrderings

/-!
# What the tie of four hints binds

The parts of a literal come into a constraint as four hints, and an assertion ties them to the
encoding of the term. Two hashes lie between: the four values are hashed together, and the result
with the kind of a literal. Going up from the encoding, either both inputs are those of the term, so
that it is a literal and the values are its parts, or one of them collides with an input that was
hashed for the term. Nothing is assumed of the values, which a prover may choose.
-/

set_option autoImplicit false

namespace AttestedQuery

open HashInput (CollideIn)

def Term.HasParts (e : Encoder) (t : Term) (x : LiteralParts) : Prop :=
  ∃ value lang datatype, t = .literal value lang datatype ∧
    e.literalParts value lang datatype = .ok x

namespace Encoder

variable {e : Encoder} {t : Term} {code : Field} {x : LiteralParts}

def tieInputs (e : Encoder) (x : LiteralParts) : List HashInput :=
  [.quadruple x.lexical x.special x.lang x.datatype,
    .pair (Field.ofNat TermKind.literal.code) (e.combine x)]

theorem encode_of_hasParts (parts : t.HasParts e x) (encoded : e.encode t = .ok code) :
    code = e.tagged .literal (e.combine x) := by
  obtain ⟨value, lang, datatype, rfl, made⟩ := parts
  rw [encode, inner, made] at encoded
  exact (Except.ok.inj encoded).symm

/-- An encoding that is the tie of four values is that of a literal with these parts, or its inputs
collide with those of the tie. -/
theorem hasParts_or_collide (encoded : e.encode t = .ok code)
    (tied : code = e.tagged .literal (e.combine x)) :
    t.HasParts e x ∨ CollideIn e.hasher (e.allInputs t) (e.tieInputs x) := by
  by_cases collide : CollideIn e.hasher (e.allInputs t) (e.tieInputs x)
  · exact Or.inr collide
  left
  obtain ⟨below, made, rfl⟩ := map_ok_iff.1 encoded
  obtain ⟨kinds, same⟩ := HashInput.pair_eq collide (by simp [allInputs, made])
    (by simp [tieInputs]) tied
  have kind := TermKind.code_injective kinds
  cases t with
  | literal value lang datatype =>
    obtain ⟨parts, found, combined⟩ := map_ok_iff.1 made
    obtain ⟨lexical, special, tongue, datatypes⟩ := HashInput.quadruple_eq collide
      (by simp [allInputs, innerInputs, literalInputs, found]) (by simp [tieInputs])
      (combined.trans same)
    refine ⟨value, lang, datatype, rfl, found.trans (congrArg Except.ok ?_)⟩
    cases parts
    cases x
    simp_all only
  | iri | blank | var | defaultGraph => cases kind

end Encoder

def Hint.toldParts (all : List Hint) (values : List Field) (key : String) : LiteralParts where
  lexical := told all values (.lexicalHash (.key key))
  special := told all values (.specialValue (.key key))
  lang := told all values (.langHash (.key key))
  datatype := told all values (.datatypeEncoding (.key key))

namespace Hint

variable {all : List Hint} {key : String}

def partOf (x : LiteralParts) : Hint → Field
  | .lexicalHash _ => x.lexical
  | .specialValue _ => x.special
  | .langHash _ => x.lang
  | .datatypeEncoding _ => x.datatype
  | .termInner _ | .stringOrder .. | .strLen _ => Field.zero

theorem toldParts_eq {values : List Field} {x : LiteralParts}
    (tells : ∀ h ∈ parts key, h.told all values = h.partOf x) : toldParts all values key = x := by
  simp only [parts, List.forall_mem_cons] at tells
  obtain ⟨lexical, special, tongue, datatypes, _⟩ := tells
  rw [toldParts, lexical, special, tongue, datatypes]
  rfl

/-- The values of a list of hints can be chosen so that they tell any four parts. -/
theorem exists_toldParts (listed : ∀ h ∈ parts key, h ∈ all) (x : LiteralParts) :
    ∃ values : List Field, values.length = all.length ∧ toldParts all values key = x :=
  ⟨all.map (partOf x), List.length_map (partOf x),
    toldParts_eq fun h about => told_map (listed h about)⟩

theorem compute_of_given {e : Encoder} {row : Row} {h : Hint} {found : Field} (index : Nat)
    (gives : Reading.given e row h = some found) : h.compute e row index = .ok found := by
  rw [compute, eq_ok_of_toOption gives]

theorem compute_part {e : Encoder} {row : Row} {value datatype : String} {lang : Option String}
    {x : LiteralParts} (held : row.get? key = some (.literal value lang datatype))
    (made : e.literalParts value lang datatype = .ok x) (index : Nat) :
    ∀ h ∈ parts key, h.compute e row index = .ok (h.partOf x) := by
  obtain ⟨lexical, special, tongue, datatypes⟩ := Reading.given_parts held made
  simp only [parts, List.forall_mem_cons]
  exact ⟨compute_of_given index lexical, compute_of_given index special,
    compute_of_given index tongue, compute_of_given index datatypes, List.forall_mem_nil _⟩

end Hint

/-! ## The tie of a key -/

/-- What an assertion over hints about a key says, where the wire of the key has the encoding of a
term. -/
structure Encoder.TieBinds (e : Encoder) (key : String) (wire : Wire) (all : List Hint)
    (tie : Assertion) : Prop where
  /-- Whatever the values of the hints, the assertion is true or false. It is true of the parts of a
  literal, and of other values only with two different inputs of one digest. -/
  binding : ∀ (t : Term) (code : Field) (v : View), e.encode t = .ok code →
    v.field e.hasher wire = .ok code → all.length ≤ v.hints.length →
      ∃ verdict, v.holds e.hasher tie = .ok verdict ∧
        (t.HasParts e (Hint.toldParts all v.hints key) → verdict = true) ∧
        (verdict = true → t.HasParts e (Hint.toldParts all v.hints key) ∨
          CollideIn e.hasher (e.allInputs t) (e.tieInputs (Hint.toldParts all v.hints key)))
  /-- The four values may be any. -/
  free : ∀ x : LiteralParts, ∃ values : List Field,
    values.length = all.length ∧ Hint.toldParts all values key = x
  /-- The values computed from a row that binds the key to a literal exist and make it true. -/
  honest : ∀ (row : Row) (value : String) (lang : Option String) (datatype : String) (code : Field)
    (v : View), row.get? key = some (.literal value lang datatype) →
    e.encode (.literal value lang datatype) = .ok code → v.field e.hasher wire = .ok code →
    all.length ≤ v.hints.length →
      (∀ h ∈ Hint.parts key, ∃ x, h.compute e row (all.idxOf h) = .ok x) ∧
      ((∀ h ∈ Hint.parts key, h.compute e row (all.idxOf h) = .ok (h.told all v.hints)) →
        v.holds e.hasher tie = .ok true)

theorem Encoder.tieBinds_ofKey (e : Encoder) (key : String) (wire : Wire) {all : List Hint}
    (listed : ∀ h ∈ Hint.parts key, h ∈ all) :
    e.TieBinds key wire all (Parts.ofKey all key wire).tie where
  binding t code v encoded read length := by
    refine ⟨_, View.holds_tie length listed read, fun parts => ?_, fun tied => ?_⟩
    · exact beq_iff_eq.2 (encode_of_hasParts parts encoded)
    · exact hasParts_or_collide encoded (beq_iff_eq.1 tied)
  free := Hint.exists_toldParts listed
  honest row value lang datatype code v held encoded read length := by
    obtain ⟨x, made, _⟩ := encode_literal encoded
    refine ⟨fun h about => ⟨_, Hint.compute_part held made _ h about⟩, fun agree => ?_⟩
    have told : Hint.toldParts all v.hints key = x := Hint.toldParts_eq fun h about =>
      Except.ok.inj ((agree h about).symm.trans (Hint.compute_part held made _ h about))
    have parts : (Term.literal value lang datatype).HasParts e (Hint.toldParts all v.hints key) :=
      ⟨value, lang, datatype, rfl, told ▸ made⟩
    rw [View.holds_tie length listed read]
    exact congrArg Except.ok (beq_iff_eq.2 (encode_of_hasParts parts encoded))

/-- Asking for the parts of the literal under a key succeeds, and its tie binds them with respect to
every list of hints that continues the one it leaves. -/
theorem tie_binds_literal_parts (e : Encoder) (key : String) (wire : Wire) (before : List Hint) :
    ∃ parts after, Compiling.literalParts key wire before = .ok (parts, after) ∧
      ∀ all, after <+: all → e.TieBinds key wire all parts.tie := by
  obtain ⟨succeeds, yields⟩ := Compiling.makes_literalParts key wire
  obtain ⟨parts, after, ran⟩ := succeeds before
  refine ⟨parts, after, ran, fun all continues => ?_⟩
  obtain ⟨rfl, listed⟩ := (yields before parts after ran).2 all continues
  exact e.tieBinds_ofKey key wire listed

/-- Some values of the four hints meet the tie of a key with the encoding of a text. -/
theorem tie_binds_literal_parts_sample : ∃ code x parts after values,
    sampleConfig.encoder.encode (.literal "chat" none xsdString) = .ok code ∧
      sampleConfig.encoder.literalParts "chat" none xsdString = .ok x ∧
        Compiling.literalParts "word" (.const code) [] = .ok (parts, after) ∧
          Hint.toldParts after values "word" = x ∧
            View.holds sampleConfig.hasher ⟨[], KeyMap.ofList [], values⟩ parts.tie = .ok true := by
  have encodes : (sampleConfig.encoder.encode (.literal "chat" none xsdString)).isOk = true := rfl
  obtain ⟨code, encoded⟩ := exists_ok_of_isOk encodes
  obtain ⟨x, made, _⟩ := Encoder.encode_literal encoded
  obtain ⟨parts, after, ran, binds⟩ :=
    tie_binds_literal_parts sampleConfig.encoder "word" (.const code) []
  obtain ⟨binding, free, _⟩ := binds after List.prefix_rfl
  obtain ⟨values, length, told⟩ := free x
  obtain ⟨verdict, holds, complete, _⟩ := binding (.literal "chat" none xsdString) code
    ⟨[], KeyMap.ofList [], values⟩ encoded rfl length.ge
  have met : verdict = true := complete ⟨"chat", none, xsdString, rfl, told ▸ made⟩
  rw [met] at holds
  exact ⟨code, x, parts, after, values, encoded, made, ran, told, holds⟩

end AttestedQuery
