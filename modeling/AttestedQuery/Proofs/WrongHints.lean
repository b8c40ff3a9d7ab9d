import AttestedQuery.Proofs.Collision
import AttestedQuery.Proofs.Conditions
import AttestedQuery.Proofs.KeyMap

/-!
# What wrong hints are worth

A hint that a constraint ties to an encoding is right or wrong: among hash inputs without collision
no constraint accepts a value other than the one that the row gives. So a view with any hints at all
represents a reading, in which the wrong hints are those whose value differs.
-/

set_option autoImplicit false

namespace AttestedQuery

def Hint.told (all : List Hint) (values : List Field) (h : Hint) : Field :=
  (values[all.idxOf h]?).getD Field.zero

theorem Hint.told_map {all : List Hint} {g : Hint → Field} {h : Hint} (listed : h ∈ all) :
    told all (all.map g) h = g h := by
  simp [told, List.getElem?_idxOf listed]

/-- The hash inputs of the constraints that tie hints to an encoding. -/
def Hint.inputs (h : Hasher) (all : List Hint) (values : List Field) : List Preimage :=
  all.flatMap fun hint =>
    match hint with
    | .lexicalHash operand =>
      let parts := Preimage.quadruple (told all values (.lexicalHash operand))
        (told all values (.specialValue operand)) (told all values (.langHash operand))
        (told all values (.datatypeEncoding operand))
      [.pair (Field.ofNat TermKind.iri.code) (told all values (.lexicalHash operand)), parts,
        .pair (Field.ofNat TermKind.literal.code) (h.digest parts)]
    | .termInner operand =>
      [TermKind.iri, .blank, .literal, .var, .defaultGraph].map fun kind =>
        .pair (Field.ofNat kind.code) (told all values (.termInner operand))
    | _ => []

/-- The inputs hashed last to encode a term: its kind with the value below it, and the parts of a
literal. -/
def Encoder.inputs (e : Encoder) (t : Term) : List Preimage :=
  match t with
  | .literal value lang datatype =>
    match e.literalParts value lang datatype with
    | .ok parts =>
      [.quadruple parts.lexical parts.special parts.lang parts.datatype,
        .pair (Field.ofNat TermKind.literal.code) (e.combine parts)]
    | .error _ => []
  | other =>
    match e.inner other with
    | .ok inner => [.pair (Field.ofNat other.kind.code) inner]
    | .error _ => []

/-- The inputs hashed last to encode the terms of a row. -/
def Row.inputs (e : Encoder) (row : Row) : List Preimage :=
  row.entries.flatMap fun entry => e.inputs entry.2

theorem Row.mem_inputs {e : Encoder} {row : Row} {key : String} {t : Term}
    (held : row.get? key = some t) {input : Preimage} (member : input ∈ e.inputs t) :
    input ∈ row.inputs e :=
  List.mem_flatMap.2 ⟨(key, t), (KeyMap.mem_entries_iff row key t).2 held, member⟩

theorem TermKind.code_injective {k l : TermKind}
    (same : Field.ofNat k.code = Field.ofNat l.code) : k = l := by
  cases k <;> cases l <;> first | rfl | exact absurd same (by decide)

theorem Encoder.encode_ok {e : Encoder} {t : Term} {code : Field} (encoded : e.encode t = .ok code) :
    ∃ inner, e.inner t = .ok inner ∧
      Preimage.pair (Field.ofNat t.kind.code) inner ∈ e.inputs t ∧
        code = e.hasher.digest (.pair (Field.ofNat t.kind.code) inner) := by
  obtain ⟨inner, found, rfl⟩ := map_ok_iff.1 encoded
  refine ⟨inner, found, ?_, rfl⟩
  cases t with
  | literal value lang datatype =>
    obtain ⟨parts, made, rfl⟩ := map_ok_iff.1 found
    simp [inputs, made, Term.kind]
  | iri _ | blank _ | defaultGraph | _ => simp [inputs, found]

theorem Encoder.encode_literal {e : Encoder} {value datatype : String} {lang : Option String}
    {code : Field} (encoded : e.encode (.literal value lang datatype) = .ok code) :
    ∃ parts, e.literalParts value lang datatype = .ok parts ∧
      e.inner (.literal value lang datatype) = .ok (e.combine parts) ∧
        Preimage.quadruple parts.lexical parts.special parts.lang parts.datatype ∈
          e.inputs (.literal value lang datatype) := by
  obtain ⟨inner, found, _⟩ := map_ok_iff.1 encoded
  obtain ⟨parts, made, rfl⟩ := map_ok_iff.1 found
  exact ⟨parts, made, found, by simp [inputs, made]⟩

namespace Reading

/-- The value that the row gives a hint. -/
def given (e : Encoder) (row : Row) (h : Hint) : Option Field :=
  (h.value e row).toOption

/-- A listed hint that a constraint ties has a value other than the one that the row gives. -/
def isFault (e : Encoder) (row : Row) (all : List Hint) (values : List Field) (h : Hint) : Bool :=
  all.contains h && h.isTied && (given e row h).any fun x => !(x == Hint.told all values h)

def ofHints (e : Encoder) (row : Row) (visible : KeySet) (all : List Hint) (values : List Field) :
    Reading where
  encoder := e
  row key := if visible.contains key then row.get? key else none
  wrong := isFault e row all values
  trusted h := if all.contains h && !h.isTied then Hint.told all values h else Field.zero

end Reading

section Separated

variable {s : Surroundings} {row : Row} {all : List Hint} {v : View}
  {exhibited : List Preimage}

/-- The wires of keys hold the encodings of their terms, in a view with a value for each hint. -/
structure View.Holds (v : View) (s : Surroundings) (row : Row) (all : List Hint) : Prop where
  length : all.length ≤ v.hints.length
  unbound : ∀ key, s.keyWire? key = none → s.visible.contains key = true → row.get? key = none
  bound : ∀ key wire, s.keyWire? key = some wire → ∃ t code,
    row.get? key = some t ∧ s.encoder.encode t = .ok code ∧ v.field s.encoder.hasher wire = .ok code

theorem View.field_hint (length : all.length ≤ v.hints.length) {h : Hint} (listed : h ∈ all)
    (hasher : Hasher) : v.field hasher (h.wire all) = .ok (h.told all v.hints) := by
  have inside : all.idxOf h < v.hints.length :=
    Nat.lt_of_lt_of_le (List.idxOf_lt_length_iff.2 listed) length
  simp [Hint.wire, Hint.told, View.field, List.getElem?_eq_getElem inside]

theorem Surroundings.visible_of_keyWire {key : String} {wire : Wire}
    (found : s.keyWire? key = some wire) : s.visible.contains key = true := by
  unfold keyWire? at found
  split at found
  next visible => exact visible
  next => simp at found

/-! ## Hints about a key -/

section Key

variable {e : Encoder} {key : String} {t : Term} {values : List Field}

theorem Reading.given_inner (held : row.get? key = some t) {inner : Field}
    (found : e.inner t = .ok inner) : given e row (.termInner (.key key)) = some inner := by
  simp [given, Hint.value, Hint.termOf, held, found, Hint.ofEncoder, bind, Except.bind,
    Except.toOption]

theorem Reading.given_text {text : String} (held : row.get? key = some (.iri text)) :
    given e row (.lexicalHash (.key key)) = some (e.hasher.onText text) := by
  simp [given, Hint.value, Hint.termOf, held, Term.lexical?, bind, Except.bind, pure, Except.pure,
    Except.toOption]

theorem Reading.given_parts {value datatype : String} {lang : Option String} {parts : LiteralParts}
    (held : row.get? key = some (.literal value lang datatype))
    (made : e.literalParts value lang datatype = .ok parts) :
    given e row (.lexicalHash (.key key)) = some parts.lexical ∧
      given e row (.specialValue (.key key)) = some parts.special ∧
        given e row (.langHash (.key key)) = some parts.lang ∧
          given e row (.datatypeEncoding (.key key)) = some parts.datatype := by
  have lexical : e.hasher.onText value = parts.lexical := by
    unfold Encoder.literalParts at made
    split at made
    · simp at made
    · rw [← Except.ok.inj made]
  refine ⟨?_, ?_, ?_, ?_⟩
  · simp [given, Hint.value, Hint.termOf, held, Term.lexical?, bind, Except.bind, pure,
      Except.pure, Except.toOption, lexical]
  all_goals
    simp [given, Hint.value, Hint.termOf, held, Hint.literalPart, made, Hint.ofEncoder, bind,
      Except.bind, Except.map, Except.toOption]

theorem Reading.row_ofHints {visible : KeySet} (shown : visible.contains key = true) :
    (ofHints e row visible all values).row key = row.get? key := by
  simp [ofHints, shown]

theorem Reading.wrong_ofHints {visible : KeySet} {h : Hint} (listed : h ∈ all)
    (tied : h.isTied = true) {x : Field} (gives : given e row h = some x) :
    (ofHints e row visible all values).wrong h = !(x == h.told all values) := by
  simp [ofHints, isFault, listed, tied, gives]

/-- The parts of a literal are known exactly where the four hints about them are right. -/
theorem Reading.parts_ofHints {visible : KeySet} (shown : visible.contains key = true)
    (listed : ∀ h ∈ Hint.parts key, h ∈ all) {value datatype : String} {lang : Option String}
    {parts : LiteralParts} (held : row.get? key = some (.literal value lang datatype))
    (made : e.literalParts value lang datatype = .ok parts) :
    (ofHints e row visible all values).parts? key =
      if parts.lexical = (Hint.lexicalHash (.key key)).told all values ∧
          parts.special = (Hint.specialValue (.key key)).told all values ∧
            parts.lang = (Hint.langHash (.key key)).told all values ∧
              parts.datatype = (Hint.datatypeEncoding (.key key)).told all values
      then some parts else none := by
  simp only [Hint.parts, List.forall_mem_cons] at listed
  obtain ⟨lexical, special, tongue, datatypeOf⟩ := given_parts held made
  have encoder : (ofHints e row visible all values).encoder = e := rfl
  rw [parts?, row_ofHints shown, held, encoder]
  dsimp only
  rw [made]
  simp only [Hint.parts, List.any_cons, List.any_nil, wrong_ofHints listed.1 rfl lexical,
    wrong_ofHints listed.2.1 rfl special, wrong_ofHints listed.2.2.1 rfl tongue,
    wrong_ofHints listed.2.2.2.1 rfl datatypeOf, Except.toOption]
  split <;> split <;> simp_all

theorem Reading.parts_eq_none {r : Reading} {key : String}
    (other : ∀ value lang datatype, r.row key ≠ some (.literal value lang datatype)) :
    r.parts? key = none := by
  unfold parts?
  split
  · rfl
  · split
    next value lang datatype found => exact absurd found (other value lang datatype)
    next => rfl

theorem Hint.mem_inputs_parts (h : Hasher) (values : List Field)
    (listed : ∀ hint ∈ Hint.parts key, hint ∈ all) :
    ∀ parts, parts = Preimage.quadruple (told all values (.lexicalHash (.key key)))
        (told all values (.specialValue (.key key))) (told all values (.langHash (.key key)))
        (told all values (.datatypeEncoding (.key key))) →
      Preimage.pair (Field.ofNat TermKind.iri.code) (told all values (.lexicalHash (.key key))) ∈
          inputs h all values ∧
        parts ∈ inputs h all values ∧
          .pair (Field.ofNat TermKind.literal.code) (h.digest parts) ∈ inputs h all values := by
  rintro _ rfl
  have first : Hint.lexicalHash (.key key) ∈ all := listed _ (by simp [Hint.parts])
  refine ⟨List.mem_flatMap.2 ⟨_, first, ?_⟩, List.mem_flatMap.2 ⟨_, first, ?_⟩,
    List.mem_flatMap.2 ⟨_, first, ?_⟩⟩ <;> simp

theorem Hint.mem_inputs_inner (h : Hasher) (listed : Hint.termInner (.key key) ∈ all)
    (kind : TermKind) :
    Preimage.pair (Field.ofNat kind.code) (told all values (.termInner (.key key))) ∈
      inputs h all values := by
  refine List.mem_flatMap.2 ⟨_, listed, ?_⟩
  cases kind <;> simp

variable (clear : ¬ e.hasher.Collides exhibited)
  (rows : ∀ input ∈ row.inputs e, input ∈ exhibited)
  (hints : ∀ input ∈ Hint.inputs e.hasher all values, input ∈ exhibited)
  (held : row.get? key = some t) {code : Field} (encoded : e.encode t = .ok code)

include clear rows hints held encoded

/-- An encoding is the digest of a kind and the inner hint only where both are right. -/
theorem Encoder.inner_iff (listed : Hint.termInner (.key key) ∈ all) (kind : TermKind) :
    code = e.hasher.pair (Field.ofNat kind.code) (Hint.told all values (.termInner (.key key))) ↔
      t.kind = kind ∧
        Reading.given e row (.termInner (.key key)) =
          some (Hint.told all values (.termInner (.key key))) := by
  obtain ⟨inner, found, listedRow, rfl⟩ := Encoder.encode_ok encoded
  rw [Reading.given_inner held found]
  constructor
  · intro same
    have equal := Hasher.eq_of_digest clear (rows _ (Row.mem_inputs held listedRow))
      (hints _ (Hint.mem_inputs_inner e.hasher listed kind)) same
    injection equal with kinds inners
    exact ⟨TermKind.code_injective kinds, congrArg some inners⟩
  · rintro ⟨rfl, same⟩
    rw [Option.some.inj same]
    rfl

/-- An encoding is the digest of the IRI kind and the lexical hint only of an IRI with the right
hint. -/
theorem Encoder.text_iff (listed : ∀ h ∈ Hint.parts key, h ∈ all) :
    code = e.hasher.pair (Field.ofNat TermKind.iri.code)
        (Hint.told all values (.lexicalHash (.key key))) ↔
      ∃ text, t = .iri text ∧
        e.hasher.onText text = Hint.told all values (.lexicalHash (.key key)) := by
  obtain ⟨inner, found, listedRow, rfl⟩ := Encoder.encode_ok encoded
  constructor
  · intro same
    have equal := Hasher.eq_of_digest clear (rows _ (Row.mem_inputs held listedRow))
      (hints _ (Hint.mem_inputs_parts e.hasher values listed _ rfl).1) same
    injection equal with kinds inners
    have kind := TermKind.code_injective kinds
    cases t with
    | iri text => exact ⟨text, rfl, (Except.ok.inj found).trans inners⟩
    | blank _ | literal _ _ _ | defaultGraph | _ => simp [Term.kind] at kind
  · rintro ⟨text, rfl, same⟩
    rw [← same, ← Except.ok.inj found]
    rfl

/-- An encoding is the digest of the hinted parts only of a literal with the right hints. -/
theorem Encoder.parts_iff (listed : ∀ h ∈ Hint.parts key, h ∈ all) :
    code = e.hasher.pair (Field.ofNat TermKind.literal.code)
        (e.hasher.quadruple (Hint.told all values (.lexicalHash (.key key)))
          (Hint.told all values (.specialValue (.key key)))
          (Hint.told all values (.langHash (.key key)))
          (Hint.told all values (.datatypeEncoding (.key key)))) ↔
      ∃ value lang datatype parts, t = .literal value lang datatype ∧
        e.literalParts value lang datatype = .ok parts ∧
          parts.lexical = Hint.told all values (.lexicalHash (.key key)) ∧
          parts.special = Hint.told all values (.specialValue (.key key)) ∧
          parts.lang = Hint.told all values (.langHash (.key key)) ∧
          parts.datatype = Hint.told all values (.datatypeEncoding (.key key)) := by
  obtain ⟨_, listedParts, listedPair⟩ := Hint.mem_inputs_parts e.hasher values listed _ rfl
  constructor
  · intro same
    obtain ⟨inner, found, listedRow, rfl⟩ := Encoder.encode_ok encoded
    have equal := Hasher.eq_of_digest clear (rows _ (Row.mem_inputs held listedRow))
      (hints _ listedPair) same
    injection equal with kinds inners
    have kind := TermKind.code_injective kinds
    cases t with
    | literal value lang datatype =>
      obtain ⟨parts, made, inside, listedTerm⟩ := Encoder.encode_literal encoded
      rw [Except.ok.inj (found.symm.trans inside)] at inners
      have quadruples := Hasher.eq_of_digest clear (rows _ (Row.mem_inputs held listedTerm))
        (hints _ listedParts) inners
      injection quadruples with lexical special tongue datatypeOf
      exact ⟨value, lang, datatype, parts, rfl, made, lexical, special, tongue, datatypeOf⟩
    | iri _ | blank _ | defaultGraph | _ => simp [Term.kind] at kind
  · rintro ⟨value, lang, datatype, parts, rfl, made, lexical, special, tongue, datatypeOf⟩
    obtain ⟨inner, found, _, rfl⟩ := Encoder.encode_ok encoded
    obtain ⟨again, madeAgain, inside, _⟩ := Encoder.encode_literal encoded
    obtain rfl := Except.ok.inj (made.symm.trans madeAgain)
    rw [Except.ok.inj (found.symm.trans inside), ← lexical, ← special, ← tongue, ← datatypeOf]
    rfl

/-- The tie of the parts of a literal holds exactly where the reading knows them, and then the hints
are these parts. -/
theorem Reading.parts_spec {visible : KeySet} (shown : visible.contains key = true)
    (listed : ∀ h ∈ Hint.parts key, h ∈ all) :
    (code == e.hasher.pair (Field.ofNat TermKind.literal.code)
        (e.hasher.quadruple (Hint.told all values (.lexicalHash (.key key)))
          (Hint.told all values (.specialValue (.key key)))
          (Hint.told all values (.langHash (.key key)))
          (Hint.told all values (.datatypeEncoding (.key key))))) =
        ((ofHints e row visible all values).parts? key).isSome ∧
      ∀ parts, (ofHints e row visible all values).parts? key = some parts →
        parts.lexical = Hint.told all values (.lexicalHash (.key key)) ∧
        parts.special = Hint.told all values (.specialValue (.key key)) ∧
        parts.lang = Hint.told all values (.langHash (.key key)) ∧
        parts.datatype = Hint.told all values (.datatypeEncoding (.key key)) := by
  have iff := Encoder.parts_iff clear rows hints held encoded listed
  by_cases literal : ∃ value lang datatype, t = .literal value lang datatype
  · obtain ⟨value, lang, datatype, rfl⟩ := literal
    obtain ⟨parts, made, _⟩ := Encoder.encode_literal encoded
    rw [parts_ofHints shown listed held made]
    split
    next right =>
      have tied := iff.2 ⟨value, lang, datatype, parts, rfl, made, right⟩
      refine ⟨by rw [beq_iff_eq.2 tied]; rfl, ?_⟩
      rintro _ ⟨⟩
      exact right
    next wrong =>
      refine ⟨?_, by simp⟩
      rw [Option.isSome_none, beq_eq_false_iff_ne]
      intro tied
      obtain ⟨_, _, _, again, same, madeAgain, right⟩ := iff.1 tied
      obtain ⟨rfl, rfl, rfl⟩ := Term.literal.inj same
      obtain rfl := Except.ok.inj (made.symm.trans madeAgain)
      exact wrong right
  · have none : (ofHints e row visible all values).parts? key = none := by
      apply parts_eq_none
      intro value lang datatype found
      rw [row_ofHints shown, held] at found
      exact literal ⟨value, lang, datatype, Option.some.inj found⟩
    rw [none]
    refine ⟨?_, by simp⟩
    rw [Option.isSome_none, beq_eq_false_iff_ne]
    intro tied
    obtain ⟨value, lang, datatype, _, same, _⟩ := iff.1 tied
    exact literal ⟨value, lang, datatype, same⟩

/-- The text of an IRI or a literal is tied to its hint exactly where the reading knows its hash. -/
theorem Reading.text_spec {visible : KeySet} (shown : visible.contains key = true)
    (listed : ∀ h ∈ Hint.parts key, h ∈ all) :
    (code == e.hasher.pair (Field.ofNat TermKind.iri.code)
          (Hint.told all values (.lexicalHash (.key key))) ||
        ((ofHints e row visible all values).parts? key).isSome) =
        ((ofHints e row visible all values).textHash? key).isSome ∧
      ∀ x, (ofHints e row visible all values).textHash? key = some x →
        x = Hint.told all values (.lexicalHash (.key key)) := by
  have iff := Encoder.text_iff clear rows hints held encoded listed
  have lexical : Hint.lexicalHash (.key key) ∈ all := listed _ (by simp [Hint.parts])
  obtain ⟨_, known⟩ := parts_spec clear rows hints held encoded shown listed
  by_cases iri : ∃ text, t = .iri text
  · obtain ⟨text, rfl⟩ := iri
    have none : (ofHints e row visible all values).parts? key = none := by
      apply parts_eq_none
      intro value lang datatype found
      rw [row_ofHints shown, held] at found
      simp at found
    have wrong : (ofHints e row visible all values).wrong (.lexicalHash (.key key)) =
        !(e.hasher.onText text == Hint.told all values (.lexicalHash (.key key))) :=
      wrong_ofHints lexical rfl (given_text held)
    have encoder : (ofHints e row visible all values).encoder = e := rfl
    rw [textHash?, row_ofHints shown, held, none, encoder]
    simp only [wrong, Bool.not_eq_true']
    by_cases right : e.hasher.onText text = Hint.told all values (.lexicalHash (.key key))
    · rw [if_neg (by simp [right]), beq_iff_eq.2 (iff.2 ⟨text, rfl, right⟩)]
      refine ⟨rfl, ?_⟩
      rintro _ ⟨⟩
      exact right
    · rw [if_pos (by simpa using right)]
      refine ⟨?_, by simp⟩
      rw [Option.isSome_none, Bool.or_false, Option.isSome_none, beq_eq_false_iff_ne]
      intro same
      obtain ⟨_, equal, told⟩ := iff.1 same
      obtain rfl := Term.iri.inj equal
      exact right told
  · have hash : (ofHints e row visible all values).textHash? key =
        ((ofHints e row visible all values).parts? key).map (·.lexical) := by
      rw [textHash?, row_ofHints shown, held]
      split
      next text found => exact absurd ⟨text, Option.some.inj found⟩ iri
      next => rfl
    have apart : (code == e.hasher.pair (Field.ofNat TermKind.iri.code)
        (Hint.told all values (.lexicalHash (.key key)))) = false := by
      rw [beq_eq_false_iff_ne]
      intro same
      obtain ⟨text, equal, _⟩ := iff.1 same
      exact iri ⟨text, equal⟩
    rw [hash, apart, Bool.false_or, Option.isSome_map]
    refine ⟨rfl, ?_⟩
    intro x found
    obtain ⟨parts, same, rfl⟩ := Option.map_eq_some_iff.1 found
    exact (known parts same).1

end Key

/-! ## The reading of a view -/

theorem View.holds_tie (length : all.length ≤ v.hints.length) {h : Hasher} {key : String}
    {wire : Wire} {code : Field} (listed : ∀ hint ∈ Hint.parts key, hint ∈ all)
    (read : v.field h wire = .ok code) :
    v.holds h (Parts.ofKey all key wire).tie = .ok (code ==
      h.pair (Field.ofNat TermKind.literal.code)
        (h.quadruple ((Hint.lexicalHash (.key key)).told all v.hints)
          ((Hint.specialValue (.key key)).told all v.hints)
          ((Hint.langHash (.key key)).told all v.hints)
          ((Hint.datatypeEncoding (.key key)).told all v.hints))) := by
  simp only [Hint.parts, List.forall_mem_cons] at listed
  apply View.holds_eq read
  exact View.field_hash2 rfl (View.field_hash4 (View.field_hint length listed.1 h)
    (View.field_hint length listed.2.1 h) (View.field_hint length listed.2.2.1 h)
    (View.field_hint length listed.2.2.2.1 h))

theorem View.holds_tagged (length : all.length ≤ v.hints.length) {h : Hasher} {hint : Hint}
    {wire : Wire} {code : Field} (listed : hint ∈ all) (read : v.field h wire = .ok code)
    (kind : TermKind) :
    v.holds h (.eq wire (Compiling.taggedWire kind (hint.wire all))) =
      .ok (code == h.pair (Field.ofNat kind.code) (hint.told all v.hints)) :=
  View.holds_eq read (View.field_hash2 rfl (View.field_hint length listed h))

/-- Among hash inputs without collision, a view with any hints represents the reading in which the
hints are wrong whose values differ from those of the row. -/
theorem View.Holds.represents (holds : v.Holds s row all)
    (clear : ¬ s.encoder.hasher.Collides exhibited)
    (rows : ∀ input ∈ row.inputs s.encoder, input ∈ exhibited)
    (hints : ∀ input ∈ Hint.inputs s.encoder.hasher all v.hints, input ∈ exhibited) :
    v.Represents s all (Reading.ofHints s.encoder row s.visible all v.hints) where
  encoder := rfl
  unbound key absent := by
    by_cases shown : s.visible.contains key = true
    · rw [Reading.row_ofHints shown, holds.unbound key absent shown]
    · simp [Reading.ofHints, shown]
  bound key wire found := by
    obtain ⟨t, code, held, encoded, read⟩ := holds.bound key wire found
    refine ⟨t, code, ?_, encoded, read⟩
    rw [Reading.row_ofHints (s.visible_of_keyWire found), held]
  readable h listed := ⟨_, View.field_hint holds.length listed s.encoder.hasher⟩
  trusted h listed untied := by
    rw [View.field_hint holds.length listed s.encoder.hasher]
    simp [Reading.ofHints, listed, untied]
  tie key wire found listed := by
    obtain ⟨t, code, held, encoded, read⟩ := holds.bound key wire found
    rw [View.truth_of_holds (View.holds_tie holds.length listed read)]
    exact (Reading.parts_spec clear rows hints held encoded (s.visible_of_keyWire found) listed).1
  parts key wire found listed parts known := by
    obtain ⟨t, code, held, encoded, read⟩ := holds.bound key wire found
    obtain ⟨lexical, special, tongue, datatypeOf⟩ := (Reading.parts_spec clear rows hints held
      encoded (s.visible_of_keyWire found) listed).2 parts known
    rw [lexical, special, tongue, datatypeOf]
    have told (h : Hint) (among : h ∈ Hint.parts key) :=
      View.field_hint holds.length (listed h among) s.encoder.hasher
    simp only [Hint.parts, List.forall_mem_cons] at told
    exact ⟨told.1, told.2.1, told.2.2.1, told.2.2.2.1⟩
  text key wire found listed := by
    obtain ⟨t, code, held, encoded, read⟩ := holds.bound key wire found
    have lexical : Hint.lexicalHash (.key key) ∈ all := listed _ (by simp [Hint.parts])
    have iri := View.holds_tagged holds.length lexical read .iri
    have tie := View.holds_tie holds.length listed read
    have decided : ∀ part ∈ [Assertion.eq wire (Compiling.taggedWire .iri
        (Parts.ofKey all key wire).lexical), (Parts.ofKey all key wire).tie],
        v.Decides s.encoder.hasher part := by
      rw [List.forall_mem_cons, List.forall_mem_singleton]
      exact ⟨View.decides_of_holds iri, View.decides_of_holds tie⟩
    rw [View.truth_any decided, List.any_cons, List.any_cons, List.any_nil, Bool.or_false,
      View.truth_of_holds tie]
    have parts := Reading.parts_spec clear rows hints held encoded (s.visible_of_keyWire found)
      listed
    have text := Reading.text_spec clear rows hints held encoded (s.visible_of_keyWire found)
      listed
    rw [← text.1, ← parts.1]
    exact congrArg (· || _) (View.truth_of_holds iri)
  textHash key wire found listed x known := by
    obtain ⟨t, code, held, encoded, read⟩ := holds.bound key wire found
    rw [(Reading.text_spec clear rows hints held encoded (s.visible_of_keyWire found) listed).2 x
      known]
    exact View.field_hint holds.length (listed _ (by simp [Hint.parts])) s.encoder.hasher
  kind key wire kind found listed := by
    obtain ⟨t, code, held, encoded, read⟩ := holds.bound key wire found
    have shown := s.visible_of_keyWire found
    obtain ⟨inner, found, _, _⟩ := Encoder.encode_ok encoded
    have gives := Reading.given_inner held found
    have iff := Encoder.inner_iff clear rows hints held encoded listed kind
    rw [View.truth_of_holds (View.holds_tagged holds.length listed read kind),
      Reading.wrong_ofHints listed rfl gives, Reading.row_ofHints shown, held, Bool.eq_iff_iff,
      beq_iff_eq, Bool.not_not, Bool.and_eq_true, beq_iff_eq, Option.any_some, beq_iff_eq]
    rw [gives] at iff
    constructor
    · intro same
      obtain ⟨kinds, inners⟩ := iff.1 same
      exact ⟨Option.some.inj inners, kinds⟩
    · rintro ⟨inners, kinds⟩
      exact iff.2 ⟨kinds, congrArg some inners⟩

end Separated

end AttestedQuery
