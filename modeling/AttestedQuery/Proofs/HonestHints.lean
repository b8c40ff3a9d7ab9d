import AttestedQuery.Proofs.Truth

/-!
# What honest hints decide

Where the hints are those that the row gives, a filter is accepted exactly where it means true,
unless two hash inputs collide. The inputs depend on the row alone: they are hashed to encode its
terms, and to check any hints about them that a filter may ask for.
-/

set_option autoImplicit false

namespace AttestedQuery

theorem Encoder.parts_of_ok {e : Encoder} {value datatype : String} {lang : Option String}
    {parts : LiteralParts} (made : e.literalParts value lang datatype = .ok parts) :
    parts = ⟨e.hasher.onText value, (Special.ofLiteral value datatype).toField e.hasher value,
      e.hasher.onText (lang.getD ""), e.encodeIri datatype⟩ := by
  unfold Encoder.literalParts at made
  split at made
  · cases made
  · exact (Except.ok.inj made).symm

namespace Row

def Encodes (e : Encoder) (row : Row) : Prop :=
  ∀ key t, row.get? key = some t → ∃ code, e.encode t = .ok code

theorem Encodes.parts {e : Encoder} {row : Row} (encodes : row.Encodes e) {key value : String}
    {lang : Option String} {datatype : String}
    (held : row.get? key = some (.literal value lang datatype)) :
    ∃ parts, e.literalParts value lang datatype = .ok parts := by
  obtain ⟨code, encoded⟩ := encodes key _ held
  obtain ⟨parts, made, _⟩ := Encoder.encode_literal encoded
  exact ⟨parts, made⟩

theorem encodes_single {e : Encoder} {t : Term} {code : Field} (key : String)
    (encoded : e.encode t = .ok code) : Row.Encodes e (KeyMap.ofList [(key, t)]) := by
  intro other u held
  have member : (other, u) ∈ [(key, t)] := (KeyMap.mem_entries_iff _ other u).2 held
  obtain ⟨rfl, rfl⟩ := Prod.mk.inj (List.mem_singleton.1 member)
  exact ⟨code, encoded⟩

/-- The hints about the keys of a row that constraints tie to its encodings. -/
def tied (row : Row) : List Hint :=
  row.keys.flatMap fun key => .termInner (.key key) :: Hint.parts key

/-- Two different inputs have one digest, among those hashed to encode a row and to check the hints
about its keys. -/
def Collides (e : Encoder) (row : Row) : Prop :=
  e.hasher.Collides (row.exhibited e row.tied)

variable {e : Encoder} {row : Row} {hints : List Hint} {key : String} {wire : Wire}

theorem mem_tied {h : Hint} (held : (row.get? key).isSome = true)
    (about : h = .termInner (.key key) ∨ h ∈ Hint.parts key) : h ∈ row.tied := by
  refine List.mem_flatMap.2 ⟨key, (KeyMap.mem_keys_iff row key).2 held, ?_⟩
  exact List.mem_cons.2 about

theorem field_hint {h : Hint} (listed : h ∈ hints) (hasher : Hasher) :
    (row.view e hints).field hasher (h.wire hints) = .ok (row.hintValue e h) := by
  simp [Hint.wire, View.field, view, List.getElem?_idxOf listed]

theorem field_parts (wire : Wire) (listed : ∀ h ∈ Hint.parts key, h ∈ hints) (hasher : Hasher) :
    (row.view e hints).field hasher (Parts.ofKey hints key wire).lexical =
        .ok (row.hintValue e (.lexicalHash (.key key))) ∧
      (row.view e hints).field hasher (Parts.ofKey hints key wire).special =
        .ok (row.hintValue e (.specialValue (.key key))) ∧
      (row.view e hints).field hasher (Parts.ofKey hints key wire).lang =
        .ok (row.hintValue e (.langHash (.key key))) ∧
      (row.view e hints).field hasher (Parts.ofKey hints key wire).datatype =
        .ok (row.hintValue e (.datatypeEncoding (.key key))) := by
  simp only [Hint.parts, List.forall_mem_cons] at listed
  exact ⟨field_hint listed.1 _, field_hint listed.2.1 _, field_hint listed.2.2.1 _,
    field_hint listed.2.2.2.1 _⟩

theorem presents (e : Encoder) (row : Row) (hints : List Hint) :
    (row.view e hints).Presents (row.surroundings e) row hints where
  keys key := by
    rw [keyWire_surroundings]
    cases (row.get? key).isSome <;> rfl
  bound key wire found := by
    rw [keyWire_surroundings] at found
    split at found
    · exact (Option.some.inj found) ▸ rfl
    · cases found
  hints h listed _ := field_hint listed _

theorem keyWire_eq (found : (row.surroundings e).keyWire? key = some wire) :
    (row.get? key).isSome = true ∧ wire = .const (row.code e key) := by
  rw [keyWire_surroundings] at found
  split at found
  next held => exact ⟨held, (Option.some.inj found).symm⟩
  next => cases found

section Checks

variable (found : (row.surroundings e).keyWire? key = some wire)

include found

theorem truth_inner (kind : TermKind) (listed : Hint.termInner (.key key) ∈ hints) :
    (row.view e hints).truth e.hasher (.eq wire (Compiling.taggedWire kind
      ((Hint.termInner (.key key)).wire hints))) =
        (row.code e key == e.tagged kind (row.hintValue e (.termInner (.key key)))) := by
  rw [(keyWire_eq found).2]
  exact View.truth_eq rfl (View.field_hash2 rfl (field_hint listed _))

variable (listed : ∀ h ∈ Hint.parts key, h ∈ hints)

include listed

theorem truth_text : (row.view e hints).truth e.hasher (.eq wire (Compiling.taggedWire .iri
    (Parts.ofKey hints key wire).lexical)) =
      (row.code e key == e.tagged .iri (row.hintValue e (.lexicalHash (.key key)))) := by
  rw [(keyWire_eq found).2]
  exact View.truth_eq rfl (View.field_hash2 rfl (field_parts wire listed _).1)

theorem truth_tie : (row.view e hints).truth e.hasher (Parts.ofKey hints key wire).tie =
    (row.code e key == e.tagged .literal (e.hasher.quadruple
      (row.hintValue e (.lexicalHash (.key key))) (row.hintValue e (.specialValue (.key key)))
      (row.hintValue e (.langHash (.key key))) (row.hintValue e (.datatypeEncoding (.key key))))) := by
  obtain ⟨lexical, special, tongue, datatypeOf⟩ := field_parts wire listed e.hasher
  rw [(keyWire_eq found).2] at *
  exact View.truth_eq rfl (View.field_hash2 rfl (View.field_hash4 lexical special tongue datatypeOf))

theorem truth_textOrTie : (row.view e hints).truth e.hasher (.any [.eq wire
    (Compiling.taggedWire .iri (Parts.ofKey hints key wire).lexical),
      (Parts.ofKey hints key wire).tie]) =
    (row.code e key == e.tagged .iri (row.hintValue e (.lexicalHash (.key key))) ||
      row.code e key == e.tagged .literal (e.hasher.quadruple
        (row.hintValue e (.lexicalHash (.key key))) (row.hintValue e (.specialValue (.key key)))
        (row.hintValue e (.langHash (.key key)))
        (row.hintValue e (.datatypeEncoding (.key key))))) := by
  obtain ⟨lexical, special, tongue, datatypeOf⟩ := field_parts wire listed e.hasher
  rw [View.truth_any, List.any_cons, List.any_cons, List.any_nil, Bool.or_false,
    truth_text found listed, truth_tie found listed]
  rw [List.forall_mem_cons, List.forall_mem_singleton, (keyWire_eq found).2] at *
  exact ⟨View.decides_eq rfl (View.field_hash2 rfl lexical),
    View.decides_eq rfl (View.field_hash2 rfl (View.field_hash4 lexical special tongue datatypeOf))⟩

end Checks

/-- A view with any hints of a row represents the row, where the inputs of the row do not collide:
a constraint on a hint says the same over every list that has the hint. -/
theorem represents_of_clear (encodes : row.Encodes e) (clear : ¬ row.Collides e)
    (hints : List Hint) :
    (row.view e hints).Represents (row.surroundings e) hints (row.reading e) := by
  -- The hints of the row are the same in every list, so what is known of one list carries over.
  have tied := represents encodes clear
  have member {key : String} {wire : Wire}
      (found : (row.surroundings e).keyWire? key = some wire) :
      Hint.termInner (.key key) ∈ row.tied ∧ ∀ h ∈ Hint.parts key, h ∈ row.tied :=
    ⟨mem_tied (keyWire_eq found).1 (Or.inl rfl), fun h part =>
      mem_tied (keyWire_eq found).1 (Or.inr part)⟩
  refine ⟨rfl, tied.unbound, ?_, ?_, ?_, ?_, ?_, ?_, ?_, ?_⟩
  · intro key wire found
    exact (view_holds encodes).bound key wire found
  · intro h listed
    exact ⟨_, field_hint listed _⟩
  · intro h listed _
    exact field_hint listed _
  · intro key wire found listed
    rw [← tied.tie key wire found (member found).2, show (row.surroundings e).encoder = e from rfl,
      truth_tie found listed, truth_tie found (member found).2]
  · intro key wire found listed parts known
    obtain ⟨lexical, special, tongue, datatypeOf⟩ := field_parts wire listed e.hasher
    obtain ⟨first, second, third, fourth⟩ := field_parts wire (member found).2 e.hasher
    obtain ⟨one, two, three, four⟩ := tied.parts key wire found (member found).2 parts known
    exact ⟨lexical.trans (first.symm.trans one), special.trans (second.symm.trans two),
      tongue.trans (third.symm.trans three), datatypeOf.trans (fourth.symm.trans four)⟩
  · intro key wire found listed
    rw [← tied.text key wire found (member found).2, show (row.surroundings e).encoder = e from rfl,
      truth_textOrTie found listed, truth_textOrTie found (member found).2]
  · intro key wire found listed x known
    exact (field_parts wire listed e.hasher).1.trans ((field_parts wire (member found).2
      e.hasher).1.symm.trans (tied.textHash key wire found (member found).2 x known))
  · intro key wire kind found listed
    rw [← tied.kind key wire kind found (member found).1,
      show (row.surroundings e).encoder = e from rfl, truth_inner found kind listed,
      truth_inner found kind (member found).1]

theorem meaning_key (encodes : row.Encodes e) {key : String} {t : Term}
    (held : row.get? key = some t) :
    ∃ code, e.encode t = .ok code ∧
      (row.reading e).meaning (.var key) = .term (some code) (.key key) := by
  obtain ⟨code, encoded⟩ := encodes key t held
  refine ⟨code, encoded, ?_⟩
  have read : (row.reading e).row key = some t := held
  have encoder : (row.reading e).encoder = e := rfl
  rw [Reading.meaning, read]
  dsimp only
  rw [encoder, encoded]
  rfl

theorem meaning_unbound {key : String} (absent : row.get? key = none) :
    (row.reading e).meaning (.var key) = .error := by
  have read : (row.reading e).row key = none := absent
  rw [Reading.meaning, read]

theorem meaning_term {t : Term} {code : Field} (encoded : e.encode t = .ok code) :
    (row.reading e).meaning (.const t) = .term (some code) (.const t) := by
  have encoder : (row.reading e).encoder = e := rfl
  rw [Reading.meaning, Reading.constant, encoder, encoded]
  rfl

/-- An expression is true of a row exactly if it means true in the reading of the row, where no hash
inputs of the row collide. -/
theorem satisfies_iff_outcome (encodes : row.Encodes e) (clear : ¬ row.Collides e)
    {expression : Expr} {c : Condition} {hints : List Hint}
    (compiled : (row.surroundings e).condition expression [] = .ok (c, hints)) :
    row.satisfies e expression = true ↔ (row.reading e).outcome expression = some true :=
  satisfies_iff_of_represents compiled (represents_of_clear encodes clear hints)

end Row

/-- A filter holds over a view that presents a row exactly where it means true of the row, unless
inputs of the row collide. -/
theorem View.Presents.holds_iff {v : View} {s : Surroundings} {row : Row}
    {before after all : List Hint} {expression : Expr} {c : Condition}
    (presents : v.Presents s row all) (continues : after <+: all)
    (compiled : s.condition expression before = .ok (c, after))
    (encodes : row.Encodes s.encoder) (clear : ¬ row.Collides s.encoder) :
    v.holds s.encoder.hasher c.holds = .ok true ↔
      (row.reading s.encoder).outcome expression = some true := by
  obtain ⟨d, final, ran, _⟩ :=
    Surroundings.matches_condition presents.twins expression before [] c after compiled
  have decided := (s.yields_satisfies expression before c after compiled).2 all continues v row
    presents
  rw [decided, Except.ok.injEq]
  exact Row.satisfies_iff_outcome encodes clear ran

theorem Surroundings.condition_not {s : Surroundings} {expression : Expr} {c : Condition}
    {before after : List Hint} (compiled : s.condition expression before = .ok (c, after)) :
    s.condition (.not expression) before = .ok (c.negated, after) :=
  run_bind_ok_iff.2 ⟨c, after, compiled, rfl⟩

/-! ## Datatypes -/

theorem Text.afterPart_eq_some_iff {part text rest : List Char} :
    afterPart part text = some rest ↔ text = part ++ rest := by
  induction part generalizing text with
  | nil => simp [afterPart]
  | cons first others induction =>
    cases text with
    | nil => simp [afterPart]
    | cons c text =>
      rw [afterPart]
      by_cases same : first = c
      · simp [same, induction]
      · simp [same, Ne.symm same]

theorem xsdLocalName_iff {datatype name : String} :
    xsdLocalName? datatype = some name ↔ datatype = xsd ++ name := by
  rw [xsdLocalName?, Option.map_eq_some_iff]
  constructor
  · rintro ⟨rest, after, rfl⟩
    rw [← String.toList_inj, Text.afterPart_eq_some_iff.1 after]
    simp
  · rintro rfl
    exact ⟨name.toList, Text.afterPart_eq_some_iff.2 (by simp), by simp⟩

theorem isXsdType_append (names : List String) (name : String) :
    isXsdType names (xsd ++ name) = names.contains name := by
  rw [isXsdType, xsdLocalName_iff.2 rfl]

theorem isXsdType_iff {names : List String} {datatype : String} :
    isXsdType names datatype = true ↔ ∃ name ∈ names, datatype = xsd ++ name := by
  constructor
  · intro typed
    unfold isXsdType at typed
    split at typed
    next name found => exact ⟨name, List.contains_iff_mem.1 typed, xsdLocalName_iff.1 found⟩
    next => cases typed
  · rintro ⟨name, member, rfl⟩
    rw [isXsdType_append, List.contains_iff_mem]
    exact member

/-- Local names of the datatypes that conditions ask for. -/
def testedTypes : List String := numericTypes ++ ["string", "boolean", "dateTime"]

/-- Two different IRIs of a list have one encoding. -/
def Encoder.Confuses (e : Encoder) (iris : List String) : Prop :=
  ∃ a ∈ iris, ∃ b ∈ iris, a ≠ b ∧ e.encodeIri a = e.encodeIri b

namespace Row

def datatypes (row : Row) : List String :=
  row.entries.filterMap fun entry =>
    match entry.2 with
    | .literal _ _ datatype => some datatype
    | _ => none

/-- Two datatypes have one encoding, among those of a row and those that conditions ask for. -/
def Confuses (e : Encoder) (row : Row) : Prop :=
  e.Confuses (row.datatypes ++ testedTypes.map (xsd ++ ·))

variable {e : Encoder} {row : Row} {key value datatype : String} {lang : Option String}
  {parts : LiteralParts}

theorem mem_datatypes (held : row.get? key = some (.literal value lang datatype)) :
    datatype ∈ row.datatypes :=
  List.mem_filterMap.2 ⟨_, (KeyMap.mem_entries_iff row key _).2 held, rfl⟩

theorem parts_reading (held : row.get? key = some (.literal value lang datatype))
    (made : e.literalParts value lang datatype = .ok parts) :
    (row.reading e).parts? key = some parts := by
  have encoder : (row.reading e).encoder = e := rfl
  have wrong : (Hint.parts key).any (row.reading e).wrong = false := by simp [reading, Hint.parts]
  rw [Reading.parts?, wrong, if_neg Bool.false_ne_true, show (row.reading e).row key = _ from held,
    encoder]
  dsimp only
  rw [made]
  rfl

/-- A constraint on the datatype of a literal of a row says which one it is, unless two datatypes
have one encoding. -/
theorem typed_iff (clear : ¬ row.Confuses e)
    (held : row.get? key = some (.literal value lang datatype))
    (made : e.literalParts value lang datatype = .ok parts) {names : List String}
    (tested : ∀ name ∈ names, name ∈ testedTypes) :
    (row.reading e).typed parts names = isXsdType names datatype := by
  rw [Bool.eq_iff_iff, isXsdType_iff, Reading.typed, List.any_eq_true]
  refine exists_congr fun name => and_congr_right fun member => ?_
  rw [Encoder.parts_of_ok made, beq_iff_eq]
  constructor
  · intro same
    by_contra different
    exact clear ⟨datatype, List.mem_append_left _ (mem_datatypes held), xsd ++ name,
      List.mem_append_right _ (List.mem_map_of_mem (tested name member)), different, same⟩
  · rintro rfl
    rfl

end Row

/-! ## Constraints that honest hints meet -/

namespace View.Presents

variable {v : View} {s : Surroundings} {row : Row} {all : List Hint} {key : String} {wire : Wire}
  (presents : v.Presents s row all) (found : s.keyWire? key = some wire)

include presents found

theorem field_key {t : Term} {code : Field} (held : row.get? key = some t)
    (encoded : s.encoder.encode t = .ok code) : v.field s.encoder.hasher wire = .ok code := by
  rw [presents.bound key wire found, Row.code, held, Option.bind_some, encoded]
  rfl

theorem field_hint {h : Hint} (listed : h ∈ all) (about : h.keys = [key]) {x : Field}
    (given : Reading.given s.encoder row h = some x) :
    v.field s.encoder.hasher (h.wire all) = .ok x := by
  have known : ∀ other ∈ h.keys, (s.keyWire? other).isSome := by simp [about, found]
  rw [presents.hints h listed known, Row.hintValue, show (h.value s.encoder row).toOption = _ from
    given]
  rfl

variable (listed : ∀ h ∈ Hint.parts key, h ∈ all)

include listed

theorem field_lexical {t : Term} {lexical : String} (held : row.get? key = some t)
    (text : t.lexical? = some lexical) :
    v.field s.encoder.hasher (Parts.ofKey all key wire).lexical =
      .ok (s.encoder.hasher.onText lexical) := by
  refine presents.field_hint found (listed _ (by simp [Hint.parts])) rfl ?_
  simp [Reading.given, Hint.value, Hint.termOf, held, text, bind, Except.bind, pure, Except.pure,
    Except.toOption]

section Literal

variable {value datatype : String} {lang : Option String} {parts : LiteralParts}
  (held : row.get? key = some (.literal value lang datatype))
  (made : s.encoder.literalParts value lang datatype = .ok parts)

include held made

theorem field_parts :
    v.field s.encoder.hasher (Parts.ofKey all key wire).lexical = .ok parts.lexical ∧
      v.field s.encoder.hasher (Parts.ofKey all key wire).special = .ok parts.special ∧
      v.field s.encoder.hasher (Parts.ofKey all key wire).lang = .ok parts.lang ∧
      v.field s.encoder.hasher (Parts.ofKey all key wire).datatype = .ok parts.datatype := by
  obtain ⟨lexical, special, tongue, datatypeOf⟩ := Reading.given_parts held made
  simp only [Hint.parts, List.forall_mem_cons] at listed
  exact ⟨presents.field_hint found listed.1 rfl lexical,
    presents.field_hint found listed.2.1 rfl special,
    presents.field_hint found listed.2.2.1 rfl tongue,
    presents.field_hint found listed.2.2.2.1 rfl datatypeOf⟩

theorem holds_tie : v.holds s.encoder.hasher (Parts.ofKey all key wire).tie = .ok true := by
  obtain ⟨lexical, special, tongue, datatypeOf⟩ := presents.field_parts found listed held made
  have encoded : s.encoder.encode (.literal value lang datatype) =
      .ok (s.encoder.tagged .literal (s.encoder.combine parts)) := by
    rw [Encoder.encode, Encoder.inner, made]
    rfl
  refine (View.holds_eq (presents.field_key found held encoded) ?_).trans
    (congrArg Except.ok (beq_self_eq_true (s.encoder.tagged .literal (s.encoder.combine parts))))
  exact View.field_hash2 rfl (View.field_hash4 lexical special tongue datatypeOf)

/-- A literal meets the constraint that its datatype is one of several where it is one of them. -/
theorem truth_datatypeIn {names : List String} (typed : isXsdType names datatype = true) :
    v.truth s.encoder.hasher (s.datatypeIn (Parts.ofKey all key wire) names) = true := by
  have read := (presents.field_parts found listed held made).2.2.2
  obtain ⟨name, member, rfl⟩ := isXsdType_iff.1 typed
  rw [Surroundings.datatypeIn, View.truth_any, List.any_map, List.any_eq_true]
  · refine ⟨name, member, ?_⟩
    rw [Function.comp_apply, View.truth_eq read rfl, Encoder.parts_of_ok made]
    exact beq_self_eq_true _
  · intro part inside
    obtain ⟨other, _, rfl⟩ := List.mem_map.1 inside
    exact View.decides_eq read rfl

end Literal

theorem holds_text {text : String} (held : row.get? key = some (.iri text)) :
    v.holds s.encoder.hasher (.eq wire (Compiling.taggedWire .iri
      (Parts.ofKey all key wire).lexical)) = .ok true := by
  have read := presents.field_lexical found listed held rfl
  refine (View.holds_eq (presents.field_key found held rfl) ?_).trans
    (congrArg Except.ok (beq_self_eq_true (s.encoder.encodeIri text)))
  exact View.field_hash2 rfl read

end View.Presents

end AttestedQuery
