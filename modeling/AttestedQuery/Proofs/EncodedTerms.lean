import AttestedQuery.Proofs.Caching
import AttestedQuery.Proofs.Signing
import AttestedQuery.Proofs.WrongHints

/-!
# Terms with one encoding

The encoding of a term is hashed in layers: the kind over a value below it, for a literal the four
parts in that value, and at the bottom the texts. Going down the layers of two terms with one
encoding, either all parts agree or one hash function has different inputs with one digest, one in
each encoding. The parts of a literal do not tell a missing language tag from the empty one.
-/

set_option autoImplicit false

namespace AttestedQuery

/-! ## Inputs of the hash functions -/

inductive HashInput where
  | text (octets : Octets)
  | pair (a b : Field)
  | quadruple (a b c d : Field)
  deriving DecidableEq

namespace HashInput

def ofText (text : String) : HashInput := .text (Octets.ofString text)

/-- Two different inputs of one hash function have one digest. -/
inductive Collide (h : Hasher) : HashInput → HashInput → Prop
  | text {a b : Octets} (differ : a ≠ b) (same : h.onOctets a = h.onOctets b) :
      Collide h (.text a) (.text b)
  | pair {a b c d : Field} (differ : (a, b) ≠ (c, d)) (same : h.pair a b = h.pair c d) :
      Collide h (.pair a b) (.pair c d)
  | quadruple {a b c d a' b' c' d' : Field} (differ : (a, b, c, d) ≠ (a', b', c', d'))
      (same : h.quadruple a b c d = h.quadruple a' b' c' d') :
      Collide h (.quadruple a b c d) (.quadruple a' b' c' d')

/-- An input of one list collides with one of the other. -/
def CollideIn (h : Hasher) (here there : List HashInput) : Prop :=
  ∃ a ∈ here, ∃ b ∈ there, Collide h a b

theorem CollideIn.mono {h : Hasher} {here there here' there' : List HashInput}
    (collide : CollideIn h here there) (first : here ⊆ here') (second : there ⊆ there') :
    CollideIn h here' there' := by
  obtain ⟨a, inside, b, member, collision⟩ := collide
  exact ⟨a, first inside, b, second member, collision⟩

section Apart

variable {h : Hasher} {here there : List HashInput} (apart : ¬CollideIn h here there)
include apart

theorem text_eq {a b : String} (inside : ofText a ∈ here) (member : ofText b ∈ there)
    (same : h.onText a = h.onText b) : a = b := by
  by_contra differ
  have octets : Octets.ofString a ≠ Octets.ofString b :=
    fun equal => differ (Octets.ofString_injective equal)
  exact apart ⟨_, inside, _, member, .text octets same⟩

theorem pair_eq {a b c d : Field} (inside : .pair a b ∈ here) (member : .pair c d ∈ there)
    (same : h.pair a b = h.pair c d) : a = c ∧ b = d := by
  by_contra differ
  exact apart ⟨_, inside, _, member, .pair (fun equal => differ (Prod.mk.inj equal)) same⟩

theorem quadruple_eq {a b c d a' b' c' d' : Field} (inside : .quadruple a b c d ∈ here)
    (member : .quadruple a' b' c' d' ∈ there)
    (same : h.quadruple a b c d = h.quadruple a' b' c' d') :
    a = a' ∧ b = b' ∧ c = c' ∧ d = d' := by
  by_contra differ
  refine apart ⟨_, inside, _, member, .quadruple (fun equal => differ ?_) same⟩
  simpa using equal

end Apart

end HashInput

/-- A literal without a language tag, and the same literal with an empty one. -/
def Term.LacksTag (bare tagged : Term) : Prop :=
  ∃ value datatype, bare = .literal value none datatype ∧
    tagged = .literal value (some "") datatype

namespace Encoder

open HashInput (ofText CollideIn)

variable (e : Encoder)

/-! ## Inputs of an encoding -/

def literalInputs (value : String) (lang : Option String) (datatype : String) : List HashInput :=
  [ofText value, ofText (lang.getD ""), ofText datatype,
    .pair (Field.ofNat TermKind.iri.code) (e.hasher.onText datatype)] ++
  match e.literalParts value lang datatype with
  | .ok parts => [.quadruple parts.lexical parts.special parts.lang parts.datatype]
  | .error _ => []

def innerInputs : Term → List HashInput
  | .iri text => [ofText text]
  | .blank label => [ofText ("_:" ++ label)]
  | .literal value lang datatype => e.literalInputs value lang datatype
  | .var name => [ofText name]
  | .defaultGraph => [ofText ""]

def allInputs (t : Term) : List HashInput :=
  e.innerInputs t ++
  match e.inner t with
  | .ok inner => [.pair (Field.ofNat t.kind.code) inner]
  | .error _ => []

variable {e}

theorem literalParts_ok {value datatype : String} {lang : Option String} {parts : LiteralParts}
    (made : e.literalParts value lang datatype = .ok parts) :
    parts.lexical = e.hasher.onText value ∧ parts.lang = e.hasher.onText (lang.getD "") ∧
      parts.datatype =
        e.hasher.pair (Field.ofNat TermKind.iri.code) (e.hasher.onText datatype) := by
  unfold literalParts at made
  split at made
  · cases made
  · obtain rfl := Except.ok.inj made
    exact ⟨rfl, rfl, rfl⟩

theorem literal_texts_eq {value value' datatype datatype' : String} {lang lang' : Option String}
    {x : Field} (apart : ¬CollideIn e.hasher (e.literalInputs value lang datatype)
      (e.literalInputs value' lang' datatype'))
    (here : e.inner (.literal value lang datatype) = .ok x)
    (there : e.inner (.literal value' lang' datatype') = .ok x) :
    value = value' ∧ lang.getD "" = lang'.getD "" ∧ datatype = datatype' := by
  obtain ⟨parts, made, rfl⟩ := map_ok_iff.1 here
  obtain ⟨parts', made', combined⟩ := map_ok_iff.1 there
  obtain ⟨lexical, language, typed⟩ := literalParts_ok made
  obtain ⟨lexical', language', typed'⟩ := literalParts_ok made'
  obtain ⟨lexicals, _, languages, types⟩ := HashInput.quadruple_eq apart
    (by simp [literalInputs, made]) (by simp [literalInputs, made']) combined.symm
  have named := HashInput.pair_eq apart (by simp [literalInputs]) (by simp [literalInputs])
    (typed.symm.trans (types.trans typed'))
  refine ⟨?_, ?_, ?_⟩
  · exact HashInput.text_eq apart (by simp [literalInputs]) (by simp [literalInputs])
      (lexical.symm.trans (lexicals.trans lexical'))
  · exact HashInput.text_eq apart (by simp [literalInputs]) (by simp [literalInputs])
      (language.symm.trans (languages.trans language'))
  · exact HashInput.text_eq apart (by simp [literalInputs]) (by simp [literalInputs]) named.2

/-- The value below the kind of a term is the digest of a text, and only that is hashed for it. -/
def Spells (e : Encoder) (t : Term) (text : String) : Prop :=
  e.innerInputs t = [ofText text] ∧ e.inner t = .ok (e.hasher.onText text)

/-- Terms of one kind with one value below it are the same but for an empty language tag. -/
theorem eq_of_inner {t u : Term} {x : Field} (kinds : t.kind = u.kind)
    (apart : ¬CollideIn e.hasher (e.innerInputs t) (e.innerInputs u))
    (here : e.inner t = .ok x) (there : e.inner u = .ok x) :
    t = u ∨ t.LacksTag u ∨ u.LacksTag t := by
  have texts {a b : String} (left : e.Spells t a) (right : e.Spells u b) : a = b := by
    have values := left.2.symm.trans (here.trans (there.symm.trans right.2))
    exact HashInput.text_eq apart (by simp [left.1]) (by simp [right.1]) (Except.ok.inj values)
  cases t with
  | iri text =>
    cases u with
    | iri text' =>
      left
      rw [texts ⟨rfl, rfl⟩ ⟨rfl, rfl⟩]
    | blank | literal | var | defaultGraph => cases kinds
  | blank label =>
    cases u with
    | blank label' =>
      have letters := congrArg String.toList (texts ⟨rfl, rfl⟩ ⟨rfl, rfl⟩)
      rw [String.toList_append, String.toList_append] at letters
      left
      rw [String.toList_inj.1 (List.append_cancel_left letters)]
    | iri | literal | var | defaultGraph => cases kinds
  | literal value lang datatype =>
    cases u with
    | literal value' lang' datatype' =>
      obtain ⟨rfl, tags, rfl⟩ := literal_texts_eq apart here there
      cases lang with
      | none =>
        cases lang' with
        | none => exact Or.inl rfl
        | some tag' =>
          obtain rfl : "" = tag' := tags
          exact Or.inr (Or.inl ⟨value, datatype, rfl, rfl⟩)
      | some tag =>
        cases lang' with
        | none =>
          obtain rfl : tag = "" := tags
          exact Or.inr (Or.inr ⟨value, datatype, rfl, rfl⟩)
        | some tag' =>
          obtain rfl : tag = tag' := tags
          exact Or.inl rfl
    | iri | blank | var | defaultGraph => cases kinds
  | var name =>
    cases u with
    | var name' =>
      left
      rw [texts ⟨rfl, rfl⟩ ⟨rfl, rfl⟩]
    | iri | blank | literal | defaultGraph => cases kinds
  | defaultGraph =>
    cases u with
    | defaultGraph => exact Or.inl rfl
    | iri | blank | literal | var => cases kinds

/-! ## Equal encodings -/

/-- Two terms with one encoding are equal, or one is a literal without a language tag and the other
is this literal with an empty one, or an input hashed in the one encoding collides with an input of
the same hash function in the other. -/
theorem eq_or_collide_of_encode (e : Encoder) (t u : Term) (x : Field)
    (here : e.encode t = .ok x) (there : e.encode u = .ok x) :
    t = u ∨ t.LacksTag u ∨ u.LacksTag t ∨ CollideIn e.hasher (e.allInputs t) (e.allInputs u) := by
  by_cases collide : CollideIn e.hasher (e.allInputs t) (e.allInputs u)
  · exact Or.inr (Or.inr (Or.inr collide))
  obtain ⟨inner, below, rfl⟩ := map_ok_iff.1 here
  obtain ⟨inner', below', tags⟩ := map_ok_iff.1 there
  obtain ⟨codes, rfl⟩ := HashInput.pair_eq collide (by simp [allInputs, below])
    (by simp [allInputs, below']) tags.symm
  have kinds := TermKind.code_injective codes
  have apart : ¬CollideIn e.hasher (e.innerInputs t) (e.innerInputs u) := fun within =>
    collide (within.mono (List.subset_append_left _ _) (List.subset_append_left _ _))
  obtain same | lacks | lacks := eq_of_inner kinds apart below below'
  · exact Or.inl same
  · exact Or.inr (Or.inl lacks)
  · exact Or.inr (Or.inr (Or.inl lacks))

/-- An empty language tag makes no difference to the encoding of a text. -/
theorem eq_or_collide_sample : ∃ x,
    sampleConfig.encoder.encode (.literal "chat" none xsdString) = .ok x ∧
    sampleConfig.encoder.encode (.literal "chat" (some "") xsdString) = .ok x ∧
    (Term.literal "chat" none xsdString = .literal "chat" (some "") xsdString ∨
      (Term.literal "chat" none xsdString).LacksTag (.literal "chat" (some "") xsdString) ∨
      (Term.literal "chat" (some "") xsdString).LacksTag (.literal "chat" none xsdString) ∨
      CollideIn sampleConfig.hasher
        (sampleConfig.encoder.allInputs (.literal "chat" none xsdString))
        (sampleConfig.encoder.allInputs (.literal "chat" (some "") xsdString))) := by
  have encodes : (sampleConfig.encoder.encode (.literal "chat" none xsdString)).isOk = true := rfl
  obtain ⟨x, encoded⟩ := exists_ok_of_isOk encodes
  exact ⟨x, encoded, encoded, eq_or_collide_of_encode _ _ _ x encoded encoded⟩

end Encoder

end AttestedQuery
