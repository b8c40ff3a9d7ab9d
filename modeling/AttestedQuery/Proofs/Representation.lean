import AttestedQuery.Proofs.Leaves
import AttestedQuery.Proofs.Meaning

/-!
# Views that represent a reading

A view represents a reading where the wires of keys hold the encodings of their terms, and where the
constraints that tie hints to these encodings hold exactly for the hints that are not wrong.
-/

set_option autoImplicit false

namespace AttestedQuery

def Operand.keys : Operand → List String
  | .key name => [name]
  | .term _ => []

def Hint.keys : Hint → List String
  | .lexicalHash operand | .specialValue operand | .langHash operand | .datatypeEncoding operand
  | .termInner operand | .strLen operand => operand.keys
  | .stringOrder left right => left.keys ++ right.keys

/-- Only the order of strings is asked about constants. -/
def Hint.isPlain : Hint → Bool
  | .lexicalHash (.term _) | .specialValue (.term _) | .langHash (.term _)
  | .datatypeEncoding (.term _) | .termInner (.term _) | .strLen (.term _) => false
  | _ => true

/-- The leaves of compiled filters: constants, the wires of keys that may be read, and hints about
such keys. -/
inductive Surroundings.Known (s : Surroundings) (all : List Hint) : Wire → Prop
  | const (x : Field) : Known s all (.const x)
  | key {key : String} {wire leaf : Wire} (found : s.keyWire? key = some wire)
    (member : leaf ∈ wire.leaves) : Known s all leaf
  | hint {h : Hint} (listed : h ∈ all) (plain : h.isPlain = true)
    (about : ∀ key ∈ h.keys, (s.keyWire? key).isSome) : Known s all (h.wire all)

/-- A view whose keys hold the encodings of a reading, and whose hints are wrong where those of the
reading are. -/
structure View.Represents (v : View) (s : Surroundings) (all : List Hint) (r : Reading) : Prop where
  encoder : r.encoder = s.encoder
  unbound : ∀ key, s.keyWire? key = none → r.row key = none
  bound : ∀ key wire, s.keyWire? key = some wire → ∃ t code,
    r.row key = some t ∧ s.encoder.encode t = .ok code ∧ v.field s.encoder.hasher wire = .ok code
  readable : ∀ h ∈ all, v.Readable s.encoder.hasher (h.wire all)
  trusted : ∀ h ∈ all, h.isTied = false → v.field s.encoder.hasher (h.wire all) = .ok (r.trusted h)
  tie : ∀ key wire, s.keyWire? key = some wire → (∀ h ∈ Hint.parts key, h ∈ all) →
    v.truth s.encoder.hasher (Parts.ofKey all key wire).tie = (r.parts? key).isSome
  parts : ∀ key wire, s.keyWire? key = some wire → (∀ h ∈ Hint.parts key, h ∈ all) →
    ∀ parts, r.parts? key = some parts →
      v.field s.encoder.hasher (Parts.ofKey all key wire).lexical = .ok parts.lexical ∧
      v.field s.encoder.hasher (Parts.ofKey all key wire).special = .ok parts.special ∧
      v.field s.encoder.hasher (Parts.ofKey all key wire).lang = .ok parts.lang ∧
      v.field s.encoder.hasher (Parts.ofKey all key wire).datatype = .ok parts.datatype
  text : ∀ key wire, s.keyWire? key = some wire → (∀ h ∈ Hint.parts key, h ∈ all) →
    v.truth s.encoder.hasher (.any [.eq wire (Compiling.taggedWire .iri
      (Parts.ofKey all key wire).lexical), (Parts.ofKey all key wire).tie]) =
        (r.textHash? key).isSome
  textHash : ∀ key wire, s.keyWire? key = some wire → (∀ h ∈ Hint.parts key, h ∈ all) →
    ∀ x, r.textHash? key = some x →
      v.field s.encoder.hasher (Parts.ofKey all key wire).lexical = .ok x
  kind : ∀ key wire kind, s.keyWire? key = some wire → Hint.termInner (.key key) ∈ all →
    v.truth s.encoder.hasher (.eq wire (Compiling.taggedWire kind
      ((Hint.termInner (.key key)).wire all))) =
        (!(r.wrong (.termInner (.key key))) && (r.row key).any (·.kind == kind))

/-! ## Reading known leaves -/

theorem View.readable_leaves {h : Hasher} {v : View} :
    (w : Wire) → v.Readable h w → ∀ leaf ∈ w.leaves, v.Readable h leaf
  | .hash2 a b, ⟨x, read⟩ => by
    obtain ⟨y, first, read⟩ := bind_ok_iff.1 read
    obtain ⟨z, second, read⟩ := bind_ok_iff.1 read
    rw [Wire.leaves, List.forall_mem_append]
    exact ⟨readable_leaves a ⟨y, first⟩, readable_leaves b ⟨z, second⟩⟩
  | .hash4 a b c d, ⟨x, read⟩ => by
    obtain ⟨p, first, read⟩ := bind_ok_iff.1 read
    obtain ⟨q, second, read⟩ := bind_ok_iff.1 read
    obtain ⟨r, third, read⟩ := bind_ok_iff.1 read
    obtain ⟨s, fourth, read⟩ := bind_ok_iff.1 read
    simp only [Wire.leaves, List.forall_mem_append]
    exact ⟨⟨⟨readable_leaves a ⟨p, first⟩, readable_leaves b ⟨q, second⟩⟩,
      readable_leaves c ⟨r, third⟩⟩, readable_leaves d ⟨s, fourth⟩⟩
  | .slot _ _, read | .variable _, read | .hint _, read | .const _, read => by
    simpa [Wire.leaves] using read

section Known

variable {s : Surroundings} {all : List Hint} {v : View} {r : Reading}

theorem View.Represents.leaf (represents : v.Represents s all r) {leaf : Wire}
    (known : s.Known all leaf) : v.Readable s.encoder.hasher leaf := by
  cases known with
  | const x => exact ⟨x, rfl⟩
  | key found member =>
    obtain ⟨_, code, _, _, read⟩ := represents.bound _ _ found
    exact View.readable_leaves _ ⟨code, read⟩ leaf member
  | hint listed => exact represents.readable _ listed

theorem View.Represents.wire (represents : v.Represents s all r) {w : Wire}
    (known : ∀ leaf ∈ w.leaves, s.Known all leaf) : v.Readable s.encoder.hasher w :=
  View.readable_of_leaves w fun leaf member => represents.leaf (known leaf member)

theorem View.Represents.decides (represents : v.Represents s all r) {a : Assertion}
    (reads : a.Reads (s.Known all)) : v.Decides s.encoder.hasher a :=
  View.decides_of_reads (reads.mono fun _ known => represents.leaf known)

theorem Surroundings.known_hint {key : String} {wire : Wire} (found : s.keyWire? key = some wire)
    {h : Hint} (listed : h ∈ all) (about : h.keys = [key]) :
    ∀ leaf ∈ (h.wire all).leaves, s.Known all leaf := by
  intro leaf member
  obtain rfl : leaf = h.wire all := by simpa [Hint.wire, Wire.leaves] using member
  have plain : h.isPlain = true := by
    cases h with
    | stringOrder left right => rfl
    | _ operand => cases operand <;> first | rfl | simp [Hint.keys, Operand.keys] at about
  apply Known.hint listed plain
  simp [about, found]

theorem Surroundings.known_key {key : String} {wire : Wire} (found : s.keyWire? key = some wire) :
    ∀ leaf ∈ wire.leaves, s.Known all leaf :=
  fun _ member => Known.key found member

theorem Surroundings.known_const (x : Field) : ∀ leaf ∈ (Wire.const x).leaves, s.Known all leaf := by
  intro leaf member
  obtain rfl : leaf = .const x := by simpa [Wire.leaves] using member
  exact Known.const x

theorem Surroundings.known_tagged (kind : TermKind) {w : Wire}
    (known : ∀ leaf ∈ w.leaves, s.Known all leaf) :
    ∀ leaf ∈ (Compiling.taggedWire kind w).leaves, s.Known all leaf := by
  rw [Compiling.taggedWire, Wire.leaves, List.forall_mem_append]
  exact ⟨known_const _, known⟩

/-- The wires of the parts of a literal, and the assertion that ties them, read known leaves. -/
structure Parts.Grounded (s : Surroundings) (all : List Hint) (parts : Parts) : Prop where
  lexical : ∀ leaf ∈ parts.lexical.leaves, s.Known all leaf
  special : ∀ leaf ∈ parts.special.leaves, s.Known all leaf
  lang : ∀ leaf ∈ parts.lang.leaves, s.Known all leaf
  datatype : ∀ leaf ∈ parts.datatype.leaves, s.Known all leaf
  tie : parts.tie.Reads (s.Known all)

theorem Parts.ofKey_grounded {key : String} {wire : Wire} (found : s.keyWire? key = some wire)
    (listed : ∀ h ∈ Hint.parts key, h ∈ all) : (Parts.ofKey all key wire).Grounded s all := by
  simp only [Hint.parts, List.forall_mem_cons] at listed
  have lexical := s.known_hint found listed.1 rfl
  have special := s.known_hint found listed.2.1 rfl
  have lang := s.known_hint found listed.2.2.1 rfl
  have datatype := s.known_hint found listed.2.2.2.1 rfl
  refine ⟨lexical, special, lang, datatype, ?_⟩
  apply Assertion.reads_eq (s.known_key found)
  apply s.known_tagged
  simp only [Wire.leaves, List.forall_mem_append]
  exact ⟨⟨⟨lexical, special⟩, lang⟩, datatype⟩

theorem Surroundings.reads_datatypeIn {parts : Parts} (grounded : parts.Grounded s all)
    (names : List String) : (s.datatypeIn parts names).Reads (s.Known all) := by
  apply Assertion.reads_any
  intro part member
  obtain ⟨name, _, rfl⟩ := List.mem_map.1 member
  exact Assertion.reads_eq grounded.datatype (s.known_const _)

end Known

end AttestedQuery
