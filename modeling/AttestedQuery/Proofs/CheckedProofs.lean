import AttestedQuery.Proofs.Caching
import AttestedQuery.Proofs.ProjectedNames
import AttestedQuery.Proofs.Soundness

/-!
# What the digest of a checked witness binds

The digested text is a fingerprint of fixed length, the projected names, each closed by a zero, and
the public values in 32 octets each. No name holds a zero and no number stands between the names and
the values, so the text gives back both lists but for names whose octets could be values. Neither
the patterns nor the filters of the program are part of it.
-/

set_option autoImplicit false

namespace AttestedQuery

/-! ## The octets of a value -/

namespace Field

theorem length_toBigEndian (x : Field) : x.toBigEndian.length = 32 := by
  rw [toBigEndian, List.length_reverse, toLittleEndian, Octets.length_ofNatLittle]

theorem littleEndian_toLittleEndian (x : Field) : x.toLittleEndian.littleEndian = x.val := by
  have wide : modulus < Nat.pow 256 32 := by decide
  rw [toLittleEndian, Octets.littleEndian_ofNatLittle]
  exact Nat.mod_eq_of_lt (x.val_lt.trans wide)

theorem toBigEndian_injective {x y : Field} (same : x.toBigEndian = y.toBigEndian) : x = y := by
  have numbers := congrArg Octets.littleEndian (List.reverse_injective same)
  rw [littleEndian_toLittleEndian, littleEndian_toLittleEndian] at numbers
  cases x
  cases y
  congr

end Field

/-! ## The octets of a name -/

/-- Only the character zero has a zero in its UTF-8 form: the octets of longer forms have their
highest bit set. -/
theorem zero_not_mem_utf8EncodeChar {c : Char} (positive : 0 < c.toNat) :
    0 ∉ String.utf8EncodeChar c := by
  have differs {n : Nat} (above : 0 < n) (below : n < 256) : (0 : UInt8) ≠ UInt8.ofNat n := by
    intro zero
    have numbers := congrArg UInt8.toNat zero
    rw [UInt8.toNat_ofNat_of_lt' below] at numbers
    exact absurd numbers above.ne
  simp only [String.utf8EncodeChar]
  split
  next short =>
    have below : c.toNat ≤ 127 := short
    rw [List.mem_singleton]
    exact differs positive (by omega)
  next =>
    have lead {n width mark : Nat} (narrow : 0 < width ∧ 0 < mark ∧ width + mark ≤ 256) :
        (0 : UInt8) ≠ UInt8.ofNat (n % width + mark) :=
      differs (by omega) (by have := Nat.mod_lt n narrow.1; omega)
    split
    next =>
      simp only [List.mem_cons, List.not_mem_nil, or_false, not_or]
      exact ⟨lead (by decide), lead (by decide)⟩
    next =>
      split <;> simp only [List.mem_cons, List.not_mem_nil, or_false, not_or]
      · exact ⟨lead (by decide), lead (by decide), lead (by decide)⟩
      · exact ⟨lead (by decide), lead (by decide), lead (by decide), lead (by decide)⟩

open Sparql in
theorem zero_not_mem_ofString {name : String} (written : IsVariableName name) :
    0 ∉ Octets.ofString name := by
  intro member
  rw [← String.ofList_toList (s := name), Octets.ofString_ofList] at member
  obtain ⟨c, inside, zero⟩ := List.mem_flatMap.1 member
  refine zero_not_mem_utf8EncodeChar (Nat.pos_of_ne_zero fun none => ?_) zero
  have letter := written.2 c inside
  rw [← Char.ofNat_toNat c, none] at letter
  exact absurd letter (by decide)

/-! ## Fingerprints -/

theorem Hex.length_ofString_ofOctets (octets : Octets) :
    (Octets.ofString (ofOctets octets)).length = 2 * octets.length := by
  rw [ofString_ofOctets]
  induction octets with
  | nil => rfl
  | cons octet rest induction =>
    rw [List.flatMap_cons, List.length_append, induction, List.length_cons]
    simp only [digitCodes, List.length_cons, List.length_nil]
    omega

theorem Digest.length_wordsOctets (words : Vector UInt32 8) : (wordsOctets words).length = 32 := by
  simp [wordsOctets, List.length_flatMap, Octets.length_ofNatLittle]

theorem Digest.length_blake3 (input : Octets) : (blake3 input).length = 32 := by
  rw [blake3]
  split <;> exact length_wordsOctets _

theorem Config.length_fingerprint (c : Config) : (Octets.ofString c.fingerprint).length = 64 := by
  rw [fingerprint, Hex.length_ofString_ofOctets, Digest.length_blake3]

theorem Program.settings_of_compile {config : Config} {text : String} {p : Program}
    (compiled : compile config text = .ok p) :
    p.fingerprint = config.fingerprint ∧ p.skipSigning = config.skipSigning := by
  obtain ⟨_, made⟩ := compile_ok compiled
  obtain ⟨_, compiles⟩ := ofNormal_ok made
  exact ⟨compiles.fingerprint, compiles.skipSigning⟩

namespace Checker

open Sparql

/-! ## Texts of names and values -/

def namesText (names : List String) : Octets :=
  names.flatMap fun name => Octets.ofString name ++ [0]

def valuesText (values : List Field) : Octets := values.flatMap Field.toBigEndian

theorem length_valuesText (values : List Field) :
    (valuesText values).length = 32 * values.length := by
  simp [valuesText, List.length_flatMap, Field.length_toBigEndian, Nat.mul_comm]

theorem valuesText_append (front back : List Field) :
    valuesText (front ++ back) = valuesText front ++ valuesText back := List.flatMap_append

theorem valuesText_injective {values inputs : List Field}
    (same : valuesText values = valuesText inputs) : values = inputs := by
  have lengths := congrArg List.length same
  rw [length_valuesText, length_valuesText] at lengths
  induction values generalizing inputs with
  | nil =>
    obtain rfl := List.length_eq_zero_iff.1 (by simpa using lengths.symm)
    rfl
  | cons value rest induction =>
    cases inputs with
    | nil => simp at lengths
    | cons input others =>
      rw [valuesText, valuesText, List.flatMap_cons, List.flatMap_cons] at same
      obtain ⟨first, later⟩ := List.append_inj same
        (by rw [Field.length_toBigEndian, Field.length_toBigEndian])
      rw [Field.toBigEndian_injective first, induction later (by simpa using lengths)]

/-- The last values of a text are read back; what stands before them is the text of the others. -/
theorem valuesText_eq_append_iff {values inputs : List Field} {front : Octets} :
    valuesText values = front ++ valuesText inputs ↔
      ∃ spelt, front = valuesText spelt ∧ values = spelt ++ inputs := by
  constructor
  · intro same
    have lengths := congrArg List.length same
    rw [List.length_append, length_valuesText, length_valuesText] at lengths
    obtain ⟨spelt, last, rfl, count⟩ :
        ∃ spelt last, values = spelt ++ last ∧ last.length = inputs.length :=
      ⟨values.take (values.length - inputs.length), values.drop (values.length - inputs.length),
        (List.take_append_drop _ _).symm, by rw [List.length_drop]; omega⟩
    rw [valuesText_append] at same
    obtain ⟨before, after⟩ := List.append_inj' same
      (by rw [length_valuesText, length_valuesText, count])
    exact ⟨spelt, before.symm, by rw [valuesText_injective after]⟩
  · rintro ⟨spelt, rfl, rfl⟩
    exact valuesText_append spelt inputs

theorem namesText_append (front back : List String) :
    namesText (front ++ back) = namesText front ++ namesText back := List.flatMap_append

theorem namesText_cons_append (name : String) (rest : List String) (later : Octets) :
    namesText (name :: rest) ++ later = Octets.ofString name ++ 0 :: (namesText rest ++ later) := by
  simp [namesText]

/-- Two texts of names that go on: one list of names begins with the other, and the text of the
further names is what the other text goes on with. -/
theorem namesText_append_inj {names others : List String} {later after : Octets}
    (written : ∀ name ∈ names, IsVariableName name) (proper : ∀ name ∈ others, IsVariableName name)
    (same : namesText names ++ later = namesText others ++ after) :
    (∃ further, others = names ++ further ∧ later = namesText further ++ after) ∨
      ∃ further, names = others ++ further ∧ after = namesText further ++ later := by
  induction names generalizing others with
  | nil => exact Or.inl ⟨others, rfl, same⟩
  | cons name rest induction =>
    cases others with
    | nil => exact Or.inr ⟨name :: rest, rfl, same.symm⟩
    | cons other final =>
      rw [namesText_cons_append, namesText_cons_append] at same
      rw [List.forall_mem_cons] at written proper
      obtain ⟨letters, tails⟩ := append_mark_inj (zero_not_mem_ofString written.1)
        (zero_not_mem_ofString proper.1) same
      obtain rfl := Octets.ofString_injective letters
      obtain ⟨further, rfl, spelt⟩ | ⟨further, rfl, spelt⟩ := induction written.2 proper.2 tails
      · exact Or.inl ⟨further, rfl, spelt⟩
      · exact Or.inr ⟨further, rfl, spelt⟩

/-! ## Records with one text -/

/-- One list of names begins with the other, and the names that it has besides spell the values
that the other list of values has in front. -/
def Alike (names : List String) (values : List Field) (others : List String)
    (inputs : List Field) : Prop :=
  ∃ further spelt, namesText further = valuesText spelt ∧
    ((others = names ++ further ∧ values = spelt ++ inputs) ∨
      (names = others ++ further ∧ inputs = spelt ++ values))

theorem record_eq_iff {names others : List String} {values inputs : List Field}
    (written : ∀ name ∈ names, IsVariableName name)
    (proper : ∀ name ∈ others, IsVariableName name) :
    namesText names ++ valuesText values = namesText others ++ valuesText inputs ↔
      Alike names values others inputs := by
  constructor
  · intro same
    obtain ⟨further, begins, spells⟩ | ⟨further, begins, spells⟩ :=
      namesText_append_inj written proper same
    · obtain ⟨spelt, letters, whole⟩ := valuesText_eq_append_iff.1 spells
      exact ⟨further, spelt, letters, Or.inl ⟨begins, whole⟩⟩
    · obtain ⟨spelt, letters, whole⟩ := valuesText_eq_append_iff.1 spells
      exact ⟨further, spelt, letters, Or.inr ⟨begins, whole⟩⟩
  · rintro ⟨further, spelt, letters, ⟨rfl, rfl⟩ | ⟨rfl, rfl⟩⟩
    · rw [namesText_append, valuesText_append, letters, List.append_assoc]
    · rw [namesText_append, valuesText_append, letters, List.append_assoc]

/-- Records with as many values as names, or as many more on both sides, agree in both lists. -/
theorem Alike.eq_of_length {names others : List String} {values inputs : List Field} {more : Nat}
    (alike : Alike names values others inputs) (count : values.length = more + names.length)
    (asked : inputs.length = more + others.length) : others = names ∧ inputs = values := by
  obtain ⟨further, spelt, _, ⟨rfl, rfl⟩ | ⟨rfl, rfl⟩⟩ := alike
  all_goals
    rw [List.length_append] at count asked
    have none : further.length = 0 := by omega
    have nothing : spelt.length = 0 := by omega
    obtain rfl := List.length_eq_zero_iff.1 none
    obtain rfl := List.length_eq_zero_iff.1 nothing
    simp

theorem Alike.refl (names : List String) (values : List Field) : Alike names values names values :=
  ⟨[], [], rfl, Or.inl ⟨(List.append_nil names).symm, rfl⟩⟩

/-! ## Digests -/

/-- The texts of two records are different and have one BLAKE3 digest. -/
def Collide (p : Program) (values : List Field) (q : Program) (inputs : List Field) : Prop :=
  material p values ≠ material q inputs ∧
    Digest.blake3 (material p values) = Digest.blake3 (material q inputs)

theorem material_eq (p : Program) (inputs : List Field) : material p inputs =
    Octets.ofString p.fingerprint ++ (namesText p.projected ++ valuesText inputs) :=
  List.append_assoc ..

/-- The digested texts of two compiled programs are one text where the fingerprints are equal and
the records are alike. -/
theorem material_eq_iff {config other : Config} {text against : String} {p q : Program}
    (compiled : Program.compile config text = .ok p)
    (checked : Program.compile other against = .ok q) {values inputs : List Field} :
    material p values = material q inputs ↔
      p.fingerprint = q.fingerprint ∧ Alike p.projected values q.projected inputs := by
  rw [material_eq, material_eq, ← record_eq_iff (Program.projected_written compiled)
    (Program.projected_written checked)]
  constructor
  · intro same
    have lengths :
        (Octets.ofString p.fingerprint).length = (Octets.ofString q.fingerprint).length := by
      rw [(Program.settings_of_compile compiled).1, (Program.settings_of_compile checked).1,
        Config.length_fingerprint, Config.length_fingerprint]
    obtain ⟨prints, records⟩ := List.append_inj same lengths
    exact ⟨Octets.ofString_injective prints, records⟩
  · rintro ⟨prints, records⟩
    rw [prints, records]

theorem prove_execute {h : Hasher} {p : Program} {w : Witness} {trace : Trace} {proof : Proof}
    (executed : (prover h).execute p w = .ok trace)
    (proved : (prover h).prove p trace = .ok proof) :
    trace.publicInputs = w.publicInputs p ∧
      proof.octets = Digest.blake3 (material p trace.publicInputs) := by
  obtain ⟨_, _, traced⟩ := bind_ok_iff.1 executed
  obtain rfl := pure_ok_iff.1 traced
  obtain rfl := Except.ok.inj proved
  exact ⟨rfl, rfl⟩

theorem verify_iff {h : Hasher} {p : Program} {proof : Proof} {inputs : List Field} :
    (prover h).verify p proof inputs = .ok true ↔
      proof.octets = Digest.blake3 (material p inputs) := by
  change Except.ok (proof.octets == digest p inputs) = .ok true ↔ _
  rw [Except.ok.injEq, beq_iff_eq, digest]

/-- How many public values a verifier of a program is given. -/
def publicCount (p : Program) : Nat := (if p.skipSigning then 0 else 1) + p.projected.length

theorem length_publicInputs (p : Program) (w : Witness) :
    (w.publicInputs p).length = publicCount p := by
  unfold Witness.publicInputs publicCount
  split <;> simp [Nat.add_comm]

/-- Of two compiled programs and a witness that the first accepts: unless the digested texts or the
configurations collide, the proof holds for the second program with some public values exactly where
the configurations differ at most in their workers and the records are alike; nothing is asked of
patterns and filters. With as many values as the second program publishes, this is to say that both
project the same names and that the values are those of the witness. -/
theorem proof_holds_elsewhere_iff (config : Config) (text : String) (p : Program) (other : Config)
    (against : String) (q : Program) (compiled : Program.compile config text = .ok p)
    (checked : Program.compile other against = .ok q) (h k : Hasher) (w : Witness) (trace : Trace)
    (proof : Proof) (executed : (prover h).execute p w = .ok trace)
    (proved : (prover h).prove p trace = .ok proof) (inputs : List Field) :
    Collide p trace.publicInputs q inputs ∨ config.Collides other ∨
      ((prover k).verify q proof inputs = .ok true ↔ config.SameUpToWorkers other ∧
          Alike p.projected trace.publicInputs q.projected inputs) ∧
        (inputs.length = publicCount q →
          ((prover k).verify q proof inputs = .ok true ↔ config.SameUpToWorkers other ∧
            q.projected = p.projected ∧ inputs = trace.publicInputs)) := by
  obtain ⟨published, payload⟩ := prove_execute executed proved
  obtain ⟨firstPrint, firstSkips⟩ := Program.settings_of_compile compiled
  obtain ⟨secondPrint, secondSkips⟩ := Program.settings_of_compile checked
  have texts : material p trace.publicInputs = material q inputs ↔ p.fingerprint = q.fingerprint ∧
      Alike p.projected trace.publicInputs q.projected inputs := material_eq_iff compiled checked
  by_cases collides : Collide p trace.publicInputs q inputs
  · exact Or.inl collides
  by_cases prints : config.Collides other
  · exact Or.inr (Or.inl prints)
  refine Or.inr (Or.inr ?_)
  have whole : (prover k).verify q proof inputs = .ok true ↔ config.SameUpToWorkers other ∧
      Alike p.projected trace.publicInputs q.projected inputs := by
    rw [verify_iff, payload]
    constructor
    · intro digests
      have same : material p trace.publicInputs = material q inputs := by
        by_contra differ
        exact collides ⟨differ, digests⟩
      obtain ⟨fingerprints, alike⟩ := texts.1 same
      rw [firstPrint, secondPrint] at fingerprints
      exact ⟨(Config.collides_or_same fingerprints).resolve_left prints, alike⟩
    · rintro ⟨same, alike⟩
      have fingerprints : p.fingerprint = q.fingerprint := by
        rw [firstPrint, secondPrint, same.fingerprint_eq]
      exact congrArg Digest.blake3 (texts.2 ⟨fingerprints, alike⟩)
  refine ⟨whole, fun asked => whole.trans (and_congr_right fun same => ?_)⟩
  have signing : p.skipSigning = q.skipSigning := by
    rw [firstSkips, secondSkips, ← same]
  have count : trace.publicInputs.length = publicCount p := by
    rw [published, length_publicInputs]
  rw [publicCount] at asked count
  rw [signing] at count
  constructor
  · exact fun alike => alike.eq_of_length count asked
  · rintro ⟨names, rfl⟩
    rw [names]
    exact Alike.refl _ _

/-- A query with another predicate than the sample query. -/
def otherText : String := "SELECT ?s WHERE \x7b ?s <http://e/q> ?o \x7d"

def refuses (b : Branch) : Bool :=
  (sampleWitness.view.holds sampleConfig.hasher b.assertion).toOption == some false

def otherRefusal : Result Unit := do
  let p ← Program.compile sampleConfig sampleText
  let q ← Program.compile sampleConfig otherText
  if p.projected = q.projected ∧ q.branches.all refuses then return () else .error .badQuery

set_option maxRecDepth 100000 in
theorem otherRefusal_ok : otherRefusal.isOk = true := by
  simp only [otherRefusal, Program.compile, Program.ofNormal, Config.encoder_eq]
  decide +kernel

theorem exists_refused : ∃ p q trace, Program.compile sampleConfig sampleText = .ok p ∧
    Program.compile sampleConfig otherText = .ok q ∧
    (prover sampleConfig.hasher).execute p sampleWitness = .ok trace ∧
    p.projected = q.projected ∧
    ∀ b ∈ q.branches, sampleWitness.view.holds sampleConfig.hasher b.assertion = .ok false := by
  obtain ⟨_, refused⟩ := exists_ok_of_isOk otherRefusal_ok
  obtain ⟨p, compiled, refused⟩ := bind_ok_iff.1 refused
  obtain ⟨q, checked, refused⟩ := bind_ok_iff.1 refused
  obtain ⟨p', trace, compiled', executed, _⟩ := sample_accepted
  obtain rfl := Except.ok.inj (compiled.symm.trans compiled')
  split at refused
  next tests =>
    refine ⟨p, q, trace, compiled, checked, executed, tests.1, fun b member => ?_⟩
    exact eq_ok_of_toOption (beq_iff_eq.1 (List.all_eq_true.1 tests.2 b member))
  next => cases refused

/-- The proof of the sample witness holds for the other query, no branch of which this witness
satisfies; the two digested texts are one, so that nothing collides. -/
theorem proof_holds_for_other_query : ∃ p q trace proof,
    Program.compile sampleConfig sampleText = .ok p ∧
    Program.compile sampleConfig otherText = .ok q ∧
    (prover sampleConfig.hasher).execute p sampleWitness = .ok trace ∧
    (prover sampleConfig.hasher).prove p trace = .ok proof ∧
    (prover sampleConfig.hasher).verify q proof trace.publicInputs = .ok true ∧
    material p trace.publicInputs = material q trace.publicInputs ∧ p.branches ≠ q.branches ∧
    ∀ b ∈ q.branches, sampleWitness.view.holds sampleConfig.hasher b.assertion = .ok false := by
  obtain ⟨p, q, trace, compiled, checked, executed, names, refused⟩ := exists_refused
  obtain ⟨firstPrint, firstSkips⟩ := Program.settings_of_compile compiled
  obtain ⟨secondPrint, _⟩ := Program.settings_of_compile checked
  have same : material p trace.publicInputs = material q trace.publicInputs := by
    rw [material_eq_iff compiled checked, ← names]
    exact ⟨by rw [firstPrint, secondPrint], Alike.refl _ _⟩
  obtain ⟨_, payload⟩ := prove_execute executed rfl
  refine ⟨p, q, trace, ⟨trace.payload⟩, compiled, checked, executed, rfl, ?_, same, ?_, refused⟩
  · exact verify_iff.2 (payload.trans (congrArg Digest.blake3 same))
  · intro equal
    obtain ⟨b, place, _, _, _, satisfied⟩ := execute_ok firstSkips executed
    have unsatisfied := refused b (equal ▸ List.mem_of_getElem? place)
    rw [satisfied] at unsatisfied
    cases unsatisfied

/-- The proof of the sample witness and the other query, with the values of the witness. -/
theorem proof_holds_elsewhere_sample : ∃ p q trace proof,
    Program.compile sampleConfig sampleText = .ok p ∧
    Program.compile sampleConfig otherText = .ok q ∧
    (prover sampleConfig.hasher).execute p sampleWitness = .ok trace ∧
    (prover sampleConfig.hasher).prove p trace = .ok proof ∧
    (Collide p trace.publicInputs q trace.publicInputs ∨ sampleConfig.Collides sampleConfig ∨
      ((prover sampleConfig.hasher).verify q proof trace.publicInputs = .ok true ↔
          sampleConfig.SameUpToWorkers sampleConfig ∧
          Alike p.projected trace.publicInputs q.projected trace.publicInputs) ∧
        (trace.publicInputs.length = publicCount q →
          ((prover sampleConfig.hasher).verify q proof trace.publicInputs = .ok true ↔
            sampleConfig.SameUpToWorkers sampleConfig ∧ q.projected = p.projected ∧
              trace.publicInputs = trace.publicInputs))) := by
  obtain ⟨p, q, trace, compiled, checked, executed, _⟩ := exists_refused
  exact ⟨p, q, trace, ⟨trace.payload⟩, compiled, checked, executed, rfl,
    proof_holds_elsewhere_iff sampleConfig sampleText p sampleConfig otherText q compiled checked
      sampleConfig.hasher sampleConfig.hasher sampleWitness trace _ executed rfl
      trace.publicInputs⟩

end Checker

end AttestedQuery
