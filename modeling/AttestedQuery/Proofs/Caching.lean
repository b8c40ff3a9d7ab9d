import AttestedQuery.Program.Cache
import AttestedQuery.Proofs.Compilation
import AttestedQuery.Proofs.HexText
import Mathlib.Data.List.Induction

/-!
# What the cache of programs returns

A call returns what compiling returns, unless an earlier call warmed the cache for a configuration
that is not valid. The key of an entry covers everything that compiling reads but the number of
workers, and a configuration without workers is refused only by the check that a call skips when it
finds an entry. The invariant of a run of calls is that the entries are the programs of the earlier
calls that compiled, up to a collision of the digest.
-/

set_option autoImplicit false

namespace AttestedQuery

/-- One use of the cache. -/
structure Call where
  config : Config
  text : String

namespace Call

/-- The key under which the program of a call is kept. -/
def key (call : Call) : String × String := (call.text, call.config.fingerprint)

def compiled (call : Call) : Result Program := Program.compile call.config call.text

end Call

namespace Config

/-- Two configurations that differ at most in their workers. -/
def SameUpToWorkers (a b : Config) : Prop := { a with workers := b.workers } = b

/-- Two configurations whose texts are different and have one digest. -/
def Collides (a b : Config) : Prop :=
  Octets.ofString a.material ≠ Octets.ofString b.material ∧
    Digest.blake3 (Octets.ofString a.material) = Digest.blake3 (Octets.ofString b.material)

end Config

/-! ## The text of a configuration -/

theorem Octets.ofString_injective {a b : String} (equal : ofString a = ofString b) : a = b := by
  rw [ofString, ofString, byteArray_toList, byteArray_toList] at equal
  refine String.toByteArray_inj.1 (ByteArray.ext (Array.toList_inj.1 equal))

theorem Hex.ofOctets_injective {a b : Octets} (equal : ofOctets a = ofOctets b) : a = b := by
  have read := Hex.toOctets_ofOctets a
  rw [equal, Hex.toOctets_ofOctets] at read
  exact (Except.ok.inj read).symm

theorem shownNat_toList (n : Nat) : (shownNat n).toList = Decimal.ofNat n := by
  simp [shownNat, Decimal.textOfInt, Decimal.ofInt]

theorem Decimal.ofNat_injective {a b : Nat} (equal : ofNat a = ofNat b) : a = b := by
  rw [← value_ofNat a, equal, value_ofNat]

theorem Decimal.semicolon_not_mem_ofNat (n : Nat) : ';' ∉ ofNat n := by
  intro member
  have digit := Nat.isDigit_of_mem_toDigits (by decide) (by decide) member
  exact absurd digit (by decide)

theorem append_mark_inj {α : Type} {mark : α} {a b later others : List α} (outA : mark ∉ a)
    (outB : mark ∉ b) (equal : a ++ mark :: later = b ++ mark :: others) :
    a = b ∧ later = others := by
  induction a generalizing b with
  | nil =>
    cases b with
    | nil => exact ⟨rfl, (List.cons.inj equal).2⟩
    | cons y rest => exact absurd (List.cons.inj equal).1 fun same => outB (by simp [same])
  | cons x rest induction =>
    cases b with
    | nil => exact absurd (List.cons.inj equal).1 fun same => outA (by simp [same])
    | cons y others' =>
      obtain ⟨rfl, tails⟩ := List.cons.inj equal
      obtain ⟨rfl, same⟩ := induction (fun inside => outA (List.mem_cons_of_mem _ inside))
        (fun inside => outB (List.mem_cons_of_mem _ inside)) tails
      exact ⟨rfl, same⟩

/-- The value of a field before the name of the next one is read back with what follows the name. -/
theorem append_name_inj {name : String} {a b later others : List Char}
    (marked : name.toList.head? = some ';') (outA : ';' ∉ a) (outB : ';' ∉ b)
    (equal : a ++ (name.toList ++ later) = b ++ (name.toList ++ others)) :
    a = b ∧ later = others := by
  obtain ⟨rest, letters⟩ := List.head?_eq_some_iff.1 marked
  rw [letters, List.cons_append, List.cons_append] at equal
  obtain ⟨same, tails⟩ := append_mark_inj outA outB equal
  exact ⟨same, List.append_cancel_left tails⟩

theorem Decimal.ofNat_before_name {name : String} {m n : Nat} {later others : List Char}
    (marked : name.toList.head? = some ';')
    (equal : ofNat m ++ (name.toList ++ later) = ofNat n ++ (name.toList ++ others)) :
    m = n ∧ later = others := by
  obtain ⟨numerals, tails⟩ :=
    append_name_inj marked (semicolon_not_mem_ofNat m) (semicolon_not_mem_ofNat n) equal
  exact ⟨ofNat_injective numerals, tails⟩

theorem HashSuite.semicolon_not_mem_name (suite : HashSuite) : ';' ∉ suite.name.toList := by
  cases suite <;> decide

theorem HashSuite.name_injective {a b : HashSuite} (equal : a.name = b.name) : a = b := by
  revert equal
  cases a <;> cases b <;> decide

namespace Config

variable {a b : Config}

theorem material_toList (c : Config) :
    c.material.toList = "suite=".toList ++ (c.hashSuite.name.toList
      ++ (";max_literal_bytes=".toList ++ (Decimal.ofNat c.maxLiteralBytes
      ++ (";tree_depth=".toList ++ (Decimal.ofNat c.treeDepth
      ++ (";max_path_hops=".toList ++ (Decimal.ofNat c.maxPathHops
      ++ (";skip_signing=".toList ++ (if c.skipSigning then "true" else "false").toList)))))))) := by
  delta material
  simp only [String.toList_append, shownNat_toList, List.append_assoc]

/-- The text of a configuration gives back all of it but its workers. -/
theorem sameUpToWorkers_of_material (equal : a.material = b.material) : a.SameUpToWorkers b := by
  have tails := congrArg String.toList equal
  rw [material_toList, material_toList] at tails
  obtain ⟨names, tails⟩ := append_name_inj rfl a.hashSuite.semicolon_not_mem_name
    b.hashSuite.semicolon_not_mem_name (List.append_cancel_left tails)
  have suites := HashSuite.name_injective (String.toList_inj.1 names)
  obtain ⟨bounds, tails⟩ := Decimal.ofNat_before_name rfl tails
  obtain ⟨depths, tails⟩ := Decimal.ofNat_before_name rfl tails
  obtain ⟨hops, flags⟩ := Decimal.ofNat_before_name rfl tails
  have skips : a.skipSigning = b.skipSigning := by
    cases left : a.skipSigning <;> cases right : b.skipSigning <;> simp [left, right] at flags ⊢
  cases a
  cases b
  simp_all only [SameUpToWorkers]

theorem SameUpToWorkers.fingerprint_eq (same : a.SameUpToWorkers b) :
    a.fingerprint = b.fingerprint := by
  rw [← same]
  rfl

/-- Configurations with one fingerprint differ at most in their workers, or collide. -/
theorem collides_or_same (equal : a.fingerprint = b.fingerprint) :
    a.Collides b ∨ a.SameUpToWorkers b := by
  have digests := Hex.ofOctets_injective equal
  by_cases texts : Octets.ofString a.material = Octets.ofString b.material
  · exact Or.inr (sameUpToWorkers_of_material (Octets.ofString_injective texts))
  · exact Or.inl ⟨texts, digests⟩

/-! ## Configurations that differ in their workers -/

/-- The checks read the workers in one place only. -/
theorem SameUpToWorkers.validate (same : a.SameUpToWorkers b) (valid : a.validate = .ok ()) :
    b.validate = if b.workers = 0 then .error (.config .noWorkers) else .ok () := by
  rw [← same]
  simp only [Config.validate] at valid ⊢
  split at valid <;> rename_i depth
  · cases valid
  split at valid <;> rename_i hops
  · cases valid
  split at valid <;> rename_i workers
  · cases valid
  split at valid <;> rename_i bytes
  · cases valid
  simp [depth, hops, bytes]

end Config

namespace Program

variable {a b : Config} {text : String} {p : Program}

theorem compile_sameUpToWorkers (same : a.SameUpToWorkers b) (compiled : compile a text = .ok p) :
    compile b text = if b.workers = 0 then .error (.config .noWorkers) else .ok p := by
  obtain ⟨_, valid, made⟩ := bind_ok_iff.1 compiled
  rw [compile, same.validate valid]
  split
  · rfl
  · rw [← same]
    exact made

end Program

/-! ## A run of calls -/

namespace ProgramCache

variable {c : ProgramCache} {call : Call}

def after (calls : List Call) : ProgramCache :=
  calls.foldl (fun c call => (c.getOrCompile call.config call.text).2) empty

/-- The program that a call returns. -/
def answer (c : ProgramCache) (config : Config) (text : String) : Result Program :=
  (c.getOrCompile config text).1.map (·.2)

def hit? (c : ProgramCache) (call : Call) : Option (Nat × Program) :=
  (c.find? call.text call.config.fingerprint).bind fun i =>
    c.entries[i]?.map fun entry => (i, entry.2)

structure Holds (c : ProgramCache) (calls : List Call) : Prop where
  made : ∀ entry ∈ c.entries, ∃ call ∈ calls, entry.1 = call.key ∧ call.compiled = .ok entry.2
  kept : ∀ call ∈ calls, ∀ p, call.compiled = .ok p → ∃ entry ∈ c.entries, entry.1 = call.key

theorem hit?_some {found : Nat × Program} (hit : c.hit? call = some found) :
    (call.key, found.2) ∈ c.entries := by
  obtain ⟨i, place, read⟩ := Option.bind_eq_some_iff.1 hit
  obtain ⟨entry, inside, rfl⟩ := Option.map_eq_some_iff.1 read
  obtain ⟨bound, key, _⟩ := List.findIdx?_eq_some_iff_getElem.1 place
  obtain ⟨_, rfl⟩ := List.getElem?_eq_some_iff.1 inside
  rw [← show c.entries[i].1 = call.key from by simpa [Call.key] using key]
  exact List.getElem_mem bound

theorem hit?_none (missed : c.hit? call = none) : ∀ entry ∈ c.entries, entry.1 ≠ call.key := by
  intro entry member key
  cases place : c.find? call.text call.config.fingerprint with
  | none =>
    have differs := List.findIdx?_eq_none_iff.1 place entry member
    simp [key, Call.key] at differs
  | some i =>
    obtain ⟨inside, _, _⟩ := List.findIdx?_eq_some_iff_getElem.1 place
    simp [hit?, place, inside] at missed

/-- A call returns the program that it finds; where it finds none it compiles, and keeps what it
has compiled. -/
theorem getOrCompile_eq (c : ProgramCache) (call : Call) :
    c.getOrCompile call.config call.text =
      match c.hit? call with
      | some hit => (.ok hit, c)
      | none =>
        match call.compiled with
        | .ok p => (.ok (c.size, p), ⟨c.entries ++ [(call.key, p)]⟩)
        | .error e => (.error e, c) := rfl

theorem answer_of_hit {found : Nat × Program} (hit : c.hit? call = some found) :
    c.answer call.config call.text = .ok found.2 := by
  rw [answer, getOrCompile_eq, hit]
  rfl

theorem answer_of_miss (missed : c.hit? call = none) :
    c.answer call.config call.text = call.compiled := by
  rw [answer, getOrCompile_eq, missed]
  cases call.compiled <;> rfl

theorem Holds.after_call {calls : List Call} (holds : c.Holds calls) (call : Call) :
    (c.getOrCompile call.config call.text).2.Holds (calls ++ [call]) := by
  rw [getOrCompile_eq]
  have earlier {entry : (String × String) × Program} (member : entry ∈ c.entries) :
      ∃ other ∈ calls ++ [call], entry.1 = other.key ∧ other.compiled = .ok entry.2 := by
    obtain ⟨other, among, same⟩ := holds.made entry member
    exact ⟨other, List.mem_append_left _ among, same⟩
  cases hit : c.hit? call with
  | some found =>
    refine ⟨fun entry member => earlier member, fun other member p compiled => ?_⟩
    rcases List.mem_append.1 member with before | now
    · exact holds.kept other before p compiled
    · obtain rfl := List.mem_singleton.1 now
      exact ⟨_, hit?_some hit, rfl⟩
  | none =>
    cases compiled : call.compiled with
    | error e =>
      refine ⟨fun entry member => earlier member, fun other member p made => ?_⟩
      rcases List.mem_append.1 member with before | now
      · exact holds.kept other before p made
      · obtain rfl := List.mem_singleton.1 now
        rw [compiled] at made
        cases made
    | ok program =>
      refine ⟨fun entry member => ?_, fun other member p made => ?_⟩
      · rcases List.mem_append.1 member with before | now
        · exact earlier before
        · obtain rfl := List.mem_singleton.1 now
          exact ⟨call, List.mem_append_right _ (List.mem_singleton_self call), rfl, compiled⟩
      · rcases List.mem_append.1 member with before | now
        · obtain ⟨entry, inside, key⟩ := holds.kept other before p made
          exact ⟨entry, List.mem_append_left _ inside, key⟩
        · obtain rfl := List.mem_singleton.1 now
          exact ⟨_, List.mem_append_right _ (List.mem_singleton_self _), rfl⟩

theorem after_append (calls : List Call) (call : Call) :
    after (calls ++ [call]) = ((after calls).getOrCompile call.config call.text).2 := by
  simp [after]

theorem holds_after (calls : List Call) : (after calls).Holds calls := by
  induction calls using List.reverseRecOn with
  | nil => exact ⟨by simp [after, empty], by simp⟩
  | append_singleton earlier call induction =>
    rw [after_append]
    exact induction.after_call call

/-- A text that an earlier call has compiled is found for every configuration that differs from
that of the call in its workers only. -/
theorem Holds.hit {calls : List Call} (holds : c.Holds calls) {earlier : Call}
    (among : earlier ∈ calls) {p : Program} (compiled : earlier.compiled = .ok p)
    {config : Config} (same : earlier.config.SameUpToWorkers config) :
    ∃ found, c.hit? ⟨config, earlier.text⟩ = some found := by
  obtain ⟨entry, inside, key⟩ := holds.kept earlier among p compiled
  refine Option.ne_none_iff_exists'.1 fun missed => hit?_none missed entry inside ?_
  rw [key, Call.key, Call.key, same.fingerprint_eq]

end ProgramCache

/-- An earlier call has compiled the text for a configuration that differs from this one in its
workers only, and this one has none. -/
def Config.WarmedBy (config : Config) (earlier : List Call) (text : String) : Prop :=
  config.workers = 0 ∧ ∃ call ∈ earlier, call.text = text ∧ call.config.SameUpToWorkers config ∧
    ∃ p, call.compiled = .ok p

/-- Unless the configuration of an earlier call collides with that of this one, a call returns what
compiling returns, but where an earlier call has warmed the cache for a configuration without
workers: there it returns the program of the earlier call, and compiling refuses the
configuration. -/
theorem cache_transparent_unless_warmed (earlier : List Call) (config : Config) (text : String) :
    (∃ call ∈ earlier, call.config.Collides config) ∨
      (¬config.WarmedBy earlier text →
        (ProgramCache.after earlier).answer config text = Program.compile config text) ∧
      (config.WarmedBy earlier text →
        Program.compile config text = .error (.config .noWorkers) ∧
        ∃ call ∈ earlier, call.text = text ∧ call.config.SameUpToWorkers config ∧
          ∃ p, call.compiled = .ok p ∧
            (ProgramCache.after earlier).answer config text = .ok p) := by
  by_cases collision : ∃ call ∈ earlier, call.config.Collides config
  · exact Or.inl collision
  have holds := ProgramCache.holds_after earlier
  cases hit : (ProgramCache.after earlier).hit? ⟨config, text⟩ with
  | none =>
    have answered := ProgramCache.answer_of_miss hit
    refine Or.inr ⟨fun _ => answered, ?_⟩
    rintro ⟨_, call, among, rfl, same, p, compiled⟩
    obtain ⟨found, hits⟩ := holds.hit among compiled same
    rw [hit] at hits
    cases hits
  | some found =>
    obtain ⟨call, among, key, compiled⟩ := holds.made _ (ProgramCache.hit?_some hit)
    obtain ⟨rfl, prints⟩ := Prod.mk.inj key
    have same : call.config.SameUpToWorkers config :=
      (Config.collides_or_same prints.symm).resolve_left fun collides =>
        collision ⟨call, among, collides⟩
    have answered := ProgramCache.answer_of_hit hit
    have direct := Program.compile_sameUpToWorkers same compiled
    refine Or.inr ⟨fun cold => ?_, fun warmed => ?_⟩
    · have workers : config.workers ≠ 0 := fun none =>
        cold ⟨none, call, among, rfl, same, found.2, compiled⟩
      rw [if_neg workers] at direct
      exact answered.trans direct.symm
    · rw [if_pos warmed.1] at direct
      exact ⟨direct, call, among, rfl, same, found.2, compiled, answered⟩

/-- A call for a configuration without workers, after one that has compiled its text, returns a
program although compiling refuses the configuration, and no digests collide. -/
theorem warmed_call_answers :
    (∀ call ∈ [Call.mk sampleConfig sampleText],
        ¬call.config.Collides { sampleConfig with workers := 0 }) ∧
      (∃ p, (ProgramCache.after [⟨sampleConfig, sampleText⟩]).answer
        { sampleConfig with workers := 0 } sampleText = .ok p) ∧
      Program.compile { sampleConfig with workers := 0 } sampleText =
        .error (.config .noWorkers) := by
  obtain ⟨p, compiled⟩ := sample_compiles
  have same : sampleConfig.SameUpToWorkers { sampleConfig with workers := 0 } := rfl
  refine ⟨?_, ?_, ?_⟩
  · intro call member collides
    obtain rfl := List.mem_singleton.1 member
    exact collides.1 rfl
  · obtain ⟨found, hit⟩ := (ProgramCache.holds_after [⟨sampleConfig, sampleText⟩]).hit
      (List.mem_singleton_self _) compiled same
    exact ⟨found.2, ProgramCache.answer_of_hit hit⟩
  · exact (Program.compile_sameUpToWorkers same compiled).trans (if_pos rfl)

end AttestedQuery
