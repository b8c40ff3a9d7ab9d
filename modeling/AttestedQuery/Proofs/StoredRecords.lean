import AttestedQuery.Batch.Json
import AttestedQuery.Dataset.Json
import AttestedQuery.Proofs.JsonText
import AttestedQuery.Proofs.Signing
import Mathlib.Data.List.Nodup

/-!
# Stored datasets and batches read back

Every record has a form in JSON that its reader takes back to the record. With the pretty text of
JSON values this covers whole stored files: datasets over all kinds of terms, and batches whose
items have or have not a proof, an error and an outcome.
-/

set_option autoImplicit false

namespace AttestedQuery

/-! ## Field elements -/

theorem Text.trim_visible {text : List Char} (visible : ∀ c ∈ text, isBlank c = false) :
    trim text = text := by
  have kept {letters : List Char} (visible : ∀ c ∈ letters, isBlank c = false) :
      letters.dropWhile isBlank = letters := by
    cases letters with
    | nil => rfl
    | cons c rest => rw [List.dropWhile_cons_of_neg (by simp [visible c List.mem_cons_self])]
  rw [trim, kept visible, kept (by simpa using visible), List.reverse_reverse]

/-- No digit is white space or one of the marks that the reader of field elements drops. -/
theorem Hex.digitChar_unmarked {digit : Nat} (below : digit < 16) :
    Text.isBlank (digitChar digit) = false ∧ digitChar digit ≠ 'x' ∧ digitChar digit ≠ '+' ∧
      digitChar digit ≠ '_' := by
  interval_cases digit <;> decide

namespace Field

theorem digitsValue_map {digits : List Nat} (below : ∀ digit ∈ digits, digit < 16) (total : Nat) :
    digitsValue total (digits.map Hex.digitChar) =
      .ok (digits.foldl (fun total digit => total * 16 + digit) total) := by
  induction digits generalizing total with
  | nil => rfl
  | cons digit rest induction =>
    obtain ⟨here, others⟩ := List.forall_mem_cons.1 below
    rw [List.map_cons, digitsValue, if_neg (Hex.digitChar_unmarked here).2.2.2,
      Hex.digitValue_digitChar here]
    exact induction others _

theorem dropPlus_unsigned {c : Char} (unsigned : c ≠ '+') (rest : List Char) :
    dropPlus (c :: rest) = c :: rest := by
  unfold dropPlus
  split
  next equal => exact absurd (List.cons.inj equal).1 unsigned
  next equal => exact absurd (List.cons.inj equal).1 unsigned
  next => rfl

/-- The hexadecimal text of a field element reads back as the element. -/
theorem ofHex_toHex (x : Field) : ofHex x.toHex = .ok x := by
  obtain ⟨digits, nonempty, below, written, value⟩ := Hex.exists_digits 64 x.val
  have visible : ∀ c ∈ '0' :: 'x' :: digits.map Hex.digitChar, Text.isBlank c = false := by
    simp only [List.forall_mem_cons, List.forall_mem_map]
    exact ⟨rfl, rfl, fun digit member => (Hex.digitChar_unmarked (below digit member)).1⟩
  have unmarked : dropMarks (digits.map Hex.digitChar) = digits.map Hex.digitChar := by
    refine dropMarks_unmarked fun rest marked => ?_
    have inside : 'x' ∈ digits.map Hex.digitChar := by simp [marked]
    obtain ⟨digit, member, equal⟩ := List.mem_map.1 inside
    exact (Hex.digitChar_unmarked (below digit member)).2.1 equal
  have total := digitsValue_map below 0
  have small : x.val % 16 ^ 64 = x.val := Nat.mod_eq_of_lt (x.val_lt.trans (by decide))
  have whole : ofNat x.val = x := by
    have same : x.val % modulus = x.val := Nat.mod_eq_of_lt x.val_lt
    simp only [ofNat, same]
  cases digits with
  | nil => exact absurd rfl nonempty
  | cons digit rest =>
    obtain ⟨_, _, noPlus, noGap⟩ := Hex.digitChar_unmarked (below digit List.mem_cons_self)
    rw [List.map_cons] at unmarked visible total
    rw [ofHex, toHex, String.toList_ofList, written, ofHexChars, List.map_cons,
      Text.trim_visible visible, dropMarks, unmarked]
    simp only [dropPlus_unsigned noPlus]
    split
    next empty => cases empty
    next gap => exact absurd (List.cons.inj gap).1 noGap
    next =>
      rw [total]
      exact congrArg Except.ok ((congrArg ofNat (value.trans small)).trans whole)

end Field

/-! ## Reading members -/

namespace Json

variable {α : Type}

theorem find_member {members : List (String × Json)} (distinct : (members.map (·.1)).Nodup)
    {member : String × Json} (inside : member ∈ members) :
    members.find? (fun other => other.1 == member.1) = some member := by
  induction members with
  | nil => cases inside
  | cons first rest induction =>
    rw [List.map_cons, List.nodup_cons] at distinct
    rcases List.mem_cons.1 inside with rfl | later
    · simp
    · have different : first.1 ≠ member.1 :=
        fun equal => distinct.1 (equal ▸ List.mem_map_of_mem later)
      rw [List.find?_cons_of_neg (by simpa using different)]
      exact induction distinct.2 later

theorem fields_object (missing : List String) {members : List (String × Json)}
    {names : List String} {omissible : Nat} (named : names = members.map (·.1) ++ missing)
    (distinct : names.Nodup) : (object members).fields? names omissible =
      some (members.map (fun member => some member.2) ++ missing.map fun _ => none) := by
  subst named
  obtain ⟨keys, _, apart⟩ := List.nodup_append'.1 distinct
  have once : ∀ name ∈ members.map (·.1) ++ missing, countKey name members ≤ 1 := by
    intro name _
    have counted := List.nodup_iff_count_le_one.1 keys name
    rwa [List.count_eq_countP, List.countP_map, List.countP_eq_length_filter] at counted
  have held : (members.map (·.1)).map (fun name =>
      (members.find? fun member => member.1 == name).map (·.2)) =
        members.map fun member => some member.2 := by
    rw [List.map_map]
    refine List.map_congr_left fun member inside => ?_
    rw [Function.comp_apply, find_member keys inside, Option.map_some]
  have absent : missing.map (fun name =>
      (members.find? fun member => member.1 == name).map (·.2)) = missing.map fun _ => none := by
    refine List.map_congr_left fun name inside => ?_
    rw [Option.map_eq_none_iff, List.find?_eq_none]
    intro member among equal
    exact apart (List.mem_map_of_mem among) (eq_of_beq equal ▸ inside)
  rw [fields?, if_pos (List.all_eq_true.2 fun name inside => decide_eq_true (once name inside)),
    List.map_append, held, absent]

theorem toNat_ofNat {n : Nat} (fits : n < 2 ^ 64) : (ofNat n).toNat? = some n :=
  if_pos (decide_eq_true fits)

theorem toListOf_map {read : Json → Option α} {write : α → Json} {xs : List α}
    (each : ∀ x ∈ xs, read (write x) = some x) :
    (list (xs.map write)).toListOf? read = some xs := by
  have all : (xs.map write).mapM read = some xs := by
    induction xs with
    | nil => rfl
    | cons x rest induction =>
      obtain ⟨here, others⟩ := List.forall_mem_cons.1 each
      simp [here, induction others]
  simp [toListOf?, toList?, all]

theorem toOptional_text (o : Option String) :
    (optional text o).toOptional? toText? = some o := by
  cases o <;> rfl

theorem Storable.ofNat {n : Nat} (fits : n < 2 ^ 64) (levels : Nat) :
    Storable levels (Json.ofNat n) :=
  .whole ⟨by omega, by exact_mod_cast fits⟩

theorem Storable.optionalText (o : Option String) (levels : Nat) :
    Storable levels (optional Json.text o) := by
  cases o with
  | none => exact .null
  | some s => exact .text s

end Json

/-! ## Terms and quads -/

theorem Field.ofJson_toJson (x : Field) : ofJson? x.toJson = some x := by
  simp [ofJson?, toJson, Json.toText?, ofHex_toHex, Except.toOption]

theorem Field.storable (levels : Nat) (x : Field) : Json.Storable levels x.toJson := .text _

theorem Json.Storable.fields (levels : Nat) (xs : List Field) :
    Storable (levels + 1) (.list (xs.map Field.toJson)) :=
  .list (List.forall_mem_map.2 fun x _ => x.storable levels)

namespace Term

theorem ofJson_toJson (t : Term) : ofJson? t.toJson = some t := by
  have fields (kind content : Json) :
      (Json.object [("termType", kind), ("value", content)]).fields? ["termType", "value"] 0 =
        some [some kind, some content] := Json.fields_object [] rfl (by decide)
  cases t with
  | iri text => rw [toJson, ofJson?, fields]; rfl
  | blank label => rw [toJson, ofJson?, fields]; rfl
  | literal value lang datatype =>
    have parts : (Json.object [("value", .text value), ("lang", Json.optional .text lang),
        ("datatype", .text datatype)]).fields? ["value", "lang", "datatype"] 0 =
          some [some (.text value), some (Json.optional .text lang), some (.text datatype)] :=
      Json.fields_object [] rfl (by decide)
    have content : literalOfJson? (.object [("value", .text value),
        ("lang", Json.optional .text lang), ("datatype", .text datatype)]) =
          some (.literal value lang datatype) := by
      simp [literalOfJson?, parts, Json.toText?, Json.toOptional_text]
    rw [toJson, ofJson?, fields]
    exact content
  | var name => rw [toJson, ofJson?, fields]; rfl
  | defaultGraph =>
    have kind : (Json.object [("termType", .text "DefaultGraph")]).fields?
        ["termType", "value"] 0 = some [some (.text "DefaultGraph"), none] :=
      Json.fields_object ["value"] rfl (by decide)
    rw [toJson, ofJson?, kind]
    rfl

theorem storable (levels : Nat) (t : Term) : Json.Storable (levels + 2) t.toJson := by
  cases t with
  | literal value lang datatype =>
    refine .object (List.forall_mem_cons.2 ⟨.text _, List.forall_mem_singleton.2 (.object ?_)⟩)
    simp only [List.forall_mem_cons]
    exact ⟨.text _, .optionalText lang _, .text _, List.forall_mem_nil _⟩
  | iri | blank | var =>
    exact .object (List.forall_mem_cons.2 ⟨.text _, List.forall_mem_singleton.2 (.text _)⟩)
  | defaultGraph => exact .object (List.forall_mem_singleton.2 (.text _))

end Term

namespace Quad

theorem ofJson_toJson (q : Quad) : ofJson? q.toJson = some q := by
  have fields : q.toJson.fields? ["subject", "predicate", "object", "graph"] 0 =
      some [some q.subject.toJson, some q.predicate.toJson, some q.object.toJson,
        some q.graph.toJson] := Json.fields_object [] rfl (by decide)
  simp [ofJson?, fields, Term.ofJson_toJson]

theorem storable (levels : Nat) (q : Quad) : Json.Storable (levels + 3) q.toJson := by
  refine .object ?_
  simp only [List.forall_mem_cons]
  exact ⟨q.subject.storable _, q.predicate.storable _, q.object.storable _, q.graph.storable _,
    List.forall_mem_nil _⟩

end Quad

theorem QuadOf.ofJsonList_toJsonList {α : Type} {read : Json → Option α} {write : α → Json}
    (each : ∀ x, read (write x) = some x) (q : QuadOf α) :
    ofJsonList? read (q.toJsonList write) = some q := by
  rw [ofJsonList?, toJsonList, Json.toListOf_map fun x _ => each x]
  rfl

theorem QuadOf.storable {levels : Nat} {α : Type} {write : α → Json}
    (each : ∀ x, Json.Storable levels (write x)) (q : QuadOf α) :
    Json.Storable (levels + 1) (q.toJsonList write) :=
  .list (List.forall_mem_map.2 fun x _ => each x)

/-! ## Datasets -/

/-- The position that an opening states is an unsigned 64-bit integer. -/
def Opening.InRange (o : Opening) : Prop := o.index < 2 ^ 64

/-- The numbers of a dataset are unsigned 64-bit integers. -/
structure Dataset.InRange (d : Dataset) : Prop where
  depth : d.depth < 2 ^ 64
  openings : ∀ o ∈ d.openings, o.InRange

namespace Opening

theorem ofJson_toJson {o : Opening} (fits : o.InRange) : ofJson? o.toJson = some o := by
  have fields : o.toJson.fields? ["leaf_index", "siblings", "directions"] 0 =
      some [some (.ofNat o.index), some (.list (o.siblings.map Field.toJson)),
        some (.list (o.directions.map .bool))] := Json.fields_object [] rfl (by decide)
  have siblings : (Json.list (o.siblings.map Field.toJson)).toListOf? Field.ofJson? =
      some o.siblings := Json.toListOf_map fun x _ => x.ofJson_toJson
  have directions : (Json.list (o.directions.map .bool)).toListOf? Json.toBool? =
      some o.directions := Json.toListOf_map fun _ _ => rfl
  simp [ofJson?, fields, Json.toNat_ofNat fits, siblings, directions]

theorem storable {o : Opening} (fits : o.InRange) (levels : Nat) :
    Json.Storable (levels + 2) o.toJson := by
  refine .object ?_
  simp only [List.forall_mem_cons]
  exact ⟨.ofNat fits _, .fields _ _, .list (List.forall_mem_map.2 fun b _ => .bool b),
    List.forall_mem_nil _⟩

end Opening

theorem Scheme.ofJson_name (scheme : Scheme) : ofJson? (some (.text scheme.name)) = some scheme := by
  cases scheme
  rfl

theorem HashSuite.ofJson_name (suite : HashSuite) : ofJson? (.text suite.name) = some suite := by
  cases suite <;> rfl

namespace Dataset

theorem ofJson_toJson {d : Dataset} (fits : d.InRange) : ofJson? d.toJson = some d := by
  have fields : d.toJson.fields? fieldNames 0 =
      some [some (.ofNat d.depth), some d.root.toJson, some (.text d.signature),
        some (.text d.publicKey), some (.text d.scheme.name), some (.text d.hashSuite.name),
        some (.list (d.quads.map Quad.toJson)),
        some (.list (d.encoded.map fun row => row.toJsonList Field.toJson)),
        some (.list (d.openings.map Opening.toJson))] := Json.fields_object [] rfl (by decide)
  have quads : (Json.list (d.quads.map Quad.toJson)).toListOf? Quad.ofJson? = some d.quads :=
    Json.toListOf_map fun q _ => q.ofJson_toJson
  have encoded : (Json.list (d.encoded.map fun row => row.toJsonList Field.toJson)).toListOf?
      (QuadOf.ofJsonList? Field.ofJson?) = some d.encoded :=
    Json.toListOf_map fun row _ => QuadOf.ofJsonList_toJsonList Field.ofJson_toJson row
  have openings : (Json.list (d.openings.map Opening.toJson)).toListOf? Opening.ofJson? =
      some d.openings := Json.toListOf_map fun o member => Opening.ofJson_toJson (fits.openings o member)
  simp [ofJson?, fields, Json.toNat_ofNat fits.depth, Field.ofJson_toJson, Json.toText?,
    Scheme.ofJson_name, HashSuite.ofJson_name, quads, encoded, openings]

theorem storable {d : Dataset} (fits : d.InRange) (levels : Nat) :
    Json.Storable (levels + 5) d.toJson := by
  refine .object ?_
  simp only [List.forall_mem_cons]
  exact ⟨.ofNat fits.depth _, .text _, .text _, .text _, .text _, .text _,
    .list (List.forall_mem_map.2 fun q _ => q.storable _),
    .list (List.forall_mem_map.2 fun row _ => row.storable fun x => x.storable _),
    .list (List.forall_mem_map.2 fun o member => Opening.storable (fits.openings o member) _),
    List.forall_mem_nil _⟩

theorem ofText_text {d : Dataset} (fits : d.InRange) : ofText d.text = .ok d := by
  rw [ofText, text, Json.parse_pretty (storable fits 122), Option.bind_eq_bind, Option.bind_some,
    ofJson_toJson fits]

end Dataset

/-! ## Batches -/

namespace Batch

structure Item.InRange (item : Item) : Prop where
  index : item.index < 2 ^ 64
  branch : item.branch < 2 ^ 64
  milliseconds : item.milliseconds < 2 ^ 64

structure Summary.InRange (s : Summary) : Prop where
  total : s.total < 2 ^ 64
  succeeded : s.succeeded < 2 ^ 64
  failed : s.failed < 2 ^ 64

/-- The numbers of a batch are unsigned 64-bit integers. -/
structure InRange (b : Batch) : Prop where
  items : ∀ item ∈ b.items, item.InRange
  summary : b.summary.InRange

theorem Item.ofJson_toJson {item : Item} (fits : item.InRange) : ofJson? item.toJson = some item := by
  have fields : item.toJson.fields? fieldNames 1 =
      some [some (.ofNat item.index), some (.ofNat item.branch),
        some (Json.optional .text item.proof), some (.list (item.publicInputs.map Field.toJson)),
        some (.ofNat item.milliseconds), some (Json.optional .text item.error),
        item.verified.map .bool] := by
    obtain ⟨index, branch, proof, publicInputs, milliseconds, error, verified⟩ := item
    cases verified with
    | none => exact Json.fields_object ["verified"] rfl (by decide)
    | some b => exact Json.fields_object [] rfl (by decide)
  have inputs : (Json.list (item.publicInputs.map Field.toJson)).toListOf? Field.ofJson? =
      some item.publicInputs := Json.toListOf_map fun x _ => x.ofJson_toJson
  have verified : ((item.verified.map Json.bool).getD .null).toOptional? Json.toBool? =
      some item.verified := by cases item.verified <;> rfl
  simp [ofJson?, fields, Json.toNat_ofNat fits.index, Json.toNat_ofNat fits.branch,
    Json.toNat_ofNat fits.milliseconds, Json.toOptional_text, inputs, verified]

theorem Item.storable {item : Item} (fits : item.InRange) (levels : Nat) :
    Json.Storable (levels + 2) item.toJson := by
  refine .object (List.forall_mem_append.2 ⟨?_, ?_⟩)
  · simp only [List.forall_mem_cons]
    exact ⟨.ofNat fits.index _, .ofNat fits.branch _, .optionalText _ _, .fields _ _,
      .ofNat fits.milliseconds _, .optionalText _ _, List.forall_mem_nil _⟩
  · cases item.verified with
    | none => exact List.forall_mem_nil _
    | some b => exact List.forall_mem_singleton.2 (.bool b)

theorem Summary.ofJson_toJson {s : Summary} (fits : s.InRange) : ofJson? s.toJson = some s := by
  have fields : s.toJson.fields? ["total", "succeeded", "failed", "witness_only"] 0 =
      some [some (.ofNat s.total), some (.ofNat s.succeeded), some (.ofNat s.failed),
        some (.bool s.witnessOnly)] := Json.fields_object [] rfl (by decide)
  simp [ofJson?, fields, Json.toNat_ofNat fits.total, Json.toNat_ofNat fits.succeeded,
    Json.toNat_ofNat fits.failed, Json.toBool?]

theorem Summary.storable {s : Summary} (fits : s.InRange) (levels : Nat) :
    Json.Storable (levels + 1) s.toJson := by
  refine .object ?_
  simp only [List.forall_mem_cons]
  exact ⟨.ofNat fits.total _, .ofNat fits.succeeded _, .ofNat fits.failed _, .bool _,
    List.forall_mem_nil _⟩

variable {b : Batch}

theorem ofJson_toJson (fits : b.InRange) : ofJson? b.toJson = some b := by
  have fields : b.toJson.fields? ["items", "summary"] 0 =
      some [some (.list (b.items.map Item.toJson)), some b.summary.toJson] :=
    Json.fields_object [] rfl (by decide)
  have items : (Json.list (b.items.map Item.toJson)).toListOf? Item.ofJson? = some b.items :=
    Json.toListOf_map fun item member => Item.ofJson_toJson (fits.items item member)
  simp [ofJson?, fields, items, Summary.ofJson_toJson fits.summary]

theorem storable (fits : b.InRange) (levels : Nat) : Json.Storable (levels + 4) b.toJson := by
  refine .object ?_
  simp only [List.forall_mem_cons]
  exact ⟨.list (List.forall_mem_map.2 fun item member =>
      Item.storable (fits.items item member) levels),
    Summary.storable fits.summary _, List.forall_mem_nil _⟩

theorem ofText_text (fits : b.InRange) : ofText b.text = .ok b := by
  rw [ofText, text, Json.parse_pretty (storable fits 123), Option.bind_eq_bind, Option.bind_some,
    ofJson_toJson fits]

end Batch

/-- What is stored of a dataset or a batch reads back as the same, whatever terms, texts and optional
parts it has. -/
theorem stored_records_read_back (d : Dataset) (b : Batch) (dataset : d.InRange)
    (batch : b.InRange) : Dataset.ofText d.text = .ok d ∧ Batch.ofText b.text = .ok b :=
  ⟨Dataset.ofText_text dataset, Batch.ofText_text batch⟩

/-- A batch of an item with a checked proof and an item with an error, whose text needs escapes. -/
def sampleBatch : Batch where
  items := [⟨0, 0, some "0a", [Field.ofNat 7], 12, none, some true⟩,
    ⟨1, 0, none, [], 3, some "circuit execution failed: \"?\"\n", none⟩]
  summary := ⟨2, 1, 1, false⟩

/-- The sample dataset and the sample batch read back. -/
theorem stored_records_read_back_sample : sampleDataset.InRange ∧ sampleBatch.InRange ∧
    Dataset.ofText sampleDataset.text = .ok sampleDataset ∧
    Batch.ofText sampleBatch.text = .ok sampleBatch := by
  have dataset : sampleDataset.InRange := ⟨by decide, by simp [sampleDataset, Opening.InRange]⟩
  have items : ∀ item ∈ sampleBatch.items, item.InRange := by
    simp only [sampleBatch, List.forall_mem_cons]
    exact ⟨⟨by decide, by decide, by decide⟩, ⟨by decide, by decide, by decide⟩,
      List.forall_mem_nil _⟩
  have batch : sampleBatch.InRange := ⟨items, by decide, by decide, by decide⟩
  obtain ⟨first, second⟩ := stored_records_read_back sampleDataset sampleBatch dataset batch
  exact ⟨dataset, batch, first, second⟩

end AttestedQuery
