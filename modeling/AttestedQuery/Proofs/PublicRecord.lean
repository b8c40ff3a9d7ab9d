import AttestedQuery.Proofs.CircuitDecides
import AttestedQuery.Proofs.StoredRecords
import AttestedQuery.Witness.ProverInput
import Mathlib.Data.List.Perm.Basic

/-!
# The record of public values

A binding check takes the projected variables as one record. Its source declares the fields of the
record, and the prover fills them from a table; both call a variable by its identifier. The
renaming that makes identifiers puts an underscore in front of some names and so may meet another
name. The fields differ, and the table has every variable once, exactly where no name is projected
beside the name that it is renamed to.
-/

set_option autoImplicit false

namespace AttestedQuery.Circuit

/-! ## Renamed names -/

theorem identifier_eq (name : String) :
    identifier name = if isName name then name else "_" ++ name := by
  unfold identifier isName
  cases startsWithDigit name <;> cases reservedWords.contains name <;> rfl

theorem identifier_underscore (name : String) : identifier ("_" ++ name) = "_" ++ name := by
  rw [identifier_eq, if_pos (isName_underscore name)]

theorem identifier_eq_iff {a b : String} : identifier a = identifier b ↔
    a = b ∨ (isName a = false ∧ b = "_" ++ a) ∨ (isName b = false ∧ a = "_" ++ b) := by
  constructor
  · intro same
    rw [identifier_eq, identifier_eq] at same
    cases left : isName a <;> cases right : isName b <;> rw [left, right] at same
    · have letters := congrArg String.toList same
      simp only [Bool.false_eq_true, if_false, String.toList_append, List.append_cancel_left_eq,
        String.toList_inj] at letters
      exact Or.inl letters
    · exact Or.inr (Or.inl ⟨rfl, same.symm⟩)
    · exact Or.inr (Or.inr ⟨rfl, same⟩)
    · exact Or.inl same
  · intro cases
    have renamed {name : String} (other : isName name = false) :
        identifier name = identifier ("_" ++ name) := by
      rw [identifier_underscore, identifier_eq, if_neg (by simp [other])]
    obtain same | ⟨other, same⟩ | ⟨other, same⟩ := cases
    · rw [same]
    · rw [same, renamed other]
    · rw [same, renamed other]

/-- Some name stands beside the name that it is renamed to. -/
def Clash (names : List String) : Prop :=
  ∃ name ∈ names, isName name = false ∧ "_" ++ name ∈ names

/-- Different names have different identifiers unless two of them clash. -/
theorem identifiers_nodup_iff {names : List String} (distinct : names.Nodup) :
    (names.map identifier).Nodup ↔ ¬Clash names := by
  rw [List.nodup_map_iff_inj_on distinct]
  constructor
  · intro injective clash
    obtain ⟨name, member, other, beside⟩ := clash
    have same := injective name member ("_" ++ name) beside
      (identifier_eq_iff.2 (Or.inr (Or.inl ⟨other, rfl⟩)))
    have lengths := congrArg (fun word => word.toList.length) same
    simp [String.toList_append] at lengths
  · intro apart a inside b member same
    obtain same | ⟨other, renamed⟩ | ⟨other, renamed⟩ := identifier_eq_iff.1 same
    · exact same
    · exact absurd ⟨a, inside, other, renamed ▸ member⟩ apart
    · exact absurd ⟨b, member, other, renamed ▸ inside⟩ apart

/-! ## Declarations -/

/-- A record that a source declares. -/
structure Declaration where
  name : String
  fields : List String
  deriving DecidableEq

namespace Declaration

def field? (ts : List Token) : Option String :=
  match ts.drop 4 with
  | [.word x, .colon, .word _] =>
    if ts.take 4 = Routine.visibility ∧ isName x then some x else none
  | _ => none

def fields? : List (List Token) → Option (List String)
  | [] => none
  | [last] => if last = [] then some [] else none
  | piece :: rest => do
    let first ← field? piece
    return first :: (← fields? rest)

def ofSource? (source : String) : Option Declaration := do
  let (_, declared) ← cutAt (.word "struct") (tokens source)
  let (head, body) ← cutAt .openBrace declared
  let (body, _) ← cutAt .closeBrace body
  match head with
  | [.word name] => (fields? (body.splitOn .comma)).map fun fields => ⟨name, fields⟩
  | _ => none

def fieldTokens (x : String) : List Token :=
  Routine.visibility ++ [.word x] ++ [.colon, .word "Field"]

def bodyTokens (fields : List String) : List Token :=
  fields.flatMap fun x => fieldTokens x ++ [.comma]

theorem field_tokens {x : String} (named : isName x = true) : field? (fieldTokens x) = some x :=
  if_pos ⟨rfl, named⟩

theorem fields_tokens {fields : List String} (named : ∀ x ∈ fields, isName x = true) :
    fields? ((bodyTokens fields).splitOn .comma) = some fields := by
  induction fields with
  | nil => rfl
  | cons x rest induction =>
    have here := named x List.mem_cons_self
    have later := induction fun y member => named y (List.mem_cons_of_mem x member)
    have free : Token.comma ∉ fieldTokens x := by simp [fieldTokens, Routine.visibility]
    have split : (bodyTokens (x :: rest)).splitOn .comma =
        fieldTokens x :: (bodyTokens rest).splitOn .comma := by
      rw [← splitOn_append_cons free]
      simp [bodyTokens]
    rw [split]
    cases pieces : (bodyTokens rest).splitOn .comma with
    | nil =>
      rw [pieces] at later
      cases later
    | cons piece others =>
      rw [pieces] at later
      rw [fields?, field_tokens here, later]
      · rfl
      · simp

theorem closing_free (fields : List String) : Token.closeBrace ∉ bodyTokens fields := by
  intro member
  obtain ⟨x, _, inside⟩ := List.mem_flatMap.1 member
  simp [fieldTokens, Routine.visibility] at inside

def lines (names : List String) : List String :=
  ["pub(crate) struct Variables \x7b"]
    ++ names.map (fun name => "    pub(crate) " ++ identifier name ++ ": Field,") ++ ["\x7d"]

theorem closed_lines {names : List String} (proper : ∀ name ∈ names, IsIdentifier (identifier name)) :
    Closed (linesText (lines names)) (Routine.visibility
      ++ ([.word "struct", .word "Variables", .openBrace] ++ bodyTokens (names.map identifier)
        ++ [.closeBrace])) := by
  have head : Closed (linesText ["pub(crate) struct Variables \x7b"]) (Routine.visibility
      ++ [.word "struct", .word "Variables", .openBrace]) := rfl
  have last : Closed (linesText ["\x7d"]) [.closeBrace] := rfl
  have each : List.Forall₂ Lexes
      (names.map fun name => "    pub(crate) " ++ identifier name ++ ": Field,")
      (names.map fun name => fieldTokens (identifier name) ++ [.comma]) := by
    rw [List.forall₂_map_left_iff, List.forall₂_map_right_iff, List.forall₂_same]
    intro name member
    simpa [fieldTokens] using closed_variable (proper name member)
  have whole := closed_append (closed_append head (closed_linesText each)) last
  simpa [lines, bodyTokens, List.flatMap_def, Function.comp_def] using whole

def slotsLine (p : Program) : String :=
  "pub(crate) type BGP = [Triple; " ++ shownNat p.width ++ "];"

def slotsTokens (p : Program) : List Token :=
  Routine.visibility
    ++ [.word "type", .word "BGP", .assign, .openBracket, .word "Triple", .semicolon]
    ++ [.word (shownNat p.width)] ++ [.closeBracket, .semicolon]

theorem closed_slotsLine (p : Program) : Closed (linesText [slotsLine p]) (slotsTokens p) := by
  have opening : Closed "pub(crate) type BGP = [Triple; " (Routine.visibility ++
    [.word "type", .word "BGP", .assign, .openBracket, .word "Triple", .semicolon]) := rfl
  have line : Lexes (slotsLine p) (slotsTokens p) := closed_arrayType opening p.width
  simpa using closed_linesText (.cons line .nil)

def laterTypes (p : Program) : List String :=
  [""] ++ linesIf p.takesHints
    ["pub(crate) type Hidden = [Field; " ++ shownNat p.hints.length ++ "];", ""]

theorem typeLines_eq (p : Program) :
    typeLines p = [slotsLine p] ++ lines p.projected ++ laterTypes p := by
  unfold typeLines lines slotsLine laterTypes
  simp only [List.append_assoc, List.cons_append, List.nil_append]

/-- The declaration stands after the imports and the array type. -/
theorem bindingText_begins (p : Program) : ∃ later, bindingText p =
    linesText (importLines p.skipSigning ++ [slotsLine p] ++ lines p.projected ++ later) := by
  rw [bindingText_eq, typeLines_eq]
  exact ⟨_, congrArg linesText (by simp only [List.append_assoc]; rfl)⟩

/-- The source of a binding check declares a record whose fields are the identifiers of the
projected variables, in their order. -/
theorem ofSource_bindingText {p : Program}
    (proper : ∀ name ∈ p.projected, IsIdentifier (identifier name)) :
    ofSource? (bindingText p) = some ⟨"Variables", p.projected.map identifier⟩ := by
  let before := importTokens p.skipSigning ++ slotsTokens p ++ Routine.visibility
  obtain ⟨rest, cut⟩ : ∃ rest, tokens (bindingText p) = before ++ .word "struct" ::
      ([.word "Variables"] ++ .openBrace :: (bodyTokens (p.projected.map identifier)
        ++ .closeBrace :: rest)) := by
    have start := closed_append (closed_importLines p.skipSigning) (closed_slotsLine p)
    have whole := closed_append start (closed_lines proper)
    obtain ⟨later, text⟩ := bindingText_begins p
    refine ⟨tokens (linesText later), ?_⟩
    rw [text, linesText_append, tokens_append whole]
    simp [before]
  have free : Token.word "struct" ∉ before := by
    have imports : Token.word "struct" ∉ importTokens p.skipSigning := by
      cases p.skipSigning <;> decide
    have number : shownNat p.width ≠ "struct" := shownNat_ne rfl p.width
    simp [before, slotsTokens, imports, Routine.visibility, number.symm]
  have named : ∀ x ∈ p.projected.map identifier, isName x = true := by
    rw [List.forall_mem_map]
    intro name member
    exact (proper name member).2
  have head : Token.openBrace ∉ [Token.word "Variables"] := by decide
  rw [ofSource?, cut, cutAt_append free]
  simp only [Option.bind_eq_bind, Option.bind_some]
  rw [cutAt_append head]
  simp only [Option.bind_some]
  rw [cutAt_append (closing_free _)]
  simp only [Option.bind_some, fields_tokens named]
  rfl

end Declaration

/-! ## The table of the input file -/

/-- The members of a record that a table of field elements in hexadecimal fills. -/
def membersOf? : List (String × Toml) → Option (List (String × Datum))
  | [] => some []
  | (x, .text digits) :: rest => do
    let value ← (Field.ofHex digits).toOption
    return (x, .field value) :: (← membersOf? rest)
  | _ => none

/-- A table read back, in whatever order its entries stand. -/
theorem exists_members {names : List String} {values : String → Field}
    {entries : List (String × Toml)} (same : entries.Perm
      (names.map fun name => (identifier name, Witness.fieldValue (values name)))) :
    ∃ members, membersOf? entries = some members ∧
      members.Perm (names.map fun name => (identifier name, .field (values name))) := by
  let Stands (entry : String × Toml) (member : String × Datum) : Prop :=
    ∃ x, entry = (member.1, Witness.fieldValue x) ∧ member.2 = .field x
  have each : List.Forall₂ Stands
      (names.map fun name => (identifier name, Witness.fieldValue (values name)))
      (names.map fun name => (identifier name, .field (values name))) := by
    rw [List.forall₂_map_left_iff, List.forall₂_map_right_iff, List.forall₂_same]
    exact fun name _ => ⟨values name, rfl, rfl⟩
  obtain ⟨members, stand, permuted⟩ := List.perm_comp_forall₂ same each
  refine ⟨members, ?_, permuted⟩
  clear same each permuted
  induction stand with
  | nil => rfl
  | @cons entry member _ _ first _ induction =>
    obtain ⟨key, value⟩ := member
    obtain ⟨x, rfl, rfl⟩ := first
    rw [Witness.fieldValue, membersOf?, Field.ofHex_toHex, induction]
    rfl

end AttestedQuery.Circuit

namespace AttestedQuery.Witness

open Circuit

/-- The table has an entry for every variable, with its value, unless two identifiers are equal. -/
theorem variableEntries_perm_iff (w : Witness) (p : Program) :
    (w.variableEntries p).Perm
        (p.projected.map fun name => (identifier name, fieldValue (w.valueOf name))) ↔
      (p.projected.map identifier).Nodup := by
  rw [variableEntries, KeyMap.entries_ofList_perm_iff, List.map_map]
  rfl

def isTable (s : Toml.Section) : Bool := s.name == "variables"

theorem filter_isTable {sections : List Toml.Section}
    (others : ∀ s ∈ sections, s.name ≠ "variables") (table : Toml.Section)
    (named : table.name = "variables") : (sections ++ [table]).filter isTable = [table] := by
  have none : sections.filter isTable = [] := by
    rw [List.filter_eq_nil_iff]
    intro s member
    simpa [isTable] using others s member
  simp [List.filter_append, none, isTable, named]

theorem rootSections_names {w : Witness} {made : List Toml.Section}
    (ties : w.rootSections = .ok made) : ∀ s ∈ made, s.name ≠ "variables" := by
  obtain ⟨publicKey, _, ties⟩ := bind_ok_iff.1 ties
  obtain ⟨coordinates, _, ties⟩ := bind_ok_iff.1 ties
  obtain ⟨signature, _, ties⟩ := bind_ok_iff.1 ties
  obtain rfl := pure_ok_iff.1 ties
  simp

theorem proverInput_table {w : Witness} {p : Program} {doc : Toml.Document}
    (made : w.proverInput p = .ok doc) :
    doc.sections.filter isTable = [⟨"variables", false, w.variableEntries p⟩] := by
  have slots : ∀ s ∈ w.slots.map (fun slot =>
      Toml.Section.mk "bgp" true (slotEntries p.skipSigning slot)), s.name ≠ "variables" := by
    simp
  unfold proverInput at made
  dsimp only at made
  split at made
  next =>
    obtain rfl := pure_ok_iff.1 made
    exact filter_isTable (List.forall_mem_append.2 ⟨slots, List.forall_mem_nil _⟩) _ rfl
  next =>
    obtain ⟨signed, ties, made⟩ := bind_ok_iff.1 made
    obtain rfl := pure_ok_iff.1 made
    exact filter_isTable (List.forall_mem_append.2 ⟨slots, rootSections_names ties⟩) _ rfl

end AttestedQuery.Witness

namespace AttestedQuery.Circuit

/-! ## Every variable once -/

/-- For every compiled query with different projected variables: the record that the source of the
binding check declares has their identifiers as fields; the fields differ, and the table in the
input file of every witness holds each variable once under its identifier with its value, exactly
where no projected variable stands beside the name that it is renamed to; and then the binding
check, run on this table, decides as the evaluator does on the values of the witness. -/
theorem variables_once_iff (config : Config) (text : String) (p : Program)
    (compiled : Program.compile config text = .ok p) (distinct : p.projected.Nodup) :
    Declaration.ofSource? (Circuit.ofProgram p).bindingSource =
        some ⟨"Variables", p.projected.map identifier⟩ ∧
      ((p.projected.map identifier).Nodup ↔ ¬Clash p.projected) ∧
      ∀ (w : Witness) (doc : Toml.Document), w.proverInput p = .ok doc →
        ∃ table, doc.sections.filter Witness.isTable = [⟨"variables", false, table⟩] ∧
          (table.Perm (p.projected.map fun name =>
            (identifier name, Witness.fieldValue (w.valueOf name))) ↔ ¬Clash p.projected) ∧
          (¬Clash p.projected → w.slots.length = p.width → w.hints.length = p.hints.length →
            ∀ h : Hasher, ∃ members passes, membersOf? table = some members ∧
              accepts? h (Circuit.ofProgram p).bindingSource "checkBinding"
                (argumentsWith p (w.slots.map (·.terms)) members w.hints) = some passes ∧
              (passes = true ↔ ∃ b ∈ p.branches, (bindingView p (w.slots.map (·.terms)) w.valueOf
                w.hints).holds h b.assertion = .ok true)) := by
  have apart := identifiers_nodup_iff distinct
  have proper : ∀ name ∈ p.projected, IsIdentifier (identifier name) := by
    intro name member
    exact isIdentifier_of_variable (Program.projected_written compiled name member)
  have declared : Declaration.ofSource? (Circuit.ofProgram p).bindingSource =
      some ⟨"Variables", p.projected.map identifier⟩ := by
    change Declaration.ofSource? (bindingText p) = _
    exact Declaration.ofSource_bindingText proper
  refine ⟨declared, apart, ?_⟩
  intro w doc made
  have once := w.variableEntries_perm_iff p
  refine ⟨w.variableEntries p, Witness.proverInput_table made, once.trans apart, ?_⟩
  intro free width length h
  have different := apart.2 free
  obtain ⟨members, read, permuted⟩ := exists_members (once.2 different)
  have slots : (w.slots.map (·.terms)).length = p.width := by rw [List.length_map, width]
  obtain ⟨passes, verdict⟩ :=
    decides_on_record h compiled slots length (records_of_perm different permuted)
  exact ⟨members, passes, read, verdict⟩

/-- Circuits without signatures, whose input files take no key. -/
def trustingConfig : Config := { sampleConfig with skipSigning := true }

def sampleValues : Witness where
  branch := 0
  slots := [⟨0, ⟨.zero, .zero, .zero, .zero⟩, ⟨0, [.zero], [false]⟩⟩]
  values := KeyMap.ofList [("s", .ofNat 7), ("in", .ofNat 5), ("_in", .ofNat 9)]
  bindings := .empty
  hints := List.replicate 4 .zero
  root := .zero
  signature := ""
  publicKey := ""
  scheme := .secp256k1Ecdsa

set_option maxRecDepth 100000 in
theorem sampleChoice_trusted : (Program.compile trustingConfig sampleChoice).toOption.any (fun p =>
    decide (p.projected = ["s", "in"] ∧ p.width = 1 ∧ p.hints.length = 4 ∧ p.skipSigning = true)) =
      true := by
  decide +kernel

/-- A program without signatures has an input file for every witness. -/
theorem exists_input (w : Witness) {p : Program} (trusted : p.skipSigning = true) :
    ∃ doc, w.proverInput p = .ok doc := by
  unfold Witness.proverInput
  rw [if_pos trusted]
  exact ⟨_, rfl⟩

/-- In the sample query, a word of the language is renamed and meets no other variable. -/
theorem variables_once_sample : ∃ p doc, Program.compile trustingConfig sampleChoice = .ok p ∧
    p.projected.Nodup ∧ ¬Clash p.projected ∧ sampleValues.proverInput p = .ok doc ∧
    Declaration.ofSource? (Circuit.ofProgram p).bindingSource =
      some ⟨"Variables", p.projected.map identifier⟩ ∧
    ∃ table, doc.sections.filter Witness.isTable = [⟨"variables", false, table⟩] ∧
      table.Perm (p.projected.map fun name =>
        (identifier name, Witness.fieldValue (sampleValues.valueOf name))) ∧
      ∃ members passes, membersOf? table = some members ∧
        accepts? trustingConfig.hasher (Circuit.ofProgram p).bindingSource "checkBinding"
          (argumentsWith p (sampleValues.slots.map (·.terms)) members sampleValues.hints) =
            some passes ∧
        (passes = true ↔ ∃ b ∈ p.branches, (bindingView p (sampleValues.slots.map (·.terms))
          sampleValues.valueOf sampleValues.hints).holds trustingConfig.hasher b.assertion =
            .ok true) := by
  have shape := sampleChoice_trusted
  cases compiled : Program.compile trustingConfig sampleChoice with
  | error =>
    rw [compiled] at shape
    cases shape
  | ok p =>
    rw [compiled] at shape
    obtain ⟨projected, width, length, trusted⟩ := of_decide_eq_true shape
    have distinct : p.projected.Nodup := by
      rw [projected]
      decide
    obtain ⟨doc, made⟩ := exists_input sampleValues trusted
    obtain ⟨declared, different, each⟩ :=
      variables_once_iff trustingConfig sampleChoice p compiled distinct
    have free : ¬Clash p.projected := by
      apply different.1
      rw [projected]
      decide
    obtain ⟨table, found, once, decides⟩ := each sampleValues doc made
    exact ⟨p, doc, rfl, distinct, free, made, declared, table, found, once.2 free,
      decides free width.symm length.symm trustingConfig.hasher⟩

/-- A query that projects a word of the circuit language beside what it is renamed to. -/
def sampleClash : String := "SELECT ?in ?_in WHERE \x7b ?in <http://e/p> ?_in \x7d"

set_option maxRecDepth 100000 in
theorem sampleClash_compiles : (Program.compile trustingConfig sampleClash).toOption.any (fun p =>
    decide (p.projected = ["in", "_in"] ∧ p.skipSigning = true)) = true := by
  decide +kernel

/-- The two variables of the clashing query are different and have different values; yet both are
declared as one field, and the table holds the value of the second only. -/
theorem clash_loses_variable : ∃ p doc, Program.compile trustingConfig sampleClash = .ok p ∧
    p.projected = ["in", "_in"] ∧
    Declaration.ofSource? (Circuit.ofProgram p).bindingSource =
      some ⟨"Variables", ["_in", "_in"]⟩ ∧
    sampleValues.proverInput p = .ok doc ∧
    sampleValues.valueOf "in" = .ofNat 5 ∧ sampleValues.valueOf "_in" = .ofNat 9 ∧
    doc.sections.filter Witness.isTable =
      [⟨"variables", false, [("_in", Witness.fieldValue (.ofNat 9))]⟩] := by
  have shape := sampleClash_compiles
  cases compiled : Program.compile trustingConfig sampleClash with
  | error =>
    rw [compiled] at shape
    cases shape
  | ok p =>
    rw [compiled] at shape
    obtain ⟨projected, trusted⟩ := of_decide_eq_true shape
    have proper : ∀ name ∈ p.projected, IsIdentifier (identifier name) := by
      intro name member
      exact isIdentifier_of_variable (Program.projected_written compiled name member)
    have declared : Declaration.ofSource? (bindingText p) = some ⟨"Variables", ["_in", "_in"]⟩ := by
      rw [Declaration.ofSource_bindingText proper, projected]
      decide
    obtain ⟨doc, made⟩ := exists_input sampleValues trusted
    have table : sampleValues.variableEntries p = [("_in", Witness.fieldValue (.ofNat 9))] := by
      rw [Witness.variableEntries, projected]
      rfl
    have found := Witness.proverInput_table made
    rw [table] at found
    exact ⟨p, doc, rfl, projected, declared, made, by decide, by decide, found⟩

end AttestedQuery.Circuit
