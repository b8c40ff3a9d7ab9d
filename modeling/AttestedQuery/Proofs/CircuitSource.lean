import AttestedQuery.Proofs.CircuitReading

/-!
# The source of a binding check read back

The source of a binding check reads as the routines of the signed order, where some statement needs
them, followed by one routine whose statements are those of the program.
-/

set_option autoImplicit false

namespace AttestedQuery.Circuit

/-! ## Bodies -/

theorem free_of_clause {ts : List Token} {c : Clause} (read : Clause.read? ts = some c) :
    ∀ token ∈ ts, ¬IsBoundary token := by
  unfold Clause.read? at read
  split at read
  next x value =>
    obtain ⟨named, read⟩ := Option.ite_none_right_eq_some.1 read
    obtain ⟨a, found, _⟩ := Option.map_eq_some_iff.1 read
    have other : x ≠ "fn" := by
      rintro rfl
      exact absurd named (by decide)
    simp only [List.forall_mem_cons]
    exact ⟨by simp [IsBoundary], by simpa [IsBoundary] using other, by simp [IsBoundary],
      free_of_read found⟩
  next =>
    split at read
    next found => exact free_of_read found
    next => cases read

theorem cutAt_append {mark : Token} {before : List Token} (free : mark ∉ before)
    (after : List Token) : cutAt mark (before ++ mark :: after) = some (before, after) := by
  induction before with
  | nil => simp [cutAt]
  | cons token rest induction =>
    obtain ⟨other, later⟩ := not_or.1 (mt List.mem_cons.2 free)
    rw [List.cons_append, cutAt, if_neg (Ne.symm other), induction later]
    rfl

def ended (pieces : List (List Token)) : List Token := pieces.flatMap (· ++ [.semicolon])

theorem splitOn_append_cons {mark : Token} {before : List Token} (free : mark ∉ before)
    (after : List Token) :
    (before ++ mark :: after).splitOn mark = before :: after.splitOn mark := by
  refine List.splitOnP_append_cons_of_forall_mem (fun _ member => ?_) mark (by simp) after
  exact beq_eq_false_iff_ne.2 fun same => free (same ▸ member)

theorem splitOn_of_not_mem {mark : Token} {ts : List Token} (free : mark ∉ ts) :
    ts.splitOn mark = [ts] :=
  List.splitOnP_eq_singleton fun _ member =>
    beq_eq_false_iff_ne.2 fun same => free (same ▸ member)

theorem Routine.body_ended {pieces : List (List Token)} {clauses : List Clause}
    (each : List.Forall₂ (fun ts c => Clause.read? ts = some c) pieces clauses) :
    body? ((ended pieces).splitOn .semicolon) = some (clauses, none) := by
  induction each with
  | nil => rfl
  | @cons ts c pieces clauses read _ induction =>
    have free : Token.semicolon ∉ ts := fun member =>
      free_of_clause read _ member (Or.inl rfl)
    have split : (ended (ts :: pieces)).splitOn .semicolon =
        ts :: (ended pieces).splitOn .semicolon := by
      rw [← splitOn_append_cons free]
      simp [ended]
    rw [split]
    cases later : (ended pieces).splitOn .semicolon with
    | nil => simp [later, body?] at induction
    | cons piece rest =>
      rw [later] at induction
      rw [body?, read, induction]
      · rfl
      · simp

/-! ## Routines -/

def checkedNames (hints : Bool) : List String :=
  ["bgp", "variables"] ++ if hints then ["hidden"] else []

def bindingRoutine (p : Program) : Routine :=
  ⟨"checkBinding", checkedNames p.takesHints, (statements p).map Statement.clause, none⟩

def biasedRoutine : Routine :=
  ⟨"biased", ["x"], [], some (.binary .add (.name "x") (.number 0x8000000000000000))⟩

def inRangeRoutine : Routine :=
  ⟨"in_i64", ["x"], [],
    some (.method (.call "biased" [.name "x"]) "lt" [.number 0x10000000000000000])⟩

/-- Both sides of an order stand for signed numbers, and a condition on them holds. -/
def orderRoutine (name : String) (condition : Phrase) : Routine :=
  ⟨name, ["a", "b"], [],
    some (.binary .and (.binary .and (.call "in_i64" [.name "a"]) (.call "in_i64" [.name "b"]))
      condition)⟩

def biasedLess (a b : String) : Phrase :=
  .method (.call "biased" [.name a]) "lt" [.call "biased" [.name b]]

def orderRoutines : List Routine :=
  [biasedRoutine, inRangeRoutine, orderRoutine "signed_lt" (biasedLess "a" "b"),
    orderRoutine "signed_le" (.not (biasedLess "b" "a"))]

def checkedTokens (hints : Bool) : List Token :=
  [.word "bgp", .colon, .word "BGP", .comma, .word "variables", .colon, .word "Variables"]
    ++ if hints then [.comma, .word "hidden", .colon, .word "Hidden"] else []

def bindingTokens (p : Program) : List Token :=
  [.word "checkBinding", .openParen] ++ checkedTokens p.takesHints ++ [.closeParen, .openBrace]
    ++ ended ((statements p).map Statement.tokens) ++ [.closeBrace]

def orderTokens : List (List Token) :=
  [[.word "biased", .openParen, .word "x", .colon, .word "Field", .closeParen, .arrow,
      .word "Field", .openBrace, .word "x", .plus, .word "0x8000000000000000", .closeBrace],
    [.word "in_i64", .openParen, .word "x", .colon, .word "Field", .closeParen, .arrow,
      .word "bool", .openBrace, .word "biased", .openParen, .word "x", .closeParen, .dot,
      .word "lt", .openParen, .word "0x10000000000000000", .closeParen, .closeBrace],
    [.word "signed_lt", .openParen, .word "a", .colon, .word "Field", .comma, .word "b", .colon,
      .word "Field", .closeParen, .arrow, .word "bool", .openBrace, .word "in_i64", .openParen,
      .word "a", .closeParen, .ampersand, .word "in_i64", .openParen, .word "b", .closeParen,
      .ampersand, .word "biased", .openParen, .word "a", .closeParen, .dot, .word "lt", .openParen,
      .word "biased", .openParen, .word "b", .closeParen, .closeParen, .closeBrace],
    [.word "signed_le", .openParen, .word "a", .colon, .word "Field", .comma, .word "b", .colon,
      .word "Field", .closeParen, .arrow, .word "bool", .openBrace, .word "in_i64", .openParen,
      .word "a", .closeParen, .ampersand, .word "in_i64", .openParen, .word "b", .closeParen,
      .ampersand, .bang, .word "biased", .openParen, .word "b", .closeParen, .dot, .word "lt",
      .openParen, .word "biased", .openParen, .word "a", .closeParen, .closeParen, .closeBrace]]

theorem closed_orderLines : Closed (linesText orderLines) (orderTokens.flatMap (.word "fn" :: ·)) := by
  apply closed_lines
  decide +kernel

theorem read_orderTokens :
    (orderTokens.modifyLast (· ++ Routine.visibility)).mapM Routine.read? = some orderRoutines := rfl

theorem orderTokens_marked :
    (orderTokens.modifyLast (· ++ Routine.visibility)).flatMap (.word "fn" :: ·) =
      orderTokens.flatMap (.word "fn" :: ·) ++ Routine.visibility := rfl

section Binding

variable {p : Program}

theorem read_statements {code : List Statement} (named : ∀ s ∈ code, s.Named)
    (filled : ∀ s ∈ code, s.Filled) :
    List.Forall₂ (fun ts c => Clause.read? ts = some c) (code.map Statement.tokens)
      (code.map Statement.clause) := by
  rw [List.forall₂_map_left_iff, List.forall₂_map_right_iff, List.forall₂_same]
  exact fun s member => s.read_tokens (named s member) (filled s member)

theorem free_ended {code : List Statement} (named : ∀ s ∈ code, s.Named)
    (filled : ∀ s ∈ code, s.Filled) (mark : Token) (boundary : IsBoundary mark)
    (other : mark ≠ .semicolon) : mark ∉ ended (code.map Statement.tokens) := by
  intro member
  obtain ⟨piece, inside, member⟩ := List.mem_flatMap.1 member
  obtain ⟨s, found, rfl⟩ := List.mem_map.1 inside
  rcases List.mem_append.1 member with member | member
  · exact free_of_clause (s.read_tokens (named s found) (filled s found)) mark member boundary
  · exact other (List.mem_singleton.1 member)

theorem Routine.read_bindingTokens (named : ∀ s ∈ statements p, s.Named)
    (filled : ∀ s ∈ statements p, s.Filled) :
    read? (bindingTokens p) = some (bindingRoutine p) := by
  have closing := free_ended named filled .closeBrace (Or.inr (Or.inl rfl)) (by simp)
  have names (rest : List Token) : cutAt .closeParen (checkedTokens p.takesHints
      ++ Token.closeParen :: rest) = some (checkedTokens p.takesHints, rest) := by
    refine cutAt_append ?_ rest
    cases p.takesHints <;> decide
  have inner := cutAt_append closing []
  have parameters : ((checkedTokens p.takesHints).splitOn .comma).mapM parameter? =
      some (checkedNames p.takesHints) := by
    cases p.takesHints <;> rfl
  have body := body_ended (read_statements named filled)
  have shape : bindingTokens p = .word "checkBinding" :: .openParen :: (checkedTokens p.takesHints
      ++ Token.closeParen :: .openBrace :: (ended ((statements p).map Statement.tokens)
        ++ [Token.closeBrace])) := by
    simp [bindingTokens]
  rw [shape, read?, names]
  simp only [Option.bind_eq_bind, Option.bind_some, cutAt, if_true, inner]
  simp [parameters, body, bindingRoutine]

theorem free_bindingTokens (named : ∀ s ∈ statements p, s.Named)
    (filled : ∀ s ∈ statements p, s.Filled) : Token.word "fn" ∉ bindingTokens p := by
  have body := free_ended named filled (.word "fn") (Or.inr (Or.inr rfl)) (by simp)
  have names : Token.word "fn" ∉ checkedTokens p.takesHints := by
    cases p.takesHints <;> decide
  simp [bindingTokens, body, names]

end Binding

/-! ## Sources -/

theorem linesText_append (a b : List String) : linesText (a ++ b) = linesText a ++ linesText b := by
  simp [linesText, String.join_append]

theorem closed_append {a b : List String} {ta tb : List Token}
    (first : Closed (linesText a) ta) (second : Closed (linesText b) tb) :
    Closed (linesText (a ++ b)) (ta ++ tb) := by
  rw [linesText_append]
  exact first.append second

theorem shownNat_ne {w : String} (other : Phrase.ofWord? w = none) (n : Nat) : shownNat n ≠ w := by
  intro same
  have read := ofWord_shownNat n
  rw [same, other] at read
  cases read

theorem IsIdentifier.ne_fn {w : String} (proper : IsIdentifier w) : w ≠ "fn" := by
  rintro rfl
  exact absurd proper.2 (by decide)

/-- The line of a public value in its record. -/
theorem closed_variable {w : String} (proper : IsIdentifier w) :
    Lexes ("    pub(crate) " ++ w ++ ": Field,")
      (Routine.visibility ++ [Token.word w] ++ [Token.colon, .word "Field", .comma]) := by
  have first : Closed "    pub(crate) " Routine.visibility := rfl
  have last : Closed ": Field," [.colon, .word "Field", .comma] := rfl
  exact ((first.append_lexes proper.1.lexes).append last ⟨_, _, rfl, rfl⟩).lexes

theorem closed_arrayType {opening : String} {ts : List Token} (first : Closed opening ts) (n : Nat) :
    Lexes (opening ++ shownNat n ++ "];")
      (ts ++ [Token.word (shownNat n)] ++ [Token.closeBracket, .semicolon]) := by
  have last : Closed "];" [.closeBracket, .semicolon] := rfl
  exact ((first.append_lexes (isWord_shownNat n).lexes).append last ⟨_, _, rfl, rfl⟩).lexes

theorem exists_tokens {lines : List String}
    (each : ∀ line ∈ lines, ∃ ts, Lexes line ts ∧ Token.word "fn" ∉ ts) :
    ∃ ts, Closed (linesText lines) ts ∧ Token.word "fn" ∉ ts := by
  induction lines with
  | nil => exact ⟨[], rfl, by simp⟩
  | cons line rest induction =>
    obtain ⟨⟨first, lexes, free⟩, others⟩ := List.forall_mem_cons.1 each
    obtain ⟨later, closed, freeToo⟩ := induction others
    have alone : Closed (linesText [line]) first := by
      simpa using closed_linesText (.cons lexes .nil)
    refine ⟨first ++ later, closed_append alone closed, ?_⟩
    rw [List.mem_append, not_or]
    exact ⟨free, freeToo⟩

theorem exists_typeTokens {p : Program}
    (proper : ∀ name ∈ p.projected, IsIdentifier (identifier name)) :
    ∃ ts, Closed (linesText (typeLines p)) ts ∧ Token.word "fn" ∉ ts := by
  have slots : Closed "pub(crate) type BGP = [Triple; " (Routine.visibility ++
    [Token.word "type", .word "BGP", .assign, .openBracket, .word "Triple", .semicolon]) := rfl
  have hidden : Closed "pub(crate) type Hidden = [Field; " (Routine.visibility ++
    [Token.word "type", .word "Hidden", .assign, .openBracket, .word "Field", .semicolon]) := rfl
  have record : Closed "pub(crate) struct Variables \x7b" (Routine.visibility ++
    [Token.word "struct", .word "Variables", .openBrace]) := rfl
  have brace : Closed "\x7d" [.closeBrace] := rfl
  have number (n : Nat) : shownNat n ≠ "fn" := shownNat_ne rfl n
  have shared : ∀ line ∈ ["pub(crate) type BGP = [Triple; " ++ shownNat p.width ++ "];",
      "pub(crate) struct Variables \x7b"]
      ++ p.projected.map (fun name => "    pub(crate) " ++ identifier name ++ ": Field,")
      ++ ["\x7d", ""], ∃ ts, Lexes line ts ∧ Token.word "fn" ∉ ts := by
    simp only [List.forall_mem_append, List.forall_mem_cons, List.forall_mem_map]
    refine ⟨⟨⟨⟨_, closed_arrayType slots p.width, ?_⟩, ⟨_, record.lexes, by decide⟩, by simp⟩,
      fun name member => ⟨_, closed_variable (proper name member), ?_⟩⟩,
      ⟨_, brace.lexes, by decide⟩, ⟨_, Lexes.nil, by simp⟩, by simp⟩
    · simpa [Routine.visibility] using (number p.width).symm
    · simpa [Routine.visibility] using (proper name member).ne_fn.symm
  apply exists_tokens
  rw [typeLines, List.forall_mem_append]
  refine ⟨shared, ?_⟩
  cases p.takesHints with
  | false => simp [linesIf]
  | true =>
    simp only [linesIf, if_true, List.forall_mem_cons]
    refine ⟨⟨_, closed_arrayType hidden p.hints.length, ?_⟩, ⟨_, Lexes.nil, by simp⟩, by simp⟩
    simpa [Routine.visibility] using (number p.hints.length).symm

def importLines (skipSigning : Bool) : List String :=
  ["// Generated by sparql_proof", "use dep::consts;",
    if skipSigning then "use super::Triple;" else "use dep::types::Triple;", ""]

def importTokens (skipSigning : Bool) : List Token :=
  [.word "use", .word "dep", .scope, .word "consts", .semicolon]
    ++ (if skipSigning then [.word "use", .word "super", .scope, .word "Triple", .semicolon]
      else [.word "use", .word "dep", .scope, .word "types", .scope, .word "Triple", .semicolon])

theorem closed_importLines (skipSigning : Bool) :
    Closed (linesText (importLines skipSigning)) (importTokens skipSigning) := by
  apply closed_lines
  cases skipSigning <;> decide +kernel

def signatureLine (hints : Bool) : String :=
  "pub(crate) fn checkBinding(bgp: BGP, variables: Variables" ++ textIf hints ", hidden: Hidden"
    ++ ") \x7b"

theorem bindingText_eq (p : Program) : bindingText p = linesText (importLines p.skipSigning
    ++ typeLines p ++ linesIf ((statements p).any Statement.hasOrder) orderLines
    ++ [signatureLine p.takesHints] ++ (statements p).map (fun s => "    " ++ s.text)
    ++ ["\x7d"]) := rfl

theorem closed_signatureLine (hints : Bool) :
    Closed (linesText [signatureLine hints]) (Routine.visibility ++ [Token.word "fn"]
      ++ ([Token.word "checkBinding", .openParen] ++ checkedTokens hints
        ++ [Token.closeParen, .openBrace])) := by
  apply closed_lines
  cases hints <;> decide +kernel

theorem closed_statementLines {code : List Statement} (named : ∀ s ∈ code, s.Named) :
    Closed (linesText (code.map fun s => "    " ++ s.text)) (ended (code.map Statement.tokens)) := by
  rw [ended, List.flatMap_def, List.map_map]
  refine closed_linesText ?_
  rw [List.forall₂_map_left_iff, List.forall₂_map_right_iff, List.forall₂_same]
  intro s member
  have indented : Closed "    " [] := rfl
  exact (indented.append (s.closed_text (named s member))).lexes

def routineTokens (p : Program) : List (List Token) :=
  if (statements p).any Statement.hasOrder then
    orderTokens.modifyLast (· ++ Routine.visibility) ++ [bindingTokens p]
  else [bindingTokens p]

theorem exists_sourceTokens {p : Program}
    (proper : ∀ name ∈ p.projected, IsIdentifier (identifier name))
    (named : ∀ s ∈ statements p, s.Named) :
    ∃ before, Token.word "fn" ∉ before ∧
      tokens (bindingText p) = before ++ (routineTokens p).flatMap (.word "fn" :: ·) := by
  have closedImports := closed_importLines p.skipSigning
  have freeImports : Token.word "fn" ∉ importTokens p.skipSigning := by
    cases p.skipSigning <;> decide
  obtain ⟨types, closedTypes, freeTypes⟩ := exists_typeTokens proper
  have signature := closed_signatureLine p.takesHints
  have body := closed_statementLines named
  have last : Closed (linesText ["\x7d"]) [.closeBrace] := rfl
  have order : Closed (linesText (linesIf ((statements p).any Statement.hasOrder) orderLines))
      (if (statements p).any Statement.hasOrder then orderTokens.flatMap (.word "fn" :: ·) else []) := by
    cases (statements p).any Statement.hasOrder with
    | true => exact closed_orderLines
    | false => rfl
  have whole := closed_append (closed_append (closed_append (closed_append (closed_append
    closedImports closedTypes) order) signature) body) last
  rw [bindingText_eq, tokens_of_closed whole, routineTokens]
  have free : Token.word "fn" ∉ importTokens p.skipSigning ++ types := by
    rw [List.mem_append, not_or]
    exact ⟨freeImports, freeTypes⟩
  cases (statements p).any Statement.hasOrder with
  | true =>
    refine ⟨importTokens p.skipSigning ++ types, free, ?_⟩
    rw [if_pos rfl, if_pos rfl, List.flatMap_append, orderTokens_marked]
    simp [bindingTokens]
  | false =>
    refine ⟨importTokens p.skipSigning ++ types ++ Routine.visibility, ?_,
      by simp [bindingTokens]⟩
    rw [List.mem_append, not_or]
    exact ⟨free, by decide⟩

theorem splitOn_routines {before : List Token} {pieces : List (List Token)}
    (free : Token.word "fn" ∉ before) (each : ∀ piece ∈ pieces, Token.word "fn" ∉ piece) :
    (before ++ pieces.flatMap (.word "fn" :: ·)).splitOn (.word "fn") = before :: pieces := by
  induction pieces generalizing before with
  | nil => simpa using splitOn_of_not_mem free
  | cons piece rest induction =>
    obtain ⟨here, others⟩ := List.forall_mem_cons.1 each
    rw [List.flatMap_cons, List.cons_append, splitOn_append_cons free, induction here others]

def helperRoutines (p : Program) : List Routine :=
  if (statements p).any Statement.hasOrder then orderRoutines else []

def routines (p : Program) : List Routine := helperRoutines p ++ [bindingRoutine p]

theorem ofSource_bindingText {p : Program}
    (proper : ∀ name ∈ p.projected, IsIdentifier (identifier name))
    (named : ∀ s ∈ statements p, s.Named) (filled : ∀ s ∈ statements p, s.Filled) :
    Routine.ofSource? (bindingText p) = some (routines p) := by
  obtain ⟨before, free, cut⟩ := exists_sourceTokens proper named
  have binding := Routine.read_bindingTokens named filled
  have each : ∀ piece ∈ routineTokens p, Token.word "fn" ∉ piece := by
    have order : ∀ piece ∈ orderTokens.modifyLast (· ++ Routine.visibility),
      Token.word "fn" ∉ piece := by decide
    have last := free_bindingTokens named filled
    unfold routineTokens
    split
    · rw [List.forall_mem_append]
      exact ⟨order, by simpa using last⟩
    · simpa using last
  rw [Routine.ofSource?, cut, splitOn_routines free each, List.tail_cons, routineTokens, routines,
    helperRoutines]
  cases (statements p).any Statement.hasOrder with
  | true =>
    rw [if_pos rfl, if_pos rfl, List.mapM_append, read_orderTokens]
    simp [binding]
  | false => simp [binding]

end AttestedQuery.Circuit
