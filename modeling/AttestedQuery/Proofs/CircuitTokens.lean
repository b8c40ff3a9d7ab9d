import AttestedQuery.Circuit
import AttestedQuery.Proofs.Caching
import AttestedQuery.Proofs.CircuitLanguage

/-!
# The tokens of printed code

Code is printed without looking at what follows it, and no printed word runs into its neighbour: the
tokens of a text are those of its parts one after the other.
-/

set_option autoImplicit false

namespace AttestedQuery.Circuit

/-! ## Texts and their tokens -/

theorem scan_cons (pending : Pending) (c : Char) (rest : List Char) :
    scan pending (c :: rest) = ((pending.next c).1 ++ (scan (pending.next c).2 rest).1,
      (scan (pending.next c).2 rest).2) :=
  rfl

theorem scan_append (pending : Pending) (a b : List Char) :
    scan pending (a ++ b) = ((scan pending a).1 ++ (scan (scan pending a).2 b).1,
      (scan (scan pending a).2 b).2) := by
  induction a generalizing pending with
  | nil => rfl
  | cons c rest induction => simp [scan, induction]

def Closed (text : String) (ts : List Token) : Prop := scan .nothing text.toList = (ts, .nothing)

def Lexes (text : String) (ts : List Token) : Prop :=
  ∀ c rest, isLetter c = false →
    scan .nothing (text.toList ++ c :: rest) =
      (ts ++ (scan .nothing (c :: rest)).1, (scan .nothing (c :: rest)).2)

def StartsMarked (text : String) : Prop := ∃ c rest, text.toList = c :: rest ∧ isLetter c = false

section Texts

variable {a b : String} {ta tb : List Token}

theorem Closed.lexes (closed : Closed a ta) : Lexes a ta := by
  intro c rest _
  rw [scan_append, closed]

theorem Closed.append (first : Closed a ta) (second : Closed b tb) : Closed (a ++ b) (ta ++ tb) := by
  rw [Closed, String.toList_append, scan_append, first, second]

theorem Closed.append_lexes (first : Closed a ta) (second : Lexes b tb) :
    Lexes (a ++ b) (ta ++ tb) := by
  intro c rest marked
  rw [String.toList_append, List.append_assoc, scan_append, first, second c rest marked,
    List.append_assoc]

theorem Lexes.append (first : Lexes a ta) (second : Closed b tb) (starts : StartsMarked b) :
    Closed (a ++ b) (ta ++ tb) := by
  obtain ⟨c, rest, begins, marked⟩ := starts
  rw [Closed, begins] at second
  rw [Closed, String.toList_append, begins, first c rest marked, second]

theorem Lexes.nil : Lexes "" [] := fun _ _ _ => rfl

theorem scan_letters {letters : List Char} (each : ∀ c ∈ letters, isLetter c = true)
    (before : List Char) : scan (.word before) letters = ([], .word (before ++ letters)) := by
  induction letters generalizing before with
  | nil => simp [scan]
  | cons c rest induction =>
    obtain ⟨here, later⟩ := List.forall_mem_cons.1 each
    simp [scan, Pending.next, here, induction later]

def IsWord (w : String) : Prop := w.toList ≠ [] ∧ ∀ c ∈ w.toList, isLetter c = true

instance (w : String) : Decidable (IsWord w) :=
  decidable_of_iff (w.toList ≠ [] ∧ w.toList.all isLetter = true) (by rw [List.all_eq_true, IsWord])

theorem IsWord.append {v w : String} (first : IsWord v) (second : IsWord w) : IsWord (v ++ w) := by
  constructor
  · simp [String.toList_append, first.1]
  · rw [String.toList_append, List.forall_mem_append]
    exact ⟨first.2, second.2⟩

theorem IsWord.lexes {w : String} (isWord : IsWord w) : Lexes w [.word w] := by
  intro c rest marked
  obtain ⟨nonempty, each⟩ := isWord
  cases letters : w.toList with
  | nil => exact absurd letters nonempty
  | cons first later =>
    rw [letters] at each
    obtain ⟨here, others⟩ := List.forall_mem_cons.1 each
    have whole : w = String.ofList (first :: later) := by rw [← letters, String.ofList_toList]
    have begun : Pending.begin first = ([], .word [first]) := by simp [Pending.begin, here]
    rw [List.cons_append, scan_cons, Pending.next, begun, scan_append, scan_letters others,
      scan_cons, scan_cons, Pending.next, Pending.next, marked, whole]
    rfl

theorem letter_of_isDigit {c : Char} (digit : c.isDigit = true) : isLetter c = true := by
  simp [isLetter, Char.isAlphanum, digit]

theorem isWord_shownNat (n : Nat) : IsWord (shownNat n) := by
  rw [IsWord, shownNat_toList]
  refine ⟨Nat.toDigits_ne_nil, fun c member => letter_of_isDigit ?_⟩
  exact Nat.isDigit_of_mem_toDigits (by decide) (by decide) member

theorem isLetter_digitChar {digit : Nat} (below : digit < 16) :
    isLetter (Hex.digitChar digit) = true := by
  interval_cases digit <;> rfl

theorem isWord_toHex (x : Field) : IsWord x.toHex := by
  obtain ⟨digits, _, below, written, _⟩ := Hex.exists_digits 64 x.val
  rw [IsWord, Field.toHex, String.toList_ofList, written]
  refine ⟨by simp, fun c member => ?_⟩
  simp only [List.mem_cons, List.mem_map] at member
  rcases member with rfl | rfl | ⟨digit, inside, rfl⟩
  · rfl
  · rfl
  · exact isLetter_digitChar (below digit inside)

end Texts

/-! ## Tokens of code -/

def linked (mark : Token) : List (List Token) → List Token
  | [] => []
  | first :: rest => first ++ rest.flatMap (mark :: ·)

def FieldCode.tokens : FieldCode → List Token
  | .slot i position =>
    [.word "bgp", .openBracket] ++ [.word (shownNat i)] ++ [.closeBracket, .dot, .word "terms",
      .openBracket] ++ [.word (shownNat position)] ++ [.closeBracket]
  | .variable name => [.word "variables", .dot] ++ [.word name]
  | .hint i => [.word "hidden", .openBracket] ++ [.word (shownNat i)] ++ [.closeBracket]
  | .const x => [.word x.toHex]
  | .hash2 a b =>
    [.word "consts", .scope, .word "hash2", .openParen, .openBracket] ++ a.tokens ++ [.comma]
      ++ b.tokens ++ [.closeBracket, .closeParen]
  | .hash4 a b c d =>
    [.word "consts", .scope, .word "hash4", .openParen, .openBracket] ++ a.tokens ++ [.comma]
      ++ b.tokens ++ [.comma] ++ c.tokens ++ [.comma] ++ d.tokens ++ [.closeBracket, .closeParen]

namespace TruthCode

mutual

def tokens : TruthCode → List Token
  | .const b => [.word (if b then "true" else "false")]
  | .branch index => [.word ("branch_" ++ shownNat index)]
  | .equal a b => [.openParen] ++ a.tokens ++ [.equal] ++ b.tokens ++ [.closeParen]
  | .less a b =>
    [.word "signed_lt", .openParen] ++ a.tokens ++ [.comma] ++ b.tokens ++ [.closeParen]
  | .lessOrEqual a b =>
    [.word "signed_le", .openParen] ++ a.tokens ++ [.comma] ++ b.tokens ++ [.closeParen]
  | .not a => [.bang] ++ a.tokens
  | .all parts => [.openParen] ++ linked .ampersand (tokensOf parts) ++ [.closeParen]
  | .any parts => [.openParen] ++ linked .bar (tokensOf parts) ++ [.closeParen]

def tokensOf : List TruthCode → List (List Token)
  | [] => []
  | part :: rest => part.tokens :: tokensOf rest

end

end TruthCode

/-- The tokens of a statement up to its semicolon. -/
def Statement.tokens : Statement → List Token
  | .name branch value =>
    [.word "let"] ++ [.word ("branch_" ++ shownNat branch)] ++ [.assign] ++ value.tokens
  | .require value => [.word "assert", .openParen] ++ value.tokens ++ [.closeParen]
  | .requireSome values =>
    [.word "assert", .openParen] ++ linked .bar (TruthCode.tokensOf values) ++ [.closeParen]

def IsIdentifier (w : String) : Prop := IsWord w ∧ isName w = true

/-- Every public value has a proper name. -/
def FieldCode.Named : FieldCode → Prop
  | .variable name => IsIdentifier name
  | .hash2 a b => a.Named ∧ b.Named
  | .hash4 a b c d => a.Named ∧ b.Named ∧ c.Named ∧ d.Named
  | .slot .. | .hint _ | .const _ => True

theorem FieldCode.lexes_text : (c : FieldCode) → c.Named → Lexes c.text c.tokens
  | .slot i position, _ => by
    have first : Closed "bgp[" [.word "bgp", .openBracket] := rfl
    have between : Closed "].terms[" [.closeBracket, .dot, .word "terms", .openBracket] := rfl
    have last : Closed "]" [.closeBracket] := rfl
    have opened := (first.append_lexes (isWord_shownNat i).lexes).append between ⟨_, _, rfl, rfl⟩
    exact ((opened.append_lexes (isWord_shownNat position).lexes).append last ⟨_, _, rfl, rfl⟩).lexes
  | .variable name, named => by
    have first : Closed "variables." [.word "variables", .dot] := rfl
    exact first.append_lexes named.1.lexes
  | .hint i, _ => by
    have first : Closed "hidden[" [.word "hidden", .openBracket] := rfl
    have last : Closed "]" [.closeBracket] := rfl
    exact ((first.append_lexes (isWord_shownNat i).lexes).append last ⟨_, _, rfl, rfl⟩).lexes
  | .const x, _ => (isWord_toHex x).lexes
  | .hash2 a b, named => by
    have first : Closed "consts::hash2([" [.word "consts", .scope, .word "hash2", .openParen,
      .openBracket] := rfl
    have comma : Closed ", " [.comma] := rfl
    have last : Closed "])" [.closeBracket, .closeParen] := rfl
    have one := (first.append_lexes (a.lexes_text named.1)).append comma ⟨_, _, rfl, rfl⟩
    exact ((one.append_lexes (b.lexes_text named.2)).append last ⟨_, _, rfl, rfl⟩).lexes
  | .hash4 a b c d, named => by
    have first : Closed "consts::hash4([" [.word "consts", .scope, .word "hash4", .openParen,
      .openBracket] := rfl
    have comma : Closed ", " [.comma] := rfl
    have last : Closed "])" [.closeBracket, .closeParen] := rfl
    have one := (first.append_lexes (a.lexes_text named.1)).append comma ⟨_, _, rfl, rfl⟩
    have two := (one.append_lexes (b.lexes_text named.2.1)).append comma ⟨_, _, rfl, rfl⟩
    have three := (two.append_lexes (c.lexes_text named.2.2.1)).append comma ⟨_, _, rfl, rfl⟩
    exact ((three.append_lexes (d.lexes_text named.2.2.2)).append last ⟨_, _, rfl, rfl⟩).lexes

theorem lexes_order {name : String} {opening ta tb : List Token} {a b : String}
    (first : Closed name opening) (left : Lexes a ta) (right : Lexes b tb) :
    Lexes (name ++ a ++ ", " ++ b ++ ")")
      (opening ++ ta ++ [Token.comma] ++ tb ++ [Token.closeParen]) := by
  have comma : Closed ", " [.comma] := rfl
  have last : Closed ")" [.closeParen] := rfl
  have one := (first.append_lexes left).append comma ⟨_, _, rfl, rfl⟩
  exact ((one.append_lexes right).append last ⟨_, _, rfl, rfl⟩).lexes

namespace TruthCode

mutual

def Named : TruthCode → Prop
  | .const _ | .branch _ => True
  | .equal a b | .less a b | .lessOrEqual a b => a.Named ∧ b.Named
  | .not a => a.Named
  | .all parts | .any parts => NamedAll parts

def NamedAll : List TruthCode → Prop
  | [] => True
  | part :: rest => part.Named ∧ NamedAll rest

end

mutual

theorem lexes_text : (c : TruthCode) → c.Named → Lexes c.text c.tokens
  | .const true, _ => IsWord.lexes (w := "true") (by decide)
  | .const false, _ => IsWord.lexes (w := "false") (by decide)
  | .branch index, _ => (IsWord.append (v := "branch_") (by decide) (isWord_shownNat index)).lexes
  | .equal a b, named => by
    have first : Closed "(" [.openParen] := rfl
    have between : Closed " == " [.equal] := rfl
    have last : Closed ")" [.closeParen] := rfl
    have one := (first.append_lexes (a.lexes_text named.1)).append between ⟨_, _, rfl, rfl⟩
    exact ((one.append_lexes (b.lexes_text named.2)).append last ⟨_, _, rfl, rfl⟩).lexes
  | .less a b, named => by
    have first : Closed "signed_lt(" [.word "signed_lt", .openParen] := rfl
    exact lexes_order first (a.lexes_text named.1) (b.lexes_text named.2)
  | .lessOrEqual a b, named => by
    have first : Closed "signed_le(" [.word "signed_le", .openParen] := rfl
    exact lexes_order first (a.lexes_text named.1) (b.lexes_text named.2)
  | .not a, named => by
    have first : Closed "!" [.bang] := rfl
    exact first.append_lexes (a.lexes_text named)
  | .all parts, named => by
    have first : Closed "(" [.openParen] := rfl
    have last : Closed ")" [.closeParen] := rfl
    have between : Closed " & " [.ampersand] := rfl
    have inner := lexes_joined between ⟨_, _, rfl, rfl⟩ parts named
    exact ((first.append_lexes inner).append last ⟨_, _, rfl, rfl⟩).lexes
  | .any parts, named => by
    have first : Closed "(" [.openParen] := rfl
    have last : Closed ")" [.closeParen] := rfl
    have between : Closed " | " [.bar] := rfl
    have inner := lexes_joined between ⟨_, _, rfl, rfl⟩ parts named
    exact ((first.append_lexes inner).append last ⟨_, _, rfl, rfl⟩).lexes

theorem lexes_joined {operator : String} {mark : Token} (between : Closed operator [mark])
    (starts : StartsMarked operator) : (parts : List TruthCode) → NamedAll parts →
      Lexes (joined operator parts) (linked mark (tokensOf parts))
  | [], _ => Lexes.nil
  | [last], named => by
    have alone : linked mark (tokensOf [last]) = last.tokens := by simp [tokensOf, linked]
    rw [alone]
    exact last.lexes_text named.1
  | part :: second :: rest, named => by
    have later := lexes_joined between starts (second :: rest) named.2
    have one := (part.lexes_text named.1).append between starts
    have whole := one.append_lexes later
    change Lexes (part.text ++ operator ++ joined operator (second :: rest)) _
    simpa [tokensOf, linked] using whole

end

end TruthCode

namespace Statement

def Named : Statement → Prop
  | .name _ value | .require value => value.Named
  | .requireSome values => TruthCode.NamedAll values

theorem closed_text : (s : Statement) → s.Named → Closed s.text (s.tokens ++ [Token.semicolon])
  | .name branch value, named => by
    have first : Closed "let " [.word "let"] := rfl
    have between : Closed " = " [.assign] := rfl
    have last : Closed ";" [.semicolon] := rfl
    have name := IsWord.append (v := "branch_") (by decide) (isWord_shownNat branch)
    have one := (first.append_lexes name.lexes).append between ⟨_, _, rfl, rfl⟩
    have whole := (one.append_lexes (value.lexes_text named)).append last ⟨_, _, rfl, rfl⟩
    have letters : "let branch_" ++ shownNat branch = "let " ++ ("branch_" ++ shownNat branch) := by
      rw [← String.append_assoc]
      rfl
    rw [text, letters]
    simpa [tokens] using whole
  | .require value, named => by
    have first : Closed "assert(" [.word "assert", .openParen] := rfl
    have last : Closed ");" ([Token.closeParen] ++ [Token.semicolon]) := rfl
    have whole := (first.append_lexes (value.lexes_text named)).append last ⟨_, _, rfl, rfl⟩
    simpa [text, tokens] using whole
  | .requireSome values, named => by
    have first : Closed "assert(" [.word "assert", .openParen] := rfl
    have between : Closed " | " [.bar] := rfl
    have last : Closed ");" ([Token.closeParen] ++ [Token.semicolon]) := rfl
    have inner := TruthCode.lexes_joined between ⟨_, _, rfl, rfl⟩ values named
    have whole := (first.append_lexes inner).append last ⟨_, _, rfl, rfl⟩
    simpa [text, tokens] using whole

end Statement

/-! ## Tokens of lines -/

theorem closed_linesText {lines : List String} {ts : List (List Token)}
    (each : List.Forall₂ Lexes lines ts) : Closed (linesText lines) ts.flatten := by
  induction each with
  | nil => rfl
  | cons line rest induction =>
    have newline : Closed "\n" [] := rfl
    have ended := line.append newline ⟨_, _, rfl, rfl⟩
    rw [List.append_nil] at ended
    have whole := ended.append induction
    simpa [Circuit.linesText, String.join_cons] using whole

theorem tokens_of_closed {text : String} {ts : List Token} (closed : Closed text ts) :
    tokens text = ts := by
  rw [tokens, closed]
  exact List.append_nil ts

theorem tokens_append {a b : String} {ta : List Token} (closed : Closed a ta) :
    tokens (a ++ b) = ta ++ tokens b := by
  rw [tokens, tokens, String.toList_append, scan_append, closed]
  exact List.append_assoc ..

def lineTokens? (line : String) : Option (List Token) :=
  match scan .nothing (line.toList ++ ['\n']) with
  | (ts, .nothing) => some ts
  | _ => none

theorem closed_of_lineTokens {line : String} {ts : List Token} (read : lineTokens? line = some ts) :
    Closed (line ++ "\n") ts := by
  unfold lineTokens? at read
  split at read
  next scanned =>
    obtain rfl := Option.some.inj read
    rw [Closed, String.toList_append]
    exact scanned
  next => cases read

theorem closed_lines {lines : List String} {ts : List Token}
    (read : (lines.mapM lineTokens?).map List.flatten = some ts) : Closed (linesText lines) ts := by
  induction lines generalizing ts with
  | nil =>
    obtain rfl := Option.some.inj read
    rfl
  | cons line rest induction =>
    obtain ⟨all, each, rfl⟩ := Option.map_eq_some_iff.1 read
    rw [List.mapM_cons] at each
    obtain ⟨first, here, each⟩ := Option.bind_eq_some_iff.1 each
    obtain ⟨later, others, same⟩ := Option.bind_eq_some_iff.1 each
    obtain rfl := Option.some.inj same
    have whole := (closed_of_lineTokens here).append (induction (by rw [others]; rfl))
    simpa [linesText, String.join_cons] using whole

end AttestedQuery.Circuit
