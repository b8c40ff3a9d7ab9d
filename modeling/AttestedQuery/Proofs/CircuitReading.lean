import AttestedQuery.Proofs.CircuitTokens

/-!
# Printed code read back

The tokens of code read back as one phrase, whatever parts are open around it, and the tokens of a
statement as one statement. The reader of a phrase is a stack machine; a phrase in printed code
leaves the open parts below it untouched, up to prefixes and operators that the next token closes.
-/

set_option autoImplicit false

namespace AttestedQuery.Circuit

open AttestedQuery.Circuit.Reading

/-! ## Words -/

theorem startsWithDigit_ofList {c : Char} {rest : List Char} :
    startsWithDigit (String.ofList (c :: rest)) = c.isDigit := by
  simp [startsWithDigit]

theorem ofWord_shownNat (n : Nat) : Phrase.ofWord? (shownNat n) = some (.number n) := by
  have digits : ∀ c ∈ Decimal.ofNat n, c.isDigit = true := fun c member =>
    Nat.isDigit_of_mem_toDigits (by decide) (by decide) member
  have starts : startsWithDigit (shownNat n) = true := by
    rw [startsWithDigit, shownNat_toList]
    cases written : Decimal.ofNat n with
    | nil => exact absurd written Nat.toDigits_ne_nil
    | cons c rest =>
      rw [written] at digits
      exact digits c List.mem_cons_self
  have value : numeral? (shownNat n).toList = some n := by
    rw [shownNat_toList, numeral?.eq_def]
    split
    next c rest written =>
      rw [written] at digits
      exact absurd (digits 'x' (by simp)) (by decide)
    next => exact Decimal.toNat_ofNat n
  rw [Phrase.ofWord?, if_pos starts, value]
  rfl

theorem foldlM_digitValue {digits : List Nat} (below : ∀ digit ∈ digits, digit < 16) (total : Nat) :
    (digits.map Hex.digitChar).foldlM
      (fun total c => (Hex.digitValue c).map fun digit => total * 16 + digit) total =
        some (digits.foldl (fun total digit => total * 16 + digit) total) := by
  induction digits generalizing total with
  | nil => rfl
  | cons digit rest induction =>
    obtain ⟨here, later⟩ := List.forall_mem_cons.1 below
    rw [List.map_cons, List.foldlM_cons, Hex.digitValue_digitChar here]
    exact induction later _

theorem ofWord_toHex (x : Field) : Phrase.ofWord? x.toHex = some (.number x.val) := by
  obtain ⟨digits, nonempty, below, written, value⟩ := Hex.exists_digits 64 x.val
  have small : x.val % 16 ^ 64 = x.val := Nat.mod_eq_of_lt (x.val_lt.trans (by decide))
  have numeral : numeral? x.toHex.toList = some x.val := by
    rw [Field.toHex, String.toList_ofList, written]
    cases digits with
    | nil => exact absurd rfl nonempty
    | cons digit rest =>
      rw [List.map_cons, numeral?, ← List.map_cons, foldlM_digitValue below]
      exact congrArg some (value.trans small)
  rw [Phrase.ofWord?, if_pos (by rw [Field.toHex, startsWithDigit_ofList]; rfl), numeral]
  rfl

theorem ofWord_name {w : String} (isName : isName w = true) :
    Phrase.ofWord? w = some (.name w) := by
  have noDigit : startsWithDigit w = false := by
    simp only [Circuit.isName, Bool.and_eq_true, Bool.not_eq_true'] at isName
    exact isName.1
  have noTruth : w ≠ "true" := by
    rintro rfl
    exact absurd isName (by decide)
  have noFalsehood : w ≠ "false" := by
    rintro rfl
    exact absurd isName (by decide)
  rw [Phrase.ofWord?, noDigit]
  simp [noTruth, noFalsehood, isName]

/-! ## Phrases -/

theorem feed_append (s : Reading) (a b : List Token) :
    feed s (a ++ b) = (feed s a).bind fun s => feed s b := by
  rw [feed, List.foldlM_append]
  rfl

theorem feed_cons (s : Reading) (token : Token) (rest : List Token) :
    feed s (token :: rest) = (step s token).bind fun s => feed s rest := by
  rw [feed, List.foldlM_cons]
  rfl

/-- Tokens that read as a phrase, up to what the next token closes. -/
def Reads (ts : List Token) (a : Phrase) : Prop :=
  ∀ stack, ∃ open' b, feed ⟨stack, .start⟩ ts = some ⟨open', .done b⟩ ∧
    ∀ rank, settle rank open' b = settle rank stack a

/-- Tokens that read as a phrase with nothing left open. -/
def ReadsWhole (ts : List Token) (a : Phrase) : Prop :=
  ∀ stack, feed ⟨stack, .start⟩ ts = some ⟨stack, .done a⟩

/-- No token closes the innermost of these open parts without naming it. -/
def Sealed (stack : List Frame) : Prop := ∀ rank a, settle rank stack a = (stack, a)

section Phrases

variable {ts tb : List Token} {a b : Phrase} {w f : String}

theorem ReadsWhole.reads (whole : ReadsWhole ts a) : Reads ts a :=
  fun stack => ⟨stack, a, whole stack, fun _ => rfl⟩

theorem readsWhole_word (read : Phrase.ofWord? w = some a) : ReadsWhole [.word w] a := by
  intro stack
  rw [feed_cons, step, stepStart, read]
  rfl

theorem ReadsWhole.member (whole : ReadsWhole ts a) (isName : isName w = true) :
    ReadsWhole (ts ++ [Token.dot] ++ [Token.word w]) (.member a w) := by
  intro stack
  rw [List.append_assoc, feed_append, whole, Option.bind_some]
  change (if Circuit.isName w then some _ else none : Option Reading).bind _ = _
  rw [if_pos isName]
  rfl

theorem ReadsWhole.item (whole : ReadsWhole ts a) {index : Nat}
    (read : Phrase.ofWord? w = some (.number index)) :
    ReadsWhole (ts ++ [Token.openBracket] ++ [Token.word w] ++ [Token.closeBracket])
      (.item a index) := by
  intro stack
  rw [List.append_assoc, List.append_assoc, feed_append, whole, Option.bind_some]
  change feed ⟨.item a :: stack, .start⟩ ([Token.word w] ++ [Token.closeBracket]) = _
  rw [feed_append, readsWhole_word read]
  rfl

theorem Reads.not (reads : Reads ts a) : Reads ([Token.bang] ++ ts) (.not a) := by
  intro stack
  exact reads (.not :: stack)

theorem feed_trans {s t u : Reading} {x y : List Token} (first : feed s x = some t)
    (second : feed t y = some u) : feed s (x ++ y) = some u := by
  rw [feed_append, first, Option.bind_some, second]

theorem Reads.closes (reads : Reads ts a) {stack : List Frame} (locked : Sealed stack) :
    ∃ open' b, feed ⟨stack, .start⟩ ts = some ⟨open', .done b⟩ ∧
      ∀ rank, settle rank open' b = (stack, a) := by
  obtain ⟨open', b, fed, settles⟩ := reads stack
  exact ⟨open', b, fed, fun rank => (settles rank).trans (locked rank a)⟩

theorem Reads.comma (reads : Reads ts a) (stack : List Frame) (locked : Sealed stack)
    {next : Reading} (moves : Reading.comma stack a = some next) :
    feed ⟨stack, .start⟩ (ts ++ [Token.comma]) = some next := by
  obtain ⟨open', b, fed, settles⟩ := reads.closes locked
  refine feed_trans fed ?_
  change Option.bind (Reading.comma (settle 0 open' b).1 (settle 0 open' b).2) _ = _
  rw [settles, moves]
  rfl

theorem Reads.closeParen (reads : Reads ts a) (stack : List Frame) (locked : Sealed stack)
    {next : Reading} (moves : Reading.closeParen stack a = some next) :
    feed ⟨stack, .start⟩ (ts ++ [Token.closeParen]) = some next := by
  obtain ⟨open', b, fed, settles⟩ := reads.closes locked
  refine feed_trans fed ?_
  change Option.bind (Reading.closeParen (settle 0 open' b).1 (settle 0 open' b).2) _ = _
  rw [settles, moves]
  rfl

theorem Reads.closeBracket (reads : Reads ts a) (stack : List Frame) (locked : Sealed stack)
    {next : Reading} (moves : Reading.closeBracket stack a = some next) :
    feed ⟨stack, .start⟩ (ts ++ [Token.closeBracket]) = some next := by
  obtain ⟨open', b, fed, settles⟩ := reads.closes locked
  refine feed_trans fed ?_
  change Option.bind (Reading.closeBracket (settle 0 open' b).1 (settle 0 open' b).2) _ = _
  rw [settles, moves]
  rfl

theorem Reads.call (first : Reads ts a) (second : Reads tb b) {opening : List Token}
    (opens : ∀ stack, feed ⟨stack, .start⟩ opening = some ⟨.call f [] :: stack, .start⟩) :
    ReadsWhole (opening ++ ts ++ [Token.comma] ++ tb ++ [Token.closeParen]) (.call f [a, b]) := by
  intro stack
  have one := first.comma (.call f [] :: stack) (fun _ _ => rfl) rfl
  have two := second.closeParen (.call f ([] ++ [a]) :: stack) (fun _ _ => rfl) rfl
  simpa using feed_trans (feed_trans (opens stack) one) two

/-! ## Operators -/

/-- The mark of an operator that is printed between several parts. -/
def Operator.token : Operator → Token
  | .equal => .equal
  | .or => .bar
  | .and => .ampersand
  | .add => .plus

theorem step_done (stack : List Frame) (a : Phrase) (token : Token) :
    step ⟨stack, .done a⟩ token = stepDone stack a token :=
  rfl

theorem stepDone_token (op : Operator) (stack : List Frame) (a : Phrase) :
    stepDone stack a op.token =
      some ⟨.left op (settle op.rank stack a).2 :: (settle op.rank stack a).1, .start⟩ := by
  cases op <;> rfl

def Phrase.chain (op : Operator) : List Phrase → Phrase
  | [] => .list []
  | first :: rest => rest.foldl (.binary op) first

theorem Reads.chain_rest (op : Operator) {stack : List Frame} {rest : List (List Token)}
    {phrases : List Phrase} (each : List.Forall₂ Reads rest phrases) (locked : Sealed stack) :
    ∀ open' b sofar, (∀ rank ≤ op.rank, settle rank open' b = (stack, sofar)) →
      ∃ next c, feed ⟨open', .done b⟩ (rest.flatMap (op.token :: ·)) = some ⟨next, .done c⟩ ∧
        ∀ rank ≤ op.rank, settle rank next c = (stack, phrases.foldl (.binary op) sofar) := by
  induction each with
  | nil => exact fun open' b sofar settles => ⟨open', b, rfl, settles⟩
  | @cons part phrase rest phrases reads _ induction =>
    intro open' b sofar settles
    obtain ⟨inner, c, fed, within⟩ := reads (.left op sofar :: stack)
    have settled : ∀ rank ≤ op.rank, settle rank inner c = (stack, .binary op sofar phrase) := by
      intro rank below
      rw [within, settle, if_pos below, locked]
    obtain ⟨next, d, later, ends⟩ := induction inner c _ settled
    refine ⟨next, d, ?_, ends⟩
    have marked : feed ⟨open', .done b⟩ [op.token] = some ⟨.left op sofar :: stack, .start⟩ := by
      rw [feed_cons, step_done, stepDone_token, settles op.rank le_rfl]
      rfl
    simpa using feed_trans (feed_trans marked fed) later

theorem Reads.chain (op : Operator) {stack : List Frame} {parts : List (List Token)}
    {phrases : List Phrase} (each : List.Forall₂ Reads parts phrases) (nonempty : parts ≠ []) (locked : Sealed stack) :
    ∃ next c, feed ⟨stack, .start⟩ (linked op.token parts) = some ⟨next, .done c⟩ ∧
      settle 0 next c = (stack, .chain op phrases) := by
  cases each with
  | nil => exact absurd rfl nonempty
  | @cons part phrase rest phrases reads others =>
    obtain ⟨open', b, fed, settles⟩ := reads.closes locked
    obtain ⟨next, c, later, ends⟩ :=
      Reads.chain_rest op others locked open' b phrase fun rank _ => settles rank
    exact ⟨next, c, feed_trans fed later, ends 0 (Nat.zero_le _)⟩

theorem Reads.chain_closeParen (op : Operator) (stack : List Frame) {parts : List (List Token)}
    {phrases : List Phrase} (each : List.Forall₂ Reads parts phrases) (nonempty : parts ≠ [])
    (locked : Sealed stack)
    {next : Reading} (moves : Reading.closeParen stack (.chain op phrases) = some next) :
    feed ⟨stack, .start⟩ (linked op.token parts ++ [Token.closeParen]) = some next := by
  obtain ⟨open', c, fed, settles⟩ := Reads.chain op each nonempty locked
  refine feed_trans fed ?_
  change Option.bind (Reading.closeParen (settle 0 open' c).1 (settle 0 open' c).2) _ = _
  rw [settles, moves]
  rfl

theorem Reads.group (op : Operator) {parts : List (List Token)} {phrases : List Phrase}
    (each : List.Forall₂ Reads parts phrases) (nonempty : parts ≠ []) :
    ReadsWhole ([Token.openParen] ++ linked op.token parts ++ [Token.closeParen])
      (.chain op phrases) := by
  intro stack
  have opened : feed ⟨stack, .start⟩ [.openParen] = some ⟨.group :: stack, .start⟩ := rfl
  have inner := Reads.chain_closeParen op (.group :: stack) each nonempty
    (fun _ _ => rfl) rfl
  simpa using feed_trans opened inner

end Phrases

/-! ## Code -/

def FieldCode.phrase : FieldCode → Phrase
  | .slot i position => .item (.member (.item (.name "bgp") i) "terms") position
  | .variable name => .member (.name "variables") name
  | .hint i => .item (.name "hidden") i
  | .const x => .number x.val
  | .hash2 a b => .call "consts::hash2" [.list [a.phrase, b.phrase]]
  | .hash4 a b c d => .call "consts::hash4" [.list [a.phrase, b.phrase, c.phrase, d.phrase]]

theorem FieldCode.reads_tokens : (c : FieldCode) → c.Named → ReadsWhole c.tokens c.phrase
  | .slot i position, _ => by
    have base : ReadsWhole [.word "bgp"] (.name "bgp") := readsWhole_word rfl
    have quad := base.item (ofWord_shownNat i)
    exact (quad.member (w := "terms") rfl).item (ofWord_shownNat position)
  | .variable name, named => by
    have base : ReadsWhole [.word "variables"] (.name "variables") := readsWhole_word rfl
    exact base.member named.2
  | .hint i, _ => by
    have base : ReadsWhole [.word "hidden"] (.name "hidden") := readsWhole_word rfl
    exact base.item (ofWord_shownNat i)
  | .const x, _ => readsWhole_word (ofWord_toHex x)
  | .hash2 a b, named => by
    intro stack
    have opened : feed ⟨stack, .start⟩ [.word "consts", .scope, .word "hash2", .openParen,
        .openBracket] = some ⟨.list [] :: .call "consts::hash2" [] :: stack, .start⟩ := rfl
    have one := (a.reads_tokens named.1).reads.comma
      (.list [] :: .call "consts::hash2" [] :: stack) (fun _ _ => rfl) rfl
    have two := (b.reads_tokens named.2).reads.closeBracket
      (.list ([] ++ [a.phrase]) :: .call "consts::hash2" [] :: stack) (fun _ _ => rfl) rfl
    have closed : feed ⟨.call "consts::hash2" [] :: stack, .done (.list [a.phrase, b.phrase])⟩
        [.closeParen] = some ⟨stack, .done (FieldCode.hash2 a b).phrase⟩ := rfl
    simpa [tokens] using feed_trans (feed_trans (feed_trans opened one) two) closed
  | .hash4 a b c d, named => by
    intro stack
    have opened : feed ⟨stack, .start⟩ [.word "consts", .scope, .word "hash4", .openParen,
        .openBracket] = some ⟨.list [] :: .call "consts::hash4" [] :: stack, .start⟩ := rfl
    have one := (a.reads_tokens named.1).reads.comma
      (.list [] :: .call "consts::hash4" [] :: stack) (fun _ _ => rfl) rfl
    have two := (b.reads_tokens named.2.1).reads.comma
      (.list ([] ++ [a.phrase]) :: .call "consts::hash4" [] :: stack) (fun _ _ => rfl) rfl
    have three := (c.reads_tokens named.2.2.1).reads.comma
      (.list ([] ++ [a.phrase] ++ [b.phrase]) :: .call "consts::hash4" [] :: stack)
      (fun _ _ => rfl) rfl
    have four := (d.reads_tokens named.2.2.2).reads.closeBracket
      (.list ([] ++ [a.phrase] ++ [b.phrase] ++ [c.phrase]) :: .call "consts::hash4" []
        :: stack) (fun _ _ => rfl) rfl
    have closed : feed ⟨.call "consts::hash4" [] :: stack,
        .done (.list [a.phrase, b.phrase, c.phrase, d.phrase])⟩ [.closeParen] =
          some ⟨stack, .done (FieldCode.hash4 a b c d).phrase⟩ := rfl
    simpa [tokens] using
      feed_trans (feed_trans (feed_trans (feed_trans (feed_trans opened one) two) three) four) closed

namespace TruthCode

mutual

def phrase : TruthCode → Phrase
  | .const b => .truth b
  | .branch index => .name ("branch_" ++ shownNat index)
  | .equal a b => .binary .equal a.phrase b.phrase
  | .less a b => .call "signed_lt" [a.phrase, b.phrase]
  | .lessOrEqual a b => .call "signed_le" [a.phrase, b.phrase]
  | .not a => .not a.phrase
  | .all parts => .chain .and (phrases parts)
  | .any parts => .chain .or (phrases parts)

def phrases : List TruthCode → List Phrase
  | [] => []
  | part :: rest => part.phrase :: phrases rest

end

mutual

def Filled : TruthCode → Prop
  | .const _ | .branch _ | .equal .. | .less .. | .lessOrEqual .. => True
  | .not a => a.Filled
  | .all parts | .any parts => parts ≠ [] ∧ FilledAll parts

def FilledAll : List TruthCode → Prop
  | [] => True
  | part :: rest => part.Filled ∧ FilledAll rest

end

theorem isName_branch (index : Nat) : isName ("branch_" ++ shownNat index) = true := by
  have starts : startsWithDigit ("branch_" ++ shownNat index) = false := by
    rw [startsWithDigit, String.toList_append]
    rfl
  have unreserved : ∀ w ∈ reservedWords, "branch_" ++ shownNat index ≠ w := by
    intro w member same
    have letters := congrArg String.toList same
    rw [String.toList_append] at letters
    have lead : ∀ w ∈ reservedWords, w.toList.take 7 ≠ "branch_".toList := by decide
    exact lead w member (by rw [← letters]; rfl)
  rw [isName, starts, Bool.not_false, Bool.true_and, Bool.not_eq_true', ← Bool.not_eq_true,
    List.contains_iff_mem]
  exact fun member => unreserved _ member rfl

theorem tokensOf_ne_nil {parts : List TruthCode} (nonempty : parts ≠ []) : tokensOf parts ≠ [] := by
  cases parts with
  | nil => exact absurd rfl nonempty
  | cons part rest => simp [tokensOf]

mutual

theorem reads_tokens : (c : TruthCode) → c.Named → c.Filled → Reads c.tokens c.phrase
  | .const b, _, _ => by cases b <;> exact (readsWhole_word rfl).reads
  | .branch index, _, _ => (readsWhole_word (ofWord_name (isName_branch index))).reads
  | .equal a b, named, _ => by
    have left := (a.reads_tokens named.1).reads
    have right := (b.reads_tokens named.2).reads
    have both := Reads.group .equal (.cons left (.cons right .nil)) (List.cons_ne_nil _ _)
    simpa [tokens, phrase, linked, Phrase.chain, Operator.token] using both.reads
  | .less a b, named, _ => by
    have left := (a.reads_tokens named.1).reads
    exact (left.call (b.reads_tokens named.2).reads fun _ => rfl).reads
  | .lessOrEqual a b, named, _ => by
    have left := (a.reads_tokens named.1).reads
    exact (left.call (b.reads_tokens named.2).reads fun _ => rfl).reads
  | .not a, named, filled => (a.reads_tokens named filled).not
  | .all parts, named, filled => by
    have each := reads_tokensOf parts named filled.2
    exact (Reads.group .and each (tokensOf_ne_nil filled.1)).reads
  | .any parts, named, filled => by
    have each := reads_tokensOf parts named filled.2
    exact (Reads.group .or each (tokensOf_ne_nil filled.1)).reads

theorem reads_tokensOf : (parts : List TruthCode) → NamedAll parts → FilledAll parts →
    List.Forall₂ Reads (tokensOf parts) (phrases parts)
  | [], _, _ => List.Forall₂.nil
  | part :: rest, named, filled =>
    List.Forall₂.cons (part.reads_tokens named.1 filled.1) (reads_tokensOf rest named.2 filled.2)

end

end TruthCode

/-! ## Statements -/

theorem Reads.read {ts : List Token} {a : Phrase} (reads : Reads ts a) :
    Phrase.read? ts = some a := by
  obtain ⟨open', b, fed, settles⟩ := reads.closes (show Sealed [] from fun _ _ => rfl)
  rw [Phrase.read?, fed, Option.bind_some, finish?]
  simp only [settles]

theorem Clause.read_required {ts : List Token} {a : Phrase}
    (fed : feed ⟨[.call "assert" []], .start⟩ (ts ++ [Token.closeParen]) =
      some ⟨[], .done (.call "assert" [a])⟩) :
    read? ([Token.word "assert", .openParen] ++ ts ++ [Token.closeParen]) = some (.require a) := by
  have opened : feed ⟨[], .start⟩ [.word "assert", .openParen] =
      some ⟨[.call "assert" []], .start⟩ := rfl
  have read : Phrase.read? ([Token.word "assert", .openParen] ++ ts ++ [Token.closeParen]) =
      some (.call "assert" [a]) := by
    rw [Phrase.read?, List.append_assoc, feed_trans opened fed]
    rfl
  rw [read?.eq_2 _ (by simp), read]
  rfl

namespace Statement

def clause : Statement → Clause
  | .name branch value => .define ("branch_" ++ shownNat branch) value.phrase
  | .require value => .require value.phrase
  | .requireSome values => .require (.chain .or (TruthCode.phrases values))

def Filled : Statement → Prop
  | .name _ value | .require value => value.Filled
  | .requireSome values => values ≠ [] ∧ TruthCode.FilledAll values

theorem read_tokens : (s : Statement) → s.Named → s.Filled → Clause.read? s.tokens = some s.clause
  | .name branch value, named, filled => by
    have read := (value.reads_tokens named filled).read
    change (if isName ("branch_" ++ shownNat branch) then _ else none) = _
    rw [if_pos (TruthCode.isName_branch branch)]
    exact congrArg (Option.map (Clause.define _)) read
  | .require value, named, filled =>
    Clause.read_required ((value.reads_tokens named filled).closeParen _ (fun _ _ => rfl) rfl)
  | .requireSome values, named, filled => by
    have each := TruthCode.reads_tokensOf values named filled.2
    have nonempty := TruthCode.tokensOf_ne_nil filled.1
    exact Clause.read_required
      (Reads.chain_closeParen .or _ each nonempty (fun _ _ => rfl) rfl)

end Statement

/-! ## Marks between statements and routines -/

def IsBoundary (token : Token) : Prop :=
  token = .semicolon ∨ token = .closeBrace ∨ token = .word "fn"

theorem step_boundary {token : Token} (boundary : IsBoundary token) (s : Reading) :
    step s token = none := by
  obtain ⟨stack, focus⟩ := s
  rcases boundary with rfl | rfl | rfl <;> cases focus <;> rfl

theorem free_of_feed {ts : List Token} {s t : Reading} (fed : feed s ts = some t) :
    ∀ token ∈ ts, ¬IsBoundary token := by
  induction ts generalizing s with
  | nil => simp
  | cons token rest induction =>
    rw [feed_cons] at fed
    obtain ⟨next, stepped, later⟩ := Option.bind_eq_some_iff.1 fed
    rw [List.forall_mem_cons]
    refine ⟨fun boundary => ?_, induction later⟩
    rw [step_boundary boundary] at stepped
    exact absurd stepped (by simp)

theorem free_of_read {ts : List Token} {a : Phrase} (read : Phrase.read? ts = some a) :
    ∀ token ∈ ts, ¬IsBoundary token := by
  obtain ⟨s, fed, _⟩ := Option.bind_eq_some_iff.1 read
  exact free_of_feed fed

end AttestedQuery.Circuit
