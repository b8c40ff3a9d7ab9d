import AttestedQuery.Program

/-!
# The code of a circuit

Field-valued and truth-valued code over the arguments of a circuit, statements that name or require
a truth value, and the statements of a program. One branch is required conjunct by conjunct; several
branches are named first, and one of them is required. Orders other than less and less-or-equal are
written with their sides exchanged.

Query variables become fields of a record in the circuit. A name that starts with a digit, or is a
word of the circuit language, gets an underscore in front.
-/

set_option autoImplicit false

namespace AttestedQuery.Circuit

/-! ## Identifiers -/

def reservedWords : List String :=
  ["as", "assert", "assert_eq", "comptime", "constrain", "contract", "crate", "dep", "else",
   "enum", "false", "fn", "for", "global", "if", "impl", "in", "let", "loop", "mod", "mut",
   "pub", "return", "self", "struct", "trait", "true", "type", "unchecked", "unconstrained",
   "use", "where", "while"]

def startsWithDigit (name : String) : Bool :=
  match name.toList with
  | c :: _ => c.isDigit
  | [] => false

def identifier (name : String) : String :=
  if startsWithDigit name || reservedWords.contains name then "_" ++ name else name

/-! ## Expressions -/

inductive FieldCode where
  | slot (slot position : Nat)
  /-- The public value with an identifier. -/
  | variable (identifier : String)
  | hint (index : Nat)
  | const (value : Field)
  | hash2 (a b : FieldCode)
  | hash4 (a b c d : FieldCode)

inductive TruthCode where
  | const (b : Bool)
  /-- The value named for a branch. -/
  | branch (index : Nat)
  | equal (a b : FieldCode)
  | less (a b : FieldCode)
  | lessOrEqual (a b : FieldCode)
  | not (a : TruthCode)
  | all (parts : List TruthCode)
  | any (parts : List TruthCode)

inductive Statement where
  /-- Names the value of a branch. -/
  | name (branch : Nat) (value : TruthCode)
  | require (value : TruthCode)
  /-- Requires one of several values. -/
  | requireSome (values : List TruthCode)

namespace FieldCode

def ofWire : Wire → FieldCode
  | .slot i position => .slot i position
  | .variable name => .variable (identifier name)
  | .hint i => .hint i
  | .const x => .const x
  | .hash2 a b => .hash2 (ofWire a) (ofWire b)
  | .hash4 a b c d => .hash4 (ofWire a) (ofWire b) (ofWire c) (ofWire d)

def text : FieldCode → String
  | .slot i position => "bgp[" ++ shownNat i ++ "].terms[" ++ shownNat position ++ "]"
  | .variable name => "variables." ++ name
  | .hint i => "hidden[" ++ shownNat i ++ "]"
  | .const x => x.toHex
  | .hash2 a b => "consts::hash2([" ++ a.text ++ ", " ++ b.text ++ "])"
  | .hash4 a b c d =>
    "consts::hash4([" ++ a.text ++ ", " ++ b.text ++ ", " ++ c.text ++ ", " ++ d.text ++ "])"

end FieldCode

namespace TruthCode

def ofCompare (op : CompareOp) (left right : FieldCode) : TruthCode :=
  match op with
  | .lt => .less left right
  | .le => .lessOrEqual left right
  | .gt => .less right left
  | .ge => .lessOrEqual right left

mutual

def ofAssertion : Assertion → TruthCode
  | .true => .const true
  | .false => .const false
  | .eq a b => .equal (.ofWire a) (.ofWire b)
  | .compare op left right => ofCompare op (.ofWire left) (.ofWire right)
  | .not a => .not (ofAssertion a)
  | .and parts => .all (ofAssertions parts)
  | .or parts => .any (ofAssertions parts)

def ofAssertions : List Assertion → List TruthCode
  | [] => []
  | part :: rest => ofAssertion part :: ofAssertions rest

end

mutual

def text : TruthCode → String
  | .const true => "true"
  | .const false => "false"
  | .branch index => "branch_" ++ shownNat index
  | .equal a b => "(" ++ a.text ++ " == " ++ b.text ++ ")"
  | .less a b => "signed_lt(" ++ a.text ++ ", " ++ b.text ++ ")"
  | .lessOrEqual a b => "signed_le(" ++ a.text ++ ", " ++ b.text ++ ")"
  | .not a => "!" ++ a.text
  | .all parts => "(" ++ joined " & " parts ++ ")"
  | .any parts => "(" ++ joined " | " parts ++ ")"

def joined (operator : String) : List TruthCode → String
  | [] => ""
  | [last] => last.text
  | part :: rest => part.text ++ operator ++ joined operator rest

end

mutual

def hasOrder : TruthCode → Bool
  | .less .. | .lessOrEqual .. => true
  | .not a => a.hasOrder
  | .all parts => anyHasOrder parts
  | .any parts => anyHasOrder parts
  | .const _ | .branch _ | .equal .. => false

def anyHasOrder : List TruthCode → Bool
  | [] => false
  | part :: rest => part.hasOrder || anyHasOrder rest

end

end TruthCode

namespace Statement

def text : Statement → String
  | .name branch value => "let branch_" ++ shownNat branch ++ " = " ++ value.text ++ ";"
  | .require value => "assert(" ++ value.text ++ ");"
  | .requireSome values => "assert(" ++ TruthCode.joined " | " values ++ ");"

def hasOrder : Statement → Bool
  | .name _ value => value.hasOrder
  | .require value => value.hasOrder
  | .requireSome values => TruthCode.anyHasOrder values

end Statement

def conjunctsOf : Assertion → List Assertion
  | .true => []
  | .and parts => parts
  | other => [other]

def someBranch (count : Nat) : Statement :=
  match (List.range count).map TruthCode.branch with
  | [] => .require (.const false)
  | branches => .requireSome branches

/-- The statements that accept exactly the witnesses of a program. -/
def statements (p : Program) : List Statement :=
  match p.branches with
  | [only] => (conjunctsOf only.assertion).map fun a => .require (.ofAssertion a)
  | branches =>
    (branches.zipIdx.map fun (branch, i) => .name i (.ofAssertion branch.assertion))
      ++ [someBranch branches.length]

end AttestedQuery.Circuit
