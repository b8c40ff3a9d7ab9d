import AttestedQuery.Number.Hexadecimal

/-!
# Names in RDF syntaxes

The names that the query language and the RDF formats share: their character classes, the dots
inside them, and the escapes of local names.
-/

set_option autoImplicit false

namespace AttestedQuery.Rdf

def nameStartRanges : List (Nat × Nat) :=
  [(0x41, 0x5A), (0x61, 0x7A), (0xC0, 0xD6), (0xD8, 0xF6), (0xF8, 0x2FF), (0x370, 0x37D),
    (0x37F, 0x1FFF), (0x200C, 0x200D), (0x2070, 0x218F), (0x2C00, 0x2FEF), (0x3001, 0xD7FF),
    (0xF900, 0xFDCF), (0xFDF0, 0xFFFD), (0x10000, 0xEFFFF)]

/-- The ranges of characters that may continue a name but not start it, marks and digits aside. -/
def nameJoinRanges : List (Nat × Nat) :=
  [(0xB7, 0xB7), (0x300, 0x36F), (0x203F, 0x2040)]

def inRanges (ranges : List (Nat × Nat)) (c : Char) : Bool :=
  ranges.any fun range => range.1 ≤ c.toNat && c.toNat ≤ range.2

def isNameLetter (c : Char) : Bool := inRanges nameStartRanges c

def isNameStart (c : Char) : Bool := isNameLetter c || c == '_'

def isVariableChar (c : Char) : Bool :=
  isNameStart c || c.isDigit || inRanges nameJoinRanges c

def isNameChar (c : Char) : Bool := isVariableChar c || c == '-'

/-- The characters that a local name holds only after a backslash. -/
def localMarks : List Char :=
  ['_', '~', '.', '-', '!', '$', '&', Char.ofNat 39, '(', ')', '*', '+', ',', ';', '=', '/', '?',
    '#', '@', '%']

def stringEscape? (c : Char) : Option Char :=
  if c = 't' then some '\t'
  else if c = 'b' then some (Char.ofNat 8)
  else if c = 'n' then some '\n'
  else if c = 'r' then some '\r'
  else if c = 'f' then some (Char.ofNat 12)
  else if c = '"' ∨ c = Char.ofNat 39 ∨ c = '\\' then some c
  else none

/-! ## Reading names -/

/-- Parts after dots, each with at least one character; `part` takes the characters of a part. -/
def dotted (part : List Char → List Char × List Char) (text : List Char) :
    List Char × List Char :=
  let (dots, rest) := text.span (· == '.')
  let (taken, rest) := part rest
  if dots = [] ∨ taken = [] then ([], text)
  else if rest.length < text.length then
    let (more, rest) := dotted part rest
    (dots ++ taken ++ more, rest)
  else ([], text)
termination_by text.length

/-- A name whose first character satisfies a condition; it may hold dots, but not at its end. -/
def dottedName (first : Char → Bool) : List Char → Option (List Char × List Char)
  | c :: rest =>
    if first c then
      let (name, rest) := rest.span isNameChar
      let (more, rest) := dotted (·.span isNameChar) rest
      some (c :: name ++ more, rest)
    else none
  | [] => none

/-- One character of a local name, which may be escaped. An escape stands for itself, without its
backslash; a percent sign and two digits stay as they are. -/
def localChar (admitted : Char → Bool) : List Char → Option (List Char × List Char)
  | '%' :: a :: b :: rest =>
    if (Hex.digitValue a).isSome && (Hex.digitValue b).isSome then some (['%', a, b], rest)
    else none
  | '\\' :: c :: rest => if localMarks.contains c then some ([c], rest) else none
  | c :: rest => if admitted c || c == ':' then some ([c], rest) else none
  | [] => none

def localRun (text : List Char) : List Char × List Char :=
  match localChar isNameChar text with
  | some (taken, rest) =>
    if rest.length < text.length then
      let (more, rest) := localRun rest
      (taken ++ more, rest)
    else ([], text)
  | none => ([], text)
termination_by text.length

def localName (text : List Char) : Option (List Char × List Char) := do
  let (first, rest) ← localChar (fun c => isNameStart c || c.isDigit) text
  let (name, rest) := localRun rest
  let (more, rest) := dotted localRun rest
  return (first ++ name ++ more, rest)

end AttestedQuery.Rdf
