import AttestedQuery.Iri
import AttestedQuery.Rdf.Escape
import AttestedQuery.Rdf.Literal
import AttestedQuery.Sparql.Query
import AttestedQuery.Text.Reader

/-!
# Words of the query language

Blanks, keywords, IRIs, variables, literals and labels. Keywords are read in either letter case and
need no blank after them. Prefixed names are expanded by the declarations read so far.
-/

set_option autoImplicit false

namespace AttestedQuery.Sparql

/-- What reading a query keeps track of. A label of a blank node may occur again in the group in
which it was read, and nowhere else: leaving a group moves its labels to the closed ones. -/
structure Scope where
  base : IriBase
  namespaces : KeyMap (List Char)
  openLabels : List String
  closedLabels : List String
  /-- The number of the next name that is not written in the query. -/
  fresh : Nat
  /-- The variables of the aggregates of each SELECT around, the innermost first. -/
  aggregates : List (List String)

def Scope.initial : Scope := ⟨none, KeyMap.empty, [], [], 0, []⟩

abbrev Grammar (α : Type) := Reader Scope α

namespace Grammar

open Reader

def isSpace (c : Char) : Bool := c == ' ' || c == '\t' || c == '\n' || c == '\r'

def afterBlank (inComment : Bool) : List Char → List Char
  | [] => []
  | c :: rest =>
    if inComment then afterBlank (c != '\n' && c != '\r') rest
    else if isSpace c then afterBlank false rest
    else if c = '#' then afterBlank true rest
    else c :: rest

def blank : Grammar Unit := fun text s => (some ((), afterBlank false text), s)

def mark (text : String) : Grammar Unit := do
  exactly text
  blank

def keyword (text : String) : Grammar Unit := do
  word text
  blank

def spaced {α : Type} (reader : Grammar α) : Grammar α := do
  let a ← reader
  blank
  return a

def bracketed {α : Type} (reader : Grammar α) : Grammar α := do
  mark "("
  let a ← spaced reader
  exactly ")"
  return a

def scan {α : Type} (scanner : List Char → Option (α × List Char)) : Grammar α :=
  fun text s => (scanner text, s)

def freshLabel : Grammar String := do
  let s ← getState
  setState { s with fresh := s.fresh + 1 }
  return freshName s.fresh

/-! ## Names -/

/-- The part of a prefixed name up to its colon. -/
def namespaceLead : Grammar String := do
  let name ← maybe (scan (Rdf.dottedName Rdf.isNameLetter))
  exactly ":"
  return String.ofList (name.getD [])

/-! ## IRIs -/

/-- An IRI between angle brackets, resolved against the base. -/
def iriReference : Grammar (List Char) := do
  exactly "<"
  let text ← run (· != '>')
  exactly ">"
  let text ← ofOption (Rdf.unescapeIri text.length text)
  ofOption (absoluteIri (← getState).base text)

/-- The IRI that a declared name and a local part stand for. -/
def expanded (name : String) (rest : List Char) : Grammar (List Char) := do
  let lead ← ofOption ((← getState).namespaces.get? name)
  ofOption (absoluteIri none (lead ++ rest))

def prefixedName : Grammar (List Char) :=
  (do
    let name ← namespaceLead
    let rest ← scan Rdf.localName
    expanded name rest)
  <|> (do expanded (← namespaceLead) [])

def iri : Grammar String := do
  let text ← iriReference <|> prefixedName
  return String.ofList text

/-! ## Variables and blank nodes -/

def var : Grammar String := do
  discard (charIf fun c => c == '?' || c == '$')
  let first ← charIf fun c => Rdf.isNameStart c || c.isDigit
  let rest ← run Rdf.isVariableChar
  return String.ofList (first :: rest)

def varOrIri : Grammar PatternTerm :=
  (do return .var (← var)) <|> (do return .const (.iri (← iri)))

/-- An opening and a closing mark with nothing but white space between them. -/
def emptyPair (opening closing : String) : Grammar Unit := do
  exactly opening
  discard (run isSpace)
  exactly closing

/-- A labelled blank node. The label must not belong to a group that was left. -/
def labelled : Grammar String := do
  exactly "_:"
  let label ← scan (Rdf.dottedName fun c => Rdf.isNameStart c || c.isDigit)
  let label := String.ofList label
  let s ← getState
  require !s.closedLabels.contains label
  setState { s with openLabels := label :: s.openLabels }
  return label

def blankNode : Grammar String :=
  labelled <|> (do
    emptyPair "[" "]"
    freshLabel)

/-- Leaves a group: its labels belong to it alone from now on. -/
def closeLabels : Grammar Unit :=
  changeState fun s => { s with closedLabels := s.openLabels ++ s.closedLabels, openLabels := [] }

/-! ## Literals -/

def string : Grammar String := do
  return String.ofList (← scan Rdf.readString)

def languageTag : Grammar (List Char) := do
  exactly "@"
  let primary ← someRun fun c => c.isLower || c.isUpper
  let rest ← many (do
    exactly "-"
    return '-' :: (← someRun Char.isAlphanum))
  return primary ++ rest.flatten

def stringLiteral : Grammar Term := do
  let value ← string
  (do
    blank
    mark "^^"
    ofOption (Rdf.typedLiteral value (← iri)))
  <|> (do
    blank
    ofOption (Rdf.taggedLiteral value (← languageTag)))
  <|> (do return .simple value)

def digits : Grammar (List Char) := someRun Char.isDigit

def exponent : Grammar (List Char) := do
  let mark ← charIf fun c => c == 'e' || c == 'E'
  let sign ← maybe (charIf fun c => c == '+' || c == '-')
  return mark :: sign.toList ++ (← digits)

def fraction : Grammar (List Char) := do
  let whole ← run Char.isDigit
  exactly "."
  return whole ++ '.' :: (← digits)

def significand : Grammar (List Char) :=
  (do
    let whole ← digits
    exactly "."
    return whole ++ '.' :: (← run Char.isDigit))
  <|> fraction <|> digits

def double : Grammar (List Char) := do
  let value ← significand
  return value ++ (← exponent)

def xsdTyped (value : List Char) (localName : String) : Term :=
  .literal (String.ofList value) none (xsd ++ localName)

def unsignedNumber : Grammar Term :=
  (do return xsdTyped (← double) "double")
  <|> (do return xsdTyped (← fraction) "decimal")
  <|> (do return xsdTyped (← digits) "integer")

def sign : Grammar (List Char) :=
  taken (do
    exactly "+" <|> exactly "-"
    blank)

def number : Grammar Term :=
  unsignedNumber <|> (do
    let sign ← sign
    match ← unsignedNumber with
    | .literal value lang datatype =>
      return .literal (String.ofList (sign ++ value.toList)) lang datatype
    | other => return other)

def boolean : Grammar Term :=
  (do
    exactly "true"
    return xsdTyped "true".toList "boolean")
  <|> (do
    exactly "false"
    return xsdTyped "false".toList "boolean")

def literal : Grammar Term := stringLiteral <|> number <|> boolean

end Grammar

end AttestedQuery.Sparql
