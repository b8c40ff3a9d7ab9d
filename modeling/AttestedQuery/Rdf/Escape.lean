import AttestedQuery.Number.Hexadecimal
import AttestedQuery.Rdf.Name

/-!
# Escapes in RDF syntaxes

A backslash, `u` and four digits or `U` and eight digits stand for the character with that code.
Strings know short escapes as well. Codes of surrogates and codes above the last character stand
for nothing.
-/

set_option autoImplicit false

namespace AttestedQuery.Rdf

/-- The number written by a given count of hexadecimal digits, and what follows them. -/
def readCode : Nat → Nat → List Char → Option (Nat × List Char)
  | 0, code, rest => some (code, rest)
  | _ + 1, _, [] => none
  | digits + 1, code, c :: rest => do
    let digit ← Hex.digitValue c
    readCode digits (code * 16 + digit) rest

def charOfCode? (code : Nat) : Option Char :=
  if h : code.isValidChar then some (Char.ofNatAux code h) else none

/-- The character written by what follows a backslash, where it is a numeric escape. -/
def readNumericEscape : List Char → Option (Char × List Char)
  | 'u' :: rest => do
    let (code, rest) ← readCode 4 0 rest
    return (← charOfCode? code, rest)
  | 'U' :: rest => do
    let (code, rest) ← readCode 8 0 rest
    return (← charOfCode? code, rest)
  | _ => none

/-- The character written by what follows a backslash in a string. -/
def readStringEscape (text : List Char) : Option (Char × List Char) :=
  match readNumericEscape text, text with
  | some result, _ => some result
  | none, c :: rest => (stringEscape? c).map fun c => (c, rest)
  | none, [] => none

/-- The rest of a string after its opening quote, and what follows its closing quote. Each step
takes at least one character, so the length of the text is fuel enough. -/
def readStringBody (quote : Char) (long : Bool) : Nat → List Char → Option (List Char × List Char)
  | 0, _ => none
  | _ + 1, [] => none
  | fuel + 1, c :: rest =>
    if c = '\\' then do
      let (c, rest) ← readStringEscape rest
      let (body, rest) ← readStringBody quote long fuel rest
      return (c :: body, rest)
    else if c = quote ∧ !long then some ([], rest)
    else if c = quote ∧ rest.take 2 = [quote, quote] then some ([], rest.drop 2)
    else if !long ∧ (c = '\n' ∨ c = '\r') then none
    else do
      let (body, rest) ← readStringBody quote long fuel rest
      return (c :: body, rest)

/-- A string in one or three quotes of either kind. -/
def readString (text : List Char) : Option (List Char × List Char) :=
  match text with
  | a :: b :: c :: rest =>
    if isQuote a then
      if b = a ∧ c = a then
        (readStringBody a true text.length rest).orElse fun _ => some ([], c :: rest)
      else readStringBody a false text.length (b :: c :: rest)
    else none
  | a :: rest => if isQuote a then readStringBody a false text.length rest else none
  | [] => none
where
  isQuote (c : Char) : Bool := c == '"' || c == Char.ofNat 39

def unescapeIri : Nat → List Char → Option (List Char)
  | _, [] => some []
  | 0, _ => none
  | fuel + 1, '\\' :: rest => do
    let (c, rest) ← readNumericEscape rest
    return c :: (← unescapeIri fuel rest)
  | fuel + 1, c :: rest => do return c :: (← unescapeIri fuel rest)

end AttestedQuery.Rdf
