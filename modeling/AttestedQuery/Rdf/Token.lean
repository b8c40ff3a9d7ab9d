import AttestedQuery.Rdf.Escape

/-!
# Tokens of the RDF text formats

The words of the line formats and of Turtle and TriG. White space and comments, which run from a
number sign to the end of the line, separate tokens and are dropped. References are not resolved
and prefixed names are not expanded here.
-/

set_option autoImplicit false

namespace AttestedQuery.Rdf

inductive Token where
  /-- A reference between angle brackets. -/
  | reference (chars : List Char)
  /-- A name with a colon; the local part may be empty. -/
  | prefixed (lead : String) (rest : List Char)
  /-- The label of a blank node. -/
  | label (name : String)
  /-- A string; a plain one stands in one double quote on each side. -/
  | string (body : String) (isPlain : Bool)
  /-- A numeral and the local name of its datatype. -/
  | number (numeral : List Char) (kind : String)
  /-- What follows an at sign. -/
  | tag (chars : List Char)
  | keyword (word : String)
  | mark (c : Char)
  /-- The double circumflex. -/
  | typeMark
  deriving DecidableEq

namespace Token

def isSpace (c : Char) : Bool := c == ' ' || c == '\t' || c == '\n' || c == '\r'

def isLineEnd (c : Char) : Bool := c == '\n' || c == '\r'

def afterSpace (inComment : Bool) : List Char → List Char
  | [] => []
  | c :: rest =>
    if inComment then afterSpace (!isLineEnd c) rest
    else if isSpace c then afterSpace false rest
    else if c = '#' then afterSpace true rest
    else c :: rest

def marks : List Char := ['.', ',', ';', '[', ']', '(', ')', '{', '}']

/-- The exponent of a numeral, if one stands here; one without digits is a fault. -/
def readExponent (text : List Char) : Option (List Char × List Char) :=
  match text with
  | c :: rest =>
    if c = 'e' ∨ c = 'E' then
      let (sign, rest) := rest.span fun c => c == '+' || c == '-'
      let (digits, rest) := rest.span Char.isDigit
      if digits = [] ∨ 1 < sign.length then none else some (c :: sign ++ digits, rest)
    else some ([], text)
  | [] => some ([], [])

/-- A numeral. A point without digits after it belongs to the numeral only before an exponent. -/
def readNumber (text : List Char) : Option (Token × List Char) := do
  let (sign, rest) := match text with
    | '+' :: rest => (['+'], rest)
    | '-' :: rest => (['-'], rest)
    | rest => ([], rest)
  let (whole, afterWhole) := rest.span Char.isDigit
  let (fraction, afterFraction) := match afterWhole with
    | '.' :: rest =>
      let (digits, rest) := rest.span Char.isDigit
      ('.' :: digits, rest)
    | rest => ([], rest)
  let (exponent, afterExponent) ← readExponent afterFraction
  if exponent ≠ [] then
    if whole = [] ∧ fraction.length ≤ 1 then none
    else some (.number (sign ++ whole ++ fraction ++ exponent) "double", afterExponent)
  else if 1 < fraction.length then
    some (.number (sign ++ whole ++ fraction) "decimal", afterFraction)
  else if whole = [] then none
  else some (.number (sign ++ whole) "integer", afterWhole)

def readString (quote : Char) (rest : List Char) : Option (Token × List Char) :=
  if rest.take 2 = [quote, quote] then
    (readStringBody quote true (rest.length + 1) (rest.drop 2)).map fun (body, rest) =>
      (.string (String.ofList body) false, rest)
  else
    (readStringBody quote false (rest.length + 1) rest).map fun (body, rest) =>
      (.string (String.ofList body) (quote == '"'), rest)

/-- What follows an at sign: a letter, and letters, digits and hyphens after it. -/
def readTag (text : List Char) : Option (Token × List Char) :=
  let (chars, rest) := text.span fun c => c.isAlphanum || c == '-'
  if chars.head?.any Char.isAlpha then some (.tag chars, rest) else none

def readName (text : List Char) : Option (Token × List Char) :=
  let (name, rest) := (dottedName isNameLetter text).getD ([], text)
  match rest with
  | ':' :: rest =>
    let (localPart, rest) := (localName rest).getD ([], rest)
    some (.prefixed (String.ofList name) localPart, rest)
  | _ => if name = [] then none else some (.keyword (String.ofList name), rest)

def read (text : List Char) : Option (Token × List Char) :=
  match text with
  | [] => none
  | '<' :: rest =>
    match rest.span (· != '>') with
    | (inner, _ :: rest) => (unescapeIri inner.length inner).map fun chars => (.reference chars, rest)
    | (_, []) => none
  | '_' :: ':' :: rest =>
    (dottedName (fun c => isNameStart c || c.isDigit) rest).map fun (name, rest) =>
      (.label (String.ofList name), rest)
  | '^' :: '^' :: rest => some (.typeMark, rest)
  | '@' :: rest => readTag rest
  | c :: rest =>
    if c = '"' ∨ c = Char.ofNat 39 then readString c rest
    else if c.isDigit ∨ c = '+' ∨ c = '-' ∨ (c = '.' ∧ rest.head?.any Char.isDigit) then
      readNumber text
    else if marks.contains c then some (.mark c, rest)
    else readName text

/-- All tokens of a text. Each takes at least one character, so the length of the text is fuel
enough. -/
def readAll : Nat → List Char → Option (List Token)
  | 0, _ => none
  | fuel + 1, text =>
    match afterSpace false text with
    | [] => some []
    | rest => do
      let (token, rest) ← read rest
      return token :: (← readAll fuel rest)

def ofText (text : List Char) : Option (List Token) := readAll (text.length + 1) text

end Token

end AttestedQuery.Rdf
