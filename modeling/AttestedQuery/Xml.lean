import AttestedQuery.Number.Decimal
import AttestedQuery.Number.Hexadecimal
import AttestedQuery.Text.Pieces

/-!
# XML as a sequence of events

A document is read from front to end as tags, characters and declarations. Start and end tags must
match, but the end of the text may come while elements are open. An empty element counts as a start
and an end. References to characters and entities are kept as they are written, and resolved by
`Xml.unescape` against the entities declared so far.
-/

set_option autoImplicit false

namespace AttestedQuery.Xml

/-- A name and a text, both as they are written. -/
abbrev Attribute := List Char × List Char

inductive Event where
  | start (name : List Char) (attributes : List Attribute)
  | finish (name : List Char)
  /-- Characters in which references may occur. -/
  | characters (text : List Char)
  /-- Characters in which nothing is a reference. -/
  | verbatim (text : List Char)
  /-- What stands between the angle brackets of a document type declaration. -/
  | documentType (text : List Char)
  /-- The declaration at the start of a document. -/
  | declaration (attributes : List Attribute)

def isSpace (c : Char) : Bool := c == ' ' || c == '\t' || c == '\n' || c == '\r'

def cutAt (part : List Char) : List Char → Option (List Char × List Char)
  | [] => none
  | c :: rest =>
    match Text.afterPart part (c :: rest) with
    | some rest => some ([], rest)
    | none => (cutAt part rest).map fun (before, rest) => (c :: before, rest)

/-! ## References -/

def standardEntities : List (List Char × List Char) :=
  [("lt".toList, ['<']), ("gt".toList, ['>']), ("amp".toList, ['&']),
    ("apos".toList, [Char.ofNat 39]), ("quot".toList, ['"'])]

def numberOf (base : Nat) (digits : List Char) : Option Nat :=
  if digits = [] then none
  else digits.foldlM
    (fun total c => (Hex.digitValue c).bind fun digit =>
      if digit < base then some (total * base + digit) else none)
    0

def charOfCode? (code : Nat) : Option Char :=
  if h : code.isValidChar then if code = 0 then none else some (Char.ofNatAux code h) else none

def resolve (entities : List (List Char × List Char)) : List Char → Option (List Char)
  | '#' :: 'x' :: digits => (numberOf 16 digits >>= charOfCode?).map fun c => [c]
  | '#' :: digits => (numberOf 10 digits >>= charOfCode?).map fun c => [c]
  | name => ((standardEntities ++ entities).find? fun entry => entry.1 == name).map (·.2)

/-- The text with its references resolved. A reference runs from an ampersand to a semicolon; the
length of the text is fuel enough. -/
def unescapeUpTo (entities : List (List Char × List Char)) : Nat → List Char → Option (List Char)
  | _, [] => some []
  | 0, _ => none
  | fuel + 1, '&' :: rest => do
    let (name, rest) ← cutAt [';'] rest
    let value ← resolve entities name
    return value ++ (← unescapeUpTo entities fuel rest)
  | fuel + 1, c :: rest => do return c :: (← unescapeUpTo entities fuel rest)

def unescape (entities : List (List Char × List Char)) (text : List Char) : Option (List Char) :=
  unescapeUpTo entities text.length text

/-- A text as characters of a document, with references for the characters that have a role. -/
def escape (text : List Char) : List Char :=
  text.flatMap fun c =>
    match standardEntities.find? fun entry => entry.2 == [c] with
    | some (name, _) => '&' :: name ++ [';']
    | none => [c]

/-! ## Markup -/

/-- The attributes of a tag, each a name, an equals sign and a quoted value. No name occurs twice.
Every attribute takes characters, so the length of the text is fuel enough. -/
def attributesUpTo : Nat → List Attribute → List Char → Option (List Attribute)
  | 0, _, _ => none
  | fuel + 1, done, text =>
    match text.dropWhile isSpace with
    | [] => some done
    | rest =>
      let (name, rest) := rest.span fun c => !isSpace c && c != '='
      match rest.dropWhile isSpace with
      | '=' :: rest =>
        match rest.dropWhile isSpace with
        | quote :: rest =>
          if (quote = '"' ∨ quote = Char.ofNat 39) ∧ name ≠ [] ∧ !(done.any (·.1 == name)) then do
            let (value, rest) ← cutAt [quote] rest
            attributesUpTo fuel (done ++ [(name, value)]) rest
          else none
        | [] => none
      | _ => none

def attributes (text : List Char) : Option (List Attribute) :=
  attributesUpTo (text.length + 1) [] text

/-- Cuts a tag at its closing angle bracket, which does not stand in quotes. -/
def cutTag (quote : Option Char) : List Char → Option (List Char × List Char)
  | [] => none
  | c :: rest =>
    if quote = none ∧ c = '>' then some ([], rest)
    else
      let next :=
        match quote with
        | some mark => if c = mark then none else some mark
        | none => if c = '"' ∨ c = Char.ofNat 39 then some c else none
      (cutTag next rest).map fun (inner, rest) => (c :: inner, rest)

/-- Cuts a document type declaration at its closing angle bracket; those inside it come in pairs. -/
def cutNested (depth : Nat) : List Char → Option (List Char × List Char)
  | [] => none
  | '>' :: rest =>
    match depth with
    | 0 => some ([], rest)
    | depth + 1 => (cutNested depth rest).map fun (inner, rest) => ('>' :: inner, rest)
  | '<' :: rest => (cutNested (depth + 1) rest).map fun (inner, rest) => ('<' :: inner, rest)
  | c :: rest => (cutNested depth rest).map fun (inner, rest) => (c :: inner, rest)

def startTag (inner : List Char) : Option (List Event × List (List Char)) :=
  let (isEmpty, inner) :=
    match inner.reverse with
    | '/' :: rest => (true, rest.reverse)
    | _ => (false, inner)
  let (name, rest) := inner.span fun c => !isSpace c
  (attributes rest).map fun attributes =>
    if isEmpty then ([.start name attributes, .finish name], [])
    else ([.start name attributes], [name])

/-- The events of an instruction: a declaration if its target is `xml`, and otherwise none. -/
def instruction (inner : List Char) : Option (List Event) :=
  match Text.afterPart "xml".toList inner with
  | some (c :: rest) =>
    if isSpace c then (attributes rest).map fun attributes => [.declaration attributes] else some []
  | _ => some []

/-- What stands between a markup's opening and its end, by the way it opens. -/
inductive Opening where
  | comment
  | verbatim
  | documentType
  | instruction
  | endTag
  | startTag

def openingOf (text : List Char) : Option (Opening × List Char) :=
  let kinds : List (String × Opening) := [("!--", .comment), ("![CDATA[", .verbatim),
    ("!DOCTYPE", .documentType), ("?", .instruction), ("/", .endTag)]
  match kinds.findSome? fun (lead, kind) => (Text.afterPart lead.toList text).map fun r => (kind, r) with
  | some found => some found
  | none => if text.head? = some '!' then none else some (.startTag, text)

/-- One piece of markup after its angle bracket: its events, the elements that are then open, and
what follows it. -/
def markup (openNames : List (List Char)) (text : List Char) :
    Option (List Event × List (List Char) × List Char) := do
  let (kind, text) ← openingOf text
  match kind with
  | .comment =>
    let (_, rest) ← cutAt "-->".toList text
    return ([], openNames, rest)
  | .verbatim =>
    let (inner, rest) ← cutAt "]]>".toList text
    return ([.verbatim inner], openNames, rest)
  | .documentType =>
    let (inner, rest) ← cutNested 0 text
    return ([.documentType inner], openNames, rest)
  | .instruction =>
    let (inner, rest) ← cutAt "?>".toList text
    return (← instruction inner, openNames, rest)
  | .endTag =>
    let (inner, rest) ← cutAt ['>'] text
    let name := (inner.reverse.dropWhile isSpace).reverse
    if openNames.head? = some name then return ([.finish name], openNames.tail, rest) else none
  | .startTag =>
    let (inner, rest) ← cutTag none text
    let (events, opened) ← startTag inner
    return (events, opened ++ openNames, rest)

/-- The events of a text, of which some elements are open. Each step takes a character, so the
length of the text is fuel enough. -/
def eventsUpTo : Nat → List (List Char) → List Char → Option (List Event)
  | _, _, [] => some []
  | 0, _, _ => none
  | fuel + 1, openNames, '<' :: rest => do
    let (events, openNames, rest) ← markup openNames rest
    return events ++ (← eventsUpTo fuel openNames rest)
  | fuel + 1, openNames, text => do
    let (characters, rest) := text.span (· != '<')
    return .characters characters :: (← eventsUpTo fuel openNames rest)

def events (text : List Char) : Option (List Event) := eventsUpTo text.length [] text

/-! ## Entities -/

/-- The entities with the one that a piece of a document type declaration declares. The value of an
entity stands in double quotes, and may refer to the entities before it. -/
def withEntity (entities : List (List Char × List Char)) (piece : List Char) :
    Option (List (List Char × List Char)) :=
  match Text.afterPart "!ENTITY".toList piece with
  | none => some entities
  | some rest => do
    let rest := rest.dropWhile isSpace
    let rest := (Text.afterPart ['%'] rest).getD rest
    let (name, rest) := (rest.dropWhile isSpace).span fun c => !isSpace c
    let rest ← Text.afterPart ['"'] (rest.dropWhile isSpace)
    let (value, rest) ← cutAt ['"'] rest
    discard (Text.afterPart ['>'] (rest.dropWhile isSpace))
    let value ← unescape entities value
    return (name, value) :: entities

/-- The entities with those of a document type declaration. -/
def entitiesOf (entities : List (List Char × List Char)) (text : List Char) :
    Option (List (List Char × List Char)) :=
  (Text.piecesAt '<' text).tail.foldlM withEntity entities

end AttestedQuery.Xml
