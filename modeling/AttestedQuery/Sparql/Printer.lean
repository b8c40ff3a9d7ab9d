import AttestedQuery.Number.Hexadecimal
import AttestedQuery.Sparql.Query

/-!
# Writing expressions

The text in which order keys and errors show expressions, and the patterns inside them. It is
close to the query language, without brackets around arithmetic.
-/

set_option autoImplicit false

namespace AttestedQuery.Sparql

def literalChar (c : Char) : List Char :=
  if c = Char.ofNat 8 then ['\\', 'b']
  else if c = '\t' then ['\\', 't']
  else if c = '\n' then ['\\', 'n']
  else if c = Char.ofNat 12 then ['\\', 'f']
  else if c = '\r' then ['\\', 'r']
  else if c = '"' then ['\\', '"']
  else if c = '\\' then ['\\', '\\']
  else if c.toNat < 32 ∨ c.toNat = 127 then
    '\\' :: 'u' :: (Hex.digits 4 c.toNat).map fun digit => (Hex.digitChar digit).toUpper
  else [c]

def iriText (iri : String) : String := "<" ++ iri ++ ">"

def varText (name : String) : String := "?" ++ name

def termText : Term → String
  | .literal value lang datatype =>
    let quoted := "\"" ++ String.ofList (value.toList.flatMap literalChar) ++ "\""
    match lang with
    | some lang => quoted ++ "@" ++ lang
    | none => if datatype = xsdString then quoted else quoted ++ "^^" ++ iriText datatype
  | other => other.shown

def nodeText : PatternTerm → String
  | .const term => termText term
  | .var name => varText name
  | .blank label => "_:" ++ label

def listed (separator : String) (texts : List String) : String := separator.intercalate texts

def braced (text : String) : String := "\x7b " ++ text ++ " \x7d"

def Path.text : Path → String
  | .iri name => iriText name
  | .reverse inner => "^(" ++ inner.text ++ ")"
  | .sequence first second => "(" ++ first.text ++ " / " ++ second.text ++ ")"
  | .alternative first second => "(" ++ first.text ++ " | " ++ second.text ++ ")"
  | .zeroOrMore inner => "(" ++ inner.text ++ ")*"
  | .oneOrMore inner => "(" ++ inner.text ++ ")+"
  | .zeroOrOne inner => "(" ++ inner.text ++ ")?"
  | .outside iris => "!(" ++ listed " | " (iris.map iriText) ++ ")"

def Triple.text (t : Triple) : String :=
  nodeText t.subject ++ " " ++ nodeText t.predicate ++ " " ++ nodeText t.object

def Function.text : Function → String
  | .named name => name
  | .custom iri => iriText iri

def UnaryOp.text : UnaryOp → String
  | .plus => "+"
  | .minus => "-"
  | .not => "!"

/-- The text of two operands with an operator. Arithmetic stands without brackets. -/
def BinaryOp.text (op : BinaryOp) (left right : String) : String :=
  let enclosed (mark : String) := "(" ++ left ++ " " ++ mark ++ " " ++ right ++ ")"
  let plain (mark : String) := left ++ " " ++ mark ++ " " ++ right
  match op with
  | .or => enclosed "||"
  | .and => enclosed "&&"
  | .equal => enclosed "="
  | .sameTerm => "sameTerm(" ++ left ++ ", " ++ right ++ ")"
  | .greater => enclosed ">"
  | .greaterOrEqual => enclosed ">="
  | .less => enclosed "<"
  | .lessOrEqual => enclosed "<="
  | .add => plain "+"
  | .subtract => plain "-"
  | .multiply => plain "*"
  | .divide => plain "/"

/-- Whether a pattern on the right of a join needs braces, because it would change what stands
before it. -/
def changesLeft : GraphPattern → Bool
  | .leftJoin .. | .leftJoinIf .. | .minus .. | .extend .. | .filter .. => true
  | _ => false

def valuesText (names : List String) (rows : List (List (Option Term))) : String :=
  let cell : Option Term → String
    | some term => termText term ++ " "
    | none => "UNDEF "
  "VALUES ( " ++ String.join (names.map fun name => varText name ++ " ") ++ ") \x7b "
    ++ String.join (rows.map fun row => "( " ++ String.join (row.map cell) ++ ") ") ++ " \x7d"

/-- The text of a nested query: what it selects from a text, and what follows. -/
structure SelectText where
  distinct : Bool
  reduced : Bool
  names : List String
  start : Nat
  length : Option Nat
  keys : List String

def SelectText.around (s : SelectText) (inner : String) : String :=
  "SELECT" ++ (if s.distinct then " DISTINCT" else "") ++ (if s.reduced then " REDUCED" else "")
    ++ (if s.names.isEmpty then " *" else String.join (s.names.map fun name => " " ++ varText name))
    ++ " WHERE " ++ braced inner
    ++ (if s.keys.isEmpty then "" else " ORDER BY" ++ String.join (s.keys.map (" " ++ ·)))
    ++ (if s.start = 0 then "" else " OFFSET " ++ Decimal.textOfInt s.start)
    ++ match s.length with
      | some length => " LIMIT " ++ Decimal.textOfInt length
      | none => ""

def SelectText.plain : SelectText := ⟨false, false, [], 0, none, []⟩

mutual

def Expression.text : Expression → String
  | .const term => termText term
  | .var name => varText name
  | .unary op argument => op.text ++ argument.text
  | .binary op left right => op.text left.text right.text
  | .isIn needle items => "(" ++ needle.text ++ " IN (" ++ listed ", " (textsOf items) ++ "))"
  | .ite condition first second =>
    "IF(" ++ condition.text ++ ", " ++ first.text ++ ", " ++ second.text ++ ")"
  | .coalesce items => "COALESCE(" ++ listed ", " (textsOf items) ++ ")"
  | .bound name => "BOUND(" ++ varText name ++ ")"
  | .call function arguments => function.text ++ "(" ++ listed ", " (textsOf arguments) ++ ")"
  | .exists pattern => "EXISTS " ++ braced pattern.text

def textsOf : List Expression → List String
  | [] => []
  | first :: rest => first.text :: textsOf rest

def GraphPattern.text : GraphPattern → String
  | .bgp triples => String.join (triples.map fun t => t.text ++ " .")
  | .path subject path object => nodeText subject ++ " " ++ path.text ++ " " ++ nodeText object ++ " ."
  | .join left right =>
    if changesLeft right then left.text ++ " " ++ braced right.text
    else left.text ++ " " ++ right.text
  | .leftJoin left right => left.text ++ " OPTIONAL " ++ braced right.text
  | .leftJoinIf left right condition =>
    left.text ++ " OPTIONAL " ++ braced (right.text ++ " FILTER(" ++ condition.text ++ ")")
  | .filter condition inner => inner.text ++ " FILTER(" ++ condition.text ++ ")"
  | .union left right => braced left.text ++ " UNION " ++ braced right.text
  | .graph name inner => "GRAPH " ++ nodeText name ++ " " ++ braced inner.text
  | .extend inner name value => inner.text ++ " BIND(" ++ value.text ++ " AS " ++ varText name ++ ")"
  | .minus left right => left.text ++ " MINUS " ++ braced right.text
  | .service name inner silent =>
    "SERVICE " ++ (if silent then "SILENT " else "") ++ nodeText name ++ " " ++ braced inner.text
  | .values names rows => valuesText names rows
  | .group inner names _ =>
    "\x7bSELECT" ++ String.join (names.map fun name => " " ++ varText name) ++ " WHERE "
      ++ braced inner.text
      ++ (if names.isEmpty then "" else
        " GROUP BY" ++ String.join (names.map fun name => " " ++ varText name)) ++ "\x7d"
  | .orderBy inner keys =>
    braced (inner.selectText { SelectText.plain with keys := keyTexts keys })
  | .project inner names => braced (inner.selectText { SelectText.plain with names := names })
  | .distinct inner => braced (inner.selectText { SelectText.plain with distinct := true })
  | .reduced inner => braced (inner.selectText { SelectText.plain with reduced := true })
  | .slice inner start length =>
    braced (inner.selectText { SelectText.plain with start := start, length := length })

/-- The text of a nested query, of which the outer parts are known. -/
def GraphPattern.selectText (outer : SelectText) : GraphPattern → String
  | .orderBy inner keys => inner.selectText { outer with keys := keyTexts keys }
  | .project inner names =>
    if outer.names.isEmpty then inner.selectText { outer with names := names }
    else outer.around (braced (inner.selectText { SelectText.plain with names := names }))
  | .distinct inner => inner.selectText { outer with distinct := true }
  | .reduced inner => inner.selectText { outer with reduced := true }
  | .slice inner start length => inner.selectText { outer with start := start, length := length }
  | other => outer.around other.text

def keyTexts : List (Bool × Expression) → List String
  | [] => []
  | (descending, key) :: rest =>
    ((if descending then "DESC(" else "ASC(") ++ key.text ++ ")") :: keyTexts rest

end

end AttestedQuery.Sparql
