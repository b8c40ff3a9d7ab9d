import AttestedQuery.Json
import AttestedQuery.Number.Hexadecimal
import AttestedQuery.Text.Pieces

/-!
# Reading JSON

A strict reader: numerals have no superfluous zeros, strings hold no raw control characters,
escapes above the basic plane come as a surrogate pair, and nothing but white space follows the
value. Nesting is limited to 127 levels.
-/

set_option autoImplicit false

namespace AttestedQuery.Json

/-- The four characters that may stand between tokens. -/
def isSpace (c : Char) : Bool :=
  c == ' ' || c == '\n' || c == '\t' || c == '\r'

def skipSpace (input : List Char) : List Char :=
  input.dropWhile isSpace

def fourDigits (a b c d : Char) : Option Nat := do
  let a ← Hex.digitValue a
  let b ← Hex.digitValue b
  let c ← Hex.digitValue c
  let d ← Hex.digitValue d
  return ((a * 16 + b) * 16 + c) * 16 + d

/-- The character with the code of a numeric escape; surrogates have none. -/
def charOfUnit (unit : Nat) : Option Char :=
  if unit < 0xD800 ∨ 0xDFFF < unit then some (Char.ofNat unit) else none

def charOfPair (high low : Nat) : Option Char :=
  if 0xD800 ≤ high ∧ high ≤ 0xDBFF ∧ 0xDC00 ≤ low ∧ low ≤ 0xDFFF then
    some (Char.ofNat (0x10000 + (high - 0xD800) * 0x400 + (low - 0xDC00)))
  else none

def charOfEscape (c : Char) : Option Char :=
  if c = '"' ∨ c = '\\' ∨ c = '/' then some c
  else if c = 'b' then some (Char.ofNat 8)
  else if c = 'f' then some (Char.ofNat 12)
  else if c = 'n' then some '\n'
  else if c = 'r' then some '\r'
  else if c = 't' then some '\t'
  else none

/-- Reads the rest of a string after its opening quote; `done` holds the characters read so far in
reverse. -/
def readString (done : List Char) : List Char → Option (String × List Char)
  | [] => none
  | '"' :: rest => some (String.ofList done.reverse, rest)
  | '\\' :: 'u' :: a :: b :: c :: d :: '\\' :: 'u' :: e :: f :: g :: h :: rest => do
    let first ← fourDigits a b c d
    match charOfUnit first with
    | some char => readString (char :: done) ('\\' :: 'u' :: e :: f :: g :: h :: rest)
    | none =>
      let second ← fourDigits e f g h
      let char ← charOfPair first second
      readString (char :: done) rest
  | '\\' :: 'u' :: a :: b :: c :: d :: rest => do
    let unit ← fourDigits a b c d
    let char ← charOfUnit unit
    readString (char :: done) rest
  | '\\' :: c :: rest => do
    let char ← charOfEscape c
    readString (char :: done) rest
  | c :: rest => if c.toNat < 32 ∨ c = '\\' then none else readString (c :: done) rest

def spanDigits (input : List Char) : List Char × List Char :=
  input.span Char.isDigit

/-- The digits of a whole part: a zero alone, or digits that do not start with zero. -/
def readWholePart (input : List Char) : Option (List Char × List Char) :=
  match spanDigits input with
  | ([], _) => none
  | ('0' :: _ :: _, _) => none
  | (digits, rest) => some (digits, rest)

/-- A point with at least one digit, or nothing. -/
def readFraction : List Char → Option (List Char × List Char)
  | '.' :: rest =>
    match spanDigits rest with
    | ([], _) => none
    | (digits, rest) => some ('.' :: digits, rest)
  | rest => some ([], rest)

def readExponent : List Char → Option (List Char × List Char)
  | mark :: rest =>
    if mark = 'e' ∨ mark = 'E' then
      let (sign, rest) := match rest with
        | '+' :: tail => (['+'], tail)
        | '-' :: tail => (['-'], tail)
        | tail => ([], tail)
      match spanDigits rest with
      | ([], _) => none
      | (digits, rest) => some (mark :: sign ++ digits, rest)
    else some ([], mark :: rest)
  | [] => some ([], [])

def numeralValue (negative : Bool) (digits fraction exponent : List Char) : Json :=
  let n := Decimal.value digits
  let numeral := Json.real (String.ofList
    ((if negative then ['-'] else []) ++ digits ++ fraction ++ exponent))
  if !fraction.isEmpty || !exponent.isEmpty then numeral
  else if negative then
    if n = 0 ∨ Nat.pow 2 63 < n then numeral else .whole (-(n : Int))
  else if Nat.pow 2 64 ≤ n then numeral else .whole n

def readNumeral (input : List Char) : Option (Json × List Char) := do
  let (negative, rest) := match input with
    | '-' :: rest => (true, rest)
    | rest => (false, rest)
  let (digits, rest) ← readWholePart rest
  let (fraction, rest) ← readFraction rest
  let (exponent, rest) ← readExponent rest
  return (numeralValue negative digits fraction exponent, rest)

mutual

/-- Reads a value, white space before it allowed. The first number bounds the steps, the second
the levels of nesting that are left. -/
def readValue : Nat → Nat → List Char → Option (Json × List Char)
  | 0, _, _ => none
  | steps + 1, levels, input =>
    match skipSpace input with
    | 'n' :: 'u' :: 'l' :: 'l' :: rest => some (.null, rest)
    | 't' :: 'r' :: 'u' :: 'e' :: rest => some (.bool true, rest)
    | 'f' :: 'a' :: 'l' :: 's' :: 'e' :: rest => some (.bool false, rest)
    | '"' :: rest => (readString [] rest).map fun (s, rest) => (.text s, rest)
    | '[' :: rest =>
      match levels with
      | 0 => none
      | levels + 1 =>
        match skipSpace rest with
        | ']' :: rest => some (.list [], rest)
        | rest => (readItems steps levels rest).map fun (items, rest) => (.list items, rest)
    | '{' :: rest =>
      match levels with
      | 0 => none
      | levels + 1 =>
        match skipSpace rest with
        | '}' :: rest => some (.object [], rest)
        | rest =>
          (readMembers steps levels rest).map fun (members, rest) => (.object members, rest)
    | rest => readNumeral rest

/-- Reads items separated by commas, and the closing bracket. -/
def readItems : Nat → Nat → List Char → Option (List Json × List Char)
  | 0, _, _ => none
  | steps + 1, levels, input => do
    let (item, rest) ← readValue steps levels input
    match skipSpace rest with
    | ',' :: rest =>
      let (items, rest) ← readItems steps levels rest
      return (item :: items, rest)
    | ']' :: rest => return ([item], rest)
    | _ => none

/-- Reads members separated by commas, and the closing brace. -/
def readMembers : Nat → Nat → List Char → Option (List (String × Json) × List Char)
  | 0, _, _ => none
  | steps + 1, levels, input => do
    match skipSpace input with
    | '"' :: rest =>
      let (key, rest) ← readString [] rest
      match skipSpace rest with
      | ':' :: rest =>
        let (value, rest) ← readValue steps levels rest
        match skipSpace rest with
        | ',' :: rest =>
          let (members, rest) ← readMembers steps levels rest
          return ((key, value) :: members, rest)
        | '}' :: rest => return ([(key, value)], rest)
        | _ => none
      | _ => none
    | _ => none

end

def nestingLimit : Nat := 127

def parseChars (input : List Char) : Option Json := do
  let (value, rest) ← readValue (2 * input.length + 2) nestingLimit input
  if (skipSpace rest).isEmpty then some value else none

def parse (input : String) : Option Json :=
  parseChars input.toList

end AttestedQuery.Json
