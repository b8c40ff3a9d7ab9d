import AttestedQuery.Json
import AttestedQuery.Number.Hexadecimal

/-!
# Writing JSON

Two forms of the same data: compact, without any space, and pretty, with one member or item a line
and two spaces for each level. An empty list or object stays on its line in both.
-/

set_option autoImplicit false

namespace AttestedQuery.Json

/-- The escape of one character of a string: a short form for the quote, the backslash and five
controls, four digits for the other controls, and the character itself otherwise. -/
def escapedChar (c : Char) : List Char :=
  if c = '"' then ['\\', '"']
  else if c = '\\' then ['\\', '\\']
  else if c.toNat = 8 then ['\\', 'b']
  else if c.toNat = 12 then ['\\', 'f']
  else if c = '\n' then ['\\', 'n']
  else if c = '\r' then ['\\', 'r']
  else if c = '\t' then ['\\', 't']
  else if c.toNat < 32 then
    ['\\', 'u', '0', '0', Hex.digitChar (c.toNat / 16), Hex.digitChar (c.toNat % 16)]
  else [c]

def stringLiteral (s : String) : List Char :=
  '"' :: s.toList.flatMap escapedChar ++ ['"']

mutual

def compactChars : Json → List Char
  | .null => ['n', 'u', 'l', 'l']
  | .bool true => ['t', 'r', 'u', 'e']
  | .bool false => ['f', 'a', 'l', 's', 'e']
  | .whole n => Decimal.ofInt n
  | .real numeral => numeral.toList
  | .text s => stringLiteral s
  | .list [] => ['[', ']']
  | .list (item :: rest) => '[' :: compactChars item ++ compactItems rest
  | .object [] => ['{', '}']
  | .object ((key, value) :: rest) =>
      '{' :: stringLiteral key ++ ':' :: compactChars value ++ compactMembers rest

def compactItems : List Json → List Char
  | [] => [']']
  | item :: rest => ',' :: compactChars item ++ compactItems rest

def compactMembers : List (String × Json) → List Char
  | [] => ['}']
  | (key, value) :: rest =>
      ',' :: stringLiteral key ++ ':' :: compactChars value ++ compactMembers rest

end

def newLine (level : Nat) : List Char :=
  '\n' :: List.replicate (2 * level) ' '

mutual

def prettyChars (level : Nat) : Json → List Char
  | .null => ['n', 'u', 'l', 'l']
  | .bool true => ['t', 'r', 'u', 'e']
  | .bool false => ['f', 'a', 'l', 's', 'e']
  | .whole n => Decimal.ofInt n
  | .real numeral => numeral.toList
  | .text s => stringLiteral s
  | .list [] => ['[', ']']
  | .list (item :: rest) =>
      '[' :: newLine (level + 1) ++ prettyChars (level + 1) item ++ prettyItems level rest
  | .object [] => ['{', '}']
  | .object ((key, value) :: rest) =>
      '{' :: newLine (level + 1) ++ stringLiteral key ++ ':' :: ' ' ::
        prettyChars (level + 1) value ++ prettyMembers level rest

def prettyItems (level : Nat) : List Json → List Char
  | [] => newLine level ++ [']']
  | item :: rest =>
      ',' :: newLine (level + 1) ++ prettyChars (level + 1) item ++ prettyItems level rest

def prettyMembers (level : Nat) : List (String × Json) → List Char
  | [] => newLine level ++ ['}']
  | (key, value) :: rest =>
      ',' :: newLine (level + 1) ++ stringLiteral key ++ ':' :: ' ' ::
        prettyChars (level + 1) value ++ prettyMembers level rest

end

def compact (j : Json) : String :=
  String.ofList (compactChars j)

def pretty (j : Json) : String :=
  String.ofList (prettyChars 0 j)

end AttestedQuery.Json
