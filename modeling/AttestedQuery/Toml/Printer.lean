import AttestedQuery.Toml
import AttestedQuery.Number.Hexadecimal

/-!
# Writing TOML

Each entry stands on its line. A list of two items or more is broken over lines, one item a line
with a comma after it; a shorter list stays on its line. A section starts with its header, after
an empty line unless it comes first.
-/

set_option autoImplicit false

namespace AttestedQuery.Toml

def escapedChar (c : Char) : List Char :=
  if c = '"' then ['\\', '"']
  else if c = '\\' then ['\\', '\\']
  else if c.toNat = 8 then ['\\', 'b']
  else if c = '\t' then ['\\', 't']
  else if c = '\n' then ['\\', 'n']
  else if c.toNat = 12 then ['\\', 'f']
  else if c = '\r' then ['\\', 'r']
  else if c.toNat < 32 ∨ c.toNat = 127 then
    '\\' :: 'u' :: (Hex.digits 4 c.toNat).map fun digit => (Hex.digitChar digit).toUpper
  else [c]

def stringLiteral (s : String) : String :=
  String.ofList ('"' :: s.toList.flatMap escapedChar ++ ['"'])

def keyText (key : String) : String :=
  if !key.isEmpty && key.toList.all isBareKeyChar then key else stringLiteral key

mutual

def valueText : Toml → String
  | .text s => stringLiteral s
  | .whole n => Decimal.textOfInt n
  | .real numeral => numeral
  | .bool b => if b then "true" else "false"
  | .moment s => s
  | .list [] => "[]"
  | .list [single] => "[" ++ valueText single ++ "]"
  | .list items => "[\n" ++ itemLines items ++ "]"
  | .table [] => "\x7b\x7d"
  | .table entries => "\x7b " ++ inlineEntries entries ++ " \x7d"

def itemLines : List Toml → String
  | [] => ""
  | item :: rest => "    " ++ valueText item ++ ",\n" ++ itemLines rest

def inlineEntries : List (String × Toml) → String
  | [] => ""
  | [(key, value)] => keyText key ++ " = " ++ valueText value
  | (key, value) :: rest => keyText key ++ " = " ++ valueText value ++ ", " ++ inlineEntries rest

end

def entryLine (entry : String × Toml) : String :=
  keyText entry.1 ++ " = " ++ valueText entry.2 ++ "\n"

def entryLines (entries : List (String × Toml)) : String :=
  String.join (entries.map entryLine)

def Section.text (s : Section) : String :=
  (if s.isItem then "[[" ++ keyText s.name ++ "]]\n" else "[" ++ keyText s.name ++ "]\n")
    ++ entryLines s.entries

def Document.text (d : Document) : String :=
  let parts := (if d.entries.isEmpty then [] else [entryLines d.entries])
    ++ d.sections.map Section.text
  String.intercalate "\n" parts

end AttestedQuery.Toml
