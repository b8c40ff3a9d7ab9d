import AttestedQuery.Number.Decimal
import AttestedQuery.Number.Hexadecimal
import AttestedQuery.Text.Printable

/-!
# Quoted text

A text between double quotes, in which every character that would not show as itself is written
as an escape. Used wherever a term or an error quotes a text.
-/

set_option autoImplicit false

namespace AttestedQuery.Text

/-- The escape of one character inside a quotation: a backslash form for the quotation mark, the
backslash and four controls, the scalar value in braces for what has no visible form, and the
character itself otherwise. -/
def quotedChar (mark c : Char) : List Char :=
  if c = mark then ['\\', mark]
  else if c = '\\' then ['\\', '\\']
  else if c = '\t' then ['\\', 't']
  else if c = '\r' then ['\\', 'r']
  else if c = '\n' then ['\\', 'n']
  else if c.toNat = 0 then ['\\', '0']
  else if isPrintable c then [c]
  else ['\\', 'u', '{'] ++ Hex.ofScalar c ++ ['}']

def quoted (text : String) : String :=
  String.ofList ('"' :: text.toList.flatMap (quotedChar '"') ++ ['"'])

def apostrophe : Char := Char.ofNat 39

/-- One character between single quotation marks. -/
def quotedScalar (c : Char) : String :=
  String.ofList (apostrophe :: quotedChar apostrophe c ++ [apostrophe])

end AttestedQuery.Text
