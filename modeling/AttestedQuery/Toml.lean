import AttestedQuery.Number.Decimal

/-!
# TOML data

The values of a TOML text, and documents of the shape the library writes: plain entries, then
sections, each a table or one item of a list of tables.
-/

set_option autoImplicit false

namespace AttestedQuery

inductive Toml where
  | text (s : String)
  /-- A whole number within 64 bits. -/
  | whole (n : Int)
  /-- A number with a fraction or an exponent, or a special one. -/
  | real (numeral : String)
  | bool (b : Bool)
  /-- A date, a time, or both. -/
  | moment (s : String)
  | list (items : List Toml)
  | table (entries : List (String × Toml))
  deriving Inhabited

namespace Toml

/-- The headed part of a document: a table, or one item of a list of tables. -/
structure Section where
  name : String
  isItem : Bool
  entries : List (String × Toml)

structure Document where
  entries : List (String × Toml)
  sections : List Section

def find? (key : String) (entries : List (String × Toml)) : Option Toml :=
  (entries.find? fun entry => entry.1 == key).map (·.2)

/-- Characters of which a key may consist without quotation marks. -/
def isBareKeyChar (c : Char) : Bool :=
  c.isAlphanum || c == '-' || c == '_'

end Toml

end AttestedQuery
