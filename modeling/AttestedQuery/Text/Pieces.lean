/-!
# White space and pieces of a text

The characters with the Unicode property White_Space, and trimming by them; the parts of a text; a
text cut at every occurrence of a separator, and pieces joined with a separator between them.
-/

set_option autoImplicit false

namespace AttestedQuery.Text

/-- The Unicode property White_Space. -/
def isBlank (c : Char) : Bool :=
  let n := c.toNat
  (0x9 ≤ n && n ≤ 0xD) || n == 0x20 || n == 0x85 || n == 0xA0 || n == 0x1680
    || (0x2000 ≤ n && n ≤ 0x200A) || n == 0x2028 || n == 0x2029 || n == 0x202F || n == 0x205F
    || n == 0x3000

def trim (text : List Char) : List Char :=
  ((text.dropWhile isBlank).reverse.dropWhile isBlank).reverse

def afterPart : List Char → List Char → Option (List Char)
  | [], rest => some rest
  | _ :: _, [] => none
  | expected :: part, c :: rest => if expected = c then afterPart part rest else none

def occursIn (part : List Char) : List Char → Bool
  | [] => part.isEmpty
  | c :: rest => (afterPart part (c :: rest)).isSome || occursIn part rest

/-- The pieces between the occurrences of a separator; there is always at least one. -/
def piecesAt (separator : Char) : List Char → List (List Char)
  | [] => [[]]
  | c :: rest =>
    if c = separator then [] :: piecesAt separator rest
    else match piecesAt separator rest with
      | [] => [[c]]
      | piece :: pieces => (c :: piece) :: pieces

def joinWith (separator : Char) : List (List Char) → List Char
  | [] => []
  | [last] => last
  | piece :: rest => piece ++ separator :: joinWith separator rest

end AttestedQuery.Text
