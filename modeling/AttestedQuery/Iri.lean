import AttestedQuery.Number.Hexadecimal
import AttestedQuery.Text.Pieces

/-!
# IRIs

The parts of an IRI reference, the characters that each part may hold, and the resolution of a
reference against a base. Terms hold absolute IRIs only.
-/

set_option autoImplicit false

namespace AttestedQuery

/-- A reference cut at its delimiters, none of which is kept. -/
structure IriReference where
  scheme : Option (List Char)
  authority : Option (List Char)
  path : List Char
  query : Option (List Char)
  fragment : Option (List Char)
  deriving DecidableEq

namespace IriReference

/-! ## Parts -/

def isAsciiLetter (c : Char) : Bool := c.isLower || c.isUpper

def isSchemeChar (c : Char) : Bool :=
  isAsciiLetter c || c.isDigit || c == '+' || c == '-' || c == '.'

def cutScheme (text : List Char) : Option (List Char) × List Char :=
  match text with
  | [] => (none, [])
  | first :: _ =>
    if isAsciiLetter first then
      match text.span isSchemeChar with
      | (scheme, ':' :: rest) => (some scheme, rest)
      | _ => (none, text)
    else (none, text)

def cutAuthority : List Char → Option (List Char) × List Char
  | '/' :: '/' :: rest =>
    let (authority, rest) := rest.span fun c => c != '/' && c != '?' && c != '#'
    (some authority, rest)
  | rest => (none, rest)

def cutQuery : List Char → Option (List Char) × List Char
  | '?' :: rest =>
    let (query, rest) := rest.span fun c => c != '#'
    (some query, rest)
  | rest => (none, rest)

def cutFragment : List Char → Option (List Char)
  | '#' :: rest => some rest
  | _ => none

def ofChars (text : List Char) : IriReference :=
  let (scheme, rest) := cutScheme text
  let (authority, rest) := cutAuthority rest
  let (path, rest) := rest.span fun c => c != '?' && c != '#'
  let (query, rest) := cutQuery rest
  ⟨scheme, authority, path, query, cutFragment rest⟩

def delimited (delimiter : List Char) : Option (List Char) → List Char
  | none => []
  | some part => delimiter ++ part

def toChars (r : IriReference) : List Char :=
  (match r.scheme with
    | none => []
    | some scheme => scheme ++ [':'])
    ++ delimited ['/', '/'] r.authority ++ r.path ++ delimited ['?'] r.query
    ++ delimited ['#'] r.fragment

/-! ## Characters -/

/-- The ranges of characters above ASCII that every part may hold. -/
def outerRanges : List (Nat × Nat) :=
  [(0xA0, 0xD7FF), (0xF900, 0xFDCF), (0xFDF0, 0xFFEF), (0x10000, 0x1FFFD), (0x20000, 0x2FFFD),
    (0x30000, 0x3FFFD), (0x40000, 0x4FFFD), (0x50000, 0x5FFFD), (0x60000, 0x6FFFD),
    (0x70000, 0x7FFFD), (0x80000, 0x8FFFD), (0x90000, 0x9FFFD), (0xA0000, 0xAFFFD),
    (0xB0000, 0xBFFFD), (0xC0000, 0xCFFFD), (0xD0000, 0xDFFFD), (0xE1000, 0xEFFFD)]

/-- The private ranges, which only a query may hold. -/
def privateRanges : List (Nat × Nat) :=
  [(0xE000, 0xF8FF), (0xF0000, 0xFFFFD), (0x100000, 0x10FFFD)]

def within (ranges : List (Nat × Nat)) (c : Char) : Bool :=
  ranges.any fun range => range.1 ≤ c.toNat && c.toNat ≤ range.2

/-- The marks that every part may hold: unreserved ones and delimiters within parts. -/
def marks : List Char :=
  ['-', '.', '_', '~', '!', '$', '&', Char.ofNat 39, '(', ')', '*', '+', ',', ';', '=']

def isCommonChar (c : Char) : Bool :=
  isAsciiLetter c || c.isDigit || marks.contains c || within outerRanges c

def isUserChar (c : Char) : Bool := isCommonChar c || c == ':'

def isPathChar (c : Char) : Bool := isCommonChar c || c == ':' || c == '@' || c == '/'

def isFragmentChar (c : Char) : Bool := isPathChar c || c == '?'

def isQueryChar (c : Char) : Bool := isFragmentChar c || within privateRanges c

def isHexDigit (c : Char) : Bool := (Hex.digitValue c).isSome

/-- Whether a part holds only admitted characters and escapes of two hexadecimal digits. -/
def holdsOnly (admitted : Char → Bool) : List Char → Bool
  | [] => true
  | '%' :: a :: b :: rest => isHexDigit a && isHexDigit b && holdsOnly admitted rest
  | c :: rest => c != '%' && admitted c && holdsOnly admitted rest

/-! ## Hosts -/

/-- A number below 256 without superfluous zeros. -/
def isByteNumeral (digits : List Char) : Bool :=
  digits != [] && digits.length ≤ 3 && digits.all Char.isDigit
    && (digits.head? != some '0' || digits.length == 1)
    && digits.foldl (fun total c => total * 10 + (c.toNat - 48)) 0 < 256

def isIPv4 (text : List Char) : Bool :=
  let pieces := Text.piecesAt '.' text
  pieces.length == 4 && pieces.all isByteNumeral

def isGroup (piece : List Char) : Bool :=
  piece != [] && piece.length ≤ 4 && piece.all isHexDigit

/-- How many groups of 16 bits the pieces hold, the last of which may be an IPv4 address where
`tail` says so. -/
def countGroups (tail : Bool) : List (List Char) → Option Nat
  | [] => some 0
  | [last] => if isGroup last then some 1 else if tail && isIPv4 last then some 2 else none
  | piece :: rest => if isGroup piece then (countGroups tail rest).map (· + 1) else none

/-- The text before the first double colon and the text after it. -/
def cutGap : List Char → Option (List Char × List Char)
  | ':' :: ':' :: rest => some ([], rest)
  | c :: rest => (cutGap rest).map fun (before, after) => (c :: before, after)
  | [] => none

def pieces (text : List Char) : List (List Char) :=
  if text = [] then [] else Text.piecesAt ':' text

def isIPv6 (text : List Char) : Bool :=
  match cutGap text with
  | none => countGroups true (pieces text) == some 8
  | some (before, after) =>
    match countGroups false (pieces before), countGroups true (pieces after) with
    | some a, some b => a + b ≤ 7
    | _, _ => false

/-- An address of a later version: `v`, hexadecimal digits, a point and at least one character. -/
def isLaterAddress : List Char → Bool
  | v :: rest =>
    (v == 'v' || v == 'V') && match rest.span isHexDigit with
      | (version, '.' :: address) =>
        version != [] && address != [] && address.all fun c =>
          c == ':' || (c.toNat < 128 && isCommonChar c)
      | _ => false
  | [] => false

def isPort : List Char → Bool
  | [] => true
  | ':' :: digits => digits.all Char.isDigit
  | _ => false

def isHostAndPort : List Char → Bool
  | '[' :: rest =>
    match rest.span (· != ']') with
    | (address, ']' :: port) => (isIPv6 address || isLaterAddress address) && isPort port
    | _ => false
  | text =>
    let (host, port) := text.span (· != ':')
    holdsOnly isCommonChar host && isPort port

def isAuthority (text : List Char) : Bool :=
  match text.span (· != '@') with
  | (user, '@' :: rest) => holdsOnly isUserChar user && isHostAndPort rest
  | _ => isHostAndPort text

/-! ## Validity -/

def isValid (r : IriReference) : Bool :=
  r.authority.all isAuthority && holdsOnly isPathChar r.path
    && r.query.all (holdsOnly isQueryChar) && r.fragment.all (holdsOnly isFragmentChar)

/-! ## Resolution -/

/-- Takes the steps of a path in turn: a single dot stays, a double dot leaves the last segment.
`done` holds the segments so far in reverse, and its first `fixed` segments are never left. -/
def walk (fixed : Nat) (done : List (List Char)) : List (List Char) → List (List Char)
  | [] => done.reverse
  | ['.', '.'] :: rest =>
    let left := if fixed < done.length then done.tail else done
    if rest = [] then ([] :: left).reverse else walk fixed left rest
  | ['.'] :: rest => if rest = [] then ([] :: done).reverse else walk fixed done rest
  | segment :: rest => walk fixed (segment :: done) rest

/-- The path without dot segments; the part before the first slash stays. -/
def withoutDots (path : List Char) : List Char :=
  match Text.piecesAt '/' path with
  | [] => []
  | first :: rest => Text.joinWith '/' (walk 1 [first] rest)

/-- A relative path put in the place of the last segment of the base. -/
def merged (base : IriReference) (path : List Char) : List Char :=
  if base.authority.isSome ∧ base.path = [] then '/' :: path
  else Text.joinWith '/' ((Text.piecesAt '/' base.path).dropLast ++ [path])

def resolved (base r : IriReference) : IriReference :=
  if r.scheme.isSome then { r with path := withoutDots r.path }
  else if r.authority.isSome then { r with scheme := base.scheme, path := withoutDots r.path }
  else
    { scheme := base.scheme
      authority := base.authority
      path :=
        if r.path = [] then base.path
        else if r.path.head? = some '/' then withoutDots r.path
        else withoutDots (merged base r.path)
      query := if r.path = [] ∧ r.query.isNone then base.query else r.query
      fragment := r.fragment }

end IriReference

abbrev IriBase := Option IriReference

def absoluteIri (base : IriBase) (text : List Char) : Option (List Char) :=
  let reference := IriReference.ofChars text
  if reference.isValid then
    match base with
    | some base => some (base.resolved reference).toChars
    | none => if reference.scheme.isSome then some text else none
  else none

def iriBase (text : List Char) : IriBase := some (IriReference.ofChars text)

end AttestedQuery
