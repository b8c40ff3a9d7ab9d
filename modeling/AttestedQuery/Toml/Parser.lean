import AttestedQuery.Number.Hexadecimal
import AttestedQuery.Text.Pieces
import AttestedQuery.Toml

/-!
# Reading TOML

A reader for TOML 1.0. While a document is read its tables remember how they came to be, because
that decides what may still be added: a table named only on the way to another may get a header of
its own once, one made by a dotted key may only grow by dotted keys, and one written in braces is
closed.
-/

set_option autoImplicit false

namespace AttestedQuery.Toml

/-! ## Characters -/

def isSpace (c : Char) : Bool := c == ' ' || c == '\t'

/-- Control characters that no comment or string may hold. -/
def isControl (c : Char) : Bool := (c.toNat < 32 && c != '\t') || c.toNat == 127

def skipSpace (input : List Char) : List Char := input.dropWhile isSpace

def readBreak : List Char → Option (List Char)
  | '\n' :: rest => some rest
  | '\r' :: '\n' :: rest => some rest
  | _ => none

/-- Skips a comment up to the end of its line; none if it holds a control character. -/
def skipComment : List Char → Option (List Char)
  | '#' :: rest =>
    let tail := rest.dropWhile fun c => !isControl c
    match tail with
    | [] => some []
    | _ => if (readBreak tail).isSome then some tail else none
  | rest => some rest

/-- Skips space, line breaks and comments. The count bounds the steps. -/
def skipBlank : Nat → List Char → Option (List Char)
  | 0, input => some input
  | steps + 1, input =>
    match skipSpace input with
    | '#' :: rest => skipComment ('#' :: rest) >>= skipBlank steps
    | rest => match readBreak rest with
      | some rest => skipBlank steps rest
      | none => some rest

/-! ## Strings -/

def digitsChar? (digits : List Char) : Option Char := do
  let values ← digits.mapM Hex.digitValue
  let n := values.foldl (fun total digit => total * 16 + digit) 0
  if n < 0xD800 ∨ (0xDFFF < n ∧ n < 0x110000) then some (Char.ofNat n) else none

def escapeChar? (c : Char) : Option Char :=
  if c = 'b' then some (Char.ofNat 8)
  else if c = 't' then some '\t'
  else if c = 'n' then some '\n'
  else if c = 'f' then some (Char.ofNat 12)
  else if c = 'r' then some '\r'
  else if c = '"' ∨ c = '\\' then some c
  else none

def readEscape : List Char → Option (Char × List Char)
  | 'u' :: rest =>
    if rest.length < 4 then none
    else (digitsChar? (rest.take 4)).map fun c => (c, rest.drop 4)
  | 'U' :: rest =>
    if rest.length < 8 then none
    else (digitsChar? (rest.take 8)).map fun c => (c, rest.drop 8)
  | c :: rest => (escapeChar? c).map fun char => (char, rest)
  | [] => none

def readBasic : Nat → List Char → List Char → Option (String × List Char)
  | 0, _, _ => none
  | _ + 1, done, '"' :: rest => some (String.ofList done.reverse, rest)
  | steps + 1, done, '\\' :: rest => do
    let (c, rest) ← readEscape rest
    readBasic steps (c :: done) rest
  | steps + 1, done, c :: rest => if isControl c then none else readBasic steps (c :: done) rest
  | _, _, [] => none

/-- Reads the rest of a string without escapes on one line. -/
def readLiteral (input : List Char) : Option (String × List Char) :=
  let (content, rest) := input.span fun c => c.toNat != 39 && !isControl c
  match rest with
  | c :: rest => if c.toNat = 39 then some (String.ofList content, rest) else none
  | [] => none

/-- After three closing marks, up to two further marks still belong to the content. -/
def closeLong (mark : Char) (done rest : List Char) : String × List Char :=
  let extra := (rest.takeWhile (· == mark)).take 2
  (String.ofList (done.reverse ++ extra), rest.drop extra.length)

/-- Reads the rest of a string over several lines. With escapes, a backslash at the end of a line
drops the white space up to the next character. -/
def readLong (mark : Char) (escapes : Bool) : Nat → List Char → List Char →
    Option (String × List Char)
  | 0, _, _ => none
  | _, _, [] => none
  | steps + 1, done, c :: rest =>
    if c = mark ∧ rest.take 2 = [mark, mark] then
      some (closeLong mark done (rest.drop 2))
    else if c = '\\' ∧ escapes then
      let after := skipSpace rest
      match readBreak after with
      | some tail =>
        readLong mark escapes steps done
          (tail.dropWhile fun c => isSpace c || c == '\n' || c == '\r')
      | none => do
        let (c, rest) ← readEscape rest
        readLong mark escapes steps (c :: done) rest
    else match readBreak (c :: rest) with
      | some rest => readLong mark escapes steps ('\n' :: done) rest
      | none => if isControl c then none else readLong mark escapes steps (c :: done) rest

/-- A line break right after the opening of a long string is dropped. -/
def dropBreak (input : List Char) : List Char := (readBreak input).getD input

def readString (input : List Char) : Option (String × List Char) :=
  match input with
  | '"' :: '"' :: '"' :: rest => readLong '"' true (input.length + 1) [] (dropBreak rest)
  | '"' :: rest => readBasic (input.length + 1) [] rest
  | a :: b :: c :: rest =>
    if a.toNat = 39 ∧ b = a ∧ c = a then readLong a false (input.length + 1) [] (dropBreak rest)
    else if a.toNat = 39 then readLiteral (b :: c :: rest)
    else none
  | a :: rest => if a.toNat = 39 then readLiteral rest else none
  | [] => none

/-! ## Keys -/

def readSimpleKey (input : List Char) : Option (String × List Char) :=
  match input with
  | '"' :: rest => readBasic (input.length + 1) [] rest
  | c :: rest =>
    if c.toNat = 39 then readLiteral rest
    else
      let (key, rest) := (c :: rest).span isBareKeyChar
      if key.isEmpty then none else some (String.ofList key, rest)
  | [] => none

def readKeys : Nat → List Char → Option (List String × List Char)
  | 0, _ => none
  | steps + 1, input => do
    let (key, rest) ← readSimpleKey (skipSpace input)
    match skipSpace rest with
    | '.' :: rest =>
      let (keys, rest) ← readKeys steps rest
      return (key :: keys, rest)
    | rest => return ([key], rest)

/-! ## Numbers and dates -/

def underscored (isDigit : Char → Bool) : List Char → Bool
  | [] => false
  | [c] => isDigit c
  | c :: '_' :: rest => isDigit c && underscored isDigit rest
  | c :: rest => isDigit c && underscored isDigit rest

def baseValue (base : Nat) (digits : List Char) : Option Nat :=
  let isDigit := fun c => match Hex.digitValue c with
    | some digit => digit < base
    | none => false
  if underscored isDigit digits then
    some ((digits.filterMap Hex.digitValue).foldl (fun total digit => total * base + digit) 0)
  else none

def wholeOf (n : Int) : Option Toml :=
  if Decimal.fitsInt64 n then some (.whole n) else none

def isDecimalPart (digits : List Char) : Bool :=
  underscored Char.isDigit digits && (digits.length == 1 || digits.head? != some '0')

def splitSign : List Char → Int × List Char
  | '+' :: rest => (1, rest)
  | '-' :: rest => (-1, rest)
  | rest => (1, rest)

def isNumeralChar (c : Char) : Bool := c.isDigit || c == '_'

def isExponent : List Char → Bool
  | c :: rest => (c == 'e' || c == 'E') && underscored Char.isDigit (splitSign rest).2
  | [] => false

def isReal (token : List Char) : Bool :=
  let (digits, rest) := (splitSign token).2.span isNumeralChar
  isDecimalPart digits && match rest with
    | '.' :: rest =>
      let (fraction, rest) := rest.span isNumeralChar
      underscored Char.isDigit fraction && (rest.isEmpty || isExponent rest)
    | rest => isExponent rest

def isMoment (token : List Char) : Bool :=
  let digits := token.takeWhile Char.isDigit
  let rest := token.drop digits.length
  (digits.length == 4 && rest.head? == some '-') || (digits.length == 2 && rest.head? == some ':')

def ofToken (token : List Char) : Option Toml :=
  match token with
  | ['t', 'r', 'u', 'e'] => some (.bool true)
  | ['f', 'a', 'l', 's', 'e'] => some (.bool false)
  | '0' :: 'x' :: digits => baseValue 16 digits >>= fun n => wholeOf n
  | '0' :: 'o' :: digits => baseValue 8 digits >>= fun n => wholeOf n
  | '0' :: 'b' :: digits => baseValue 2 digits >>= fun n => wholeOf n
  | _ =>
    let (sign, digits) := splitSign token
    if isDecimalPart digits then
      wholeOf (sign * Decimal.value (digits.filter (· != '_')))
    else if digits = ['i', 'n', 'f'] ∨ digits = ['n', 'a', 'n'] ∨ isReal token then
      some (.real (String.ofList token))
    else if isMoment token then some (.moment (String.ofList token))
    else none

def isTokenChar (c : Char) : Bool :=
  c.isAlphanum || c == '+' || c == '-' || c == '.' || c == ':' || c == '_'

/-- Reads a token; a date and a time may be separated by one space. -/
def readToken (input : List Char) : Option (Toml × List Char) :=
  let (token, rest) := input.span isTokenChar
  match rest with
  | ' ' :: d :: tail =>
    if isMoment token && token.length == 10 && d.isDigit then
      let (time, rest) := (d :: tail).span isTokenChar
      some (.moment (String.ofList (token ++ ' ' :: time)), rest)
    else (ofToken token).map fun value => (value, rest)
  | _ => (ofToken token).map fun value => (value, rest)

/-! ## Tables under construction -/

inductive Origin where
  /-- Named on the way to another table's header. -/
  | passed
  | header
  | dotted
  deriving DecidableEq

/-- What a key holds while the document is read. -/
inductive Node where
  | value (v : Toml)
  | table (origin : Origin) (entries : List (String × Node))
  /-- A list of tables made by headers, the last table first. -/
  | tables (items : List (List (String × Node)))
  deriving Inhabited

abbrev Entries := List (String × Node)

def lookup (key : String) (entries : Entries) : Option Node :=
  (entries.find? fun entry => entry.1 == key).map (·.2)

def put (key : String) (node : Node) (entries : Entries) : Entries :=
  if entries.any fun entry => entry.1 == key then
    entries.map fun entry => if entry.1 == key then (key, node) else entry
  else entries ++ [(key, node)]

def atHeader (change : Entries → Option Entries) : List String → Entries → Option Entries
  | [], entries => change entries
  | key :: path, entries =>
    match lookup key entries with
    | none => (atHeader change path []).map fun inner => put key (.table .passed inner) entries
    | some (.table origin inner) =>
      (atHeader change path inner).map fun inner => put key (.table origin inner) entries
    | some (.tables (item :: items)) =>
      (atHeader change path item).map fun item => put key (.tables (item :: items)) entries
    | some _ => none

/-- Sets a value under a dotted key. Tables on the way are made, or were made, by dotted keys. -/
def putDotted (value : Toml) : List String → Entries → Option Entries
  | [], _ => none
  | [key], entries => if (lookup key entries).isSome then none else some (put key (.value value) entries)
  | key :: path, entries =>
    match lookup key entries with
    | none => (putDotted value path []).map fun inner => put key (.table .dotted inner) entries
    | some (.table .dotted inner) =>
      (putDotted value path inner).map fun inner => put key (.table .dotted inner) entries
    | some _ => none

/-- Opens a table by its header: it is new, or was only passed on the way to another. -/
def openTable (key : String) (entries : Entries) : Option Entries :=
  match lookup key entries with
  | none => some (put key (.table .header []) entries)
  | some (.table .passed inner) => some (put key (.table .header inner) entries)
  | some _ => none

def openItem (key : String) (entries : Entries) : Option Entries :=
  match lookup key entries with
  | none => some (put key (.tables [[]]) entries)
  | some (.tables items) => some (put key (.tables ([] :: items)) entries)
  | some _ => none

mutual

def Node.toToml : Node → Toml
  | .value v => v
  | .table _ entries => .table (entriesToToml entries)
  | .tables items => .list (itemsToToml items).reverse

def entriesToToml : Entries → List (String × Toml)
  | [] => []
  | (key, node) :: rest => (key, node.toToml) :: entriesToToml rest

def itemsToToml : List Entries → List Toml
  | [] => []
  | item :: rest => .table (entriesToToml item) :: itemsToToml rest

end

/-! ## Values and documents -/

mutual

/-- Reads a value. The count bounds the steps. -/
def readValue : Nat → List Char → Option (Toml × List Char)
  | 0, _ => none
  | steps + 1, input =>
    match input with
    | '[' :: rest => (readItems steps [] rest).map fun (items, rest) => (.list items, rest)
    | '{' :: rest =>
      match skipSpace rest with
      | '}' :: rest => some (.table [], rest)
      | rest => (readInline steps [] rest).map fun (entries, rest) =>
          (.table (entriesToToml entries), rest)
    | c :: _ =>
      if c = '"' ∨ c.toNat = 39 then
        (readString input).map fun (s, rest) => (.text s, rest)
      else readToken input
    | [] => none

/-- Reads the items of a list after those already read, and the closing bracket. -/
def readItems : Nat → List Toml → List Char → Option (List Toml × List Char)
  | 0, _, _ => none
  | steps + 1, done, input => do
    match ← skipBlank (input.length + 1) input with
    | ']' :: rest => return (done.reverse, rest)
    | rest =>
      let (item, rest) ← readValue steps rest
      match ← skipBlank (rest.length + 1) rest with
      | ',' :: rest => readItems steps (item :: done) rest
      | ']' :: rest => return ((item :: done).reverse, rest)
      | _ => none

/-- Reads the entries of a table in braces, and the closing brace. -/
def readInline : Nat → Entries → List Char → Option (Entries × List Char)
  | 0, _, _ => none
  | steps + 1, done, input => do
    let (keys, rest) ← readKeys (input.length + 1) input
    match rest with
    | '=' :: rest =>
      let (value, rest) ← readValue steps (skipSpace rest)
      let done ← putDotted value keys done
      match skipSpace rest with
      | ',' :: rest => readInline steps done rest
      | '}' :: rest => return (done, rest)
      | _ => none
    | _ => none

end

/-- Nothing but space and a comment may follow on a line. -/
def endLine (input : List Char) : Option (List Char) := do
  match ← skipComment (skipSpace input) with
  | [] => some []
  | rest => readBreak rest

/-- Reads a header after its opening bracket: the keys and whether it opens an item of a list. -/
def readHeader (input : List Char) : Option (List String × Bool × List Char) :=
  match input with
  | '[' :: rest => do
    match ← readKeys (rest.length + 1) rest with
    | (keys, ']' :: ']' :: rest) => some (keys, true, rest)
    | _ => none
  | rest => do
    match ← readKeys (rest.length + 1) rest with
    | (keys, ']' :: rest) => some (keys, false, rest)
    | _ => none

/-- Reads the lines of a document into its entries. `path` is the table that the lines belong to. -/
def readLines : Nat → List String → Entries → List Char → Option Entries
  | 0, _, _, _ => none
  | steps + 1, path, entries, input => do
    match ← skipBlank (input.length + 1) input with
    | [] => some entries
    | '[' :: rest =>
      let (keys, isItem, rest) ← readHeader rest
      let last ← keys.getLast?
      let entries ← atHeader (if isItem then openItem last else openTable last) keys.dropLast entries
      readLines steps keys entries (← endLine rest)
    | rest =>
      let (keys, rest) ← readKeys (rest.length + 1) rest
      match rest with
      | '=' :: rest =>
        let (value, rest) ← readValue (2 * rest.length + 2) (skipSpace rest)
        let entries ← atHeader (putDotted value keys) path entries
        readLines steps path entries (← endLine rest)
      | _ => none

/-- Reads the table of a whole text. A byte order mark at its start is dropped. -/
def parse (text : String) : Option (List (String × Toml)) :=
  let input := match text.toList with
    | c :: rest => if c.toNat = 0xFEFF then rest else c :: rest
    | [] => []
  (readLines (input.length + 2) [] [] input).map entriesToToml

end AttestedQuery.Toml
