import AttestedQuery.Circuit.Code
import AttestedQuery.Hasher
import AttestedQuery.Number.Decimal
import AttestedQuery.Number.Hexadecimal

/-!
# The circuit language

The part of the circuit language that binding checks are written in, with a meaning of its own: how
a source is cut into tokens, how tokens make phrases, statements and routines, and what a routine
makes of its arguments. Equality binds weakest, then disjunction, conjunction, addition and the
negation prefix; the postfixes bind strongest, and operators of one rank group to the left.
-/

set_option autoImplicit false

namespace AttestedQuery.Circuit

/-! ## Tokens -/

inductive Token where
  /-- A name, a word of the language or a numeral. -/
  | word (text : String)
  | openParen
  | closeParen
  | openBracket
  | closeBracket
  | openBrace
  | closeBrace
  | comma
  | dot
  | colon
  /-- Between the name of a module and a name in it. -/
  | scope
  | semicolon
  /-- Between a name and the value it is given. -/
  | assign
  | equal
  | bang
  | ampersand
  | bar
  | plus
  | arrow
  | other (c : Char)
  deriving DecidableEq

/-- A character of a word; every character beyond ASCII is one. -/
def isLetter (c : Char) : Bool := c.isAlphanum || c == '_' || 128 ≤ c.toNat

def isBlank (c : Char) : Bool := c == ' ' || c == '\n' || c == '\t' || c == '\r'

/-- Whether a character alone need not be the whole of a mark. -/
def isLead (c : Char) : Bool := c == '=' || c == ':' || c == '-' || c == '/'

def Token.ofChar : Char → Token
  | '(' => .openParen
  | ')' => .closeParen
  | '[' => .openBracket
  | ']' => .closeBracket
  | '{' => .openBrace
  | '}' => .closeBrace
  | ',' => .comma
  | '.' => .dot
  | ':' => .colon
  | ';' => .semicolon
  | '=' => .assign
  | '!' => .bang
  | '&' => .ampersand
  | '|' => .bar
  | '+' => .plus
  | c => .other c

def Token.ofPair? : Char → Char → Option Token
  | '=', '=' => some .equal
  | ':', ':' => some .scope
  | '-', '>' => some .arrow
  | _, _ => none

/-- What the characters since the last token are the beginning of. -/
inductive Pending where
  | nothing
  | word (letters : List Char)
  | lead (c : Char)
  /-- The rest of a line after two slashes. -/
  | comment
  deriving DecidableEq

namespace Pending

/-- The token that is pending, if the text ends here. -/
def tokens : Pending → List Token
  | .word letters => [.word (String.ofList letters)]
  | .lead c => [.ofChar c]
  | .nothing | .comment => []

def begin (c : Char) : List Token × Pending :=
  if isLetter c then ([], .word [c])
  else if isBlank c then ([], .nothing)
  else if isLead c then ([], .lead c)
  else ([.ofChar c], .nothing)

/-- The next character: the tokens it completes, and what is pending then. -/
def next : Pending → Char → List Token × Pending
  | .nothing, c => begin c
  | .word letters, c =>
    if isLetter c then ([], .word (letters ++ [c]))
    else (.word (String.ofList letters) :: (begin c).1, (begin c).2)
  | .lead first, c =>
    if first = '/' ∧ c = '/' then ([], .comment)
    else match Token.ofPair? first c with
      | some token => ([token], .nothing)
      | none => (.ofChar first :: (begin c).1, (begin c).2)
  | .comment, c => ([], if c = '\n' then .nothing else .comment)

end Pending

/-- The tokens that a text completes, and what is pending after it. -/
def scan : Pending → List Char → List Token × Pending
  | pending, [] => ([], pending)
  | pending, c :: rest =>
    let (first, pending) := pending.next c
    let (later, pending) := scan pending rest
    (first ++ later, pending)

def tokens (source : String) : List Token :=
  let (complete, pending) := scan .nothing source.toList
  complete ++ pending.tokens

/-! ## Phrases -/

inductive Operator where
  | equal
  | or
  | and
  | add
  deriving DecidableEq

namespace Operator

def rank : Operator → Nat
  | .equal => 0
  | .or => 1
  | .and => 2
  | .add => 3

def ofToken? : Token → Option Operator
  | .equal => some .equal
  | .bar => some .or
  | .ampersand => some .and
  | .plus => some .add
  | _ => none

end Operator

inductive Phrase where
  | number (n : Nat)
  | truth (b : Bool)
  | name (x : String)
  | not (a : Phrase)
  | binary (op : Operator) (a b : Phrase)
  | member (a : Phrase) (x : String)
  | item (a : Phrase) (index : Nat)
  | list (items : List Phrase)
  | call (f : String) (arguments : List Phrase)
  | method (a : Phrase) (f : String) (arguments : List Phrase)

def isName (w : String) : Bool := !startsWithDigit w && !reservedWords.contains w

/-- The number that a word writes, in base sixteen after `0x`. -/
def numeral? : List Char → Option Nat
  | '0' :: 'x' :: c :: digits => (c :: digits).foldlM
    (fun total c => (Hex.digitValue c).map fun digit => total * 16 + digit) 0
  | digits => Decimal.toNat? digits

/-- The phrase of a single word. A requirement is written as a call of a reserved word. -/
def Phrase.ofWord? (w : String) : Option Phrase :=
  if startsWithDigit w then (numeral? w.toList).map .number
  else if w = "true" then some (.truth true)
  else if w = "false" then some (.truth false)
  else if w = "assert" ∨ isName w then some (.name w)
  else none

inductive Frame where
  | not
  | left (op : Operator) (a : Phrase)
  | group
  | list (items : List Phrase)
  | call (f : String) (arguments : List Phrase)
  | method (a : Phrase) (f : String) (arguments : List Phrase)
  | item (a : Phrase)

inductive Focus where
  /-- Nothing; a phrase must begin. -/
  | start
  | done (a : Phrase)
  /-- A phrase and a dot after it. -/
  | member (a : Phrase)
  /-- The name of a module and the mark after it. -/
  | path (x : String)

/-- A phrase that is being read. The innermost open part comes first. -/
structure Reading where
  stack : List Frame
  focus : Focus

namespace Reading

/-- Closes the open prefixes, and the open operators that bind at least as strong as a rank. -/
def settle (rank : Nat) : List Frame → Phrase → List Frame × Phrase
  | .not :: stack, a => settle rank stack (.not a)
  | .left op b :: stack, a =>
    if rank ≤ op.rank then settle rank stack (.binary op b a) else (.left op b :: stack, a)
  | stack, a => (stack, a)

def closeParen : List Frame → Phrase → Option Reading
  | .group :: stack, a => some ⟨stack, .done a⟩
  | .call f arguments :: stack, a => some ⟨stack, .done (.call f (arguments ++ [a]))⟩
  | .method b f arguments :: stack, a => some ⟨stack, .done (.method b f (arguments ++ [a]))⟩
  | _, _ => none

def closeBracket : List Frame → Phrase → Option Reading
  | .list items :: stack, a => some ⟨stack, .done (.list (items ++ [a]))⟩
  | .item b :: stack, .number index => some ⟨stack, .done (.item b index)⟩
  | _, _ => none

def comma : List Frame → Phrase → Option Reading
  | .list items :: stack, a => some ⟨.list (items ++ [a]) :: stack, .start⟩
  | .call f arguments :: stack, a => some ⟨.call f (arguments ++ [a]) :: stack, .start⟩
  | .method b f arguments :: stack, a => some ⟨.method b f (arguments ++ [a]) :: stack, .start⟩
  | _, _ => none

def stepStart (stack : List Frame) : Token → Option Reading
  | .word w => (Phrase.ofWord? w).map fun a => ⟨stack, .done a⟩
  | .bang => some ⟨.not :: stack, .start⟩
  | .openParen => some ⟨.group :: stack, .start⟩
  | .openBracket => some ⟨.list [] :: stack, .start⟩
  | _ => none

def stepDone (stack : List Frame) (a : Phrase) : Token → Option Reading
  | .dot => some ⟨stack, .member a⟩
  | .openBracket => some ⟨.item a :: stack, .start⟩
  | .scope =>
    match a with
    | .name x => some ⟨stack, .path x⟩
    | _ => none
  | .openParen =>
    match a with
    | .name f => some ⟨.call f [] :: stack, .start⟩
    | .member b f => some ⟨.method b f [] :: stack, .start⟩
    | _ => none
  | .closeParen => closeParen (settle 0 stack a).1 (settle 0 stack a).2
  | .closeBracket => closeBracket (settle 0 stack a).1 (settle 0 stack a).2
  | .comma => comma (settle 0 stack a).1 (settle 0 stack a).2
  | token => (Operator.ofToken? token).map fun op =>
    ⟨.left op (settle op.rank stack a).2 :: (settle op.rank stack a).1, .start⟩

def step (s : Reading) (token : Token) : Option Reading :=
  match s.focus with
  | .start => stepStart s.stack token
  | .done a => stepDone s.stack a token
  | .member a =>
    match token with
    | .word x => if isName x then some ⟨s.stack, .done (.member a x)⟩ else none
    | _ => none
  | .path x =>
    match token with
    | .word y => if isName y then some ⟨s.stack, .done (.name (x ++ "::" ++ y))⟩ else none
    | _ => none

def finish? (s : Reading) : Option Phrase :=
  match s.focus with
  | .done a =>
    match settle 0 s.stack a with
    | ([], whole) => some whole
    | _ => none
  | _ => none

end Reading

def feed (s : Reading) (tokens : List Token) : Option Reading := tokens.foldlM Reading.step s

def Phrase.read? (tokens : List Token) : Option Phrase :=
  (feed ⟨[], .start⟩ tokens).bind Reading.finish?

/-! ## Routines -/

inductive Clause where
  | define (x : String) (value : Phrase)
  | require (condition : Phrase)

/-- Reads a statement without its semicolon. -/
def Clause.read? : List Token → Option Clause
  | .word "let" :: .word x :: .assign :: value =>
    if isName x then (Phrase.read? value).map (.define x) else none
  | tokens =>
    match Phrase.read? tokens with
    | some (.call "assert" [condition]) => some (.require condition)
    | _ => none

structure Routine where
  name : String
  parameters : List String
  clauses : List Clause
  /-- The value at the end. -/
  result : Option Phrase

def cutAt (mark : Token) : List Token → Option (List Token × List Token)
  | [] => none
  | token :: rest =>
    if token = mark then some ([], rest)
    else (cutAt mark rest).map fun (before, after) => (token :: before, after)

namespace Routine

def parameter? : List Token → Option String
  | [.word x, .colon, .word _] => if isName x then some x else none
  | _ => none

/-- The statements that end in semicolons, and the value after the last semicolon. -/
def body? : List (List Token) → Option (List Clause × Option Phrase)
  | [] => none
  | [last] => if last = [] then some ([], none) else (Phrase.read? last).map fun a => ([], some a)
  | piece :: rest => do
    let clause ← Clause.read? piece
    let (clauses, result) ← body? rest
    return (clause :: clauses, result)

def visibility : List Token := [.word "pub", .openParen, .word "crate", .closeParen]

/-- Reads what stands after `fn`, up to the next `fn`. -/
def read? : List Token → Option Routine
  | .word name :: .openParen :: rest => do
    let (parameters, rest) ← cutAt .closeParen rest
    let (type, rest) ← cutAt .openBrace rest
    let (body, rest) ← cutAt .closeBrace rest
    if ¬(type = [] ∨ type.head? = some .arrow) ∨ ¬(rest = [] ∨ rest = visibility) then none
    let parameters ← (parameters.splitOn .comma).mapM parameter?
    let (clauses, result) ← body? (body.splitOn .semicolon)
    return ⟨name, parameters, clauses, result⟩
  | _ => none

/-- The routines of a source, in order. What stands before the first imports names and defines
types. -/
def ofSource? (source : String) : Option (List Routine) :=
  ((tokens source).splitOn (.word "fn")).tail.mapM read?

end Routine

/-! ## Meaning -/

inductive Datum where
  | field (x : Field)
  | truth (b : Bool)
  | list (items : List Datum)
  | record (members : List (String × Datum))

/-- The values of the names at a place. -/
abbrev Scope := String → Option Datum

def Scope.with (scope : Scope) (x : String) (d : Datum) : Scope :=
  fun y => if y = x then some d else scope y

/-- The values of calls at a place. -/
abbrev Calls := String → List Datum → Option Datum

def Operator.apply : Operator → Datum → Datum → Option Datum
  | .equal, .field a, .field b => some (.truth (a == b))
  | .equal, .truth a, .truth b => some (.truth (a == b))
  | .or, .truth a, .truth b => some (.truth (a || b))
  | .and, .truth a, .truth b => some (.truth (a && b))
  | .add, .field a, .field b => some (.field (.ofNat (a.val + b.val)))
  | _, _, _ => none

namespace Datum

def negation : Datum → Option Datum
  | .truth b => some (.truth (!b))
  | _ => none

def member (x : String) : Datum → Option Datum
  | .record members => members.lookup x
  | _ => none

def item (index : Nat) : Datum → Option Datum
  | .list items => items[index]?
  | _ => none

/-- Field elements are compared by their least natural numbers. -/
def method (f : String) : Datum → List Datum → Option Datum
  | .field a, [.field b] => if f = "lt" then some (.truth (a.val < b.val)) else none
  | _, _ => none

end Datum

namespace Phrase

mutual

/-- The value of a phrase. Both sides of an operator are evaluated, and a numeral stands for a field
element below the modulus. -/
def value (calls : Calls) (scope : Scope) : Phrase → Option Datum
  | .number n => if n < modulus then some (.field (.ofNat n)) else none
  | .truth b => some (.truth b)
  | .name x => scope x
  | .not a => (value calls scope a).bind Datum.negation
  | .binary op a b => do
    let a ← value calls scope a
    op.apply a (← value calls scope b)
  | .member a x => (value calls scope a).bind (Datum.member x)
  | .item a index => (value calls scope a).bind (Datum.item index)
  | .list items => (values calls scope items).map .list
  | .call f arguments => (values calls scope arguments).bind (calls f)
  | .method a f arguments => do
    let a ← value calls scope a
    a.method f (← values calls scope arguments)

def values (calls : Calls) (scope : Scope) : List Phrase → Option (List Datum)
  | [] => some []
  | first :: rest => do
    let first ← value calls scope first
    return first :: (← values calls scope rest)

end

end Phrase

/-- Runs statements: the names at their end, and whether every requirement is met. -/
def Clause.run (calls : Calls) : Scope → List Clause → Option (Scope × Bool)
  | scope, [] => some (scope, true)
  | scope, .define x value :: rest => do
    run calls (scope.with x (← value.value calls scope)) rest
  | scope, .require condition :: rest => do
    match ← condition.value calls scope with
    | .truth met =>
      let (scope, later) ← run calls scope rest
      return (scope, met && later)
    | _ => none

def Scope.ofArguments : List String → List Datum → Option Scope
  | [], [] => some fun _ => none
  | x :: parameters, d :: arguments =>
    (ofArguments parameters arguments).map fun scope => scope.with x d
  | _, _ => none

namespace Routine

/-- The value of a routine, and whether every requirement is met. -/
def run (calls : Calls) (r : Routine) (arguments : List Datum) : Option (Option Datum × Bool) := do
  let scope ← Scope.ofArguments r.parameters arguments
  let (scope, met) ← Clause.run calls scope r.clauses
  match r.result with
  | none => return (none, met)
  | some result => return (some (← result.value calls scope), met)

/-- The calls at a place after a routine. A call has no value where a requirement in it fails. -/
def calls (before : Calls) (r : Routine) : Calls := fun f arguments =>
  if f = r.name then
    match r.run before arguments with
    | some (result, true) => result
    | _ => none
  else before f arguments

/-- Whether every requirement of a routine is met; a routine may call those before it. -/
def verdict? (before : Calls) (name : String) (arguments : List Datum) : List Routine → Option Bool
  | [] => none
  | r :: rest =>
    if r.name = name then (r.run before arguments).map (·.2)
    else verdict? (r.calls before) name arguments rest

end Routine

/-- The functions of the library of hashes. -/
def libraryCalls (h : Hasher) : Calls
  | "consts::hash2", [.list [.field a, .field b]] => some (.field (h.pair a b))
  | "consts::hash4", [.list [.field a, .field b, .field c, .field d]] =>
    some (.field (h.quadruple a b c d))
  | _, _ => none

/-- Whether a routine of a source accepts its arguments; none where the source is no source, or
where something in the routine has no value. -/
def accepts? (h : Hasher) (source routine : String) (arguments : List Datum) : Option Bool :=
  (Routine.ofSource? source).bind (Routine.verdict? (libraryCalls h) routine arguments)

end AttestedQuery.Circuit
