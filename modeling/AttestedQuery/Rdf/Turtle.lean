import AttestedQuery.KeyMap
import AttestedQuery.Rdf.Lines

/-!
# Turtle and TriG

Statements with prefixed names, relative references, lists of predicates and objects, nested blank
nodes and collections. TriG adds blocks of triples for a graph. Quads come out in the order in
which their objects end, those of a nested node before the one that holds it.
-/

set_option autoImplicit false

namespace AttestedQuery.Rdf.Turtle

structure State where
  tokens : List Token
  base : IriBase
  namespaces : KeyMap (List Char)
  /-- The number of the next blank node without a label. -/
  fresh : Nat
  graph : Term
  /-- The quads so far, the last one first. -/
  quads : List Quad

abbrev Parse (α : Type) := StateT State Option α

def next : Parse Token := do
  match (← get).tokens with
  | token :: rest =>
    modify fun s => { s with tokens := rest }
    return token
  | [] => failure

def isAt (c : Char) : Parse Bool := do
  return (← get).tokens.head? == some (.mark c)

def skip (c : Char) : Parse Bool := do
  if ← isAt c then
    discard next
    return true
  else return false

def expect (c : Char) : Parse Unit := do
  if ← skip c then return () else failure

/-- A blank node without a label; no label holds a colon, so it meets no other. -/
def freshNode : Parse Term := do
  let number := (← get).fresh
  modify fun s => { s with fresh := number + 1 }
  return .blank (":" ++ Decimal.textOfInt number)

def emit (subject predicate object : Term) : Parse Unit :=
  modify fun s => { s with quads := ⟨subject, predicate, object, s.graph⟩ :: s.quads }

def resolved (chars : List Char) : Parse (List Char) := do
  absoluteIri (← get).base chars

def iriOf : Token → Parse String
  | .reference chars => do return String.ofList (← resolved chars)
  | .prefixed lead rest => do
    let start ← (← get).namespaces.get? lead
    return String.ofList (← absoluteIri none (start ++ rest))
  | _ => failure

def verb : Parse Term := do
  match ← next with
  | .keyword "a" => return .iri (rdf ++ "type")
  | token => return .iri (← iriOf token)

def literal (value : String) : Parse Term := do
  match (← get).tokens.head? with
  | some (.tag chars) =>
    discard next
    taggedLiteral value chars
  | some .typeMark =>
    discard next
    typedLiteral value (← iriOf (← next))
  | _ => return .simple value

def plainTerm : Token → Parse Term
  | .label name => return .blank name
  | .string value _ => literal value
  | .number numeral kind => return .literal (String.ofList numeral) none (xsd ++ kind)
  | .keyword word =>
    if word = "true" ∨ word = "false" then return .literal word none (xsd ++ "boolean") else failure
  | token => return .iri (← iriOf token)

mutual

/-- An object. Nesting takes tokens, so their number is fuel enough for all that follows. -/
def term : Nat → Parse Term
  | 0 => failure
  | fuel + 1 => do
    match ← next with
    | .mark '[' => properties fuel
    | .mark '(' => items fuel
    | token => plainTerm token

/-- A blank node without a label and its properties, after the opening bracket. -/
def properties : Nat → Parse Term
  | 0 => failure
  | fuel + 1 => do
    let node ← freshNode
    if ← skip ']' then return node
    predicates fuel node
    expect ']'
    return node

def items : Nat → Parse Term
  | 0 => failure
  | fuel + 1 => do
    if ← skip ')' then return .iri (rdf ++ "nil")
    let node ← freshNode
    emit node (.iri (rdf ++ "first")) (← term fuel)
    emit node (.iri (rdf ++ "rest")) (← items fuel)
    return node

def objects : Nat → Term → Term → Parse Unit
  | 0, _, _ => failure
  | fuel + 1, subject, predicate => do
    emit subject predicate (← term fuel)
    if ← skip ',' then objects fuel subject predicate

def predicates : Nat → Term → Parse Unit
  | 0, _ => failure
  | fuel + 1, subject => do
    objects fuel subject (← verb)
    morePredicates fuel subject

/-- What follows the objects of a predicate: semicolons, which may be repeated or stand last. -/
def morePredicates : Nat → Term → Parse Unit
  | 0, _ => failure
  | fuel + 1, subject => do
    if ← skip ';' then
      if (← isAt ';') || (← isAt '.') || (← isAt '}') || (← isAt ']') then
        morePredicates fuel subject
      else predicates fuel subject

end

def subject (fuel : Nat) : Parse (Term × Bool) := do
  match ← next with
  | .mark '[' =>
    let bare ← isAt ']'
    return (← properties fuel, !bare)
  | .mark '(' => return (← items fuel, false)
  | .label name => return (.blank name, false)
  | token => return (.iri (← iriOf token), false)

/-- The predicates of a subject. Those of a subject with properties may be missing. -/
def predicatesOf (fuel : Nat) (subject : Term × Bool) : Parse Unit := do
  if subject.2 && ((← isAt '.') || (← isAt '}')) then return ()
  predicates fuel subject.1

/-- The triples of a block after its opening brace, separated by dots. -/
def block : Nat → Parse Unit
  | 0 => failure
  | fuel + 1 => do
    if ← skip '}' then return ()
    predicatesOf fuel (← subject fuel)
    if ← skip '.' then block fuel else expect '}'

def blockOf (fuel : Nat) (graph : Term) : Parse Unit := do
  expect '{'
  modify fun s => { s with graph := graph }
  block fuel
  modify fun s => { s with graph := .defaultGraph }

def graphName : Parse Term := do
  match ← next with
  | .label name => return .blank name
  | .mark '[' =>
    expect ']'
    freshNode
  | token => return .iri (← iriOf token)

def declareBase : Parse Unit := do
  match ← next with
  | .reference chars =>
    let iri ← resolved chars
    modify fun s => { s with base := iriBase iri }
  | _ => failure

def declareNamespace : Parse Unit := do
  match ← next, ← next with
  | .prefixed lead [], .reference chars =>
    let iri ← resolved chars
    modify fun s => { s with namespaces := s.namespaces.insert lead iri }
  | _, _ => failure

def triples (withGraphs : Bool) (fuel : Nat) : Parse Unit := do
  let isCollection ← isAt '('
  let (node, hasProperties) ← subject fuel
  if withGraphs && !isCollection && !hasProperties && (← isAt '{') then blockOf fuel node
  else
    predicatesOf fuel (node, hasProperties)
    expect '.'

def statement (withGraphs : Bool) (fuel : Nat) : Parse Unit := do
  match (← get).tokens.head? with
  | some (.tag ['p', 'r', 'e', 'f', 'i', 'x']) =>
    discard next
    declareNamespace
    expect '.'
  | some (.tag ['b', 'a', 's', 'e']) =>
    discard next
    declareBase
    expect '.'
  | some (.keyword word) =>
    discard next
    match word.toLower with
    | "prefix" => declareNamespace
    | "base" => declareBase
    | "graph" => if withGraphs then blockOf fuel (← graphName) else failure
    | _ => failure
  | some (.mark '{') => if withGraphs then blockOf fuel .defaultGraph else failure
  | _ => triples withGraphs fuel

def statements (withGraphs : Bool) : Nat → Parse Unit
  | 0 => failure
  | fuel + 1 => do
    if (← get).tokens.isEmpty then return ()
    statement withGraphs fuel
    statements withGraphs fuel

def read (withGraphs : Bool) (text : String) : Option (List Quad) := do
  let tokens ← Token.ofText text.toList
  let start : State := ⟨tokens, none, KeyMap.empty, 0, .defaultGraph, []⟩
  let (_, state) ← (statements withGraphs (3 * tokens.length + 3)).run start
  return state.quads.reverse

end AttestedQuery.Rdf.Turtle
