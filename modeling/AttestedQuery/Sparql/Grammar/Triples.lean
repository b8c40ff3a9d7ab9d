import AttestedQuery.Sparql.Grammar.Path

/-!
# The grammar of triples

Subjects with lists of predicates and objects. Nodes in square brackets and collections stand for
blank nodes of which more triples speak; these triples come before those of the node that holds
them. A predicate path that is a sequence becomes triples with blank nodes between them, an inverse
one swaps the ends, and only the other kinds stay paths.
-/

set_option autoImplicit false

namespace AttestedQuery.Sparql.Grammar

open Reader

def rdfIri (name : String) : PatternTerm := .const (.iri (rdf ++ name))

inductive Element where
  | triple (triple : Triple)
  | path (subject : PatternTerm) (path : Path) (object : PatternTerm)

def pathElements (subject object : PatternTerm) : Path → Grammar (List Element)
  | .iri text => return [.triple ⟨subject, .const (.iri text), object⟩]
  | .reverse inner => pathElements object subject inner
  | .sequence first second => do
    let middle := PatternTerm.blank (← freshLabel)
    let before ← pathElements subject middle first
    let after ← pathElements middle object second
    return before ++ after
  | other => return [.path subject other object]

def verbElements (subject : PatternTerm) (verb : Verb) (object : PatternTerm) :
    Grammar (List Element) :=
  match verb with
  | .var name => return [.triple ⟨subject, .var name, object⟩]
  | .path path => pathElements subject object path

structure Node where
  term : PatternTerm
  elements : List Element

/-- Verbs with their objects, and the elements that speak of the objects. -/
structure Properties where
  verbs : List (Verb × List PatternTerm)
  elements : List Element

def Properties.elementsOf (properties : Properties) (subject : PatternTerm) :
    Grammar (List Element) := do
  let own ← properties.verbs.mapM fun (verb, objects) => do
    return (← objects.mapM fun object => verbElements subject verb object).flatten
  return own.flatten

def pathVerb : Grammar Verb :=
  (do return .path (← path)) <|> (do return .var (← var))

def plainVerb : Grammar Verb :=
  (do return .var (← var)) <|> (do return .path (.iri (← verbIri)))

def varOrTerm : Grammar PatternTerm :=
  (do return .var (← var))
  <|> (do return .const (.iri (← iri)))
  <|> (do return .const (← literal))
  <|> (do return .blank (← blankNode))
  <|> (do
    emptyPair "(" ")"
    return rdfIri "nil")

def objectList (node : Grammar Node) : Grammar (List Node) :=
  sepBy (spaced node) (mark ",")

/-- At least one verb with its objects. Semicolons may repeat, and one may stand at the end. -/
def propertyList (verb : Grammar Verb) (node : Grammar Node) : Grammar Properties := do
  let entry : Grammar (Verb × List Node) := do
    let verb ← spaced verb
    return (verb, ← spaced (objectList node))
  let first ← entry
  let more ← many (do
    mark ";"
    maybe entry)
  let entries := first :: more.filterMap id
  return ⟨entries.map fun (verb, objects) => (verb, objects.map (·.term)),
    entries.flatMap fun (_, objects) => objects.flatMap (·.elements)⟩

def collection (items : List Node) : Grammar Node :=
  items.reverse.foldlM (fun (tail : Node) item => do
      let label := PatternTerm.blank (← freshLabel)
      return ⟨label, tail.elements
        ++ [.triple ⟨label, rdfIri "first", item.term⟩, .triple ⟨label, rdfIri "rest", tail.term⟩]
        ++ item.elements⟩)
    ⟨rdfIri "nil", []⟩

/-- A node in brackets, whose own nodes are read by `node`. -/
def bracketNode (verb : Grammar Verb) (node : Grammar Node) : Grammar Node :=
  (do
    let items ← bracketed (atLeastOne (spaced node))
    collection items)
  <|> (do
    mark "["
    let properties ← spaced (propertyList verb node)
    exactly "]"
    let term := PatternTerm.blank (← freshLabel)
    return ⟨term, properties.elements ++ (← properties.elementsOf term)⟩)

def nodeOfDepth (verb : Grammar Verb) : Nat → Grammar Node
  | 0 => fail
  | depth + 1 =>
    (do return ⟨← varOrTerm, []⟩) <|> bracketNode verb (nodeOfDepth verb depth)

/-- A node. Each bracket takes a character, so the length of the text bounds the depth. -/
def node (verb : Grammar Verb) : Grammar Node := fun text s =>
  nodeOfDepth verb (text.length + 1) text s

/-- The elements of one subject with its properties. A node in brackets may stand alone. -/
def sameSubject (verb : Grammar Verb) : Grammar (List Element) :=
  (do
    let subject ← spaced varOrTerm
    let properties ← propertyList verb (node verb)
    return properties.elements ++ (← properties.elementsOf subject))
  <|> (do
    let subject ← spaced (bracketNode verb (node verb))
    let properties ← maybe (propertyList verb (node verb))
    let properties := properties.getD ⟨[], []⟩
    return subject.elements ++ properties.elements ++ (← properties.elementsOf subject.term))

/-- Subjects with their properties, separated by dots; a dot may stand at the end. -/
def triples (verb : Grammar Verb) : Grammar (List Element) := do
  let elements ← sepBy (spaced (sameSubject verb)) (mark ".")
  discard (maybe (mark "."))
  return elements.flatten

def parts (elements : List Element) : List GraphPattern :=
  let (run, parts) := elements.foldr (fun element (run, parts) =>
      match element with
      | .triple triple => (triple :: run, parts)
      | .path subject path object =>
        ([], .path subject path object :: closeRun run parts))
    (([], []) : List Triple × List GraphPattern)
  closeRun run parts
where
  closeRun (run : List Triple) (parts : List GraphPattern) : List GraphPattern :=
    if run.isEmpty then parts else .bgp run :: parts

def blockPattern (elements : List Element) : GraphPattern :=
  match parts elements with
  | [] => .bgp []
  | first :: rest => rest.foldl .joined first

end AttestedQuery.Sparql.Grammar
