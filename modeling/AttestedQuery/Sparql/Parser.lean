import AttestedQuery.Error
import AttestedQuery.Sparql.Grammar.Pattern

/-!
# Reading queries

Declarations of a base and of namespaces, then one query of the four forms. What a CONSTRUCT query
constructs is read and not kept.
-/

set_option autoImplicit false

namespace AttestedQuery.Sparql

namespace Grammar

open Reader

def baseDeclaration : Grammar Unit := do
  keyword "BASE"
  let text ← iriReference
  changeState fun s => { s with base := iriBase text }

def namespaceDeclaration : Grammar Unit := do
  keyword "PREFIX"
  let name ← spaced namespaceLead
  let text ← iriReference
  changeState fun s => { s with namespaces := s.namespaces.insert name text }

def prologue : Grammar Unit := do
  discard (many (spaced (baseDeclaration <|> namespaceDeclaration)))

def datasetClause : Grammar DatasetClause := do
  keyword "FROM"
  let isNamed ← maybe (keyword "NAMED")
  let text ← spaced iri
  return match isNamed with
    | some _ => .named text
    | none => .merged text

def datasetClauses : Grammar (List DatasetClause) := many datasetClause

def selectQuery (nested : Nested) : Grammar Query := do
  let selection ← spaced (selectClause nested)
  let dataset ← datasetClauses
  let pattern ← spaced (whereClause nested)
  return ⟨.select, ← selecting selection pattern nested, dataset⟩

def askQuery (nested : Nested) : Grammar Query := do
  keyword "ASK"
  let dataset ← datasetClauses
  let pattern ← spaced (whereClause nested)
  return ⟨.ask, ← selecting .everything pattern nested, dataset⟩

def constructQuery (nested : Nested) : Grammar Query :=
  (do
    keyword "CONSTRUCT"
    mark "\x7b"
    discard (spaced (maybe (triples plainVerb)))
    mark "\x7d"
    let dataset ← datasetClauses
    let pattern ← spaced (whereClause nested)
    return ⟨.construct, ← selecting .everything pattern nested, dataset⟩)
  <|> (do
    keyword "CONSTRUCT"
    let dataset ← datasetClauses
    keyword "WHERE"
    mark "\x7b"
    let template ← spaced (maybe (triples plainVerb))
    mark "\x7d"
    let pattern := blockPattern (template.getD [])
    return ⟨.construct, ← selecting .everything pattern nested, dataset⟩)

def describeQuery (nested : Nested) : Grammar Query := do
  keyword "DESCRIBE"
  let selection ← (do
      mark "*"
      return Selection.everything)
    <|> (do
      let members ← atLeastOne (spaced varOrIri)
      let members : List Selected ← members.mapM fun member => do
        match member with
        | .var name => return .var name
        | other => return .computed (.const (constant other)) (← freshLabel)
      return ⟨.all, some members⟩)
  let dataset ← datasetClauses
  let pattern ← spaced (maybe (whereClause nested))
  return ⟨.describe, ← selecting selection (pattern.getD (.bgp [])) nested, dataset⟩
where
  constant : PatternTerm → Term
    | .const term => term
    | _ => .defaultGraph

def query (nested : Nested) : Grammar Query := do
  blank
  prologue
  let query ← selectQuery nested <|> constructQuery nested <|> describeQuery nested
    <|> askQuery nested
  blank
  return query

end Grammar

/-- Reads a query. Each nested group or expression takes a character, so the length of the text
bounds the depth. -/
def Query.parse (text : String) : Result Query :=
  let text := text.toList
  let nested := Grammar.nestedOfDepth (text.length + 1)
  match (Grammar.query nested).readAll Scope.initial text with
  | some query => .ok query
  | none => .error .badQuery

end AttestedQuery.Sparql
