import AttestedQuery.Text.Quoted

/-!
# RDF terms and quads

The terms that stand in quads, and groups of four values, one for each position of a quad.
-/

set_option autoImplicit false

namespace AttestedQuery

/-- Names of the vocabularies that the rules refer to. -/
def xsd : String := "http://www.w3.org/2001/XMLSchema#"
def xsdString : String := "http://www.w3.org/2001/XMLSchema#string"
def xsdInteger : String := "http://www.w3.org/2001/XMLSchema#integer"
def rdf : String := "http://www.w3.org/1999/02/22-rdf-syntax-ns#"
def rdfLangString : String := "http://www.w3.org/1999/02/22-rdf-syntax-ns#langString"

inductive TermKind where
  | iri
  | blank
  | literal
  | var
  | defaultGraph
  deriving DecidableEq, Repr

def TermKind.code : TermKind → Nat
  | .iri => 0
  | .blank => 1
  | .literal => 2
  | .var => 3
  | .defaultGraph => 4

inductive Term where
  | iri (text : String)
  | blank (label : String)
  | literal (value : String) (lang : Option String) (datatype : String)
  | var (name : String)
  | defaultGraph
  deriving DecidableEq, Hashable, Inhabited

namespace Term

def simple (value : String) : Term := .literal value none xsdString

def kind : Term → TermKind
  | .iri _ => .iri
  | .blank _ => .blank
  | .literal .. => .literal
  | .var _ => .var
  | .defaultGraph => .defaultGraph

def isLiteral (t : Term) : Bool := t.kind == .literal

def lexical? : Term → Option String
  | .iri text => some text
  | .literal value _ _ => some value
  | _ => none

def shown : Term → String
  | .iri text => "<" ++ text ++ ">"
  | .blank label => "_:" ++ label
  | .literal value (some lang) _ => Text.quoted value ++ "@" ++ lang
  | .literal value none datatype =>
    if datatype = xsdString then Text.quoted value
    else Text.quoted value ++ "^^<" ++ datatype ++ ">"
  | .var name => "?" ++ name
  | .defaultGraph => "DEFAULT"

end Term

structure QuadOf (α : Type) where
  subject : α
  predicate : α
  object : α
  graph : α
  deriving DecidableEq, Inhabited

namespace QuadOf

variable {α β : Type}

def toList (q : QuadOf α) : List α :=
  [q.subject, q.predicate, q.object, q.graph]

/-- The value at a position counted from zero. -/
def get? (q : QuadOf α) : Nat → Option α
  | 0 => some q.subject
  | 1 => some q.predicate
  | 2 => some q.object
  | 3 => some q.graph
  | _ => none

def map (f : α → β) (q : QuadOf α) : QuadOf β :=
  ⟨f q.subject, f q.predicate, f q.object, f q.graph⟩

/-- The values computed position by position; the first failure is the result. -/
def mapM {m : Type → Type} [Monad m] (f : α → m β) (q : QuadOf α) : m (QuadOf β) := do
  let subject ← f q.subject
  let predicate ← f q.predicate
  let object ← f q.object
  let graph ← f q.graph
  return ⟨subject, predicate, object, graph⟩

def zip (q : QuadOf α) (r : QuadOf β) : QuadOf (α × β) :=
  ⟨(q.subject, r.subject), (q.predicate, r.predicate), (q.object, r.object), (q.graph, r.graph)⟩

end QuadOf

/-- A quad of terms; a triple has the default graph. -/
abbrev Quad := QuadOf Term

def Quad.shown (q : Quad) : String :=
  q.subject.shown ++ " " ++ q.predicate.shown ++ " " ++ q.object.shown
    ++ (if q.graph = .defaultGraph then "" else " " ++ q.graph.shown) ++ " ."

end AttestedQuery
