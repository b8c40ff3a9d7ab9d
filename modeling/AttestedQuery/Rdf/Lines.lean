import AttestedQuery.Iri
import AttestedQuery.Rdf.Literal
import AttestedQuery.Rdf.Token

/-!
# N-Triples and N-Quads

One statement a line, with absolute IRIs, labels and plain strings only. N-Quads admits a graph
after the object. Lines that hold nothing or a comment are skipped.
-/

set_option autoImplicit false

namespace AttestedQuery.Rdf

namespace Lines

def node? : Token → Option Term
  | .reference chars => (absoluteIri none chars).map fun iri => .iri (String.ofList iri)
  | .label name => some (.blank name)
  | _ => none

def predicate? : Token → Option Term
  | .reference chars => node? (.reference chars)
  | _ => none

def object? : List Token → Option (Term × List Token)
  | .string value true :: .tag chars :: rest =>
    (taggedLiteral value chars).map fun literal => (literal, rest)
  | .string value true :: .typeMark :: .reference chars :: rest => do
    let datatype ← absoluteIri none chars
    let literal ← typedLiteral value (String.ofList datatype)
    return (literal, rest)
  | .string value true :: rest => some (.simple value, rest)
  | token :: rest => (node? token).map fun term => (term, rest)
  | [] => none

def graph? (admitsGraph : Bool) : List Token → Option Term
  | [.mark '.'] => some .defaultGraph
  | [token, .mark '.'] => if admitsGraph then node? token else none
  | _ => none

def statement? (admitsGraph : Bool) : List Token → Option Quad
  | subject :: predicate :: rest => do
    let subject ← node? subject
    let predicate ← predicate? predicate
    let (object, rest) ← object? rest
    let graph ← graph? admitsGraph rest
    return ⟨subject, predicate, object, graph⟩
  | _ => none

def ofLine (admitsGraph : Bool) (line : List Char) : Option (List Quad) := do
  match ← Token.ofText line with
  | [] => return []
  | tokens => return [← statement? admitsGraph tokens]

def linesOf (text : List Char) : List (List Char) :=
  Text.piecesAt '\n' (text.map fun c => if c = '\r' then '\n' else c)

def read (admitsGraph : Bool) (text : String) : Option (List Quad) :=
  ((linesOf text.toList).mapM (ofLine admitsGraph)).map List.flatten

end Lines

end AttestedQuery.Rdf
