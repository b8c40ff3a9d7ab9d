import AttestedQuery.Json
import AttestedQuery.Field
import AttestedQuery.Term

/-!
# The JSON form of field elements, terms and quads

A field element is its hexadecimal text. A term is an object with the kind under `termType` and
the content under `value`, in either order; the content of a literal is an object of its own. A
list of kind and content is read as well.
-/

set_option autoImplicit false

namespace AttestedQuery

namespace Field

def toJson (x : Field) : Json := .text x.toHex

def ofJson? (j : Json) : Option Field :=
  j.toText? >>= fun text => (ofHex text).toOption

end Field

namespace Term

def toJson : Term → Json
  | .iri text => .object [("termType", .text "Iri"), ("value", .text text)]
  | .blank label => .object [("termType", .text "Blank"), ("value", .text label)]
  | .literal value lang datatype =>
    .object [("termType", .text "Literal"),
      ("value", .object [("value", .text value), ("lang", Json.optional .text lang),
        ("datatype", .text datatype)])]
  | .var name => .object [("termType", .text "Variable"), ("value", .text name)]
  | .defaultGraph => .object [("termType", .text "DefaultGraph")]

def literalOfJson? (j : Json) : Option Term :=
  match j with
  | .object _ => do
    match ← j.fields? ["value", "lang", "datatype"] 0 with
    | [some value, lang, some datatype] =>
      let value ← value.toText?
      let lang ← (lang.getD .null).toOptional? Json.toText?
      let datatype ← datatype.toText?
      return .literal value lang datatype
    | _ => none
  | _ => none

def ofContent? (kind : String) (content : Option Json) : Option Term :=
  match kind, content with
  | "Iri", some j => j.toText?.map .iri
  | "Blank", some j => j.toText?.map .blank
  | "Literal", some j => literalOfJson? j
  | "Variable", some j => j.toText?.map .var
  | "DefaultGraph", none => some .defaultGraph
  | "DefaultGraph", some .null => some .defaultGraph
  | _, _ => none

def ofJson? (j : Json) : Option Term := do
  match ← j.fields? ["termType", "value"] 0 with
  | [some kind, content] => ofContent? (← kind.variantName?) content
  | _ => none

end Term

namespace QuadOf

def toJsonList {α : Type} (write : α → Json) (q : QuadOf α) : Json :=
  .list (q.toList.map write)

/-- Reads a list of exactly four values. -/
def ofJsonList? {α : Type} (read : Json → Option α) (j : Json) : Option (QuadOf α) := do
  match ← j.toListOf? read with
  | [subject, predicate, object, graph] => some ⟨subject, predicate, object, graph⟩
  | _ => none

end QuadOf

namespace Quad

def toJson (q : Quad) : Json :=
  .object [("subject", q.subject.toJson), ("predicate", q.predicate.toJson),
    ("object", q.object.toJson), ("graph", q.graph.toJson)]

def ofJson? (j : Json) : Option Quad := do
  match ← j.fields? ["subject", "predicate", "object", "graph"] 0 with
  | [some subject, some predicate, some object, some graph] =>
    let subject ← Term.ofJson? subject
    let predicate ← Term.ofJson? predicate
    let object ← Term.ofJson? object
    let graph ← Term.ofJson? graph
    return ⟨subject, predicate, object, graph⟩
  | _ => none

end Quad

end AttestedQuery
