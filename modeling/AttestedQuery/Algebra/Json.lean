import AttestedQuery.Algebra
import AttestedQuery.Term.Json

/-!
# The JSON form of patterns

A pattern term is an object with one member that names its sort.
-/

set_option autoImplicit false

namespace AttestedQuery

def PatternTerm.toJson : PatternTerm → Json
  | .const term => .object [("const", term.toJson)]
  | .var name => .object [("var", .text name)]
  | .blank label => .object [("blank", .text label)]

def Pattern.toJson (p : Pattern) : Json :=
  .object [("subject", p.subject.toJson), ("predicate", p.predicate.toJson),
    ("object", p.object.toJson), ("graph", Json.optional PatternTerm.toJson p.graph)]

end AttestedQuery
