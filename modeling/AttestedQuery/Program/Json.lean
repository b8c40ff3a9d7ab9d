import AttestedQuery.Algebra.Json
import AttestedQuery.Program

/-!
# The description of a program

What a reader of results has to know of a program: the patterns behind its slots, the hints it
takes, and how its branches exclude each other. The assertions themselves are not part of it.
-/

set_option autoImplicit false

namespace AttestedQuery

def Operand.toJson : Operand → Json
  | .key name => .object [("variable", .text name)]
  | .term t => .object [("term", t.toJson)]

def Hint.operands : Hint → List (String × Operand)
  | .lexicalHash operand => [("operand", operand)]
  | .specialValue operand => [("operand", operand)]
  | .langHash operand => [("operand", operand)]
  | .datatypeEncoding operand => [("operand", operand)]
  | .termInner operand => [("operand", operand)]
  | .stringOrder left right => [("left", left), ("right", right)]
  | .strLen operand => [("operand", operand)]

def Hint.toJson (h : Hint) : Json :=
  .object (("kind", .text h.kind) :: h.operands.map fun (name, operand) => (name, operand.toJson))

def Extension.toJson (x : Extension) : Json :=
  .object [("variable", .text x.name), ("source", x.source.toJson)]

def OrderKey.toJson (k : OrderKey) : Json :=
  .object [("expression", .text k.expression), ("descending", .bool k.descending)]

def Modifiers.toJson (m : Modifiers) : Json :=
  .object [("distinct", .bool m.distinct), ("reduced", .bool m.reduced),
    ("order_by", .list (m.orderBy.map OrderKey.toJson)), ("offset", .ofNat m.offset),
    ("limit", Json.optional Json.ofNat m.limit)]

def QueryForm.name : QueryForm → String
  | .select => "select"
  | .ask => "ask"

def numbersJson (numbers : List Nat) : Json := .list (numbers.map Json.ofNat)

def Branch.toJson (b : Branch) : Json :=
  .object [("bgp_slot_count", .ofNat b.slotCount),
    ("patterns", .list (b.patterns.map Pattern.toJson)),
    ("extends", .list (b.extensions.map Extension.toJson)), ("hidden", numbersJson b.hints),
    ("exclusive_of", numbersJson b.exclusiveOf)]

def Program.toJson (p : Program) : Json :=
  .object [("form", .text p.form.name), ("bgp_slot_count", .ofNat p.width),
    ("projected_variables", Json.texts p.projected),
    ("hidden_inputs", .list (p.hints.map Hint.toJson)),
    ("branches", .list (p.branches.map Branch.toJson)), ("modifiers", p.modifiers.toJson),
    ("hash_suite", .text p.hashSuite.name), ("skip_signing", .bool p.skipSigning),
    ("config_fingerprint", .text p.fingerprint)]

end AttestedQuery
