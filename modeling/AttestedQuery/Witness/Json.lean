import AttestedQuery.Dataset.Json
import AttestedQuery.Witness

/-!
# The JSON form of witnesses

One object, with an object for each slot. Maps are objects with one member for each name.
-/

set_option autoImplicit false

namespace AttestedQuery

namespace KeyMap

def toJson {α : Type} (write : α → Json) (map : KeyMap α) : Json :=
  .object (map.entries.map fun (key, value) => (key, write value))

def ofJson? {α : Type} (read : Json → Option α) : Json → Option (KeyMap α)
  | .object members =>
    (members.mapM fun member => (read member.2).map fun a => (member.1, a)).map KeyMap.ofList
  | _ => none

end KeyMap

namespace Slot

def toJson (s : Slot) : Json :=
  .object [("quad_index", .ofNat s.quadIndex), ("terms", s.terms.toJsonList Field.toJson),
    ("proof", s.opening.toJson)]

def ofJson? (j : Json) : Option Slot := do
  match ← j.fields? ["quad_index", "terms", "proof"] 0 with
  | [some quadIndex, some terms, some opening] =>
    let quadIndex ← quadIndex.toNat?
    let terms ← QuadOf.ofJsonList? Field.ofJson? terms
    let opening ← Opening.ofJson? opening
    return ⟨quadIndex, terms, opening⟩
  | _ => none

end Slot

namespace Witness

def toJson (w : Witness) : Json :=
  .object [("branch", .ofNat w.branch), ("slots", .list (w.slots.map Slot.toJson)),
    ("variables", w.values.toJson Field.toJson), ("bindings", w.bindings.toJson Term.toJson),
    ("hidden", .list (w.hints.map Field.toJson)), ("root", w.root.toJson),
    ("signature", .text w.signature), ("public_key", .text w.publicKey),
    ("scheme", .text w.scheme.name)]

def fieldNames : List String :=
  ["branch", "slots", "variables", "bindings", "hidden", "root", "signature", "public_key", "scheme"]

def ofJson? (j : Json) : Option Witness := do
  match ← j.fields? fieldNames 1 with
  | [some branch, some slots, some values, some bindings, some hints, some root,
      some signature, some publicKey, scheme] =>
    let branch ← branch.toNat?
    let slots ← slots.toListOf? Slot.ofJson?
    let values ← KeyMap.ofJson? Field.ofJson? values
    let bindings ← KeyMap.ofJson? Term.ofJson? bindings
    let hints ← hints.toListOf? Field.ofJson?
    let root ← Field.ofJson? root
    let signature ← signature.toText?
    let publicKey ← publicKey.toText?
    let scheme ← Scheme.ofJson? scheme
    return ⟨branch, slots, values, bindings, hints, root, signature, publicKey, scheme⟩
  | _ => none

end Witness

end AttestedQuery
