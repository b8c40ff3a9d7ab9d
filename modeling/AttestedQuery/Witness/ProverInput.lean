import AttestedQuery.Circuit.Code
import AttestedQuery.Toml.Printer
import AttestedQuery.Witness

/-!
# The input file of the circuit

A witness as the TOML text that the circuit's prover reads: the hints, the slots, the public key,
the signed root and the variables. A program that leaves out signatures leaves out all that ties
the slots to the root.
-/

set_option autoImplicit false

namespace AttestedQuery.Witness

def fieldValue (x : Field) : Toml := .text x.toHex

def fieldList (values : List Field) : Toml := .list (values.map fieldValue)

def octetList (octets : Octets) : Toml := .list (octets.map fun octet => .whole octet.toNat)

def slotEntries (skipSigning : Bool) (slot : Slot) : List (String × Toml) :=
  (if skipSigning then []
    else [
      ("directions", .list (slot.opening.directions.map fun right => .whole (if right then 1 else 0))),
      ("path", fieldList slot.opening.siblings)])
    ++ [("terms", fieldList slot.terms.toList)]

def rootSections (w : Witness) : Result (List Toml.Section) := do
  let publicKey ← Signer.octetsOfHex w.publicKey
  let (x, y) ← w.scheme.coordinates publicKey
  let signature ← Signer.octetsOfHex w.signature
  return [
    ⟨"public_key", true, [("x", octetList x), ("y", octetList y)]⟩,
    ⟨"roots", true, [("keyIndex", .whole 0), ("signature", octetList signature),
      ("value", fieldValue w.root)]⟩]

def variableEntries (w : Witness) (p : Program) : List (String × Toml) :=
  (KeyMap.ofList (p.projected.map fun name =>
    (Circuit.identifier name, fieldValue (w.valueOf name)))).entries

def proverInput (w : Witness) (p : Program) : Result Toml.Document := do
  let signed ← if p.skipSigning then pure [] else w.rootSections
  let slots := w.slots.map fun slot => ⟨"bgp", true, slotEntries p.skipSigning slot⟩
  return {
    entries := (if w.slots.isEmpty then [("bgp", .list [])] else [])
      ++ (if w.hints.isEmpty then [] else [("hidden", fieldList w.hints)])
    sections := slots ++ signed ++ [⟨"variables", false, w.variableEntries p⟩] }

end AttestedQuery.Witness
