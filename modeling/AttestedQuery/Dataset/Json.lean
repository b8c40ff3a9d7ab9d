import AttestedQuery.Dataset
import AttestedQuery.Json.Parser
import AttestedQuery.Json.Printer
import AttestedQuery.Term.Json

/-!
# The JSON form of datasets

One object, and inside it one for each opening. The scheme may be left out and is then the only
one there is.
-/

set_option autoImplicit false

namespace AttestedQuery

namespace Opening

def toJson (o : Opening) : Json :=
  .object [("leaf_index", .ofNat o.index), ("siblings", .list (o.siblings.map Field.toJson)),
    ("directions", .list (o.directions.map .bool))]

def ofJson? (j : Json) : Option Opening := do
  match ← j.fields? ["leaf_index", "siblings", "directions"] 0 with
  | [some index, some siblings, some directions] =>
    let index ← index.toNat?
    let siblings ← siblings.toListOf? Field.ofJson?
    let directions ← directions.toListOf? Json.toBool?
    return ⟨index, siblings, directions⟩
  | _ => none

end Opening

namespace Scheme

def ofJson? : Option Json → Option Scheme
  | none => some .secp256k1Ecdsa
  | some j => j.variantName? >>= fun name =>
    if name = Scheme.secp256k1Ecdsa.name then some .secp256k1Ecdsa else none

end Scheme

def HashSuite.ofJson? (j : Json) : Option HashSuite :=
  j.variantName? >>= Config.suiteOfName

namespace Dataset

def toJson (d : Dataset) : Json :=
  .object [("depth", .ofNat d.depth), ("root", d.root.toJson), ("signature", .text d.signature),
    ("public_key", .text d.publicKey), ("scheme", .text d.scheme.name),
    ("hash_suite", .text d.hashSuite.name), ("quads", .list (d.quads.map Quad.toJson)),
    ("encoded", .list (d.encoded.map fun row => row.toJsonList Field.toJson)),
    ("proofs", .list (d.openings.map Opening.toJson))]

def fieldNames : List String :=
  ["depth", "root", "signature", "public_key", "scheme", "hash_suite", "quads", "encoded", "proofs"]

def ofJson? (j : Json) : Option Dataset := do
  match ← j.fields? fieldNames 0 with
  | [some depth, some root, some signature, some publicKey, scheme, some hashSuite, some quads,
      some encoded, some openings] =>
    let depth ← depth.toNat?
    let root ← Field.ofJson? root
    let signature ← signature.toText?
    let publicKey ← publicKey.toText?
    let scheme ← Scheme.ofJson? scheme
    let hashSuite ← HashSuite.ofJson? hashSuite
    let quads ← quads.toListOf? Quad.ofJson?
    let encoded ← encoded.toListOf? (QuadOf.ofJsonList? Field.ofJson?)
    let openings ← openings.toListOf? Opening.ofJson?
    return ⟨depth, root, signature, publicKey, scheme, hashSuite, quads, encoded, openings⟩
  | _ => none

def text (d : Dataset) : String := d.toJson.pretty

def ofText (text : String) : Result Dataset :=
  match Json.parse text >>= ofJson? with
  | some d => .ok d
  | none => .error .badJson

end Dataset

end AttestedQuery
