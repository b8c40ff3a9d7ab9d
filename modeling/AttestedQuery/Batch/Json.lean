import AttestedQuery.Batch
import AttestedQuery.Json.Parser
import AttestedQuery.Json.Printer
import AttestedQuery.Term.Json

/-!
# The JSON form of batches

An item that was not checked has no member for the outcome; every other member is always written.
-/

set_option autoImplicit false

namespace AttestedQuery

namespace Batch

namespace Item

def toJson (item : Item) : Json :=
  .object ([("index", .ofNat item.index), ("branch", .ofNat item.branch),
    ("proof", Json.optional .text item.proof),
    ("public_inputs", .list (item.publicInputs.map Field.toJson)),
    ("timing_ms", .ofNat item.milliseconds), ("error", Json.optional .text item.error)]
    ++ (item.verified.map fun verified => ("verified", .bool verified)).toList)

def fieldNames : List String :=
  ["index", "branch", "proof", "public_inputs", "timing_ms", "error", "verified"]

/-- Reads an item; a missing optional member counts as `null`. -/
def ofJson? (j : Json) : Option Item := do
  match ← j.fields? fieldNames 1 with
  | [some index, some branch, proof, some publicInputs, some milliseconds, error, verified] =>
    let index ← index.toNat?
    let branch ← branch.toNat?
    let proof ← (proof.getD .null).toOptional? Json.toText?
    let publicInputs ← publicInputs.toListOf? Field.ofJson?
    let milliseconds ← milliseconds.toNat?
    let error ← (error.getD .null).toOptional? Json.toText?
    let verified ← (verified.getD .null).toOptional? Json.toBool?
    return ⟨index, branch, proof, publicInputs, milliseconds, error, verified⟩
  | _ => none

end Item

namespace Summary

def toJson (s : Summary) : Json :=
  .object [("total", .ofNat s.total), ("succeeded", .ofNat s.succeeded),
    ("failed", .ofNat s.failed), ("witness_only", .bool s.witnessOnly)]

def ofJson? (j : Json) : Option Summary := do
  match ← j.fields? ["total", "succeeded", "failed", "witness_only"] 0 with
  | [some total, some succeeded, some failed, some witnessOnly] =>
    let total ← total.toNat?
    let succeeded ← succeeded.toNat?
    let failed ← failed.toNat?
    let witnessOnly ← witnessOnly.toBool?
    return ⟨total, succeeded, failed, witnessOnly⟩
  | _ => none

end Summary

def toJson (b : Batch) : Json :=
  .object [("items", .list (b.items.map Item.toJson)), ("summary", b.summary.toJson)]

def ofJson? (j : Json) : Option Batch := do
  match ← j.fields? ["items", "summary"] 0 with
  | [some items, some summary] =>
    let items ← items.toListOf? Item.ofJson?
    let summary ← Summary.ofJson? summary
    return ⟨items, summary⟩
  | _ => none

def text (b : Batch) : String := b.toJson.pretty

def ofText (text : String) : Result Batch :=
  match Json.parse text >>= ofJson? with
  | some b => .ok b
  | none => .error .badJson

end Batch

def Verification.toJson (v : Verification) : Json :=
  .object [("verified", .ofNat v.verified), ("failed", .ofNat v.failed), ("total", .ofNat v.total),
    ("success", .bool v.succeeds)]

end AttestedQuery
