import AttestedQuery.Dataset.Index
import AttestedQuery.Program

/-!
# Candidate rows

The rows that the patterns of a branch admit, before any assertion is looked at. The patterns are
joined from the left, each over the quads in the order of the dataset, and the extensions of the
branch follow. A row that an extension contradicts is dropped.
-/

set_option autoImplicit false

namespace AttestedQuery

structure Candidate where
  row : Row
  quads : List Nat

namespace Candidate

structure Draft where
  row : Row
  encoded : KeyMap Field
  quads : List Nat

namespace Draft

def start : Draft := ⟨KeyMap.empty, KeyMap.empty, []⟩

/-- Binds a key to the term at a position of a quad; a bound key must have that very term. -/
def bind (d : Draft) (key : String) (value : Term) (code : Field) : Option Draft :=
  match d.row.get? key with
  | some bound => if bound = value then some d else none
  | none => some { d with row := d.row.insert key value, encoded := d.encoded.insert key code }

def bindQuad (d : Draft) (p : Pattern) (quad : Quad) (codes : QuadOf Field) : Option Draft :=
  (p.positions.zip (quad.zip codes)).toList.foldlM
    (fun d (position, value, code) =>
      match position >>= PatternTerm.key? with
      | some key => d.bind key value code
      | none => some d)
    d

end Draft

def constants (e : Encoder) (p : Pattern) : Result (QuadOf (Option Field)) :=
  p.positions.mapM fun position =>
    match position with
    | some (.const value) => (e.encode value).map some
    | _ => .ok none

def fixed (d : Draft) (p : Pattern) (consts : QuadOf (Option Field)) : QuadOf (Option Field) :=
  (p.positions.zip consts).map fun (position, const) =>
    const <|> (position >>= PatternTerm.key? >>= d.encoded.get?)

def extendBy (index : Dataset.Index) (p : Pattern) (consts : QuadOf (Option Field)) (d : Draft) :
    List Draft :=
  (index.candidates (fixed d p consts)).filterMap fun i => do
    let quad ← index.dataset.quads[i]?
    let codes ← index.dataset.encoded[i]?
    let d ← d.bindQuad p quad codes
    return { d with quads := d.quads ++ [i] }

def joined (index : Dataset.Index) (patterns : List (Pattern × QuadOf (Option Field))) :
    List Draft :=
  patterns.foldl (fun drafts (p, consts) => drafts.flatMap (extendBy index p consts)) [.start]

/-- The term that an extension gives to its name; none if its source is not bound. -/
def sourceOf (row : Row) : Operand → Option Term
  | .term value => some value
  | .key key => row.get? key

/-- Applies an extension. One without a value does nothing; one that contradicts the row drops
it. -/
def applyExtension (row : Row) (x : Extension) : Option Row :=
  match sourceOf row x.source with
  | none => some row
  | some value =>
    match row.get? x.name with
    | some bound => if bound = value then some row else none
    | none => some (row.insert x.name value)

def ofBranch (index : Dataset.Index) (e : Encoder) (b : Branch) : Result (List Candidate) := do
  let patterns ← b.patterns.mapM fun p => (constants e p).map fun consts => (p, consts)
  return (joined index patterns).filterMap fun d =>
    (b.extensions.foldlM applyExtension d.row).map fun row => ⟨row, d.quads⟩

end Candidate

end AttestedQuery
