import AttestedQuery.Resolution.Candidate
import AttestedQuery.Witness

/-!
# Resolving a program against a dataset

Every candidate row of every branch becomes a witness and is checked against the same assertions
that the circuit enforces. A row is then given up if it extends to a row of a branch that its own
branch is exclusive of, and each user-visible row is kept once, through the first branch that
yields it.
-/

set_option autoImplicit false

namespace AttestedQuery

def Row.visible (row : Row) : Row := row.restrict isUserKey

def Row.extendsTo (row other : Row) : Bool :=
  row.visible.entries.all fun (key, value) => other.get? key == some value

inductive Verdict where
  /-- No witness could be built. -/
  | skipped (reason : Error)
  /-- The bindings or equalities of the branch do not hold. -/
  | inconsistent
  /-- Only the filters with these numbers do not hold. -/
  | filtered (failed : List Nat)
  | accepted (witness : Witness)

namespace Verdict

def failed? : Verdict → Option (List Nat)
  | .skipped _ => none
  | .inconsistent => none
  | .filtered failed => some failed
  | .accepted _ => some []

def witness? : Verdict → Option Witness
  | .accepted witness => some witness
  | _ => none

/-- Whether an assertion ruled the candidate out. -/
def isRejected : Verdict → Bool
  | .inconsistent | .filtered _ => true
  | _ => false

end Verdict

structure Assessed where
  branch : Nat
  row : Row
  verdict : Verdict

structure SkippedRow where
  branch : Nat
  bindings : Row
  reason : Error

structure Resolution where
  witnesses : List Witness
  skipped : List SkippedRow
  /-- How many candidates an assertion ruled out. -/
  rejected : Nat

/-- A dataset that fits a configuration, ready to be searched. -/
structure Resolver where
  index : Dataset.Index
  encoder : Encoder

namespace Resolver

def ofDataset (d : Dataset) (config : Config) : Result Resolver := do
  d.checkCompatible config
  return ⟨.ofDataset d, config.encoder⟩

def slot? (r : Resolver) (i : Nat) : Option Slot := do
  let terms ← r.index.dataset.encoded[i]?
  let opening ← r.index.dataset.openings[i]?
  return ⟨i, terms, opening⟩

/-- The quads of all slots: those of the candidate, and then its first quad again, or the first of
the dataset if it has none. -/
def padded (width : Nat) (quads : List Nat) : List Nat :=
  (List.range width).map fun slot => quads.getD slot (quads.headD 0)

def publicValue (r : Resolver) (row : Row) (name : String) : Result Field :=
  match row.get? name with
  | some value => r.encoder.encode value
  | none => .ok Field.zero

/-- The witness of a candidate. The hints come first, then the slots, then the variables. -/
def witness (r : Resolver) (p : Program) (branch : Nat) (used : List Nat) (c : Candidate) :
    Result Witness := do
  let hints ← Hint.computeAll r.encoder p.hints c.row used
  let slots ← (padded p.width c.quads).mapM fun i =>
    match r.slot? i with
    | some slot => .ok slot
    | none => .error (.unmet .nothingToPad)
  let values ← p.projected.mapM fun name => (r.publicValue c.row name).map fun x => (name, x)
  let dataset := r.index.dataset
  return {
    branch := branch
    slots := slots
    values := KeyMap.ofList values
    bindings := c.row.restrict fun key => p.projected.contains key
    hints := hints
    root := dataset.root
    signature := dataset.signature
    publicKey := dataset.publicKey
    scheme := dataset.scheme }

def accepts (r : Resolver) (w : Witness) (a : Assertion) : Bool :=
  (w.view.check r.encoder.hasher a).toBool

def judge (r : Resolver) (b : Branch) (w : Witness) : Verdict :=
  if r.accepts w (.all (b.bindings ++ b.equalities)) then
    match b.filters.filter fun f => !(r.accepts w f.assertion) with
    | [] => .accepted w
    | failed => .filtered (failed.map (·.number))
  else .inconsistent

/-- Assesses a candidate. Only an error that concerns this row alone is recorded; any other ends
the resolution. -/
def assess (r : Resolver) (p : Program) (branch : Nat) (b : Branch) (c : Candidate) :
    Result Assessed :=
  match r.witness p branch b.hints c with
  | .ok w => .ok ⟨branch, c.row, r.judge b w⟩
  | .error e => if e.isRecoverable then .ok ⟨branch, c.row, .skipped e⟩ else .error e

def assessBranch (r : Resolver) (p : Program) (branch : Nat) (b : Branch) :
    Result (List Assessed) := do
  (← Candidate.ofBranch r.index r.encoder b).mapM (r.assess p branch b)

/-- Whether a row extends to a row of a branch that its own branch `b` is exclusive of. Filters
that both branches share were written above both and do not count. -/
def extendedElsewhere (p : Program) (assessed : List Assessed) (b : Branch) (row : Row) : Bool :=
  let own := b.filters.map (·.number)
  b.exclusiveOf.any fun other =>
    let theirs := (p.branches[other]?.map fun o => o.filters.map (·.number)).getD []
    let shared := theirs.filter own.contains
    assessed.any fun a =>
      a.branch == other && a.verdict.failed?.any (fun failed => failed.all shared.contains)
        && row.extendsTo a.row

def surviving (p : Program) (assessed : List Assessed) : List (Row × Witness) :=
  assessed.filterMap fun a => do
    let w ← a.verdict.witness?
    let b ← p.branches[a.branch]?
    if extendedElsewhere p assessed b a.row then none else some (a.row.visible, w)

def firstOfEach (entries : List (Row × Witness)) : List (Row × Witness) :=
  entries.foldl
    (fun kept entry => if kept.any (·.1 == entry.1) then kept else kept ++ [entry]) []

def resolve (r : Resolver) (p : Program) : Result Resolution := do
  let byBranch ← p.branches.zipIdx.mapM fun (b, branch) => r.assessBranch p branch b
  let assessed := byBranch.flatten
  return {
    witnesses := (firstOfEach (surviving p assessed)).map (·.2)
    skipped := assessed.filterMap fun a =>
      match a.verdict with
      | .skipped reason => some ⟨a.branch, a.row.visible, reason⟩
      | _ => none
    rejected := assessed.countP fun a => a.verdict.isRejected }

end Resolver

end AttestedQuery
