import AttestedQuery.Error
import AttestedQuery.KeyMap

/-!
# Combinations of alternatives

An algebra is a list of fragments, one for each combination of the alternatives of its unions. A
join pairs every fragment of one side with every fragment of the other, in the order of the left
side. Filters are numbered in the order in which they are met, and remember which keys were visible
where they were written.
-/

set_option autoImplicit false

namespace AttestedQuery

structure ScopedFilter where
  number : Nat
  condition : Expr
  visible : KeySet

structure ScopedExtension where
  name : String
  value : Expr
  /-- The keys that the value may read; a path alias reads every key of its fragment. -/
  visible : Option KeySet

/-- One combination, before keys are traced to their sources. -/
structure Fragment where
  patterns : List Pattern
  extensions : List ScopedExtension
  filters : List ScopedFilter
  exclusiveOf : List Nat

namespace Fragment

def ofPatterns (patterns : List Pattern) : Fragment := ⟨patterns, [], [], []⟩

def keys (f : Fragment) : KeySet :=
  KeySet.ofKeys (f.patterns.flatMap Pattern.keys ++ f.extensions.map (·.name))

def shifted (offset : Nat) (f : Fragment) : Fragment :=
  { f with exclusiveOf := f.exclusiveOf.map (· + offset) }

/-- The pair of the fragments numbered `i` and `j` on the two sides of a join, where the right side
has `width` fragments. What a fragment excludes is carried over to the pairs with the same other
side. -/
def paired (width i j : Nat) (a b : Fragment) : Fragment where
  patterns := a.patterns ++ b.patterns
  extensions := a.extensions ++ b.extensions
  filters := a.filters ++ b.filters
  exclusiveOf :=
    a.exclusiveOf.map (fun k => k * width + j) ++ b.exclusiveOf.map (fun l => i * width + l)

def product (left right : List Fragment) : List Fragment :=
  left.zipIdx.flatMap fun (a, i) =>
    right.zipIdx.map fun (b, j) => paired right.length i j a b

def withFilter (number : Nat) (condition : Expr) (f : Fragment) : Fragment :=
  { f with filters := f.filters ++ [⟨number, condition, f.keys⟩] }

def withExtension (pathAlias : Bool) (name : String) (value : Expr) (f : Fragment) : Fragment :=
  { f with extensions :=
      f.extensions ++ [⟨name, value, if pathAlias then none else some f.keys⟩] }

/-- The fragments of an optional part: those of the plain left part are suppressed by all those of
the joined part. -/
def optional (left joined : List Fragment) : List Fragment :=
  let extra := (List.range joined.length).map (· + left.length)
  left.map (fun f => { f with exclusiveOf := f.exclusiveOf ++ extra })
    ++ joined.map (shifted left.length)

def concatenated (lists : List (List Fragment)) : List Fragment :=
  lists.foldl (fun before list => before ++ list.map (shifted before.length)) []

/-- The fragments of a union. Only an exclusive union of two parts is an optional part. -/
def united : UnionKind → List (List Fragment) → List Fragment
  | .exclusive, [left, joined] => optional left joined
  | _, lists => concatenated lists

mutual

def ofAlgebra (next : Nat) : Algebra → Result (List Fragment × Nat)
  | .bgp patterns => .ok ([ofPatterns patterns], next)
  | .join left right => do
    let (left, next) ← ofAlgebra next left
    let (right, next) ← ofAlgebra next right
    return (product left right, next)
  | .union kind branches => do
    let (lists, next) ← ofBranches next branches
    return (united kind lists, next)
  | .filter condition inner => do
    let (fragments, next) ← ofAlgebra next inner
    return (fragments.map (withFilter next condition), next + 1)
  | .extend pathAlias name value inner => do
    let (fragments, next) ← ofAlgebra next inner
    return (fragments.map (withExtension pathAlias name value), next)
  | .project .. => .error (.unsupported .subquery)

def ofBranches (next : Nat) : List Algebra → Result (List (List Fragment) × Nat)
  | [] => .ok ([], next)
  | branch :: rest => do
    let (fragments, next) ← ofAlgebra next branch
    let (lists, next) ← ofBranches next rest
    return (fragments :: lists, next)

end

end Fragment

end AttestedQuery
