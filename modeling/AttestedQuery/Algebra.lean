import AttestedQuery.KeyMap
import AttestedQuery.Term
import AttestedQuery.Text.Pieces

/-!
# Query algebra

Queries in their normal form: graph patterns, joins, unions, filters and extensions below one
projection. OPTIONAL is a union of two alternatives of which the first gives only rows that the
second does not extend; property paths are unrolled.

Variables and blank nodes share one space of binding keys: the variable `x` has the key `x`, the
blank node `b` has the key `_:b`. No variable name holds a colon, so the two never meet.
-/

set_option autoImplicit false

namespace AttestedQuery

/-- Leading part of the variables that stand for the inner nodes of a path. -/
def pathVariableLead : String := "__path"

/-- Keys written in a query, as opposed to blank nodes and inner nodes of paths. -/
def isUserKey (key : String) : Bool :=
  (Text.afterPart ['_', ':'] key.toList).isNone
    && (Text.afterPart pathVariableLead.toList key.toList).isNone

inductive PatternTerm where
  | const (term : Term)
  | var (name : String)
  | blank (label : String)
  deriving DecidableEq, Inhabited

namespace PatternTerm

def key? : PatternTerm → Option String
  | .const _ => none
  | .var name => some name
  | .blank label => some ("_:" ++ label)

def shown : PatternTerm → String
  | .const term => term.shown
  | .var name => "?" ++ name
  | .blank label => "_:" ++ label

end PatternTerm

/-- A pattern for one quad. Without a graph the graph position is not constrained. -/
structure Pattern where
  subject : PatternTerm
  predicate : PatternTerm
  object : PatternTerm
  graph : Option PatternTerm
  deriving DecidableEq, Inhabited

namespace Pattern

def positions (p : Pattern) : QuadOf (Option PatternTerm) :=
  ⟨some p.subject, some p.predicate, some p.object, p.graph⟩

def keys (p : Pattern) : List String :=
  p.positions.toList.filterMap fun term => term >>= PatternTerm.key?

def shown (p : Pattern) : String :=
  p.subject.shown ++ " " ++ p.predicate.shown ++ " " ++ p.object.shown
    ++ match p.graph with
      | none => ""
      | some g => " " ++ g.shown

end Pattern

inductive CompareOp where
  | lt
  | le
  | gt
  | ge
  deriving DecidableEq, Hashable, Repr

def CompareOp.accepts : CompareOp → Ordering → Bool
  | .lt, order => order == .lt
  | .le, order => order != .gt
  | .gt, order => order == .gt
  | .ge, order => order != .lt

/-- The functions of one argument that expressions may call. -/
inductive Builtin where
  | isIri
  | isBlank
  | isLiteral
  | isNumeric
  | str
  | lang
  | datatype
  | strLen
  deriving DecidableEq, Repr

def Builtin.name : Builtin → String
  | .isIri => "isIRI"
  | .isBlank => "isBlank"
  | .isLiteral => "isLiteral"
  | .isNumeric => "isNumeric"
  | .str => "STR"
  | .lang => "LANG"
  | .datatype => "DATATYPE"
  | .strLen => "STRLEN"

inductive Expr where
  | const (term : Term)
  | var (name : String)
  | equal (a b : Expr)
  | sameTerm (a b : Expr)
  | compare (op : CompareOp) (a b : Expr)
  | isIn (needle : Expr) (items : List Expr)
  | and (a b : Expr)
  | or (a b : Expr)
  | not (a : Expr)
  | ite (condition a b : Expr)
  | bound (name : String)
  | call (builtin : Builtin) (argument : Expr)
  deriving Inhabited

inductive UnionKind where
  | plain
  /-- The left part and the joined part of OPTIONAL. -/
  | exclusive
  deriving DecidableEq, Repr

inductive Algebra where
  | bgp (patterns : List Pattern)
  | join (left right : Algebra)
  | union (kind : UnionKind) (branches : List Algebra)
  | filter (condition : Expr) (inner : Algebra)
  /-- Binds a variable. A path alias is a step of length zero: its expression reads the keys of
  the whole group, not only those of the part it extends. -/
  | extend (pathAlias : Bool) (name : String) (value : Expr) (inner : Algebra)
  | project (names : List String) (inner : Algebra)
  deriving Inhabited

namespace Algebra

def empty : Algebra := .bgp []

/-- The join of two parts; two pattern groups become one. -/
def joined : Algebra → Algebra → Algebra
  | .bgp left, .bgp right => .bgp (left ++ right)
  | left, right => .join left right

def plainBranches : Algebra → List Algebra
  | .union .plain branches => branches
  | other => [other]

/-- The plain union of parts: unions among them are opened, and a single branch stands alone. -/
def united (parts : List Algebra) : Algebra :=
  match parts.flatMap plainBranches with
  | [single] => single
  | branches => .union .plain branches

mutual

def certainlyBound : Algebra → KeySet
  | .bgp patterns => KeySet.ofKeys (patterns.flatMap Pattern.keys)
  | .join left right => KeySet.addAll left.certainlyBound right.certainlyBound.keys
  | .union _ [] => KeyMap.empty
  | .union _ (first :: rest) => boundInAll first.certainlyBound rest
  | .filter _ inner => inner.certainlyBound
  | .extend _ name _ inner => inner.certainlyBound.add name
  | .project names inner =>
    let bound := inner.certainlyBound
    KeySet.ofKeys (names.filter bound.contains)

def boundInAll (keys : KeySet) : List Algebra → KeySet
  | [] => keys
  | branch :: rest =>
    let bound := branch.certainlyBound
    boundInAll (keys.restrict bound.contains) rest

end

end Algebra

structure OrderKey where
  expression : String
  descending : Bool
  deriving DecidableEq

/-- What a query asks to be done with its solutions afterwards. It has no part in the constraints. -/
structure Modifiers where
  distinct : Bool
  reduced : Bool
  orderBy : List OrderKey
  offset : Nat
  limit : Option Nat
  deriving DecidableEq

def Modifiers.none : Modifiers := ⟨false, false, [], 0, Option.none⟩

inductive QueryForm where
  | select
  | ask
  deriving DecidableEq, Repr

structure NormalQuery where
  form : QueryForm
  algebra : Algebra
  projected : List String
  modifiers : Modifiers

end AttestedQuery
