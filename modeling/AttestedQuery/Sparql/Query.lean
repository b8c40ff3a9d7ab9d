import AttestedQuery.Algebra

/-!
# Queries

The abstract form of SPARQL queries: graph patterns and expressions as they are written, before
any of it is reduced. Solution modifiers and the projection are patterns around the pattern they
apply to.
-/

set_option autoImplicit false

namespace AttestedQuery.Sparql

inductive Path where
  | iri (text : String)
  | reverse (inner : Path)
  | sequence (first second : Path)
  | alternative (first second : Path)
  | zeroOrMore (inner : Path)
  | oneOrMore (inner : Path)
  | zeroOrOne (inner : Path)
  /-- Any IRI outside a set. -/
  | outside (iris : List String)
  deriving Inhabited

/-- What stands between the subject and the object. -/
inductive Verb where
  | var (name : String)
  | path (path : Path)

/-- A triple with variables and blank nodes. The predicate is an IRI or a variable. -/
structure Triple where
  subject : PatternTerm
  predicate : PatternTerm
  object : PatternTerm

inductive UnaryOp where
  | plus
  | minus
  | not

inductive BinaryOp where
  | or
  | and
  | equal
  | sameTerm
  | greater
  | greaterOrEqual
  | less
  | lessOrEqual
  | add
  | subtract
  | multiply
  | divide

inductive Function where
  | named (name : String)
  | custom (iri : String)

mutual

inductive Expression where
  | const (term : Term)
  | var (name : String)
  | unary (op : UnaryOp) (argument : Expression)
  | binary (op : BinaryOp) (left right : Expression)
  | isIn (needle : Expression) (items : List Expression)
  | ite (condition first second : Expression)
  | coalesce (items : List Expression)
  | bound (name : String)
  | call (function : Function) (arguments : List Expression)
  | exists (pattern : GraphPattern)

inductive GraphPattern where
  | bgp (triples : List Triple)
  | path (subject : PatternTerm) (path : Path) (object : PatternTerm)
  | join (left right : GraphPattern)
  | leftJoin (left right : GraphPattern)
  /-- A left join of which only rows that satisfy the condition count as joined. -/
  | leftJoinIf (left right : GraphPattern) (condition : Expression)
  | filter (condition : Expression) (inner : GraphPattern)
  | union (left right : GraphPattern)
  | graph (name : PatternTerm) (inner : GraphPattern)
  | extend (inner : GraphPattern) (name : String) (value : Expression)
  | minus (left right : GraphPattern)
  | service (name : PatternTerm) (inner : GraphPattern) (silent : Bool)
  | values (names : List String) (rows : List (List (Option Term)))
  /-- Grouping by some variables; the aggregates are known by the variables that hold them. -/
  | group (inner : GraphPattern) (names aggregates : List String)
  | orderBy (inner : GraphPattern) (keys : List (Bool × Expression))
  | project (inner : GraphPattern) (names : List String)
  | distinct (inner : GraphPattern)
  | reduced (inner : GraphPattern)
  | slice (inner : GraphPattern) (start : Nat) (length : Option Nat)

end

inductive Form where
  | select
  | construct
  | describe
  | ask
  deriving DecidableEq

inductive DatasetClause where
  /-- A graph that is merged into the default graph. -/
  | merged (iri : String)
  | named (iri : String)
  deriving DecidableEq

structure Query where
  form : Form
  pattern : GraphPattern
  /-- The graphs that the query names instead of those of the dataset it is asked over. -/
  dataset : List DatasetClause

/-- A name that no query can hold, for blank nodes and variables that have none of their own. -/
def freshName (number : Nat) : String := ":" ++ Decimal.textOfInt number

namespace GraphPattern

instance : Inhabited GraphPattern := ⟨.bgp []⟩

/-- The join of two patterns. Empty triple patterns vanish, two triple patterns become one, and two
parts in the same graph become one part. -/
def joined : GraphPattern → GraphPattern → GraphPattern
  | .bgp [], right => right
  | left, .bgp [] => left
  | .bgp left, .bgp right => .bgp (left ++ right)
  | .graph name left, .graph other right =>
    if name = other then .graph name (joined left right)
    else .join (.graph name left) (.graph other right)
  | left, right => .join left right

def namesOf : PatternTerm → List String
  | .var name => [name]
  | _ => []

/-- The variables in scope in a pattern, with repetitions: those that a solution may bind. -/
def inScope : GraphPattern → List String
  | .bgp triples =>
    triples.flatMap fun t => namesOf t.subject ++ namesOf t.predicate ++ namesOf t.object
  | .path subject _ object => namesOf subject ++ namesOf object
  | .join left right => left.inScope ++ right.inScope
  | .leftJoin left right => left.inScope ++ right.inScope
  | .leftJoinIf left right _ => left.inScope ++ right.inScope
  | .filter _ inner => inner.inScope
  | .union left right => left.inScope ++ right.inScope
  | .graph name inner => namesOf name ++ inner.inScope
  | .extend inner name _ => inner.inScope ++ [name]
  | .minus left _ => left.inScope
  | .service name inner _ => namesOf name ++ inner.inScope
  | .values names _ => names
  | .group _ names aggregates => names ++ aggregates
  | .orderBy inner _ => inner.inScope
  | .project _ names => names
  | .distinct inner => inner.inScope
  | .reduced inner => inner.inScope
  | .slice inner _ _ => inner.inScope

end GraphPattern

namespace Expression

mutual

/-- The variables that an expression reads; a pattern inside reads none. -/
def names : Expression → List String
  | .const _ => []
  | .var name => [name]
  | .unary _ argument => argument.names
  | .binary _ left right => left.names ++ right.names
  | .isIn needle items => needle.names ++ namesOfAll items
  | .ite condition first second => condition.names ++ first.names ++ second.names
  | .coalesce items => namesOfAll items
  | .bound name => [name]
  | .call _ arguments => namesOfAll arguments
  | .exists _ => []

def namesOfAll : List Expression → List String
  | [] => []
  | first :: rest => first.names ++ namesOfAll rest

end

def conjunction : List Expression → Option Expression
  | [] => none
  | first :: rest => some (rest.foldl (.binary .and) first)

end Expression

end AttestedQuery.Sparql
