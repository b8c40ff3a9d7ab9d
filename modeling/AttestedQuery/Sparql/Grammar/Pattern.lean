import AttestedQuery.Sparql.Grammar.Expression
import AttestedQuery.Sparql.Grammar.Triples

/-!
# The grammar of graph patterns

The parts of a group join from left to right. A filter applies to its whole group wherever it
stands in it; the filters of an optional group decide what counts as joined.
-/

set_option autoImplicit false

namespace AttestedQuery.Sparql.Grammar

open Reader

inductive Part where
  | pattern (pattern : GraphPattern)
  | optional (group : Group)
  | minus (pattern : GraphPattern)
  | bind (value : Expression) (name : String)
  | filter (condition : Expression)

/-! ## Inline data -/

def dataValue : Grammar (Option Term) :=
  (do return some (.iri (← iri)))
  <|> (do return some (← literal))
  <|> (do
    word "UNDEF"
    return none)

def dataColumn : Grammar GraphPattern := do
  let name ← spaced var
  mark "\x7b"
  let values ← many (spaced dataValue)
  exactly "\x7d"
  return .values [name] (values.map fun value => [value])

/-- Rows of values for several variables; no variable occurs twice. -/
def dataTable : Grammar GraphPattern := do
  mark "("
  let names ← many (spaced var)
  mark ")"
  require names.Nodup
  mark "\x7b"
  let rows ← many (spaced (do
    mark "("
    let row ← many (spaced dataValue)
    exactly ")"
    require (row.length == names.length)
    return row))
  exactly "\x7d"
  return .values names rows

def inlineData : Grammar GraphPattern := do
  keyword "VALUES"
  dataColumn <|> dataTable

/-! ## Groups -/

/-- A pattern with an optional group, whose condition decides what counts as joined. -/
def leftJoined (left : GraphPattern) (right : Group) : GraphPattern :=
  match right.condition with
  | some condition => .leftJoinIf left right.body condition
  | none => .leftJoin left right.body

/-- The pattern so far with one more part. A variable that is in scope cannot be bound. -/
def withPart (sofar : GraphPattern) : Part → Option GraphPattern
  | .pattern pattern => some (sofar.joined pattern)
  | .optional group => some (leftJoined sofar group)
  | .minus pattern => some (.minus sofar pattern)
  | .bind value name =>
    if sofar.inScope.contains name then none else some (.extend sofar name value)
  | .filter _ => some sofar

def groupOf (first : GraphPattern) (parts : List Part) : Option Group := do
  let body ← parts.foldlM withPart first
  let conditions := parts.filterMap fun part =>
    match part with
    | .filter condition => some condition
    | _ => none
  return ⟨body, Expression.conjunction conditions⟩

def part (nested : Nested) : Grammar Part :=
  (do
    let groups ← sepBy nested.pattern (do
      blank
      keyword "UNION")
    return .pattern (← foldedLeft .union groups))
  <|> (do
    keyword "OPTIONAL"
    return .optional (← nested.group))
  <|> (do
    keyword "MINUS"
    return .minus (← nested.pattern))
  <|> (do
    keyword "GRAPH"
    let name ← spaced varOrIri
    return .pattern (.graph name (← nested.pattern)))
  <|> (do
    keyword "SERVICE"
    let silent ← isPresent (keyword "SILENT")
    let name ← spaced varOrIri
    return .pattern (.service name (← nested.pattern) silent))
  <|> (do
    keyword "FILTER"
    return .filter (← constraint nested))
  <|> (do
    keyword "BIND"
    mark "("
    let value ← spaced nested.expression
    keyword "AS"
    let name ← spaced var
    exactly ")"
    return .bind value name)
  <|> (do return .pattern (← inlineData))

def block : Grammar GraphPattern := do
  return blockPattern (← triples pathVerb)

/-- Blocks of triples and other parts in turn. A dot may follow a part. -/
def groupParts (nested : Nested) : Grammar Group := do
  let first ← spaced (maybe block)
  let parts ← many (do
    let own ← spaced (part nested)
    discard (maybe (mark "."))
    match ← spaced (maybe block) with
    | some pattern => return [own, .pattern pattern]
    | none => return [own])
  ofOption (groupOf (first.getD (.bgp [])) parts.flatten)

def inBraces {α : Type} (inner : Grammar α) : Grammar α := do
  mark "\x7b"
  closeLabels
  let a ← inner
  closeLabels
  blank
  exactly "\x7d"
  return a

/-! ## Selection -/

inductive Reduction where
  | all
  | distinct
  | reduced

inductive Selected where
  | var (name : String)
  | computed (value : Expression) (name : String)

/-- What is selected; without a list, every variable in scope is. -/
structure Selection where
  reduction : Reduction
  members : Option (List Selected)

def Selection.everything : Selection := ⟨.all, none⟩

structure Grouping where
  names : List String
  computed : List (Expression × String)

structure Modifying where
  grouping : Option Grouping
  having : Option Expression
  orderBy : Option (List (Bool × Expression))
  slice : Option (Nat × Option Nat)
  values : Option GraphPattern

def groupedPattern (pattern : GraphPattern) (modifying : Modifying) (aggregates : List String) :
    GraphPattern × Bool :=
  let grouping := modifying.grouping <|> (if aggregates.isEmpty then none else some ⟨[], []⟩)
  let pattern := match grouping with
    | none => pattern
    | some grouping =>
      .group (grouping.computed.foldl (fun p (value, name) => .extend p name value) pattern)
        grouping.names aggregates
  let pattern := match modifying.having with
    | some condition => .filter condition pattern
    | none => pattern
  let pattern := match modifying.values with
    | some values => pattern.joined values
    | none => pattern
  (pattern, grouping.isSome)

/-- The pattern with the selected expressions, and the selected variables. A variable in scope
cannot hold an expression, and under grouping only variables in scope can be read. -/
def selectedPattern (grouped : Bool) (visible : List String) :
    GraphPattern → List Selected → Option (GraphPattern × List String)
  | pattern, [] => some (pattern, [])
  | pattern, .var name :: rest => do
    if grouped && !visible.contains name then none
    let (pattern, names) ← selectedPattern grouped visible pattern rest
    return (pattern, name :: names)
  | pattern, .computed value name :: rest => do
    if visible.contains name then none
    if grouped && !value.names.all visible.contains then none
    let (pattern, names) ← selectedPattern grouped visible (.extend pattern name value) rest
    return (pattern, name :: names)

def sortedNames (names : List String) : List String := (KeySet.ofKeys names).keys

def selectPattern (selection : Selection) (pattern : GraphPattern) (modifying : Modifying)
    (aggregates : List String) : Option GraphPattern := do
  let (pattern, grouped) := groupedPattern pattern modifying aggregates
  let (pattern, names) ← match selection.members with
    | some members => selectedPattern grouped pattern.inScope pattern members
    | none => if grouped then none else some (pattern, sortedNames pattern.inScope)
  if ¬names.Nodup then none
  let pattern := match modifying.orderBy with
    | some keys => .orderBy pattern keys
    | none => pattern
  let pattern := GraphPattern.project pattern names
  let pattern := match selection.reduction with
    | .all => pattern
    | .distinct => .distinct pattern
    | .reduced => .reduced pattern
  return match modifying.slice with
    | some (start, length) => .slice pattern start length
    | none => pattern

def selectClause (nested : Nested) : Grammar Selection := do
  keyword "SELECT"
  changeState fun s => { s with aggregates := [] :: s.aggregates }
  let reduction : Reduction ← (do
      keyword "DISTINCT"
      return .distinct)
    <|> (do
      keyword "REDUCED"
      return .reduced)
    <|> (return .all)
  let members ← (do
      exactly "*"
      return none)
    <|> (do
      let members ← atLeastOne (spaced ((do return .var (← var)) <|> (do
        mark "("
        let value ← spaced nested.expression
        keyword "AS"
        let name ← spaced var
        exactly ")"
        return .computed value name)))
      return some members)
  return ⟨reduction, members⟩

/-- The aggregates of the innermost SELECT, which ends here. -/
def takeAggregates : Grammar (List String) := do
  let s ← getState
  setState { s with aggregates := s.aggregates.drop 1 }
  return (s.aggregates.head?).getD []

def groupCondition (nested : Nested) : Grammar (Expression × Option String) :=
  (do return (← builtInCall nested, none))
  <|> (do return (← functionCall nested, none))
  <|> bracketed (do
    let value ← spaced nested.expression
    let name ← maybe (do
      keyword "AS"
      var)
    return (value, name))
  <|> (do return (.var (← var), none))

def groupClause (nested : Nested) : Grammar Grouping := do
  keyword "GROUP"
  keyword "BY"
  let conditions ← atLeastOne (spaced (groupCondition nested))
  conditions.foldlM (fun grouping condition => do
      match condition with
      | (.var name, none) => return { grouping with names := grouping.names ++ [name] }
      | (value, name) =>
        let name ← match name with
          | some name => succeed name
          | none => freshLabel
        return ⟨grouping.names ++ [name], grouping.computed ++ [(value, name)]⟩)
    ⟨[], []⟩

def havingClause (nested : Nested) : Grammar Expression := do
  keyword "HAVING"
  ofOption (Expression.conjunction (← atLeastOne (constraint nested)))

def orderCondition (nested : Nested) : Grammar (Bool × Expression) :=
  (do
    keyword "ASC"
    return (false, ← bracketed nested.expression))
  <|> (do
    keyword "DESC"
    return (true, ← bracketed nested.expression))
  <|> (do return (false, ← constraint nested))
  <|> (do return (false, .var (← var)))

def orderClause (nested : Nested) : Grammar (List (Bool × Expression)) := do
  keyword "ORDER"
  keyword "BY"
  atLeastOne (spaced (orderCondition nested))

def countAfter (name : String) : Grammar Nat := do
  keyword name
  let n := Decimal.value (← digits)
  require (Decimal.fitsUInt64 n)
  return n

def sliceClause : Grammar (Nat × Option Nat) :=
  (do
    let limit ← spaced (countAfter "LIMIT")
    let offset ← maybe (countAfter "OFFSET")
    return (offset.getD 0, some limit))
  <|> (do
    let offset ← spaced (countAfter "OFFSET")
    let limit ← maybe (countAfter "LIMIT")
    return (offset, limit))

def modifyingClauses (nested : Nested) : Grammar Modifying := do
  let grouping ← spaced (maybe (groupClause nested))
  let having ← spaced (maybe (havingClause nested))
  let orderBy ← spaced (maybe (orderClause nested))
  let slice ← spaced (maybe sliceClause)
  return ⟨grouping, having, orderBy, slice, ← maybe inlineData⟩

def selecting (selection : Selection) (pattern : GraphPattern) (nested : Nested) :
    Grammar GraphPattern := do
  let modifying ← modifyingClauses nested
  let aggregates ← takeAggregates
  ofOption (selectPattern selection pattern modifying aggregates)

def whereClause (nested : Nested) : Grammar GraphPattern := do
  discard (maybe (keyword "WHERE"))
  nested.pattern

def subquery (nested : Nested) : Grammar GraphPattern := do
  let selection ← spaced (selectClause nested)
  let pattern ← spaced (whereClause nested)
  selecting selection pattern nested

/-- A group whose nested groups and expressions are read by `nested`. -/
def groupWith (nested : Nested) : Grammar Group :=
  inBraces (groupParts nested) <|> (do return ⟨← inBraces (subquery nested), none⟩)

def nestedOfDepth : Nat → Nested
  | 0 => ⟨fail, fail⟩
  | depth + 1 => oneDeeper (nestedOfDepth depth)
where
  oneDeeper (nested : Nested) : Nested := ⟨expressionWith nested, groupWith nested⟩

end AttestedQuery.Sparql.Grammar
