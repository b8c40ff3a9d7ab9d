import AttestedQuery.Sparql.Lexeme

/-!
# The grammar of expressions

Disjunctions of conjunctions of comparisons of sums of products. A sign or a negation applies to
one primary expression and does not repeat; comparisons do not chain. Calls have a fixed number of
arguments.
-/

set_option autoImplicit false

namespace AttestedQuery.Sparql.Grammar

open Reader

structure Group where
  body : GraphPattern
  condition : Option Expression

def Group.pattern (group : Group) : GraphPattern :=
  match group.condition with
  | some condition => .filter condition group.body
  | none => group.body

structure Nested where
  expression : Grammar Expression
  group : Grammar Group

def Nested.pattern (nested : Nested) : Grammar GraphPattern := do
  return (← nested.group).pattern

/-- The functions of the language: how they are written, how they are shown, and how many
arguments they take. -/
def functions : List (String × String × List Nat) :=
  [("STR", "STR", [1]), ("LANG", "LANG", [1]), ("LANGMATCHES", "LANGMATCHES", [2]),
    ("DATATYPE", "DATATYPE", [1]), ("IRI", "IRI", [1]), ("URI", "IRI", [1]),
    ("BNODE", "BNODE", [0, 1]), ("RAND", "RAND", [0]), ("ABS", "ABS", [1]), ("CEIL", "CEIL", [1]),
    ("FLOOR", "FLOOR", [1]), ("ROUND", "ROUND", [1]), ("SUBSTR", "SUBSTR", [2, 3]),
    ("STRLEN", "STRLEN", [1]), ("REPLACE", "REPLACE", [3, 4]), ("UCASE", "UCASE", [1]),
    ("LCASE", "LCASE", [1]), ("ENCODE_FOR_URI", "ENCODE_FOR_URI", [1]),
    ("CONTAINS", "CONTAINS", [2]), ("STRSTARTS", "STRSTARTS", [2]), ("STRENDS", "STRENDS", [2]),
    ("STRBEFORE", "STRBEFORE", [2]), ("STRAFTER", "STRAFTER", [2]), ("YEAR", "YEAR", [1]),
    ("MONTH", "MONTH", [1]), ("DAY", "DAY", [1]), ("HOURS", "HOURS", [1]),
    ("MINUTES", "MINUTES", [1]), ("SECONDS", "SECONDS", [1]), ("TIMEZONE", "TIMEZONE", [1]),
    ("TZ", "TZ", [1]), ("NOW", "NOW", [0]), ("UUID", "UUID", [0]), ("STRUUID", "STRUUID", [0]),
    ("MD5", "MD5", [1]), ("SHA1", "SHA1", [1]), ("SHA256", "SHA256", [1]),
    ("SHA384", "SHA384", [1]), ("SHA512", "SHA512", [1]), ("STRLANG", "STRLANG", [2]),
    ("STRDT", "STRDT", [2]), ("isIRI", "isIRI", [1]), ("isURI", "isIRI", [1]),
    ("isBLANK", "isBLANK", [1]), ("isLITERAL", "isLITERAL", [1]),
    ("isNUMERIC", "isNUMERIC", [1]), ("REGEX", "REGEX", [2, 3])]

def aggregateNames : List String := ["SUM", "MIN", "MAX", "AVG", "SAMPLE"]

def argumentList (expression : Grammar Expression) : Grammar (List Expression) :=
  bracketed (sepBy (spaced expression) (mark ","))
  <|> (do
    emptyPair "(" ")"
    return [])

def callOf (expression : Grammar Expression) (name shown : String) (counts : List Nat) :
    Grammar Expression := do
  keyword name
  let arguments ← argumentList expression
  require (counts.contains arguments.length)
  return .call (.named shown) arguments

/-- The variable of an aggregate that belongs to the innermost SELECT; elsewhere there is none. -/
def aggregateVariable : Grammar Expression := do
  let label ← freshLabel
  let s ← getState
  match s.aggregates with
  | [] => fail
  | own :: outer =>
    setState { s with aggregates := (own ++ [label]) :: outer }
    return .var label

def aggregateArgument (expression : Grammar Expression) : Grammar Unit := do
  discard (maybe (keyword "DISTINCT"))
  discard (spaced expression)

def aggregate (expression : Grammar Expression) : Grammar Expression := do
  (do
    keyword "COUNT"
    bracketed ((do
        discard (maybe (keyword "DISTINCT"))
        exactly "*")
      <|> aggregateArgument expression))
  <|> firstOf (aggregateNames.map fun name => do
    keyword name
    bracketed (aggregateArgument expression))
  <|> (do
    keyword "GROUP_CONCAT"
    bracketed (do
      aggregateArgument expression
      discard (maybe (do
        mark ";"
        keyword "SEPARATOR"
        mark "="
        discard string))))
  aggregateVariable

/-- A call of a function of the language, a test for bindings or solutions, or an aggregate. -/
def builtInCall (nested : Nested) : Grammar Expression :=
  let expression := nested.expression
  aggregate expression
  <|> firstOf (functions.map fun (name, shown, counts) => callOf expression name shown counts)
  <|> (do
    keyword "BOUND"
    return .bound (← bracketed var))
  <|> (do
    keyword "CONCAT"
    return .call (.named "CONCAT") (← argumentList expression))
  <|> (do
    keyword "COALESCE"
    return .coalesce (← argumentList expression))
  <|> (do
    keyword "IF"
    match ← argumentList expression with
    | [condition, first, second] => return .ite condition first second
    | _ => fail)
  <|> (do
    keyword "sameTerm"
    match ← argumentList expression with
    | [left, right] => return .binary .sameTerm left right
    | _ => fail)
  <|> (do
    keyword "EXISTS"
    return .exists (← nested.pattern))
  <|> (do
    keyword "NOT"
    keyword "EXISTS"
    return .unary .not (.exists (← nested.pattern)))

def functionCall (nested : Nested) : Grammar Expression := do
  let function ← spaced iri
  return .call (.custom function) (← argumentList nested.expression)

def iriOrCall (nested : Nested) : Grammar Expression :=
  functionCall nested <|> (do return .const (.iri (← iri)))

def primary (nested : Nested) : Grammar Expression :=
  bracketed nested.expression
  <|> iriOrCall nested
  <|> (do return .var (← var))
  <|> (do return .const (← literal))
  <|> builtInCall nested

/-- A primary expression with at most one sign or negation. -/
def unary (nested : Nested) : Grammar Expression := do
  let op ← maybe (
    (do
      mark "!"
      return UnaryOp.not)
    <|> (do
      mark "+"
      return UnaryOp.plus)
    <|> (do
      mark "-"
      return UnaryOp.minus))
  let argument ← primary nested
  match op with
  | some op => return .unary op argument
  | none => return argument

def leftChain (operand : Grammar Expression) (operators : List (String × BinaryOp)) :
    Grammar Expression := do
  let first ← spaced operand
  let more ← many (do
    let op ← firstOf (operators.map fun (text, op) => do
      mark text
      return op)
    return (op, ← spaced operand))
  return more.foldl (fun left (op, right) => .binary op left right) first

def product (nested : Nested) : Grammar Expression :=
  leftChain (unary nested) [("*", .multiply), ("/", .divide)]

def sum (nested : Nested) : Grammar Expression :=
  leftChain (product nested) [("+", .add), ("-", .subtract)]

def comparison (nested : Nested) : Grammar (Expression → Expression) :=
  let against (text : String) (build : Expression → Expression → Expression) := do
    mark text
    let right ← sum nested
    return fun left => build left right
  against "=" (.binary .equal)
  <|> against "!=" (fun left right => .unary .not (.binary .equal left right))
  <|> against ">=" (.binary .greaterOrEqual)
  <|> against ">" (.binary .greater)
  <|> against "<=" (.binary .lessOrEqual)
  <|> against "<" (.binary .less)
  <|> (do
    keyword "IN"
    let items ← argumentList nested.expression
    return fun left => .isIn left items)
  <|> (do
    keyword "NOT"
    keyword "IN"
    let items ← argumentList nested.expression
    return fun left => .unary .not (.isIn left items))

def relation (nested : Nested) : Grammar Expression := do
  let left ← spaced (sum nested)
  match ← maybe (comparison nested) with
  | some build => return build left
  | none => return left

/-- An expression whose bracketed parts are read by `nested`. -/
def expressionWith (nested : Nested) : Grammar Expression :=
  leftChain (leftChain (relation nested) [("&&", .and)]) [("||", .or)]

def constraint (nested : Nested) : Grammar Expression :=
  bracketed nested.expression <|> functionCall nested <|> builtInCall nested

end AttestedQuery.Sparql.Grammar
