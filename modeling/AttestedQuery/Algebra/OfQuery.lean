import AttestedQuery.Error
import AttestedQuery.Literal.Special
import AttestedQuery.Sparql.Printer

/-!
# The normal form of queries

Property paths are unrolled into joins and unions, with a bound on repetitions; OPTIONAL becomes a
union of the plain left part and the joined part, of which the compiler keeps the first only where
the second gives nothing; GRAPH names go into the patterns below them. What is left outside the
algebra is refused by name.
-/

set_option autoImplicit false

namespace AttestedQuery

def pathKey (n : Nat) : String := pathVariableLead ++ Decimal.textOfInt n

namespace Normal

/-- The names given so far: how many variables of paths there are, and the blank nodes in the order
of their first occurrence. -/
structure Names where
  paths : Nat
  blanks : List String

abbrev Naming := StateT Names (Except Error)

def refuse {α : Type} (construct : Construct) : Except Error α := .error (.unsupported construct)

def checkName (name : String) : Except Error Unit :=
  if (Text.afterPart pathVariableLead.toList name.toList).isSome then
    refuse (.reservedVariable name)
  else .ok ()

def nameTerm (name : String) : Except Error PatternTerm := do
  checkName name
  return .var name

def pathVariable (supply : Nat → String) : Naming PatternTerm := do
  let names ← get
  set { names with paths := names.paths + 1 }
  return .var (supply names.paths)

/-- Blank nodes are numbered in the order of their first occurrence. -/
def blank (label : String) : Naming PatternTerm := do
  let names ← get
  let named (place : Nat) : PatternTerm := .blank ("b" ++ Decimal.textOfInt place)
  if names.blanks.contains label then return named (names.blanks.idxOf label)
  else
    set { names with blanks := names.blanks ++ [label] }
    return named names.blanks.length

def node : PatternTerm → Naming PatternTerm
  | .const term => return .const term
  | .var name => nameTerm name
  | .blank label => blank label

def triple (graph : Option PatternTerm) (t : Sparql.Triple) : Naming Pattern := do
  let subject ← node t.subject
  let predicate ← node t.predicate
  let object ← node t.object
  return ⟨subject, predicate, object, graph⟩

/-! ## Expressions -/

def builtin? : String → Option Builtin
  | "isIRI" => some .isIri
  | "isBLANK" => some .isBlank
  | "isLITERAL" => some .isLiteral
  | "isNUMERIC" => some .isNumeric
  | "STR" => some .str
  | "LANG" => some .lang
  | "DATATYPE" => some .datatype
  | "STRLEN" => some .strLen
  | _ => none

def builtinOf? : Sparql.Function → Option Builtin
  | .named name => builtin? name
  | .custom _ => none

/-- The value of a numeral with its sign changed or confirmed. Only floating-point datatypes have
a negative zero. -/
def signedValue (negate hasNegativeZero : Bool) (value : String) : String :=
  let digits := value.toList.dropWhile fun c => c == '+' || c == '-'
  let negative := (value.toList.head? == some '-') != negate
  if negative && (hasNegativeZero || digits.any fun c => c.isDigit && c != '0') then
    String.ofList ('-' :: digits)
  else String.ofList digits

def signedLiteral (negate : Bool) : Sparql.Expression → Except Error Expr
  | .const (.literal value lang datatype) =>
    match (xsdLocalName? datatype).filter numericTypes.contains with
    | none => refuse (.signed (Sparql.termText (.literal value lang datatype)))
    | some name =>
      .ok (.const (.literal (signedValue negate (name == "double" || name == "float") value) none
        (if integerTypes.contains name then xsdInteger else datatype)))
  | other => refuse (.arithmetic other.text)

mutual

def expression : Sparql.Expression → Except Error Expr
  | .const term => return .const term
  | .var name => return .var name
  | .unary .not argument => return .not (← expression argument)
  | .unary .plus argument => signedLiteral false argument
  | .unary .minus argument => signedLiteral true argument
  | .binary .or a b => return .or (← expression a) (← expression b)
  | .binary .and a b => return .and (← expression a) (← expression b)
  | .binary .equal a b => return .equal (← expression a) (← expression b)
  | .binary .sameTerm a b => return .sameTerm (← expression a) (← expression b)
  | .binary .greater a b => return .compare .gt (← expression a) (← expression b)
  | .binary .greaterOrEqual a b => return .compare .ge (← expression a) (← expression b)
  | .binary .less a b => return .compare .lt (← expression a) (← expression b)
  | .binary .lessOrEqual a b => return .compare .le (← expression a) (← expression b)
  | .binary op a b => refuse (.expression (op.text a.text b.text))
  | .isIn needle items => return .isIn (← expression needle) (← expressions items)
  | .ite condition a b => return .ite (← expression condition) (← expression a) (← expression b)
  | .coalesce items => refuse (.expression (Sparql.Expression.coalesce items).text)
  | .bound name => return .bound name
  | .exists _ => refuse .existence
  | .call function [argument] =>
    match builtinOf? function with
    | some builtin => return .call builtin (← expression argument)
    | none => refuse (.function function.text)
  | .call function _ =>
    match builtinOf? function with
    | some _ => .error .badQuery
    | none => refuse (.function function.text)

def expressions : List Sparql.Expression → Except Error (List Expr)
  | [] => return []
  | first :: rest => return (← expression first) :: (← expressions rest)

end

/-! ## Paths -/

/-- The path of length zero, which holds between a node and itself; none where it never holds. -/
def zeroSteps (subject object : PatternTerm) : Option Algebra :=
  match subject.key?, object.key? with
  | none, none => if subject = object then some .empty else none
  | none, some key => some (linked key subject)
  | some key, none => some (linked key object)
  | some source, some target =>
    if source = target then some .empty else some (linked target subject)
where
  linked (key : String) (source : PatternTerm) : Algebra :=
    .extend true key (match source with
      | .const term => .const term
      | .var name => .var name
      | .blank label => .var ("_:" ++ label)) .empty

variable (supply : Nat → String)

def chain (link : PatternTerm → PatternTerm → Naming Algebra) (target : PatternTerm) :
    Nat → PatternTerm → Option Algebra → Naming Algebra
  | 0, _, done => return done.getD .empty
  | 1, source, done => do
    let last ← link source target
    return match done with
      | some before => before.joined last
      | none => last
  | steps + 2, source, done => do
    let middle ← pathVariable supply
    let next ← link source middle
    chain link target (steps + 1) middle (some (match done with
      | some before => before.joined next
      | none => next))

def chains (link : PatternTerm → PatternTerm → Naming Algebra) (maxHops : Nat)
    (source target : PatternTerm) : Naming (List Algebra) :=
  (List.range maxHops).mapM fun hops => chain supply link target (hops + 1) source none

def pathBetween (maxHops : Nat) (graph : Option PatternTerm) :
    Sparql.Path → PatternTerm → PatternTerm → Naming Algebra
  | .iri text, subject, object => return .bgp [⟨subject, .const (.iri text), object, graph⟩]
  | .reverse inner, subject, object => pathBetween maxHops graph inner object subject
  | .sequence first second, subject, object => do
    let middle ← pathVariable supply
    let left ← pathBetween maxHops graph first subject middle
    let right ← pathBetween maxHops graph second middle object
    return left.joined right
  | .alternative first second, subject, object => do
    let left ← pathBetween maxHops graph first subject object
    let right ← pathBetween maxHops graph second subject object
    return .united [left, right]
  | .zeroOrOne inner, subject, object => do
    let one ← pathBetween maxHops graph inner subject object
    return .united (one :: (zeroSteps subject object).toList)
  | .oneOrMore inner, subject, object => do
    let some ← chains supply (fun source target => pathBetween maxHops graph inner source target)
      maxHops subject object
    return .united some
  | .zeroOrMore inner, subject, object => do
    let zero := zeroSteps subject object
    let some ← chains supply (fun source target => pathBetween maxHops graph inner source target)
      maxHops subject object
    return .united (zero.toList ++ some)
  | .outside _, _, _ => refuse .negatedSet

/-! ## Patterns -/

def optionalOf (left joined : Algebra) : Algebra := .union .exclusive [left, joined]

def pattern (maxHops : Nat) (graph : Option PatternTerm) : Sparql.GraphPattern → Naming Algebra
  | .bgp triples => return .bgp (← triples.mapM (triple graph))
  | .path subject path object => do
    let subject ← node subject
    let object ← node object
    pathBetween supply maxHops graph path subject object
  | .join left right => do
    let left ← pattern maxHops graph left
    let right ← pattern maxHops graph right
    return left.joined right
  | .leftJoin left right => do
    let left ← pattern maxHops graph left
    let right ← pattern maxHops graph right
    return optionalOf left (left.joined right)
  | .leftJoinIf left right condition => do
    let left ← pattern maxHops graph left
    let right ← pattern maxHops graph right
    let condition ← expression condition
    return optionalOf left (.filter condition (left.joined right))
  | .filter condition inner => do
    let condition ← expression condition
    return .filter condition (← pattern maxHops graph inner)
  | .union left right => do
    let left ← pattern maxHops graph left
    let right ← pattern maxHops graph right
    return .united [left, right]
  | .graph name inner => do
    let name ← node name
    pattern maxHops (some name) inner
  | .extend inner name value => do
    checkName name
    let inner ← pattern maxHops graph inner
    return .extend false name (← expression value) inner
  | .minus .. => refuse .minus
  | .values .. => refuse .values
  | .group .. => refuse .grouping
  | .service .. => refuse .service
  | .project .. => refuse .subquery
  | .orderBy .. | .distinct _ | .reduced _ | .slice .. => refuse .nestedModifier

/-- The modifiers around the projection of a query, the innermost winning, and what is below. -/
def outerModifiers (modifiers : Modifiers) : Sparql.GraphPattern → Modifiers × Sparql.GraphPattern
  | .slice inner start length =>
    outerModifiers { modifiers with offset := start, limit := length } inner
  | .distinct inner => outerModifiers { modifiers with distinct := true } inner
  | .reduced inner => outerModifiers { modifiers with reduced := true } inner
  | other => (modifiers, other)

def ordering : Sparql.GraphPattern → List OrderKey × Sparql.GraphPattern
  | .orderBy inner keys =>
    (keys.map fun (descending, key) => ⟨key.text, descending⟩, inner)
  | other => ([], other)

def formOf : Sparql.Form → Except Error QueryForm
  | .select => .ok .select
  | .ask => .ok .ask
  | .construct => refuse .constructForm
  | .describe => refuse .describeForm

def projection (form : QueryForm) :
    Sparql.GraphPattern → Except Error (List String × Sparql.GraphPattern)
  | .project inner names => .ok (names, inner)
  | other => if form = .ask then .ok ([], other) else refuse .unprojected

end Normal

open AttestedQuery.Normal in
/-- The normal form of a query with path variables of a supply, and how many were drawn; repeated
paths take at most `maxHops` steps. -/
def NormalQuery.drawn (supply : Nat → String) (maxHops : Nat) (query : Sparql.Query) :
    Result (NormalQuery × Nat) := do
  let form ← formOf query.form
  let (modifiers, rest) := outerModifiers .none query.pattern
  let (projected, rest) ← projection form rest
  projected.forM checkName
  let (orderBy, rest) := ordering rest
  let (body, names) ← (pattern supply maxHops none rest).run ⟨0, []⟩
  return (⟨form, .project projected body, projected, { modifiers with orderBy := orderBy }⟩,
    names.paths)

def NormalQuery.ofQuery (maxHops : Nat) (query : Sparql.Query) : Result NormalQuery := do
  let (normal, _) ← drawn pathKey maxHops query
  return normal

end AttestedQuery
