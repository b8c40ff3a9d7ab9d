import AttestedQuery.Program
import AttestedQuery.Program.Condition
import AttestedQuery.Program.Constant

/-!
# Conditions of filter expressions

An expression becomes a condition over wires. What a constraint cannot compute from the encoding of
a term, the prover supplies as a hint, and a guard ties the hint to the encoding. Comparisons of
constants are decided at once.
-/

set_option autoImplicit false

namespace AttestedQuery

/-- Compiling with a growing list of hints, in which no hint occurs twice. -/
abbrev Compiling := StateT (List Hint) (Except Error)

structure Surroundings where
  encoder : Encoder
  projected : List String
  /-- Where the value of each bound key is. -/
  sources : KeyMap Wire
  /-- The keys that the filter may read. -/
  visible : KeySet

inductive Origin where
  | key (key : String)
  | const (term : Term)
  /-- A simple literal given by STR. -/
  | str
  /-- A simple literal given by LANG. -/
  | lang
  /-- An IRI given by DATATYPE. -/
  | datatype

inductive Value where
  | term (wire : Wire) (origin : Origin)
  /-- A number that is no term. -/
  | number (wire : Wire)
  /-- A type error in every row. -/
  | error

structure Guarded where
  guards : List Assertion
  value : Value

namespace Guarded

def ofTerm (wire : Wire) (origin : Origin) : Guarded := ⟨[], .term wire origin⟩

def error : Guarded := ⟨[], .error⟩

end Guarded

/-- The hints about the four parts of a literal, and the assertion that they are its parts. -/
structure Parts where
  lexical : Wire
  special : Wire
  lang : Wire
  datatype : Wire
  tie : Assertion

namespace Compiling

def refuse {α : Type} (construct : Construct) : Compiling α :=
  throw (.unsupported construct)

def hint (h : Hint) : Compiling Wire := do
  let hints ← get
  if hints.contains h then return .hint (hints.idxOf h)
  else
    set (hints ++ [h])
    return .hint hints.length

def taggedWire (kind : TermKind) (inner : Wire) : Wire := .hash2 (.ofNat kind.code) inner

def literalParts (key : String) (wire : Wire) : Compiling Parts := do
  let operand := Operand.key key
  let lexical ← hint (.lexicalHash operand)
  let special ← hint (.specialValue operand)
  let lang ← hint (.langHash operand)
  let datatype ← hint (.datatypeEncoding operand)
  return {
    lexical := lexical
    special := special
    lang := lang
    datatype := datatype
    tie := .eq wire (taggedWire .literal (.hash4 lexical special lang datatype)) }

end Compiling

open Compiling

def Expr.kind : Expr → String
  | .const _ => "a constant"
  | .var _ => "a variable"
  | .equal .. | .sameTerm .. | .isIn .. => "an equality test"
  | .compare .. => "a comparison"
  | .and .. | .or .. | .not _ => "a boolean connective"
  | .ite .. => "IF"
  | .bound _ => "BOUND"
  | .call .. => "a function call"

namespace Surroundings

variable (s : Surroundings)

/-- The wire of a key where it is visible and bound. Projected keys are read from their public
value. -/
def keyWire? (key : String) : Option Wire :=
  if s.visible.contains key then
    (s.sources.get? key).map fun source =>
      if s.projected.contains key then .variable key else source
  else none

def constant (t : Term) : Compiling Guarded := do
  return .ofTerm (.const (← (s.encoder.encode t : Result Field))) (.const t)

def simpleWire (lexical : Wire) : Wire :=
  taggedWire .literal
    (.hash4 lexical lexical (.const (s.encoder.hasher.onText ""))
      (.const (s.encoder.encodeIri xsdString)))

def datatypeIn (parts : Parts) (names : List String) : Assertion :=
  .any (names.map fun name => .eq parts.datatype (.const (s.encoder.encodeIri (xsd ++ name))))

/-! ## Values -/

def strOf (wire : Wire) (guards : List Assertion) : Origin → Compiling Guarded
  | .const t =>
    match t.lexical? with
    | some lexical => s.constant (.simple lexical)
    | none => return .error
  | .key key => do
    let parts ← literalParts key wire
    let iri := Assertion.eq wire (taggedWire .iri parts.lexical)
    return ⟨guards ++ [.any [iri, parts.tie]], .term (s.simpleWire parts.lexical) .str⟩
  | .str => return ⟨guards, .term wire .str⟩
  | .lang => return ⟨guards, .term wire .lang⟩
  | .datatype => refuse .textOfDatatype

def langOf (wire : Wire) (guards : List Assertion) : Origin → Compiling Guarded
  | .const (.literal _ lang _) => s.constant (.simple (lang.getD ""))
  | .const _ | .datatype => return .error
  | .key key => do
    let parts ← literalParts key wire
    return ⟨guards ++ [parts.tie], .term (s.simpleWire parts.lang) .lang⟩
  | .str | .lang => s.constant (.simple "")

def datatypeOf (wire : Wire) (guards : List Assertion) : Origin → Compiling Guarded
  | .const (.literal _ _ datatype) => s.constant (.iri datatype)
  | .const _ | .datatype => return .error
  | .key key => do
    let parts ← literalParts key wire
    return ⟨guards ++ [parts.tie], .term parts.datatype .datatype⟩
  | .str | .lang => s.constant (.iri xsdString)

def lengthOf (wire : Wire) (guards : List Assertion) : Origin → Compiling Guarded
  | .const (.literal value _ _) => return ⟨[], .number (.ofNat value.length)⟩
  | .const _ | .datatype => return .error
  | .key key => do
    let parts ← literalParts key wire
    let length ← hint (.strLen (.key key))
    return ⟨guards ++ [parts.tie], .number length⟩
  | .str | .lang => refuse .lengthOfComputed

def callOf (builtin : Builtin) (argument : Guarded) : Compiling Guarded :=
  match argument.value with
  | .error => return .error
  | .number _ => refuse (.ofNumber builtin)
  | .term wire origin =>
    match builtin with
    | .str => s.strOf wire argument.guards origin
    | .lang => s.langOf wire argument.guards origin
    | .datatype => s.datatypeOf wire argument.guards origin
    | .strLen => lengthOf wire argument.guards origin
    | .isIri | .isBlank | .isLiteral | .isNumeric => refuse (.asValue builtin.name)

def value : Expr → Compiling Guarded
  | .const t => s.constant t
  | .var key =>
    return match s.keyWire? key with
      | some wire => .ofTerm wire (.key key)
      | none => .error
  | .call builtin argument => do s.callOf builtin (← value argument)
  | other => refuse (.asValue other.kind)

/-! ## Tests -/

def guardedBy (guards : List Assertion) (value : Assertion) : Condition := ⟨.all guards, value⟩

def truthOf (argument : Guarded) : Compiling Condition :=
  match argument.value with
  | .error => return .error
  | .number wire => return guardedBy argument.guards (.negated (.eq wire (.const Field.zero)))
  | .term wire origin =>
    match origin with
    | .const t =>
      return match Constant.truth? t with
        | some b => .ofBool b
        | none => .error
    | .key key => do
      let parts ← literalParts key wire
      return guardedBy (argument.guards ++ [parts.tie, s.datatypeIn parts ["boolean"]])
        (.eq parts.special (.ofNat 1))
    | .str | .lang => do
      let empty ← (s.encoder.encode (.simple "") : Result Field)
      return guardedBy argument.guards (.negated (.eq wire (.const empty)))
    | .datatype => return .error

def kindTest (kind : TermKind) (argument : Guarded) : Compiling Condition :=
  match argument.value with
  | .error => return .error
  | .number _ => return guardedBy argument.guards (.ofBool (kind == .literal))
  | .term wire origin => do
    let value ← match origin with
      | .const t => pure (Assertion.ofBool (t.kind == kind))
      | .str | .lang => pure (.ofBool (kind == .literal))
      | .datatype => pure (.ofBool (kind == .iri))
      | .key key => do
        let inner ← hint (.termInner (.key key))
        pure (.eq wire (taggedWire kind inner))
    return guardedBy argument.guards value

def numericTest (argument : Guarded) : Compiling Condition :=
  match argument.value with
  | .error => return .error
  | .number _ => return guardedBy argument.guards .true
  | .term wire origin => do
    let value ← match origin with
      | .const (.literal _ _ datatype) =>
        pure (Assertion.ofBool (isXsdType numericTypes datatype))
      | .const _ | .str | .lang | .datatype => pure .false
      | .key key => do
        let parts ← literalParts key wire
        pure (.all [parts.tie, s.datatypeIn parts numericTypes])
    return guardedBy argument.guards value

def numberEquals (guards : List Assertion) (number wire : Wire) (origin : Origin) :
    Compiling Condition :=
  match origin with
  | .const t =>
    return match Constant.integer? t with
      | some n => guardedBy guards (.eq number (.const (Field.ofInt n)))
      | none => .error
  | .key key => do
    let parts ← literalParts key wire
    return guardedBy (guards ++ [parts.tie, s.datatypeIn parts integerTypes])
      (.eq number parts.special)
  | .str | .lang | .datatype => return .error

def equality (sameTerm : Bool) (a b : Guarded) : Compiling Condition :=
  let guards := a.guards ++ b.guards
  match a.value, b.value with
  | .error, _ | _, .error => return .error
  | .term x originX, .term y originY =>
    match originX, originY with
    | .const t, .const u =>
      return guardedBy guards (.ofBool (if sameTerm then t == u else Constant.equal t u))
    | _, _ => return guardedBy guards (.eq x y)
  | .number x, .number y => return guardedBy guards (.eq x y)
  | .number n, .term wire origin | .term wire origin, .number n =>
    s.numberEquals guards n wire origin

/-- The space of values that one side of a comparison decides for both. -/
def spaceOf? : Value → Option ValueSpace
  | .term _ (.const t) => (Constant.plain? t).bind fun (_, datatype) => ValueSpace.ofDatatype? datatype
  | .term _ .str | .term _ .lang => some .string
  | .number _ => some .numeric
  | _ => none

def ordinal (space : ValueSpace) : Value → Compiling (Option Wire × List Assertion)
  | .error => return (none, [])
  | .number wire => return (if space = .numeric then some wire else none, [])
  | .term wire origin =>
    match origin with
    | .const t => do
      let ordinal ← (Constant.ordinal? space t : Result (Option Field))
      return (ordinal.map Wire.const, [])
    | .key key => do
      let parts ← literalParts key wire
      return (some parts.special, [parts.tie, s.datatypeIn parts space.comparedTypes])
    | .str | .lang | .datatype => return (none, [])

def stringOperand : Value → Compiling (Option Operand × List Assertion)
  | .term wire origin =>
    match origin with
    | .const t =>
      return (if (Constant.plain? t).any fun (_, datatype) =>
          ValueSpace.ofDatatype? datatype == some .string
        then some (.term t) else none, [])
    | .key key => do
      let parts ← literalParts key wire
      return (some (.key key), [parts.tie, s.datatypeIn parts ValueSpace.string.comparedTypes])
    | .str | .lang => refuse .orderOfComputed
    | .datatype => return (none, [])
  | .number _ | .error => return (none, [])

def acceptedOrders (op : CompareOp) (order : Wire) : Assertion :=
  let is (n : Int) := Assertion.eq order (.const (Field.ofInt n))
  match op with
  | .lt => is (-1)
  | .le => .any [is (-1), is 0]
  | .gt => is 1
  | .ge => .any [is 1, is 0]

def stringOrder (op : CompareOp) (guards : List Assertion) (a b : Value) : Compiling Condition := do
  let (left, leftGuards) ← s.stringOperand a
  let (right, rightGuards) ← s.stringOperand b
  match left, right with
  | some left, some right =>
    let order ← hint (.stringOrder left right)
    return guardedBy (guards ++ leftGuards ++ rightGuards) (acceptedOrders op order)
  | _, _ => return .error

def numberOrder (op : CompareOp) (space : ValueSpace) (guards : List Assertion) (a b : Value) :
    Compiling Condition := do
  let (left, leftGuards) ← s.ordinal space a
  let (right, rightGuards) ← s.ordinal space b
  match left, right with
  | some left, some right =>
    return guardedBy (guards ++ leftGuards ++ rightGuards) (.compare op left right)
  | _, _ => return .error

/-- Whether two values compare. The first side that decides a space decides it for both; where
neither does, values compare as numbers. -/
def comparison (op : CompareOp) (a b : Guarded) : Compiling Condition :=
  match a.value, b.value with
  | .term _ (.const t), .term _ (.const u) =>
    return match Constant.compare? op t u with
      | some holds => .ofBool holds
      | none => .error
  | x, y =>
    let guards := a.guards ++ b.guards
    match (spaceOf? x <|> spaceOf? y).getD .numeric with
    | .string => s.stringOrder op guards x y
    | space => s.numberOrder op space guards x y

/-! ## Conditions -/

def condition : Expr → Compiling Condition
  | .and a b => do
    let a ← condition a
    return a.both (← condition b)
  | .or a b => do
    let a ← condition a
    return a.either (← condition b)
  | .not a => return (← condition a).negated
  | .ite c a b => do
    let c ← condition c
    let a ← condition a
    return c.choose a (← condition b)
  | .bound key => return .ofBool (s.keyWire? key).isSome
  | .equal a b => do
    let a ← s.value a
    s.equality false a (← s.value b)
  | .sameTerm a b => do
    let a ← s.value a
    s.equality true a (← s.value b)
  | .isIn needle items =>
    items.foldlM (fun found item => do
        let needle ← s.value needle
        return found.either (← s.equality false needle (← s.value item)))
      (.ofBool false)
  | .compare op a b => do
    let a ← s.value a
    s.comparison op a (← s.value b)
  | .call .isIri argument => do kindTest .iri (← s.value argument)
  | .call .isBlank argument => do kindTest .blank (← s.value argument)
  | .call .isLiteral argument => do kindTest .literal (← s.value argument)
  | .call .isNumeric argument => do s.numericTest (← s.value argument)
  | other => do s.truthOf (← s.value other)

end Surroundings

end AttestedQuery
