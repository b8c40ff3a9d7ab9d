import AttestedQuery.Constraint.Evaluation
import AttestedQuery.Proofs.Hints

/-!
# What filter expressions mean

The value of an expression over the row that a filter reads. Constraints see terms as encodings, so
equality is that of encodings; and a prover may supply hints that were not derived from the row, so
the meaning is relative to the hints that are wrong. A type test about a key with a wrong hint is
false, and whatever else needs the parts of its literal has no value.
-/

set_option autoImplicit false

namespace AttestedQuery

/-- Hints that a constraint ties to the encoding of their term: all but the order of two strings and
the length of one. -/
def Hint.isTied : Hint → Bool
  | .stringOrder .. | .strLen _ => false
  | _ => true

structure Reading where
  encoder : Encoder
  /-- The terms of the keys that the filter may read. -/
  row : String → Option Term
  /-- The tied hints that do not have the value that the row gives them. -/
  wrong : Hint → Bool
  /-- The values of the other hints. -/
  trusted : Hint → Field

/-- What an expression denotes: a term by its encoding, or a number. It has no value where a guard
does not hold. -/
inductive Meaning where
  | term (code : Option Field) (origin : Origin)
  | number (value : Option Field)
  | error

/-! ## Connectives of three values -/

/-- Conjunction, in which a false part outweighs a missing one. -/
def bothTrue : Option Bool → Option Bool → Option Bool
  | some false, _ => some false
  | _, some false => some false
  | some true, some true => some true
  | _, _ => none

/-- Disjunction, in which a true part outweighs a missing one. -/
def eitherTrue : Option Bool → Option Bool → Option Bool
  | some true, _ => some true
  | _, some true => some true
  | some false, some false => some false
  | _, _ => none

def chosen (c a b : Option Bool) : Option Bool :=
  match c with
  | some true => a
  | some false => b
  | none => none

namespace Reading

variable (r : Reading)

/-! ## Values -/

def parts? (key : String) : Option LiteralParts :=
  if (Hint.parts key).any r.wrong then none
  else
    match r.row key with
    | some (.literal value lang datatype) =>
      (r.encoder.literalParts value lang datatype).toOption
    | _ => none

def textHash? (key : String) : Option Field :=
  match r.row key with
  | some (.iri text) =>
    if r.wrong (.lexicalHash (.key key)) then none else some (r.encoder.hasher.onText text)
  | _ => (r.parts? key).map (·.lexical)

def constant (t : Term) : Meaning := .term (r.encoder.encode t).toOption (.const t)

def simpleCode (lexical : Field) : Field :=
  r.encoder.tagged .literal (r.encoder.combine
    ⟨lexical, lexical, r.encoder.hasher.onText "", r.encoder.encodeIri xsdString⟩)

def typed (parts : LiteralParts) (names : List String) : Bool :=
  names.any fun name => parts.datatype == r.encoder.encodeIri (xsd ++ name)

def strOf (code : Option Field) : Origin → Meaning
  | .const t =>
    match t.lexical? with
    | some lexical => r.constant (.simple lexical)
    | none => .error
  | .key key => .term (code.bind fun _ => (r.textHash? key).map r.simpleCode) .str
  | .str => .term code .str
  | .lang => .term code .lang
  | .datatype => .error

def langOf (code : Option Field) : Origin → Meaning
  | .const (.literal _ lang _) => r.constant (.simple (lang.getD ""))
  | .const _ | .datatype => .error
  | .key key =>
    .term (code.bind fun _ => (r.parts? key).map fun parts => r.simpleCode parts.lang) .lang
  | .str | .lang => r.constant (.simple "")

def datatypeOf (code : Option Field) : Origin → Meaning
  | .const (.literal _ _ datatype) => r.constant (.iri datatype)
  | .const _ | .datatype => .error
  | .key key => .term (code.bind fun _ => (r.parts? key).map (·.datatype)) .datatype
  | .str | .lang => r.constant (.iri xsdString)

def lengthOf (code : Option Field) : Origin → Meaning
  | .const (.literal value _ _) => .number (some (Field.ofNat value.length))
  | .key key =>
    .number (code.bind fun _ => (r.parts? key).map fun _ => r.trusted (.strLen (.key key)))
  | .const _ | .datatype | .str | .lang => .error

def callOf (builtin : Builtin) : Meaning → Meaning
  | .error | .number _ => .error
  | .term code origin =>
    match builtin with
    | .str => r.strOf code origin
    | .lang => r.langOf code origin
    | .datatype => r.datatypeOf code origin
    | .strLen => r.lengthOf code origin
    | .isIri | .isBlank | .isLiteral | .isNumeric => .error

def meaning : Expr → Meaning
  | .const t => r.constant t
  | .var key =>
    match r.row key with
    | some t => .term (r.encoder.encode t).toOption (.key key)
    | none => .error
  | .call builtin argument => r.callOf builtin (meaning argument)
  | _ => .error

/-! ## Tests -/

def truthOf : Meaning → Option Bool
  | .error => none
  | .number value => value.map fun x => !(x == Field.zero)
  | .term code origin =>
    match origin with
    | .const t => Constant.truth? t
    | .key key => code.bind fun _ => (r.parts? key).bind fun parts =>
        if r.typed parts ["boolean"] then some (parts.special == Field.ofNat 1) else none
    | .str | .lang => code.bind fun code =>
        (r.encoder.encode (.simple "")).toOption.map fun empty => !(code == empty)
    | .datatype => none

def kindTest (kind : TermKind) : Meaning → Option Bool
  | .error => none
  | .number value => value.map fun _ => kind == .literal
  | .term code origin => code.map fun _ =>
    match origin with
    | .const t => t.kind == kind
    | .str | .lang => kind == .literal
    | .datatype => kind == .iri
    | .key key => !(r.wrong (.termInner (.key key))) && (r.row key).any (·.kind == kind)

def numericTest : Meaning → Option Bool
  | .error => none
  | .number value => value.map fun _ => true
  | .term code origin => code.map fun _ =>
    match origin with
    | .const (.literal _ _ datatype) => isXsdType numericTypes datatype
    | .const _ | .str | .lang | .datatype => false
    | .key key => (r.parts? key).any (r.typed · numericTypes)

def numberEquals (number code : Option Field) : Origin → Option Bool
  | .const t =>
    match Constant.integer? t with
    | some n => number.bind fun number => code.map fun _ => number == Field.ofInt n
    | none => none
  | .key key => number.bind fun number => code.bind fun _ => (r.parts? key).bind fun parts =>
      if r.typed parts integerTypes then some (number == parts.special) else none
  | .str | .lang | .datatype => none

def equality (sameTerm : Bool) : Meaning → Meaning → Option Bool
  | .error, _ | _, .error => none
  | .term x originX, .term y originY =>
    match originX, originY with
    | .const t, .const u => x.bind fun _ => y.map fun _ =>
        if sameTerm then t == u else Constant.equal t u
    | _, _ => x.bind fun x => y.map fun y => x == y
  | .number x, .number y => x.bind fun x => y.map fun y => x == y
  | .number n, .term code origin | .term code origin, .number n => r.numberEquals n code origin

/-- The space of values that one side of a comparison decides for both. -/
def spaceOf? : Meaning → Option ValueSpace
  | .term _ (.const t) =>
    (Constant.plain? t).bind fun (_, datatype) => ValueSpace.ofDatatype? datatype
  | .term _ .str | .term _ .lang => some .string
  | .number _ => some .numeric
  | _ => none

def ordinal (space : ValueSpace) : Meaning → Option Field
  | .error => none
  | .number value => if space = .numeric then value else none
  | .term code origin =>
    match origin with
    | .const t => code.bind fun _ => (Constant.ordinal? space t).toOption.join
    | .key key => code.bind fun _ => (r.parts? key).bind fun parts =>
        if r.typed parts space.comparedTypes then some parts.special else none
    | .str | .lang | .datatype => none

def stringOperand : Meaning → Option Operand
  | .term code origin =>
    match origin with
    | .const t => code.bind fun _ =>
        if (Constant.plain? t).any fun (_, datatype) =>
            ValueSpace.ofDatatype? datatype == some .string
          then some (.term t) else none
    | .key key => code.bind fun _ => (r.parts? key).bind fun parts =>
        if r.typed parts ValueSpace.string.comparedTypes then some (.key key) else none
    | .str | .lang | .datatype => none
  | .number _ | .error => none

def acceptsOrder (op : CompareOp) (order : Field) : Bool :=
  match op with
  | .lt => order == Field.ofInt (-1)
  | .le => order == Field.ofInt (-1) || order == Field.ofInt 0
  | .gt => order == Field.ofInt 1
  | .ge => order == Field.ofInt 1 || order == Field.ofInt 0

def stringOrder (op : CompareOp) (a b : Meaning) : Option Bool :=
  (r.stringOperand a).bind fun left => (r.stringOperand b).map fun right =>
    acceptsOrder op (r.trusted (.stringOrder left right))

def numberOrder (op : CompareOp) (space : ValueSpace) (a b : Meaning) : Option Bool :=
  (r.ordinal space a).bind fun left => (r.ordinal space b).map fun right =>
    View.compares op left right

def comparison (op : CompareOp) : Meaning → Meaning → Option Bool
  | .term _ (.const t), .term _ (.const u) => Constant.compare? op t u
  | a, b =>
    match (spaceOf? a <|> spaceOf? b).getD .numeric with
    | .string => r.stringOrder op a b
    | space => r.numberOrder op space a b

def ordered (op : CompareOp) (a b : Meaning) : Option Bool :=
  match (spaceOf? a <|> spaceOf? b).getD .numeric with
  | .string => r.stringOrder op a b
  | space => r.numberOrder op space a b

/-- Whether an expression is true; none where it has no value. -/
def outcome : Expr → Option Bool
  | .and a b => bothTrue (outcome a) (outcome b)
  | .or a b => eitherTrue (outcome a) (outcome b)
  | .not a => (outcome a).map (!·)
  | .ite c a b => chosen (outcome c) (outcome a) (outcome b)
  | .bound key => some (r.row key).isSome
  | .equal a b => r.equality false (r.meaning a) (r.meaning b)
  | .sameTerm a b => r.equality true (r.meaning a) (r.meaning b)
  | .isIn needle items => items.foldl
      (fun found item => eitherTrue found (r.equality false (r.meaning needle) (r.meaning item)))
      (some false)
  | .compare op a b => r.comparison op (r.meaning a) (r.meaning b)
  | .call .isIri argument => r.kindTest .iri (r.meaning argument)
  | .call .isBlank argument => r.kindTest .blank (r.meaning argument)
  | .call .isLiteral argument => r.kindTest .literal (r.meaning argument)
  | .call .isNumeric argument => r.numericTest (r.meaning argument)
  | other => r.truthOf (r.meaning other)

end Reading

end AttestedQuery
