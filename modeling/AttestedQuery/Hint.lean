import AttestedQuery.Encoder
import AttestedQuery.KeyMap

/-!
# Hints

Values that the prover supplies beside the public ones, each derived from a term of the row. The
four parts of a literal are always tied to its encoding by a constraint; the order of two strings
and the length of one are taken on trust.

A hint about a term of the wrong kind is zero: every use of it stands beside a constraint that
such a term does not meet.
-/

set_option autoImplicit false

namespace AttestedQuery

inductive Operand where
  /-- The term bound to a key. -/
  | key (key : String)
  | term (term : Term)
  deriving DecidableEq

inductive Hint where
  | lexicalHash (operand : Operand)
  | specialValue (operand : Operand)
  | langHash (operand : Operand)
  | datatypeEncoding (operand : Operand)
  /-- The value below the kind of the term. -/
  | termInner (operand : Operand)
  /-- The order of two lexical forms by code points: -1, 0 or 1. -/
  | stringOrder (left right : Operand)
  /-- The number of characters of the lexical form. -/
  | strLen (operand : Operand)
  deriving DecidableEq

abbrev Row := KeyMap Term

namespace Hint

def kind : Hint → String
  | .lexicalHash _ => "lexical_hash"
  | .specialValue _ => "special_value"
  | .langHash _ => "lang_hash"
  | .datatypeEncoding _ => "datatype_encoding"
  | .termInner _ => "term_inner"
  | .stringOrder .. => "string_order"
  | .strLen _ => "str_len"

def termOf (row : Row) : Operand → Except HintFault Term
  | .term t => .ok t
  | .key key =>
    match row.get? key with
    | some t => .ok t
    | none => .error (.unbound key)

/-- A result of the encoder, whose only fault is a literal that is too long. -/
def ofEncoder {α : Type} (e : Encoder) (t : Term) : Result α → Except HintFault α
  | .ok a => .ok a
  | .error (.literalTooLong length limit) => .error (.tooLong length limit)
  | .error _ => .error (.tooLong (t.lexical?.getD "").utf8ByteSize e.maxLiteralBytes)

def literalPart (e : Encoder) (part : LiteralParts → Field) (t : Term) : Except HintFault Field :=
  match t with
  | .literal value lang datatype => (ofEncoder e t (e.literalParts value lang datatype)).map part
  | _ => .ok Field.zero

/-- The sign of the order of two texts by code points. -/
def orderOf (left right : String) : Field :=
  if left < right then Field.ofInt (-1)
  else if left = right then Field.zero
  else Field.ofNat 1

def value (e : Encoder) (row : Row) : Hint → Except HintFault Field
  | .lexicalHash operand => do
    let t ← termOf row operand
    return (t.lexical?.map e.hasher.onText).getD Field.zero
  | .specialValue operand => do literalPart e (·.special) (← termOf row operand)
  | .langHash operand => do literalPart e (·.lang) (← termOf row operand)
  | .datatypeEncoding operand => do literalPart e (·.datatype) (← termOf row operand)
  | .termInner operand => do
    let t ← termOf row operand
    ofEncoder e t (e.inner t)
  | .stringOrder left right => do
    let left ← termOf row left
    let right ← termOf row right
    return match left.lexical?, right.lexical? with
      | some l, some r => orderOf l r
      | _, _ => Field.zero
  | .strLen operand => do
    let t ← termOf row operand
    return (t.lexical?.map fun lexical => Field.ofNat lexical.length).getD Field.zero

def compute (e : Encoder) (row : Row) (index : Nat) (hint : Hint) : Result Field :=
  match hint.value e row with
  | .ok x => .ok x
  | .error fault => .error (.hint index hint.kind fault)

def computeAll (e : Encoder) (hints : List Hint) (row : Row) (used : List Nat) :
    Result (List Field) :=
  used.foldlM
    (fun values index =>
      match hints[index]? with
      | none => .error (.hint index "unknown" .outOfRange)
      | some hint => (hint.compute e row index).map fun x => values.set index x)
    (List.replicate hints.length Field.zero)

end Hint

end AttestedQuery
