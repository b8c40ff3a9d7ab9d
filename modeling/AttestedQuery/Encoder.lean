import AttestedQuery.Literal.Special

/-!
# Encoding terms as field elements

A term is encoded as the hash of its kind's number and a value below it: for a literal the hash of
four parts, for any other term the hash of its text. The lexical form of a literal is limited in
length; nothing else is.
-/

set_option autoImplicit false

namespace AttestedQuery

structure LiteralParts where
  lexical : Field
  special : Field
  lang : Field
  datatype : Field
  deriving DecidableEq

structure Encoder where
  hasher : Hasher
  /-- The most octets a lexical form may have. -/
  maxLiteralBytes : Nat

namespace Encoder

variable (e : Encoder)

def tagged (kind : TermKind) (inner : Field) : Field :=
  e.hasher.pair (Field.ofNat kind.code) inner

def encodeIri (text : String) : Field :=
  e.tagged .iri (e.hasher.onText text)

/-- The four parts of a literal. A missing language tag counts as the empty one. -/
def literalParts (value : String) (lang : Option String) (datatype : String) :
    Result LiteralParts :=
  if value.utf8ByteSize > e.maxLiteralBytes then
    .error (.literalTooLong value.utf8ByteSize e.maxLiteralBytes)
  else
    .ok {
      lexical := e.hasher.onText value
      special := (Special.ofLiteral value datatype).toField e.hasher value
      lang := e.hasher.onText (lang.getD "")
      datatype := e.encodeIri datatype }

def combine (parts : LiteralParts) : Field :=
  e.hasher.quadruple parts.lexical parts.special parts.lang parts.datatype

def inner : Term → Result Field
  | .iri text => .ok (e.hasher.onText text)
  | .blank label => .ok (e.hasher.onText ("_:" ++ label))
  | .literal value lang datatype => (e.literalParts value lang datatype).map e.combine
  | .var name => .ok (e.hasher.onText name)
  | .defaultGraph => .ok (e.hasher.onText "")

def encode (t : Term) : Result Field :=
  (e.inner t).map (e.tagged t.kind)

def encodeQuad (q : Quad) : Result (QuadOf Field) :=
  q.mapM e.encode

def leaf (q : QuadOf Field) : Field :=
  e.hasher.onQuad q

end Encoder

end AttestedQuery
