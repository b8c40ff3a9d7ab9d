import AttestedQuery.Digest
import AttestedQuery.Error

/-!
# Hash functions into the field

A hasher maps octet strings, pairs and quadruples of field elements to field elements. The rest
of the library takes it as a parameter. The hashers in use write each element as 32 octets,
least significant first, and reduce the digest, read in the same order, modulo the field's order.
-/

set_option autoImplicit false

namespace AttestedQuery

structure Hasher where
  onOctets : Octets → Field
  pair : Field → Field → Field
  quadruple : Field → Field → Field → Field → Field

namespace Hasher

def onText (h : Hasher) (text : String) : Field :=
  h.onOctets (Octets.ofString text)

def onQuad (h : Hasher) (q : QuadOf Field) : Field :=
  h.quadruple q.subject q.predicate q.object q.graph

end Hasher

def HashSuite.combine : HashSuite → Octets → Octets
  | .blake2s => Digest.blake2s
  | .blake3 => Digest.blake3

def HashSuite.hasher (suite : HashSuite) : Hasher where
  onOctets octets := Field.ofLittleEndian (Digest.blake3 octets)
  pair a b := Field.ofLittleEndian (suite.combine (a.toLittleEndian ++ b.toLittleEndian))
  quadruple a b c d :=
    Field.ofLittleEndian (suite.combine
      (a.toLittleEndian ++ b.toLittleEndian ++ c.toLittleEndian ++ d.toLittleEndian))

end AttestedQuery
