import AttestedQuery.Commitment
import AttestedQuery.Config
import AttestedQuery.Signature

/-!
# Signed datasets

Quads, their encodings, the opening of each in the commitment tree, and the signature over the
root. The entries of the three lists at one index belong together.
-/

set_option autoImplicit false

namespace AttestedQuery

structure Dataset where
  depth : Nat
  root : Field
  /-- The signature in hexadecimal. -/
  signature : String
  /-- The compressed public key in hexadecimal. -/
  publicKey : String
  scheme : Scheme
  hashSuite : HashSuite
  quads : List Quad
  encoded : List (QuadOf Field)
  openings : List Opening
  deriving DecidableEq

namespace Dataset

def sign (quads : List Quad) (config : Config) (signer : Signer) : Result Dataset := do
  config.validate
  let encoder := config.encoder
  let encoded ← quads.mapM encoder.encodeQuad
  let tree ← Commitment.Tree.build encoder.hasher config.treeDepth (encoded.map encoder.leaf)
  let signature ← signer.sign tree.root.toBigEndian
  return {
    depth := config.treeDepth
    root := tree.root
    signature := Hex.ofOctets signature
    publicKey := Hex.ofOctets signer.publicKey
    scheme := signer.scheme
    hashSuite := config.hashSuite
    quads := quads
    encoded := encoded
    openings := (List.range tree.size).filterMap tree.opening? }

def checkCompatible (d : Dataset) (config : Config) : Result Unit :=
  if d.hashSuite ≠ config.hashSuite then
    .error (.config (.suites d.hashSuite config.hashSuite))
  else if d.depth ≠ config.treeDepth then
    .error (.config (.depths d.depth config.treeDepth))
  else if d.encoded.length ≠ d.quads.length ∨ d.openings.length ≠ d.quads.length then
    .error (.config .lengths)
  else .ok ()

def checkQuad (encoder : Encoder) (root : Field) (index : Nat) (quad : Quad)
    (encoded : QuadOf Field) (opening : Opening) : Result Unit := do
  let derived ← encoder.encodeQuad quad
  if derived ≠ encoded then .error (.signature (.encodingOfQuad index))
  else if opening.verifies encoder.hasher (encoder.leaf derived) root then return ()
  else .error (.signature (.openingOfQuad index))

def checkQuads (encoder : Encoder) (root : Field) :
    Nat → List Quad → List (QuadOf Field) → List Opening → Result Unit
  | index, quad :: quads, encoded :: rows, opening :: openings => do
    checkQuad encoder root index quad encoded opening
    checkQuads encoder root (index + 1) quads rows openings
  | _, _, _, _ => .ok ()

/-- Checks that a dataset is what signing under a configuration gives: it fits the configuration,
every quad is encoded and opened rightly, and the signature covers the root. -/
def verifyIntegrity (d : Dataset) (config : Config) : Result Unit := do
  d.checkCompatible config
  checkQuads config.encoder d.root 0 d.quads d.encoded d.openings
  let publicKey ← Signer.octetsOfHex d.publicKey
  let signature ← Signer.octetsOfHex d.signature
  if d.scheme.verifies publicKey d.root.toBigEndian signature then return ()
  else .error (.signature .root)

end Dataset

end AttestedQuery
