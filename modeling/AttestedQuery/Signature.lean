import AttestedQuery.Curve.Secp256k1
import AttestedQuery.Digest
import AttestedQuery.Error

/-!
# Signatures over the root of a dataset

ECDSA on secp256k1 over the SHA-256 digest of the message. The nonce is derived from the key and
the digest, so that signing is a function; the larger of the two possible values of `s` is neither
produced nor accepted. A signature is `r` and `s` in 32 octets each.
-/

set_option autoImplicit false

namespace AttestedQuery

/-- The schemes under which a dataset may be signed. -/
inductive Scheme where
  | secp256k1Ecdsa
  deriving DecidableEq, Repr, Inhabited

def Scheme.name : Scheme → String
  | .secp256k1Ecdsa => "secp256k1_ecdsa"

structure Signer where
  scheme : Scheme
  publicKey : Octets
  sign : Octets → Result Octets

namespace Ecdsa

open Curve

def digestNumber (message : Octets) : Nat :=
  Octets.bigEndian (Digest.sha256 message) % order

/-- One refresh of the generator's key and value with more input. -/
def refresh (state : Octets × Octets) (input : Octets) : Octets × Octets :=
  let key := Digest.hmacSha256 state.1 (state.2 ++ input)
  (key, Digest.hmacSha256 key state.2)

def generatorState (secret digest : Octets) : Octets × Octets :=
  let start := (List.replicate 32 (0 : UInt8), List.replicate 32 (1 : UInt8))
  refresh (refresh start (0 :: secret ++ digest)) (1 :: secret ++ digest)

/-- The first nonce in range that the generator gives, within a number of attempts. -/
def nonceFrom : Nat → Octets × Octets → Option Nat
  | 0, _ => none
  | attempts + 1, (key, value) =>
    let candidate := Digest.hmacSha256 key value
    let nonce := Octets.bigEndian candidate
    if 0 < nonce ∧ nonce < order then some nonce
    else nonceFrom attempts (refresh (key, candidate) [0])

def sign? (secret : Nat) (message : Octets) : Option Octets := do
  let digest := digestNumber message
  let state := generatorState (Octets.ofNatBig 32 secret) (Octets.ofNatBig 32 digest)
  let nonce ← nonceFrom 256 state
  let (x, _) ← (Point.generator.multiple nonce).affine?
  let r := x % order
  let s := inverseMod order nonce * (digest + r * secret) % order
  if r = 0 ∨ s = 0 then none
  else some (Octets.ofNatBig 32 r ++ Octets.ofNatBig 32 (if order / 2 < s then order - s else s))

def verifies (key : Point) (message signature : Octets) : Bool :=
  let r := Octets.bigEndian (signature.take 32)
  let s := Octets.bigEndian (signature.drop 32)
  if signature.length = 64 ∧ 0 < r ∧ r < order ∧ 0 < s ∧ s ≤ order / 2 then
    let inverse := inverseMod order s
    let left := Point.generator.multiple (digestNumber message * inverse % order)
    let right := key.multiple (r * inverse % order)
    match (left.add right).affine? with
    | some (x, _) => x % order == r
    | none => false
  else false

end Ecdsa

def Scheme.verifies : Scheme → Octets → Octets → Octets → Bool
  | .secp256k1Ecdsa, publicKey, message, signature =>
    match Curve.Point.ofOctets? publicKey with
    | some point => Ecdsa.verifies point message signature
    | none => false

def Scheme.coordinates : Scheme → Octets → Result (Octets × Octets)
  | .secp256k1Ecdsa, publicKey =>
    match Curve.Point.ofOctets? publicKey >>= Curve.Point.affine? with
    | some (x, y) => .ok (Octets.ofNatBig 32 x, Octets.ofNatBig 32 y)
    | none => .error (.signature .badPublicKey)

namespace Signer

/-- The signer with a secret of 24 to 32 octets, most significant first, that is neither zero nor
beyond the order of the curve. -/
def ofSecret (octets : Octets) : Result Signer :=
  let secret := Octets.bigEndian octets
  if 24 ≤ octets.length ∧ octets.length ≤ 32 ∧ 0 < secret ∧ secret < Curve.order then
    .ok {
      scheme := .secp256k1Ecdsa
      publicKey := (Curve.Point.generator.multiple secret).compressed
      sign := fun message =>
        match Ecdsa.sign? secret message with
        | some signature => .ok signature
        | none => .error (.signature .badSecret) }
  else .error (.signature .badSecret)

def octetsOfHex (text : String) : Result Octets :=
  match Hex.toOctets text with
  | .ok octets => .ok octets
  | .error fault => .error (.signature (.badHex fault))

def withoutMarks (text : List Char) : String :=
  String.ofList (Field.dropMarks text)

/-- The signer with a secret in hexadecimal; white space around it and leading `0x` are dropped. -/
def ofHex (text : String) : Result Signer := do
  ofSecret (← octetsOfHex (withoutMarks (Text.trim text.toList)))

def ofSeed (seed : Octets) : Result Signer :=
  ofSecret (Digest.blake3 seed)

end Signer

end AttestedQuery
