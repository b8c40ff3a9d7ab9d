import AttestedQuery.Octets

/-!
# The curve secp256k1

Points of y² = x³ + 7 over a prime field, in coordinates (X, Y, Z) with x = X/Z² and y = Y/Z³ so
that adding needs no division; Z = 0 is the neutral point. Public keys are points in one of the
standard octet forms.
-/

set_option autoImplicit false

namespace AttestedQuery.Curve

def prime : Nat := Nat.pow 2 256 - Nat.pow 2 32 - 977

/-- The number of points, which is a prime too. -/
def order : Nat := 0xFFFFFFFFFFFFFFFFFFFFFFFFFFFFFFFEBAAEDCE6AF48A03BBFD25E8CD0364141

/-- A power modulo a number, for exponents below 2 to the given number of bits. -/
def powMod (modulus : Nat) : Nat → Nat → Nat → Nat
  | 0, _, _ => 1 % modulus
  | bits + 1, base, exponent =>
    let half := powMod modulus bits (base * base % modulus) (exponent / 2)
    if exponent % 2 = 1 then half * base % modulus else half

/-- The inverse of a nonzero class of a prime modulus of 256 bits. -/
def inverseMod (modulus a : Nat) : Nat :=
  powMod modulus 256 (a % modulus) (modulus - 2)

def sub (a b : Nat) : Nat := (a + (prime - b)) % prime

structure Point where
  x : Nat
  y : Nat
  z : Nat
  deriving DecidableEq, Repr

namespace Point

def neutral : Point := ⟨1, 1, 0⟩

def generator : Point :=
  ⟨0x79BE667EF9DCBBAC55A06295CE870B07029BFCDB2DCE28D959F2815B16F81798,
   0x483ADA7726A3C4655DA4FBFC0E1108A8FD17B448A68554199C47D08FFB10D4B8, 1⟩

def double (p : Point) : Point :=
  if p.z = 0 ∨ p.y = 0 then neutral
  else
    let a := p.x * p.x % prime
    let b := p.y * p.y % prime
    let c := b * b % prime
    let d := 4 * p.x * b % prime
    let e := 3 * a % prime
    let x := sub (e * e % prime) (2 * d % prime)
    let y := sub (e * sub d x % prime) (8 * c % prime)
    ⟨x, y, 2 * p.y * p.z % prime⟩

def add (p q : Point) : Point :=
  if p.z = 0 then q
  else if q.z = 0 then p
  else
    let pz2 := p.z * p.z % prime
    let qz2 := q.z * q.z % prime
    let u1 := p.x * qz2 % prime
    let u2 := q.x * pz2 % prime
    let s1 := p.y * qz2 % prime * q.z % prime
    let s2 := q.y * pz2 % prime * p.z % prime
    if u1 = u2 then (if s1 = s2 then double p else neutral)
    else
      let h := sub u2 u1
      let r := sub s2 s1
      let h2 := h * h % prime
      let h3 := h2 * h % prime
      let v := u1 * h2 % prime
      let x := sub (sub (r * r % prime) h3) (2 * v % prime)
      let y := sub (r * sub v x % prime) (s1 * h3 % prime)
      ⟨x, y, h * p.z % prime * q.z % prime⟩

def multipleBits : Nat → Nat → Point → Point
  | 0, _, _ => neutral
  | bits + 1, scalar, p =>
    let rest := multipleBits bits (scalar / 2) (double p)
    if scalar % 2 = 1 then add rest p else rest

def multiple (scalar : Nat) (p : Point) : Point :=
  multipleBits 256 scalar p

def affine? (p : Point) : Option (Nat × Nat) :=
  if p.z = 0 then none
  else
    let inverse := inverseMod prime p.z
    let inverse2 := inverse * inverse % prime
    some (p.x * inverse2 % prime, p.y * inverse2 % prime * inverse % prime)

def rightSide (x : Nat) : Nat :=
  (x * x % prime * x + 7) % prime

/-- The point with an x coordinate and the parity of its y coordinate, if x lies on the curve. -/
def lift? (x : Nat) (odd : Bool) : Option Point :=
  if prime ≤ x then none
  else
    let square := rightSide x
    let root := powMod prime 256 square ((prime + 1) / 4)
    if root * root % prime ≠ square then none
    else some ⟨x, if (root % 2 == 1) == odd then root else sub 0 root, 1⟩

/-- Reads a point from its octets: compressed with the parity of y, compact with y even, or both
coordinates in full. -/
def ofOctets? (octets : Octets) : Option Point :=
  match octets with
  | [] => none
  | tag :: body =>
    if (tag = 2 ∨ tag = 3) ∧ body.length = 32 then lift? (Octets.bigEndian body) (tag == 3)
    else if tag = 5 ∧ body.length = 32 then lift? (Octets.bigEndian body) false
    else if tag = 4 ∧ body.length = 64 then
      let x := Octets.bigEndian (body.take 32)
      let y := Octets.bigEndian (body.drop 32)
      if x < prime ∧ y < prime ∧ y * y % prime = rightSide x then some ⟨x, y, 1⟩ else none
    else none

def compressed (p : Point) : Octets :=
  match p.affine? with
  | none => [0]
  | some (x, y) => (if y % 2 = 1 then 3 else 2) :: Octets.ofNatBig 32 x

end Point

end AttestedQuery.Curve
