import AttestedQuery.Octets

/-!
# The hash functions

BLAKE2s with a digest of 32 octets and no key, BLAKE3 in its plain hashing mode with a digest of 32
octets, SHA-256, and the keyed hash HMAC over it. They share their initial words, and the two
BLAKE functions their mixing step.
-/

set_option autoImplicit false

namespace AttestedQuery.Digest

def rotateRight (word amount : UInt32) : UInt32 :=
  (word >>> amount) ||| (word <<< (32 - amount))

/-- The eight initial words shared by SHA-256, BLAKE2s and BLAKE3. -/
def initialWords : Vector UInt32 8 :=
  #v[0x6A09E667, 0xBB67AE85, 0x3C6EF372, 0xA54FF53A, 0x510E527F, 0x9B05688C, 0x1F83D9AB, 0x5BE0CD19]

/-- One quarter round on four words of the working state, with two message words. -/
def mix (v : Vector UInt32 16) (a b c d : Fin 16) (x y : UInt32) : Vector UInt32 16 :=
  let a1 := v[a] + v[b] + x
  let d1 := rotateRight (v[d] ^^^ a1) 16
  let c1 := v[c] + d1
  let b1 := rotateRight (v[b] ^^^ c1) 12
  let a2 := a1 + b1 + y
  let d2 := rotateRight (d1 ^^^ a2) 8
  let c2 := c1 + d2
  let b2 := rotateRight (b1 ^^^ c2) 7
  (((v.set a a2).set b b2).set c c2).set d d2

/-- Four column steps and four diagonal steps, with the message words in the given order. -/
def mixRound (message : Vector UInt32 16) (order : Vector (Fin 16) 16) (v : Vector UInt32 16) :
    Vector UInt32 16 :=
  let v := mix v 0 4 8 12 message[order[0]] message[order[1]]
  let v := mix v 1 5 9 13 message[order[2]] message[order[3]]
  let v := mix v 2 6 10 14 message[order[4]] message[order[5]]
  let v := mix v 3 7 11 15 message[order[6]] message[order[7]]
  let v := mix v 0 5 10 15 message[order[8]] message[order[9]]
  let v := mix v 1 6 11 12 message[order[10]] message[order[11]]
  let v := mix v 2 7 8 13 message[order[12]] message[order[13]]
  mix v 3 4 9 14 message[order[14]] message[order[15]]

def wordsOctets (words : Vector UInt32 8) : Octets :=
  words.toList.flatMap fun word => Octets.ofNatLittle 4 word.toNat

namespace Blake2s

/-- The order in which each of the ten rounds takes the message words. -/
def orders : List (Vector (Fin 16) 16) :=
  [#v[0, 1, 2, 3, 4, 5, 6, 7, 8, 9, 10, 11, 12, 13, 14, 15],
   #v[14, 10, 4, 8, 9, 15, 13, 6, 1, 12, 0, 2, 11, 7, 5, 3],
   #v[11, 8, 12, 0, 5, 2, 15, 13, 10, 14, 3, 6, 7, 1, 9, 4],
   #v[7, 9, 3, 1, 13, 12, 11, 14, 2, 6, 5, 10, 4, 0, 15, 8],
   #v[9, 0, 5, 7, 2, 4, 10, 15, 14, 1, 11, 12, 6, 8, 3, 13],
   #v[2, 12, 6, 10, 0, 11, 8, 3, 4, 13, 7, 5, 15, 14, 1, 9],
   #v[12, 5, 1, 15, 14, 13, 4, 10, 0, 7, 6, 3, 9, 2, 8, 11],
   #v[13, 11, 7, 14, 12, 1, 3, 9, 5, 0, 15, 4, 8, 6, 2, 10],
   #v[6, 15, 14, 9, 11, 3, 0, 8, 12, 2, 13, 7, 1, 4, 10, 5],
   #v[10, 2, 8, 4, 7, 6, 1, 5, 15, 11, 9, 14, 3, 12, 13, 0]]

/-- Compresses one block into the chaining words. `count` is the number of octets hashed so far,
this block included. -/
def compress (chain : Vector UInt32 8) (block : Octets) (count : Nat) (last : Bool) :
    Vector UInt32 8 :=
  let message := Octets.words16 Octets.littleEndian block
  let start : Vector UInt32 16 := chain ++ initialWords
  let start := start.set 12 (start[12] ^^^ UInt32.ofNat count)
  let start := start.set 13 (start[13] ^^^ UInt32.ofNat (count / Nat.pow 2 32))
  let start := if last then start.set 14 (start[14] ^^^ 0xFFFFFFFF) else start
  let final := orders.foldl (fun v order => mixRound message order v) start
  Vector.ofFn fun i => chain[i] ^^^ final[i.val] ^^^ final[i.val + 8]

/-- Compresses the blocks in order; the last one is marked and counts only its own octets. -/
def absorb : Vector UInt32 8 → Nat → List Octets → Vector UInt32 8
  | chain, _, [] => chain
  | chain, count, [block] => compress chain block (count + block.length) true
  | chain, count, block :: rest =>
      absorb (compress chain block (count + block.length) false) (count + block.length) rest

/-- The chaining words at the start: the initial words with the parameters of an unkeyed digest
of 32 octets. -/
def startWords : Vector UInt32 8 :=
  initialWords.set 0 (initialWords[0] ^^^ 0x01010020)

end Blake2s

/-- The BLAKE2s digest of 32 octets. The empty input is one empty block. -/
def blake2s (input : Octets) : Octets :=
  match Octets.blocks 64 input with
  | [] => wordsOctets (Blake2s.absorb Blake2s.startWords 0 [[]])
  | blocks => wordsOctets (Blake2s.absorb Blake2s.startWords 0 blocks)

/-! ## BLAKE3

The input is cut into chunks of 1024 octets; each chunk chains its blocks, and the chunk values are
combined by a binary tree whose left subtrees are full. Adjacent values are paired level by level,
an odd last value moving up unpaired, which builds that same tree.
-/

namespace Blake3

def chunkStart : UInt32 := 1
def chunkEnd : UInt32 := 2
def parentNode : UInt32 := 4
def rootNode : UInt32 := 8

/-- The order in which a round takes the words of the round before it. -/
def permutation : Vector (Fin 16) 16 :=
  #v[2, 6, 3, 10, 7, 0, 4, 13, 1, 11, 12, 5, 9, 14, 15, 8]

def plainOrder : Vector (Fin 16) 16 := Vector.ofFn id

def permuted (message : Vector UInt32 16) : Vector UInt32 16 :=
  permutation.map fun i => message[i]

def rounds : Nat → Vector UInt32 16 → Vector UInt32 16 → Vector UInt32 16
  | 0, _, v => v
  | count + 1, message, v => rounds count (permuted message) (mixRound message plainOrder v)

def compress (chain : Vector UInt32 8) (message : Vector UInt32 16) (counter length : Nat)
    (flags : UInt32) : Vector UInt32 8 :=
  let upper : Vector UInt32 8 :=
    #v[initialWords[0], initialWords[1], initialWords[2], initialWords[3],
       UInt32.ofNat counter, UInt32.ofNat (counter / Nat.pow 2 32), UInt32.ofNat length, flags]
  let final := rounds 7 message (chain ++ upper)
  Vector.ofFn fun i => final[i.val] ^^^ final[i.val + 8]

/-- Chains the blocks of one chunk. `start` carries the flag of a chunk's first block, `finish`
the flags added to its last. -/
def absorb (counter : Nat) (finish : UInt32) :
    UInt32 → Vector UInt32 8 → List Octets → Vector UInt32 8
  | _, chain, [] => chain
  | start, chain, [block] =>
      compress chain (Octets.words16 Octets.littleEndian block) counter block.length
        (start ||| chunkEnd ||| finish)
  | start, chain, block :: rest =>
      absorb counter finish 0
        (compress chain (Octets.words16 Octets.littleEndian block) counter block.length start) rest

/-- The value of one chunk; `finish` marks the root when the chunk is the whole input. -/
def chunkValue (counter : Nat) (finish : UInt32) (chunk : Octets) : Vector UInt32 8 :=
  match Octets.blocks 64 chunk with
  | [] => absorb counter finish chunkStart initialWords [[]]
  | blocks => absorb counter finish chunkStart initialWords blocks

def parentValue (flags : UInt32) (left right : Vector UInt32 8) : Vector UInt32 8 :=
  compress initialWords (left ++ right) 0 64 (parentNode ||| flags)

/-- One level up: adjacent values are combined, an odd last value moves up as it is. -/
def pairUp : List (Vector UInt32 8) → List (Vector UInt32 8)
  | left :: right :: rest => parentValue 0 left right :: pairUp rest
  | short => short

/-- The root over at least two chunk values. The count bounds the number of levels. -/
def rootOver : Nat → List (Vector UInt32 8) → Vector UInt32 8
  | _, [] => initialWords
  | _, [single] => single
  | _, [left, right] => parentValue rootNode left right
  | 0, first :: _ => first
  | count + 1, values => rootOver count (pairUp values)

end Blake3

def blake3 (input : Octets) : Octets :=
  match Octets.blocks 1024 input with
  | [] => wordsOctets (Blake3.chunkValue 0 Blake3.rootNode [])
  | [chunk] => wordsOctets (Blake3.chunkValue 0 Blake3.rootNode chunk)
  | chunks =>
    let values := chunks.zipIdx.map fun (chunk, counter) => Blake3.chunkValue counter 0 chunk
    wordsOctets (Blake3.rootOver values.length values)

/-! ## SHA-256 -/

namespace Sha256

def roundWords : List UInt32 :=
  [0x428a2f98, 0x71374491, 0xb5c0fbcf, 0xe9b5dba5, 0x3956c25b, 0x59f111f1, 0x923f82a4, 0xab1c5ed5,
   0xd807aa98, 0x12835b01, 0x243185be, 0x550c7dc3, 0x72be5d74, 0x80deb1fe, 0x9bdc06a7, 0xc19bf174,
   0xe49b69c1, 0xefbe4786, 0x0fc19dc6, 0x240ca1cc, 0x2de92c6f, 0x4a7484aa, 0x5cb0a9dc, 0x76f988da,
   0x983e5152, 0xa831c66d, 0xb00327c8, 0xbf597fc7, 0xc6e00bf3, 0xd5a79147, 0x06ca6351, 0x14292967,
   0x27b70a85, 0x2e1b2138, 0x4d2c6dfc, 0x53380d13, 0x650a7354, 0x766a0abb, 0x81c2c92e, 0x92722c85,
   0xa2bfe8a1, 0xa81a664b, 0xc24b8b70, 0xc76c51a3, 0xd192e819, 0xd6990624, 0xf40e3585, 0x106aa070,
   0x19a4c116, 0x1e376c08, 0x2748774c, 0x34b0bcb5, 0x391c0cb3, 0x4ed8aa4a, 0x5b9cca4f, 0x682e6ff3,
   0x748f82ee, 0x78a5636f, 0x84c87814, 0x8cc70208, 0x90befffa, 0xa4506ceb, 0xbef9a3f7, 0xc67178f2]

/-- The message words of the rounds: a window of sixteen words of which the first is used next. -/
def nextWindow (w : Vector UInt32 16) : Vector UInt32 16 :=
  let a := w[1]
  let b := w[14]
  let s0 := rotateRight a 7 ^^^ rotateRight a 18 ^^^ (a >>> 3)
  let s1 := rotateRight b 17 ^^^ rotateRight b 19 ^^^ (b >>> 10)
  let next := w[0] + s0 + w[9] + s1
  Vector.ofFn fun i => if bound : i.val + 1 < 16 then w[i.val + 1] else next

def roundStep (h : Vector UInt32 8) (word constant : UInt32) : Vector UInt32 8 :=
  let s1 := rotateRight h[4] 6 ^^^ rotateRight h[4] 11 ^^^ rotateRight h[4] 25
  let choice := (h[4] &&& h[5]) ^^^ ((~~~ h[4]) &&& h[6])
  let t1 := h[7] + s1 + choice + constant + word
  let s0 := rotateRight h[0] 2 ^^^ rotateRight h[0] 13 ^^^ rotateRight h[0] 22
  let majority := (h[0] &&& h[1]) ^^^ (h[0] &&& h[2]) ^^^ (h[1] &&& h[2])
  #v[t1 + (s0 + majority), h[0], h[1], h[2], h[3] + t1, h[4], h[5], h[6]]

def compress (chain : Vector UInt32 8) (block : Octets) : Vector UInt32 8 :=
  let step := fun (state : Vector UInt32 8 × Vector UInt32 16) (constant : UInt32) =>
    (roundStep state.1 state.2[0] constant, nextWindow state.2)
  let final := (roundWords.foldl step (chain, Octets.words16 Octets.bigEndian block)).1
  Vector.ofFn fun i => chain[i] + final[i]

/-- The input followed by a one bit, zeros, and its length in bits in eight octets, so that the
total is a whole number of blocks. -/
def padded (input : Octets) : Octets :=
  let zeros := (119 - input.length % 64) % 64
  input ++ 0x80 :: List.replicate zeros 0 ++ Octets.ofNatBig 8 (8 * input.length)

end Sha256

def sha256 (input : Octets) : Octets :=
  let final := (Octets.blocks 64 (Sha256.padded input)).foldl Sha256.compress initialWords
  final.toList.flatMap fun word => Octets.ofNatBig 4 word.toNat

def hmacSha256 (key message : Octets) : Octets :=
  let block := Octets.padTo 64 (if key.length ≤ 64 then key else sha256 key)
  sha256 (block.map (· ^^^ 0x5C) ++ sha256 (block.map (· ^^^ 0x36) ++ message))

end AttestedQuery.Digest
