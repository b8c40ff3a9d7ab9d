import AttestedQuery.Config

/-!
# Digests in natural numbers

The hash functions work on vectors of machine words. Here they take the same steps on natural
numbers that stand in fixed places, one column of the working state after the other, so that what
is hashed of a closed text can be evaluated within a proof. Every suite hashes as its steps on
numbers do.
-/

set_option autoImplicit false

namespace AttestedQuery.Digest.Numeric

/-! ## The mixing step -/

/-- Four words of a working state. -/
structure Column where
  (a b c d : Nat)

def sum (x y : Nat) : Nat := (x + y) % 4294967296

def turn (amount x : Nat) : Nat := (x >>> amount) ||| ((x <<< (32 - amount)) % 4294967296)

def mixed (v : Column) (x y : Nat) : Column :=
  let a1 := sum (sum v.a v.b) x
  let d1 := turn 16 (v.d ^^^ a1)
  let c1 := sum v.c d1
  let b1 := turn 12 (v.b ^^^ c1)
  let a2 := sum (sum a1 b1) y
  let d2 := turn 8 (d1 ^^^ a2)
  let c2 := sum c1 d2
  ⟨a2, turn 7 (b1 ^^^ c2), c2, d2⟩

/-- The number of the word at an index, or zero past the end. -/
def word {n : Nat} (v : Vector UInt32 n) (i : Nat) : Nat := (v[i]?.getD 0).toNat

def Column.of (v : Vector UInt32 16) (a b c d : Fin 16) : Column :=
  ⟨word v a, word v b, word v c, word v d⟩

theorem word_val {n : Nat} (v : Vector UInt32 n) (i : Fin n) : word v i = (v.get i).toNat := by
  rw [word, Vector.getElem?_eq_getElem i.isLt]
  rfl

theorem toNat_getElem {n i : Nat} (v : Vector UInt32 n) (low : i < n) :
    (getElem v i low).toNat = word v i := by
  rw [word, Vector.getElem?_eq_getElem low, Option.getD_some]

theorem word_set {n i : Nat} (v : Vector UInt32 n) (x : UInt32) (low : i < n) (j : Nat) :
    word (v.set i x low) j = if i = j then x.toNat else word v j := by
  rw [word, Vector.getElem?_set]
  split
  next => rfl
  next => rfl

theorem toNat_add_eq (x y : UInt32) : (x + y).toNat = sum x.toNat y.toNat :=
  UInt32.toNat_add x y

theorem toNat_rotateRight (x : UInt32) {amount : UInt32} (short : 0 < amount.toNat)
    (long : amount.toNat < 32) :
    (rotateRight x amount).toNat = turn amount.toNat x.toNat := by
  have rest : (32 - amount).toNat = 32 - amount.toNat :=
    UInt32.toNat_sub_of_le _ _ (UInt32.le_iff_toNat_le.2 (Nat.le_of_lt long))
  rw [rotateRight, turn, UInt32.toNat_or, UInt32.toNat_shiftRight, UInt32.toNat_shiftLeft, rest,
    Nat.mod_eq_of_lt long, Nat.mod_eq_of_lt (Nat.sub_lt_self short (Nat.le_of_lt long))]

variable {v : Vector UInt32 16} {a b c d : Fin 16}

theorem of_mix (x y : UInt32) (ab : a ≠ b) (ac : a ≠ c) (ad : a ≠ d) (bc : b ≠ c) (bd : b ≠ d)
    (cd : c ≠ d) :
    Column.of (mix v a b c d x y) a b c d = mixed (.of v a b c d) x.toNat y.toNat := by
  have turned (z amount : UInt32) (short : 0 < amount.toNat) (long : amount.toNat < 32) :=
    toNat_rotateRight z short long
  simp [Column.of, mix, mixed, word_set, toNat_getElem, Fin.val_inj, ab.symm, ac.symm, ad.symm,
    bc.symm, bd.symm, cd.symm, toNat_add_eq, turned, UInt32.toNat_xor, -UInt32.toNat_add]

theorem of_mix_other (x y : UInt32) {e f g h : Fin 16} (outE : e ∉ [a, b, c, d])
    (outF : f ∉ [a, b, c, d]) (outG : g ∉ [a, b, c, d]) (outH : h ∉ [a, b, c, d]) :
    Column.of (mix v a b c d x y) e f g h = .of v e f g h := by
  have kept (i : Fin 16) (out : i ∉ [a, b, c, d]) : word (mix v a b c d x y) i = word v i := by
    simp only [List.mem_cons, List.not_mem_nil, or_false, not_or, ← ne_eq] at out
    obtain ⟨outA, outB, outC, outD⟩ := out
    simp [mix, word_set, Fin.val_inj, outA.symm, outB.symm, outC.symm, outD.symm]
  simp only [Column.of, kept e outE, kept f outF, kept g outG, kept h outH]

/-! ## Rounds -/

structure State where
  (p q r s : Column)

def State.diagonals (v : State) : State :=
  ⟨⟨v.p.a, v.q.b, v.r.c, v.s.d⟩, ⟨v.q.a, v.r.b, v.s.c, v.p.d⟩, ⟨v.r.a, v.s.b, v.p.c, v.q.d⟩,
    ⟨v.s.a, v.p.b, v.q.c, v.r.d⟩⟩

def State.undone (v : State) : State :=
  ⟨⟨v.p.a, v.s.b, v.r.c, v.q.d⟩, ⟨v.q.a, v.p.b, v.s.c, v.r.d⟩, ⟨v.r.a, v.q.b, v.p.c, v.s.d⟩,
    ⟨v.s.a, v.r.b, v.q.c, v.p.d⟩⟩

/-- Four steps on the columns and four on the diagonals, with sixteen words. -/
def round (v : State) : List Nat → State
  | [a, b, c, d, e, f, g, h, i, j, k, l, m, n, o, p] =>
    let v := State.diagonals ⟨mixed v.p a b, mixed v.q c d, mixed v.r e f, mixed v.s g h⟩
    State.undone ⟨mixed v.p i j, mixed v.q k l, mixed v.r m n, mixed v.s o p⟩
  | _ => v

def State.of (v : Vector UInt32 16) : State :=
  ⟨⟨word v 0, word v 4, word v 8, word v 12⟩, ⟨word v 1, word v 5, word v 9, word v 13⟩,
    ⟨word v 2, word v 6, word v 10, word v 14⟩, ⟨word v 3, word v 7, word v 11, word v 15⟩⟩

theorem columns_eq (v : Vector UInt32 16) :
    State.of v = ⟨.of v 0 4 8 12, .of v 1 5 9 13, .of v 2 6 10 14, .of v 3 7 11 15⟩ := rfl

theorem of_columns (v : Vector UInt32 16) (a b c d e f g h : UInt32) :
    State.of (mix (mix (mix (mix v 0 4 8 12 a b) 1 5 9 13 c d) 2 6 10 14 e f) 3 7 11 15 g h) =
      ⟨mixed (State.of v).p a.toNat b.toNat, mixed (State.of v).q c.toNat d.toNat,
        mixed (State.of v).r e.toNat f.toNat, mixed (State.of v).s g.toNat h.toNat⟩ := by
  simp (disch := decide) only [columns_eq, of_mix, of_mix_other]

theorem diagonals_of (v : Vector UInt32 16) : (State.of v).diagonals =
    ⟨.of v 0 5 10 15, .of v 1 6 11 12, .of v 2 7 8 13, .of v 3 4 9 14⟩ := rfl

theorem of_diagonals (v : Vector UInt32 16) (a b c d e f g h : UInt32) :
    (State.of
      (mix (mix (mix (mix v 0 5 10 15 a b) 1 6 11 12 c d) 2 7 8 13 e f) 3 4 9 14 g h)).diagonals =
      ⟨mixed (State.of v).diagonals.p a.toNat b.toNat,
        mixed (State.of v).diagonals.q c.toNat d.toNat,
        mixed (State.of v).diagonals.r e.toNat f.toNat,
        mixed (State.of v).diagonals.s g.toNat h.toNat⟩ := by
  simp (disch := decide) only [diagonals_of, of_mix, of_mix_other]

theorem toList_eq_ofFn {α : Type} {n : Nat} (w : Vector α n) : w.toList = List.ofFn w.get := by
  refine List.ext_getElem (by simp) fun i _ _ => ?_
  simp only [Vector.getElem_toList, List.getElem_ofFn]
  rfl

theorem of_mixRound (message : Vector UInt32 16) (order : Vector (Fin 16) 16)
    (v : Vector UInt32 16) :
    State.of (mixRound message order v) =
      round (.of v) (order.toList.map fun i : Fin 16 => word message i) := by
  -- The second four steps are known by the diagonals of the state, and these determine it.
  have undone (w : State) : w.diagonals.undone = w := rfl
  simp only [word_val]
  rw [toList_eq_ofFn, mixRound, ← undone (State.of _), of_diagonals, of_columns]
  rfl

/-! ## Blocks -/

def numbers (words : Vector UInt32 16) : List Nat := words.toList.map UInt32.toNat

def words (block : Octets) : List Nat :=
  let all := (Octets.blocks 4 (Octets.padTo 64 block)).map fun octets =>
    octets.littleEndian % 4294967296
  (List.range 16).map fun i => all.getD i 0

def reordered (order : Vector (Fin 16) 16) (w : List Nat) : List Nat :=
  order.toList.map fun i => w.getD i.val 0

structure Chain where
  (low high : Column)

def Chain.of (v : Vector UInt32 8) : Chain :=
  ⟨⟨word v 0, word v 1, word v 2, word v 3⟩, ⟨word v 4, word v 5, word v 6, word v 7⟩⟩

def initial : Chain := .of initialWords

/-- The state of eight chaining words and eight others. -/
def Chain.over (c : Chain) (u w : Column) : State :=
  ⟨⟨c.low.a, c.high.a, u.a, w.a⟩, ⟨c.low.b, c.high.b, u.b, w.b⟩, ⟨c.low.c, c.high.c, u.c, w.c⟩,
    ⟨c.low.d, c.high.d, u.d, w.d⟩⟩

/-- The two halves of a state, one upon the other. -/
def State.folded (v : State) : Chain :=
  ⟨⟨v.p.a ^^^ v.p.c, v.q.a ^^^ v.q.c, v.r.a ^^^ v.r.c, v.s.a ^^^ v.s.c⟩,
    ⟨v.p.b ^^^ v.p.d, v.q.b ^^^ v.q.d, v.r.b ^^^ v.r.d, v.s.b ^^^ v.s.d⟩⟩

def Chain.with (c d : Chain) : Chain :=
  ⟨⟨c.low.a ^^^ d.low.a, c.low.b ^^^ d.low.b, c.low.c ^^^ d.low.c, c.low.d ^^^ d.low.d⟩,
    ⟨c.high.a ^^^ d.high.a, c.high.b ^^^ d.high.b, c.high.c ^^^ d.high.c, c.high.d ^^^ d.high.d⟩⟩

theorem of_append (v w : Vector UInt32 8) :
    State.of (v ++ w) = (Chain.of v).over (Chain.of w).low (Chain.of w).high := by
  have first (i : Nat) (low : i < 8) : word (v ++ w) i = word v i := by
    rw [word, Vector.getElem?_append_left low, word]
  have second (i : Nat) : word (v ++ w) (8 + i) = word w i := by
    rw [word, Vector.getElem?_append_right (Nat.le_add_right 8 i), Nat.add_sub_cancel_left, word]
  simp only [State.of, Chain.over, Chain.of, State.mk.injEq, Column.mk.injEq]
  exact ⟨⟨first 0 (by decide), first 4 (by decide), second 0, second 4⟩,
    ⟨first 1 (by decide), first 5 (by decide), second 1, second 5⟩,
    ⟨first 2 (by decide), first 6 (by decide), second 2, second 6⟩,
    ⟨first 3 (by decide), first 7 (by decide), second 3, second 7⟩⟩

theorem numbers_words16 (block : Octets) :
    numbers (Octets.words16 Octets.littleEndian block) = words block := by
  refine List.ext_getElem (by simp [numbers, words]) fun i bound _ => ?_
  simp only [numbers, words, Octets.words16, List.getElem_map, Vector.getElem_toList,
    Vector.getElem_ofFn, List.getElem_range, List.getD_eq_getElem?_getD, List.getElem?_map,
    Array.getD_eq_getD_getElem?, List.getElem?_toArray]
  cases (Octets.blocks 4 (Octets.padTo 64 block))[i]? with
  | none => rfl
  | some octets => exact UInt32.toNat_ofNat

theorem map_toNat_eq (message : Vector UInt32 16) (order : Vector (Fin 16) 16) :
    (order.toList.map fun i : Fin 16 => word message i) = reordered order (numbers message) := by
  simp [reordered, numbers, word]

theorem of_foldl_mixRound (message : Vector UInt32 16) (orders : List (Vector (Fin 16) 16))
    (v : Vector UInt32 16) :
    State.of (orders.foldl (fun v order => mixRound message order v) v) =
      orders.foldl (fun v order => round v (reordered order (numbers message))) (.of v) := by
  induction orders generalizing v with
  | nil => rfl
  | cons order rest ih => rw [List.foldl_cons, ih, of_mixRound, map_toNat_eq, List.foldl_cons]

/-- The number whose digits are the chaining words, least significant first. -/
def Chain.value (c : Chain) : Nat :=
  [c.low.a, c.low.b, c.low.c, c.low.d, c.high.a, c.high.b, c.high.c, c.high.d].foldr
    (fun word rest => word + 4294967296 * rest) 0

theorem littleEndian_append (first second : Octets) :
    (first ++ second).littleEndian =
      first.littleEndian + Nat.pow 256 first.length * second.littleEndian := by
  induction first with
  | nil => simp [Octets.littleEndian]
  | cons octet rest ih =>
    have power : Nat.pow 256 (rest.length + 1) = 256 * Nat.pow 256 rest.length :=
      Nat.mul_comm _ _
    rw [List.cons_append, Octets.littleEndian, ih, Octets.littleEndian, List.length_cons, power,
      Nat.mul_add, Nat.mul_assoc, Nat.add_assoc]

theorem littleEndian_wordsOctets (v : Vector UInt32 8) :
    (wordsOctets v).littleEndian = (Chain.of v).value := by
  have read (x : UInt32) (rest : Octets) :
      (Octets.ofNatLittle 4 x.toNat ++ rest).littleEndian =
        x.toNat + 4294967296 * rest.littleEndian := by
    rw [littleEndian_append, Octets.littleEndian_ofNatLittle, Octets.length_ofNatLittle]
    exact congrArg (· + _) (Nat.mod_eq_of_lt x.toNat_lt)
  have listed : v.toList =
      [v.get 0, v.get 1, v.get 2, v.get 3, v.get 4, v.get 5, v.get 6, v.get 7] :=
    toList_eq_ofFn v
  rw [wordsOctets, listed]
  simp only [List.flatMap_cons, List.flatMap_nil, read]
  rfl

/-! ## BLAKE2s -/

namespace Blake2s

def compressed (c : Chain) (block : Octets) (count : Nat) (last : Bool) : Chain :=
  let w := words block
  let counted : Column :=
    ⟨initial.high.a ^^^ count % 4294967296, initial.high.b ^^^ count / 4294967296 % 4294967296,
      if last then initial.high.c ^^^ 0xFFFFFFFF else initial.high.c, initial.high.d⟩
  let start := c.over initial.low counted
  c.with (Digest.Blake2s.orders.foldl (fun v order => round v (reordered order w)) start).folded

theorem of_compress (chain : Vector UInt32 8) (block : Octets) (count : Nat) (last : Bool) :
    Chain.of (Digest.Blake2s.compress chain block count last) =
      compressed (.of chain) block count last := by
  have folded (start : Vector UInt32 16) :
      Chain.of (Vector.ofFn fun i => chain[i] ^^^ start[i.val] ^^^ start[i.val + 8]) =
        (Chain.of chain).with (State.of start).folded := by
    simp [Chain.of, Chain.with, State.folded, State.of, word, UInt32.toNat_xor, Nat.xor_assoc]
  rw [Digest.Blake2s.compress, folded, of_foldl_mixRound, numbers_words16, compressed]
  -- The rounds are the same; the states before them are compared word by word.
  congr 3
  have start := of_append chain initialWords
  simp only [State.of, Chain.over, State.mk.injEq, Column.mk.injEq] at start ⊢
  cases last <;> simp [word_set, toNat_getElem, start, initial]

def absorbed : Chain → Nat → List Octets → Chain
  | c, _, [] => c
  | c, count, [block] => compressed c block (count + block.length) true
  | c, count, block :: rest =>
    absorbed (compressed c block (count + block.length) false) (count + block.length) rest

theorem of_absorb (chain : Vector UInt32 8) (count : Nat) (blocks : List Octets) :
    Chain.of (Digest.Blake2s.absorb chain count blocks) = absorbed (.of chain) count blocks := by
  fun_induction Digest.Blake2s.absorb chain count blocks with
  | case1 => rfl
  | case2 => exact of_compress ..
  | case3 chain count block rest several ih =>
    rw [ih, of_compress, absorbed.eq_3 _ _ _ _ several]

def start : Chain := .of Digest.Blake2s.startWords

end Blake2s

def blake2s (input : Octets) : Nat :=
  match Octets.blocks 64 input with
  | [] => (Blake2s.absorbed Blake2s.start 0 [[]]).value
  | blocks => (Blake2s.absorbed Blake2s.start 0 blocks).value

theorem littleEndian_blake2s (input : Octets) :
    (Digest.blake2s input).littleEndian = blake2s input := by
  rw [Digest.blake2s, blake2s]
  cases Octets.blocks 64 input <;>
    simp only [littleEndian_wordsOctets, Blake2s.of_absorb, Blake2s.start]

/-! ## BLAKE3 -/

namespace Blake3

def rounded : Nat → List Nat → State → State
  | 0, _, v => v
  | count + 1, w, v => rounded count (reordered Digest.Blake3.permutation w) (round v w)

theorem numbers_permuted (message : Vector UInt32 16) :
    numbers (Digest.Blake3.permuted message) =
      reordered Digest.Blake3.permutation (numbers message) := by
  rw [← map_toNat_eq]
  simp [numbers, Digest.Blake3.permuted, Vector.toList_map, toNat_getElem]

theorem reordered_plainOrder (message : Vector UInt32 16) :
    reordered Digest.Blake3.plainOrder (numbers message) = numbers message := by
  rw [← map_toNat_eq]
  refine List.ext_getElem (by simp [numbers]) fun i bound _ => ?_
  simp [numbers, Digest.Blake3.plainOrder, toNat_getElem]

theorem of_rounds (count : Nat) (message v : Vector UInt32 16) :
    State.of (Digest.Blake3.rounds count message v) =
      rounded count (numbers message) (.of v) := by
  induction count generalizing message v with
  | zero => rfl
  | succ count ih =>
    rw [Digest.Blake3.rounds, ih, of_mixRound, map_toNat_eq, reordered_plainOrder,
      numbers_permuted, rounded]

def compressed (c : Chain) (block : Octets) (counter : Nat) (flags : Nat) : Chain :=
  (rounded 7 (words block) (c.over initial.low
    ⟨counter % 4294967296, counter / 4294967296 % 4294967296, block.length % 4294967296,
      flags⟩)).folded

theorem of_compress (chain : Vector UInt32 8) (block : Octets) (counter : Nat) (flags : UInt32) :
    Chain.of (Digest.Blake3.compress chain (Octets.words16 Octets.littleEndian block) counter
        block.length flags) =
      compressed (.of chain) block counter flags.toNat := by
  have folded (final : Vector UInt32 16) :
      Chain.of (Vector.ofFn fun i => final[i.val] ^^^ final[i.val + 8]) =
        (State.of final).folded := by
    simp [Chain.of, State.folded, State.of, word]
  rw [Digest.Blake3.compress, folded, of_rounds, of_append, numbers_words16, compressed]
  rfl

def absorbed (counter finish : Nat) : Nat → Chain → List Octets → Chain
  | _, c, [] => c
  | start, c, [block] => compressed c block counter (start ||| 2 ||| finish)
  | start, c, block :: rest => absorbed counter finish 0 (compressed c block counter start) rest

theorem of_absorb (counter : Nat) (finish start : UInt32) (chain : Vector UInt32 8)
    (blocks : List Octets) :
    Chain.of (Digest.Blake3.absorb counter finish start chain blocks) =
      absorbed counter finish.toNat start.toNat (.of chain) blocks := by
  fun_induction Digest.Blake3.absorb counter finish start chain blocks with
  | case1 => rfl
  | case2 =>
    rw [of_compress, UInt32.toNat_or, UInt32.toNat_or]
    rfl
  | case3 start chain block rest several ih =>
    rw [ih, of_compress, absorbed.eq_3 _ _ _ _ _ _ several]
    rfl

def whole (chunk : Octets) : Nat :=
  match Octets.blocks 64 chunk with
  | [] => (absorbed 0 8 1 initial [[]]).value
  | blocks => (absorbed 0 8 1 initial blocks).value

theorem littleEndian_chunkValue (chunk : Octets) :
    (wordsOctets (Digest.Blake3.chunkValue 0 Digest.Blake3.rootNode chunk)).littleEndian =
      whole chunk := by
  rw [Digest.Blake3.chunkValue, whole]
  cases Octets.blocks 64 chunk <;> simp only [littleEndian_wordsOctets, of_absorb] <;> rfl

end Blake3

/-- Inputs of several chunks are hashed as the words have it. -/
def blake3 (input : Octets) : Nat :=
  match Octets.blocks 1024 input with
  | [] => Blake3.whole []
  | [chunk] => Blake3.whole chunk
  | _ => (Digest.blake3 input).littleEndian

theorem littleEndian_blake3 (input : Octets) :
    (Digest.blake3 input).littleEndian = blake3 input := by
  rw [blake3]
  match chunks : Octets.blocks 1024 input with
  | [] => simp only [Digest.blake3, chunks, Blake3.littleEndian_chunkValue]
  | [chunk] => simp only [Digest.blake3, chunks, Blake3.littleEndian_chunkValue]
  | first :: second :: rest => rfl

/-! ## Hashers -/

def combine : HashSuite → Octets → Nat
  | .blake2s => blake2s
  | .blake3 => blake3

theorem littleEndian_combine (suite : HashSuite) (input : Octets) :
    (suite.combine input).littleEndian = combine suite input := by
  cases suite with
  | blake2s => exact littleEndian_blake2s input
  | blake3 => exact littleEndian_blake3 input

def hasher (suite : HashSuite) : Hasher where
  onOctets octets := .ofNat (blake3 octets)
  pair a b := .ofNat (combine suite (a.toLittleEndian ++ b.toLittleEndian))
  quadruple a b c d :=
    .ofNat (combine suite
      (a.toLittleEndian ++ b.toLittleEndian ++ c.toLittleEndian ++ d.toLittleEndian))

end Digest.Numeric

theorem HashSuite.hasher_eq (suite : HashSuite) : suite.hasher = Digest.Numeric.hasher suite := by
  simp only [HashSuite.hasher, Field.ofLittleEndian, Digest.Numeric.littleEndian_blake3,
    Digest.Numeric.littleEndian_combine, Digest.Numeric.hasher]

namespace Config

variable (c : Config)

theorem hasher_eq : c.hasher = Digest.Numeric.hasher c.hashSuite := c.hashSuite.hasher_eq

theorem encoder_eq : c.encoder = ⟨Digest.Numeric.hasher c.hashSuite, c.maxLiteralBytes⟩ := by
  rw [encoder, hasher_eq]

end Config

end AttestedQuery
