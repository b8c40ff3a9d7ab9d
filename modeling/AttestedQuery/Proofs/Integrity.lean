import AttestedQuery.Proofs.Openings
import AttestedQuery.Proofs.Soundness

/-!
# What checking a dataset proves

A dataset is checked quad by quad: each encoding is derived again and each opening must lead to the
root, which must be signed. Where the openings stand at the positions of their quads and leave
nothing to the right of the last one, the root is that of the tree over the quads, unless inputs
collide. Neither is checked, so a dataset passes without some of the quads that its root commits to.
-/

set_option autoImplicit false

namespace AttestedQuery

/-- An opening of a position in a tree of some depth: it states the position, and turns as the way up
from there does. -/
structure Opening.StandsAt (o : Opening) (depth place : Nat) : Prop where
  index : o.index = place
  inside : place < 2 ^ depth
  directions : o.directions = Commitment.turns depth place

namespace Dataset

/-- The inputs hashed to check the openings of a dataset. -/
def openingInputs (h : Hasher) (d : Dataset) : List Preimage :=
  (d.encoded.zip d.openings).flatMap fun (codes, o) => o.inputs h (h.onQuad codes)

/-- The root of a dataset is that of the tree over the leaves of its quads, and the opening of each
quad is that of the tree. -/
def Committed (d : Dataset) (config : Config) : Prop :=
  ∃ codes tree, d.quads.mapM config.encoder.encodeQuad = .ok codes ∧
    Commitment.Tree.build config.hasher config.treeDepth (codes.map config.encoder.leaf) =
      .ok tree ∧
    d.root = tree.root ∧ ∀ i < d.quads.length, d.openings[i]? = tree.opening? i

/-- The openings of a dataset stand at the positions of its quads in a tree of the configured depth,
and to the right of the last one there are only empty subtrees. -/
structure Placed (d : Dataset) (config : Config) : Prop where
  depth : 0 < config.treeDepth ∧ config.treeDepth ≤ maxDepth
  stands : ∀ (i : Nat) (o : Opening), d.openings[i]? = some o → o.StandsAt config.treeDepth i
  edge : ∀ o : Opening, d.openings.getLast? = some o →
    Commitment.EmptyOnRight config.hasher o.sides
  empty : d.quads = [] → d.root = Commitment.emptyRoot config.hasher config.treeDepth

/-! ## What is checked -/

theorem checkQuad_ok_iff {e : Encoder} {root : Field} {index : Nat} {quad : Quad}
    {codes : QuadOf Field} {o : Opening} : checkQuad e root index quad codes o = .ok () ↔
      e.encodeQuad quad = .ok codes ∧ o.verifies e.hasher (e.leaf codes) root = true := by
  rw [checkQuad, bind_ok_iff]
  constructor
  · rintro ⟨derived, encoded, checked⟩
    split at checked
    next => cases checked
    next same =>
      obtain rfl : derived = codes := by simpa using same
      split at checked
      next verifies => exact ⟨encoded, verifies⟩
      next => cases checked
  · rintro ⟨encoded, verifies⟩
    exact ⟨codes, encoded, by simp [verifies, pure, Except.pure]⟩

/-- Quads pass where the stored encodings are theirs and every opening leads to the root. -/
theorem checkQuads_ok_iff {e : Encoder} {root : Field} {index : Nat} {quads : List Quad}
    {rows : List (QuadOf Field)} {openings : List Opening} (coded : rows.length = quads.length)
    (opened : openings.length = quads.length) :
    checkQuads e root index quads rows openings = .ok () ↔
      quads.mapM e.encodeQuad = .ok rows ∧ List.Forall₂ (fun codes (o : Opening) =>
        o.verifies e.hasher (e.leaf codes) root = true) rows openings := by
  induction quads generalizing index rows openings with
  | nil =>
    obtain rfl := List.length_eq_zero_iff.1 coded
    obtain rfl := List.length_eq_zero_iff.1 opened
    exact ⟨fun _ => ⟨rfl, .nil⟩, fun _ => rfl⟩
  | cons quad quads induction =>
    obtain ⟨codes, rows, rfl⟩ := List.exists_cons_of_length_eq_add_one coded
    obtain ⟨o, openings, rfl⟩ := List.exists_cons_of_length_eq_add_one opened
    have later {next : Nat} := @induction next rows openings (Nat.succ.inj coded)
      (Nat.succ.inj opened)
    rw [checkQuads, List.forall₂_cons, mapM_ok_iff, List.forall₂_cons, ← mapM_ok_iff]
    constructor
    · intro checked
      obtain ⟨⟨⟩, first, rest⟩ := bind_ok_iff.1 checked
      obtain ⟨encoded, verifies⟩ := checkQuad_ok_iff.1 first
      obtain ⟨others, paths⟩ := later.1 rest
      exact ⟨⟨encoded, others⟩, verifies, paths⟩
    · rintro ⟨⟨encoded, others⟩, verifies, paths⟩
      exact bind_ok_iff.2 ⟨(), checkQuad_ok_iff.2 ⟨encoded, verifies⟩, later.2 ⟨others, paths⟩⟩

structure Accepted (d : Dataset) (config : Config) : Prop where
  suite : d.hashSuite = config.hashSuite
  depth : d.depth = config.treeDepth
  encoded : d.EncodedBy config.encoder
  opened : List.Forall₂ (fun codes (o : Opening) =>
    o.verifies config.hasher (config.encoder.leaf codes) d.root = true) d.encoded d.openings
  signed : ∃ publicKey signature, Signer.octetsOfHex d.publicKey = .ok publicKey ∧
    Signer.octetsOfHex d.signature = .ok signature ∧
      d.scheme.verifies publicKey d.root.toBigEndian signature = true

theorem checkCompatible_ok_iff {d : Dataset} {config : Config} :
    d.checkCompatible config = .ok () ↔ d.hashSuite = config.hashSuite ∧
      d.depth = config.treeDepth ∧ d.encoded.length = d.quads.length ∧
        d.openings.length = d.quads.length := by
  unfold checkCompatible
  split_ifs <;> simp_all
  omega

theorem verifyIntegrity_ok_iff {d : Dataset} {config : Config} :
    d.verifyIntegrity config = .ok () ↔ d.Accepted config := by
  rw [verifyIntegrity]
  constructor
  · intro checked
    obtain ⟨⟨⟩, fits, checked⟩ := bind_ok_iff.1 checked
    obtain ⟨⟨⟩, quads, checked⟩ := bind_ok_iff.1 checked
    obtain ⟨publicKey, key, checked⟩ := bind_ok_iff.1 checked
    obtain ⟨signature, decoded, checked⟩ := bind_ok_iff.1 checked
    obtain ⟨suite, depth, coded, opened⟩ := checkCompatible_ok_iff.1 fits
    obtain ⟨encoded, paths⟩ := (checkQuads_ok_iff coded opened).1 quads
    split at checked
    next verifies =>
      exact ⟨suite, depth, encoded, paths, publicKey, signature, key, decoded, verifies⟩
    next => cases checked
  · intro a
    obtain ⟨publicKey, signature, key, decoded, verifies⟩ := a.signed
    have coded := a.encoded.length
    have opened : d.openings.length = d.quads.length := a.opened.length_eq.symm.trans coded
    refine bind_ok_iff.2 ⟨(), checkCompatible_ok_iff.2 ⟨a.suite, a.depth, coded, opened⟩, ?_⟩
    refine bind_ok_iff.2 ⟨(), (checkQuads_ok_iff coded opened).2 ⟨a.encoded, a.opened⟩, ?_⟩
    refine bind_ok_iff.2 ⟨publicKey, key, bind_ok_iff.2 ⟨signature, decoded, ?_⟩⟩
    rw [if_pos verifies]
    rfl

/-! ## Signed datasets -/

section Signed

variable {quads : List Quad} {config : Config} {signer : Signer} {d : Dataset}
  {tree : Commitment.Tree} {signature : Octets}

/-- A signed dataset passes the check, if the signer's signatures verify under its own key. -/
theorem SignedBy.accepted (s : d.SignedBy quads config signer tree signature)
    (consistent : signer.Consistent) : d.Accepted config where
  suite := s.hashSuite
  depth := s.depth
  encoded := s.encodedBy
  opened := by
    refine List.forall₂_iff_get.2 ⟨?_, fun i inside short => ?_⟩
    · rw [s.encodedBy.length, s.length_openings]
    · obtain ⟨o, opened, verifies⟩ := s.opening (List.getElem?_eq_getElem inside)
      obtain rfl := Option.some.inj ((List.getElem?_eq_getElem short).symm.trans opened)
      exact verifies
  signed := by
    refine ⟨signer.publicKey, signature, ?_, ?_, ?_⟩
    · rw [s.publicKey, Signer.octetsOfHex_ofOctets]
    · rw [s.signature, Signer.octetsOfHex_ofOctets]
    · rw [s.scheme, s.root]
      exact consistent _ _ s.signed

theorem SignedBy.committed (s : d.SignedBy quads config signer tree signature) :
    d.Committed config :=
  ⟨d.encoded, tree, s.encodedBy, s.built, s.root, fun _ => s.opening_eq⟩

end Signed

/-! ## Positions of openings -/

section Placed

variable {d : Dataset} {config : Config}

/-- The openings of a tree stand at their positions, with nothing to the right of the last one. -/
theorem Committed.placed (committed : d.Committed config)
    (opened : d.openings.length = d.quads.length) : d.Placed config := by
  obtain ⟨codes, tree, encoded, built, root, openings⟩ := committed
  have length : codes.length = d.quads.length := ((mapM_ok_iff _ _ _).1 encoded).length_eq.symm
  obtain ⟨depth, fits, shape⟩ := Commitment.Tree.build_ok_iff.1 built
  have size : tree.size = d.quads.length := by rw [shape, Commitment.Tree.size, List.length_map, length]
  have ends (place : Nat) (past : d.quads.length ≤ place) : tree.bottom place = Field.zero :=
    tree.bottom_past (by rw [← Commitment.Tree.size, size]; exact past)
  have held {i : Nat} {o : Opening} (found : d.openings[i]? = some o) : i < d.quads.length ∧
      o = ⟨i, (Commitment.Tree.path (tree.levels.take tree.depth) i).map Prod.fst,
        (Commitment.Tree.path (tree.levels.take tree.depth) i).map Prod.snd⟩ := by
    have inside : i < d.quads.length := opened ▸ (List.getElem?_eq_some_iff.1 found).1
    rw [openings i inside, Commitment.Tree.opening?, if_pos (size ▸ inside)] at found
    exact ⟨inside, (Option.some.inj found).symm⟩
  refine ⟨depth, fun i o found => ?_, fun o final => ?_, fun empty => ?_⟩
  · obtain ⟨inside, rfl⟩ := held found
    refine ⟨rfl, ?_, Commitment.Tree.turns_path built i⟩
    rw [List.length_map, length] at fits
    exact Nat.lt_of_lt_of_le inside fits
  · rw [List.getLast?_eq_getElem?] at final
    obtain ⟨_, rfl⟩ := held final
    rw [Opening.sides_mk]
    exact Commitment.Tree.emptyOnRight_path built ends (by omega)
  · rw [root, Commitment.Tree.root_eq_node built]
    apply Commitment.node_past config.hasher ends
    rw [empty]
    exact Nat.zero_le _

def sidesAt (d : Dataset) (i : Nat) : List (Field × Bool) :=
  (d.openings[i]?.map Opening.sides).getD []

theorem sidesAt_of_opening {i : Nat} {o : Opening} (found : d.openings[i]? = some o) :
    d.sidesAt i = o.sides := by
  rw [sidesAt, found]
  rfl

theorem Accepted.entry (a : d.Accepted config) {i : Nat} (inside : i < d.quads.length) :
    ∃ codes o, d.encoded[i]? = some codes ∧ d.openings[i]? = some o ∧
      o.verifies config.hasher (config.encoder.leaf codes) d.root = true := by
  have coded : i < d.encoded.length := by rw [a.encoded.length]; exact inside
  have opened : i < d.openings.length := by rw [← a.opened.length_eq]; exact coded
  exact ⟨_, _, List.getElem?_eq_getElem coded, List.getElem?_eq_getElem opened,
    a.opened.get coded opened⟩

theorem Accepted.converges (a : d.Accepted config) (placed : d.Placed config)
    (clear : ¬ config.hasher.Collides (d.openingInputs config.hasher)) (bottom : Nat → Field)
    (leaves : ∀ (i : Nat) (codes : QuadOf Field), d.encoded[i]? = some codes →
      bottom i = config.encoder.leaf codes) :
    Commitment.Converges config.hasher (d.openingInputs config.hasher) config.treeDepth
      d.quads.length bottom d.sidesAt d.root where
  turns i inside := by
    obtain ⟨_, o, _, opened, verifies⟩ := a.entry inside
    rw [sidesAt_of_opening opened, ← (placed.stands i o opened).directions]
    exact (Opening.map_sides (Opening.verifies_iff.1 verifies).1).2
  root i inside := by
    obtain ⟨codes, o, coded, opened, verifies⟩ := a.entry inside
    rw [sidesAt_of_opening opened, leaves i codes coded]
    exact (Opening.verifies_iff.1 verifies).2
  hashed i inside input hashed := by
    obtain ⟨codes, o, coded, opened, _⟩ := a.entry inside
    rw [sidesAt_of_opening opened, leaves i codes coded] at hashed
    have pair : (d.encoded.zip d.openings)[i]? = some (codes, o) :=
      List.getElem?_zip_eq_some.2 ⟨coded, opened⟩
    exact List.mem_flatMap.2 ⟨(codes, o), List.mem_of_getElem? pair, hashed⟩
  clear := clear

/-- The openings of an accepted dataset fit in the tree where they stand at their positions. -/
theorem Placed.fits (placed : d.Placed config) : d.openings.length ≤ 2 ^ config.treeDepth := by
  by_contra many
  have room := Nat.two_pow_pos config.treeDepth
  have last : d.openings.length - 1 < d.openings.length := by omega
  have inside := (placed.stands _ _ (List.getElem?_eq_getElem last)).inside
  omega

/-- An accepted dataset whose openings stand at their positions holds what its root commits to. -/
theorem Accepted.committed (a : d.Accepted config) (placed : d.Placed config)
    (clear : ¬ config.hasher.Collides (d.openingInputs config.hasher)) : d.Committed config := by
  have coded := a.encoded.length
  have opened : d.openings.length = d.quads.length := a.opened.length_eq.symm.trans coded
  have fits : (d.encoded.map config.encoder.leaf).length ≤ 2 ^ config.treeDepth := by
    rw [List.length_map, coded, ← opened]
    exact placed.fits
  obtain ⟨tree, built⟩ : ∃ tree, Commitment.Tree.build config.hasher config.treeDepth
      (d.encoded.map config.encoder.leaf) = .ok tree :=
    ⟨_, Commitment.Tree.build_ok_iff.2 ⟨placed.depth, fits, rfl⟩⟩
  have leaves : tree.leaves = d.encoded.map config.encoder.leaf := by
    rw [(Commitment.Tree.build_ok_iff.1 built).2.2]
  have size : tree.leaves.length = d.quads.length := by rw [leaves, List.length_map, coded]
  have ends (place : Nat) (past : d.quads.length ≤ place) : tree.bottom place = Field.zero :=
    tree.bottom_past (size ▸ past)
  have c := a.converges placed clear tree.bottom fun i codes found => by
    simp [Commitment.Tree.bottom, Commitment.nodeAt, leaves, found]
  have edge : Commitment.EmptyOnRight config.hasher (d.sidesAt (d.quads.length - 1)) := by
    cases final : d.openings[d.quads.length - 1]? with
    | none => simp [Commitment.EmptyOnRight, sidesAt, final]
    | some o =>
      rw [sidesAt_of_opening final]
      rw [← opened, ← List.getLast?_eq_getElem?] at final
      exact placed.edge o final
  refine ⟨d.encoded, tree, a.encoded, built, ?_, fun i inside => ?_⟩
  · rw [Commitment.Tree.root_eq_node built]
    by_cases none : d.quads.length = 0
    · rw [Commitment.node_past config.hasher ends (by omega)]
      exact placed.empty (List.length_eq_zero_iff.1 none)
    · have first : 0 < d.quads.length := Nat.pos_of_ne_zero none
      rw [← c.reached_root first, c.reached_node ends edge le_rfl first, Nat.zero_div]
  · obtain ⟨_, o, _, found, verifies⟩ := a.entry inside
    have path := c.path_eq built ends edge inside
    rw [sidesAt_of_opening found] at path
    obtain ⟨siblings, directions⟩ := Opening.map_sides (Opening.verifies_iff.1 verifies).1
    have index := (placed.stands i o found).index
    have inTree : i < tree.size := by rw [Commitment.Tree.size, size]; exact inside
    rw [found, Commitment.Tree.opening?, if_pos inTree, ← path]
    simp only [siblings, directions, ← index]

end Placed

/-- Checking a dataset proves its root to be that of the tree over its quads, and its openings those
of the tree, exactly where the openings stand at their positions and nothing is to the right of the
last one, unless two inputs collide that are hashed to check them. What signing gives passes the
check and is so placed. -/
theorem integrity_commits_where_placed (config : Config) :
    (∀ d : Dataset, d.verifyIntegrity config = .ok () →
      config.hasher.Collides (d.openingInputs config.hasher) ∨
        (d.Committed config ↔ d.Placed config)) ∧
    ∀ (quads : List Quad) (signer : Signer) (d : Dataset), signer.Consistent →
      sign quads config signer = .ok d → d.verifyIntegrity config = .ok () ∧ d.Committed config := by
  refine ⟨fun d passed => ?_, fun quads signer d consistent signed => ?_⟩
  · have a := verifyIntegrity_ok_iff.1 passed
    have opened : d.openings.length = d.quads.length :=
      a.opened.length_eq.symm.trans a.encoded.length
    exact (em _).imp_right fun clear =>
      ⟨fun committed => committed.placed opened, fun placed => a.committed placed clear⟩
  · obtain ⟨tree, signature, s⟩ := sign_ok signed
    exact ⟨verifyIntegrity_ok_iff.2 (s.accepted consistent), s.committed⟩

/-- The sample dataset passes the check, and stands as its root commits to it. -/
theorem integrity_commits_where_placed_sample :
    sign [sampleQuad] sampleConfig sampleSigner = .ok sampleDataset ∧
    sampleSigner.Consistent ∧ sampleDataset.verifyIntegrity sampleConfig = .ok () ∧
    sampleDataset.Committed sampleConfig ∧
    (sampleConfig.hasher.Collides (sampleDataset.openingInputs sampleConfig.hasher) ∨
      (sampleDataset.Committed sampleConfig ↔ sampleDataset.Placed sampleConfig)) := by
  obtain ⟨passes, commits⟩ := integrity_commits_where_placed sampleConfig
  obtain ⟨passed, committed⟩ := commits [sampleQuad] sampleSigner sampleDataset
    sampleSigner_consistent sample_signs
  exact ⟨sample_signs, sampleSigner_consistent, passed, committed, passes sampleDataset passed⟩

/-! ## A dropped quad -/

def droppedSibling : Field :=
  .ofNat 0x2bd3d05dcddb8eee449db52da2f3c2003edbef39726d8906ea68ee32d2bba776

def droppedKey : Octets :=
  Octets.ofNatBig 33 0x03ea11b218339d8d761299c4f446ca481e67be8da4e0d7e746cc1a6f1310dc7409

def droppedSignature : Octets :=
  Octets.ofNatBig 32 0x93b3abf5668d51d35370516f0be65511fafc46c7aacdf10124561e548ae31d32
    ++ Octets.ofNatBig 32 0x6916765e19900703a7b1adae331ec2c3c7f46f57da35b86a8222edd0202711e6

/-- A dataset that was signed over the sample quad and a second one, without the second quad, its
encoding and its opening. -/
def droppedDataset : Dataset where
  depth := 1
  root := .ofNat 0x2e622028fbda621c57892d05d3057c5dc474edb56f834c7f7215a65b50521b3f
  signature := Hex.ofOctets droppedSignature
  publicKey := Hex.ofOctets droppedKey
  scheme := .secp256k1Ecdsa
  hashSuite := .blake2s
  quads := [sampleQuad]
  encoded := [sampleCodes]
  openings := [⟨0, [droppedSibling], [false]⟩]

/-- What is hashed to check the dataset, and to build the tree over its quads. -/
def droppedInputs : List Preimage :=
  let leaf := sampleConfig.hasher.onQuad sampleCodes
  [.pair leaf droppedSibling, .ofQuad sampleCodes, .pair leaf Field.zero,
    .pair Field.zero Field.zero]

def droppedLeaf : Field :=
  .ofNat 0x11ce0f26e4bb5f3c0156c9847151f03b7e9393b4fa971ca21b4e4622d1e40d33

def droppedEmpty : Field :=
  .ofNat 0x1227c9323fc18f1d0c4ef4951711db717d7e9be348dd9ddce89c6f19acdb09ab

set_option maxRecDepth 100000 in
theorem dropped_hashes : sampleConfig.hasher.onQuad sampleCodes = droppedLeaf ∧
    sampleConfig.hasher.pair droppedLeaf droppedSibling = droppedDataset.root ∧
    sampleConfig.hasher.pair Field.zero Field.zero = droppedEmpty := by
  rw [Config.hasher_eq]
  decide +kernel

theorem dropped_digests : droppedInputs.map sampleConfig.hasher.digest =
    [droppedDataset.root, droppedLeaf, sampleRoot, droppedEmpty] := by
  obtain ⟨leaf, root, empty⟩ := dropped_hashes
  have listed : droppedInputs.map sampleConfig.hasher.digest =
      [sampleConfig.hasher.pair (sampleConfig.hasher.onQuad sampleCodes) droppedSibling,
        sampleConfig.hasher.onQuad sampleCodes,
        sampleConfig.hasher.pair (sampleConfig.hasher.onQuad sampleCodes) Field.zero,
        sampleConfig.hasher.pair Field.zero Field.zero] := rfl
  have single : sampleConfig.hasher.pair (sampleConfig.hasher.onQuad sampleCodes) Field.zero =
      sampleRoot := sample_root
  rw [listed, single, leaf, root, empty]

set_option maxRecDepth 100000 in
theorem dropped_verifies : Scheme.secp256k1Ecdsa.verifies droppedKey
    droppedDataset.root.toBigEndian droppedSignature = true := by
  decide +kernel

theorem dropped_encodedBy : droppedDataset.EncodedBy sampleConfig.encoder := by
  have encoded : [sampleQuad].mapM sampleConfig.encoder.encodeQuad = .ok [sampleCodes] := by
    simp [sample_encodes]
  exact encoded

theorem dropped_accepted : droppedDataset.Accepted sampleConfig where
  suite := rfl
  depth := rfl
  encoded := dropped_encodedBy
  opened := by
    have leads : sampleConfig.hasher.pair (sampleConfig.hasher.onQuad sampleCodes)
        droppedSibling = droppedDataset.root := by
      rw [dropped_hashes.1, dropped_hashes.2.1]
    have opens := Opening.verifies_left sampleConfig.hasher
      (sampleConfig.hasher.onQuad sampleCodes) droppedSibling
    rw [leads] at opens
    exact .cons opens .nil
  signed := ⟨droppedKey, droppedSignature, Signer.octetsOfHex_ofOctets _,
    Signer.octetsOfHex_ofOctets _, dropped_verifies⟩

/-- A dataset without a quad that its root commits to passes the check, without any collision. -/
theorem dropped_quad_passes :
    droppedDataset.verifyIntegrity sampleConfig = .ok () ∧
    ¬ droppedDataset.Committed sampleConfig ∧
    ¬ sampleConfig.hasher.Collides (droppedDataset.openingInputs sampleConfig.hasher ++
      droppedDataset.inputs sampleConfig.hasher) := by
  refine ⟨verifyIntegrity_ok_iff.2 dropped_accepted, ?_, ?_⟩
  · rintro ⟨codes, tree, encoded, built, root, _⟩
    obtain rfl := Except.ok.inj (encoded.symm.trans dropped_encodedBy)
    have shape := (Commitment.Tree.build_ok_iff.1 built).2.2
    have rooted : tree.root = sampleRoot := by
      rw [shape]
      exact sample_root
    have different : droppedDataset.root ≠ sampleRoot := by decide
    exact different (root.trans rooted)
  · have listed : droppedDataset.openingInputs sampleConfig.hasher ++
        droppedDataset.inputs sampleConfig.hasher = droppedInputs := rfl
    rw [listed]
    refine Hasher.clear_of_nodup (fun _ => id) ?_
    rw [dropped_digests]
    decide

end Dataset

end AttestedQuery
