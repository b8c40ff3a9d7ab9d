import AttestedQuery.Dataset
import AttestedQuery.Proofs.DigestNumbers
import AttestedQuery.Proofs.HexText
import AttestedQuery.Proofs.Tree

/-!
# What signing gives

A signed dataset holds the encodings of its quads, the root of the tree over their leaves, one
opening for each quad that leads from its leaf to the root, and a signature of the root.
-/

set_option autoImplicit false

namespace AttestedQuery

theorem QuadOf.mapM_ok_iff {α β ε : Type} {f : α → Except ε β} {q : QuadOf α} {r : QuadOf β} :
    q.mapM f = .ok r ↔ f q.subject = .ok r.subject ∧ f q.predicate = .ok r.predicate ∧
      f q.object = .ok r.object ∧ f q.graph = .ok r.graph := by
  obtain ⟨subject, predicate, object, graph⟩ := r
  simp only [QuadOf.mapM, bind_ok_iff, pure_ok_iff, QuadOf.mk.injEq]
  constructor
  · rintro ⟨_, first, _, second, _, third, _, fourth, rfl, rfl, rfl, rfl⟩
    exact ⟨first, second, third, fourth⟩
  · rintro ⟨first, second, third, fourth⟩
    exact ⟨_, first, _, second, _, third, _, fourth, rfl, rfl, rfl, rfl⟩

theorem QuadOf.mapM_get {α β ε : Type} {f : α → Except ε β} {q : QuadOf α} {r : QuadOf β}
    (computed : q.mapM f = .ok r) {position : Nat} {x : α} (found : q.get? position = some x) :
    ∃ y, r.get? position = some y ∧ f x = .ok y := by
  obtain ⟨subject, predicate, object, graph⟩ := mapM_ok_iff.1 computed
  rcases position with _ | _ | _ | _ | position
  · exact ⟨r.subject, rfl, Option.some.inj found ▸ subject⟩
  · exact ⟨r.predicate, rfl, Option.some.inj found ▸ predicate⟩
  · exact ⟨r.object, rfl, Option.some.inj found ▸ object⟩
  · exact ⟨r.graph, rfl, Option.some.inj found ▸ graph⟩
  · cases found

theorem QuadOf.mapM_succeeds {α β ε : Type} {f : α → Except ε β} {q : QuadOf α}
    (each : ∀ position x, q.get? position = some x → ∃ y, f x = .ok y) :
    ∃ r, q.mapM f = .ok r := by
  obtain ⟨subject, first⟩ := each 0 _ rfl
  obtain ⟨predicate, second⟩ := each 1 _ rfl
  obtain ⟨object, third⟩ := each 2 _ rfl
  obtain ⟨graph, fourth⟩ := each 3 _ rfl
  exact ⟨⟨subject, predicate, object, graph⟩, mapM_ok_iff.2 ⟨first, second, third, fourth⟩⟩

theorem Encoder.encodeQuad_get {e : Encoder} {quad : Quad} {codes : QuadOf Field}
    (encoded : e.encodeQuad quad = .ok codes) {position : Nat} {term : Term}
    (found : quad.get? position = some term) :
    ∃ code, codes.get? position = some code ∧ e.encode term = .ok code :=
  QuadOf.mapM_get encoded found

/-- A signer whose signatures verify under its own key. -/
def Signer.Consistent (signer : Signer) : Prop :=
  ∀ message signature, signer.sign message = .ok signature →
    signer.scheme.verifies signer.publicKey message signature = true

namespace Dataset

def EncodedBy (d : Dataset) (e : Encoder) : Prop :=
  d.quads.mapM e.encodeQuad = .ok d.encoded

theorem EncodedBy.length {d : Dataset} {e : Encoder} (encoded : d.EncodedBy e) :
    d.encoded.length = d.quads.length :=
  ((mapM_ok_iff _ _ _).1 encoded).length_eq.symm

theorem EncodedBy.codes {d : Dataset} {e : Encoder} (encoded : d.EncodedBy e) {i : Nat}
    {quad : Quad} (found : d.quads[i]? = some quad) :
    ∃ codes, d.encoded[i]? = some codes ∧ e.encodeQuad quad = .ok codes := by
  have each := (mapM_ok_iff _ _ _).1 encoded
  obtain ⟨inside, rfl⟩ := List.getElem?_eq_some_iff.1 found
  have bound : i < d.encoded.length := by rw [encoded.length]; exact inside
  exact ⟨d.encoded[i], List.getElem?_eq_getElem bound, each.get inside bound⟩

theorem EncodedBy.encodable {d : Dataset} {e : Encoder} (encoded : d.EncodedBy e) {quad : Quad}
    (member : quad ∈ d.quads) {position : Nat} {term : Term}
    (found : quad.get? position = some term) : ∃ code, e.encode term = .ok code := by
  obtain ⟨i, inside, rfl⟩ := List.getElem_of_mem member
  obtain ⟨codes, _, encodes⟩ := encoded.codes (List.getElem?_eq_getElem inside)
  obtain ⟨code, _, encodes⟩ := Encoder.encodeQuad_get encodes found
  exact ⟨code, encodes⟩

structure SignedBy (d : Dataset) (quads : List Quad) (config : Config) (signer : Signer)
    (tree : Commitment.Tree) (signature : Octets) : Prop where
  valid : config.validate = .ok ()
  encoded : quads.mapM config.encoder.encodeQuad = .ok d.encoded
  built : Commitment.Tree.build config.hasher config.treeDepth
    (d.encoded.map config.encoder.leaf) = .ok tree
  signed : signer.sign tree.root.toBigEndian = .ok signature
  root : d.root = tree.root
  depth : d.depth = config.treeDepth
  hashSuite : d.hashSuite = config.hashSuite
  scheme : d.scheme = signer.scheme
  quads : d.quads = quads
  signature : d.signature = Hex.ofOctets signature
  publicKey : d.publicKey = Hex.ofOctets signer.publicKey
  openings : d.openings = (List.range tree.size).filterMap tree.opening?

section Signed

variable {quads : List Quad} {config : Config} {signer : Signer} {d : Dataset}
  {tree : Commitment.Tree} {signature : Octets}

theorem sign_ok (signed : sign quads config signer = .ok d) :
    ∃ tree signature, d.SignedBy quads config signer tree signature := by
  obtain ⟨⟨⟩, valid, signed⟩ := bind_ok_iff.1 signed
  obtain ⟨encoded, encodes, signed⟩ := bind_ok_iff.1 signed
  obtain ⟨tree, built, signed⟩ := bind_ok_iff.1 signed
  obtain ⟨signature, signs, signed⟩ := bind_ok_iff.1 signed
  obtain rfl := pure_ok_iff.1 signed
  exact ⟨tree, signature, valid, encodes, built, signs, rfl, rfl, rfl, rfl, rfl, rfl, rfl, rfl⟩

theorem SignedBy.encodedBy (s : d.SignedBy quads config signer tree signature) :
    d.EncodedBy config.encoder := by
  rw [EncodedBy, s.quads]
  exact s.encoded

theorem SignedBy.size_tree (s : d.SignedBy quads config signer tree signature) :
    tree.size = d.quads.length := by
  obtain ⟨_, _, rfl⟩ := Commitment.Tree.build_ok_iff.1 s.built
  rw [Commitment.Tree.size, List.length_map, s.encodedBy.length]

theorem SignedBy.map_openings (s : d.SignedBy quads config signer tree signature) :
    d.openings.map some = (List.range tree.size).map tree.opening? := by
  have whole : ∀ place ∈ List.range tree.size, ∃ opening, tree.opening? place = some opening := by
    intro place member
    exact ⟨_, if_pos (List.mem_range.1 member)⟩
  rw [s.openings]
  generalize List.range tree.size = places at whole
  induction places with
  | nil => rfl
  | cons place rest induction =>
    obtain ⟨opening, opened⟩ := whole place List.mem_cons_self
    have others := induction fun other member => whole other (List.mem_cons_of_mem place member)
    simp [opened, others]

theorem SignedBy.length_openings (s : d.SignedBy quads config signer tree signature) :
    d.openings.length = d.quads.length := by
  rw [← List.length_map (f := some), s.map_openings, List.length_map, List.length_range,
    s.size_tree]

theorem SignedBy.opening_eq (s : d.SignedBy quads config signer tree signature) {i : Nat}
    (inside : i < d.quads.length) : d.openings[i]? = tree.opening? i := by
  have short : i < d.openings.length := by rw [s.length_openings]; exact inside
  have here : (d.openings.map some)[i]? = some (tree.opening? i) := by
    rw [s.map_openings, List.getElem?_map, List.getElem?_range (by rw [s.size_tree]; exact inside),
      Option.map_some]
  rw [List.getElem?_map, List.getElem?_eq_getElem short, Option.map_some] at here
  rw [List.getElem?_eq_getElem short]
  exact Option.some.inj here

theorem SignedBy.opening (s : d.SignedBy quads config signer tree signature) {i : Nat}
    {codes : QuadOf Field} (found : d.encoded[i]? = some codes) :
    ∃ opening, d.openings[i]? = some opening ∧
      opening.verifies config.hasher (config.encoder.leaf codes) d.root = true := by
  have leaf : (d.encoded.map config.encoder.leaf)[i]? = some (config.encoder.leaf codes) := by
    simp [found]
  obtain ⟨opening, opened, _, verifies⟩ := Commitment.Tree.opening_verifies s.built leaf
  have inside : i < d.quads.length := by
    rw [← s.encodedBy.length]
    exact (List.getElem?_eq_some_iff.1 found).1
  exact ⟨opening, (s.opening_eq inside).trans opened, by rw [s.root]; exact verifies⟩

theorem SignedBy.compatible (s : d.SignedBy quads config signer tree signature) :
    d.checkCompatible config = .ok () := by
  simp [checkCompatible, s.hashSuite, s.depth, s.encodedBy.length, s.length_openings]

end Signed

end Dataset

/-! ## A signed quad -/

def sampleConfig : Config := { Config.default 1 with treeDepth := 1 }

def sampleQuad : Quad :=
  ⟨.iri "http://e/a", .iri "http://e/p", .iri "http://e/b", .defaultGraph⟩

def sampleKey : Octets :=
  Octets.ofNatBig 33 0x032a7740464ffd027559326d0266f0199a72d7480179c95062de774f19fc203b04

def sampleSignature : Octets :=
  Octets.ofNatBig 32 0x1224b3aa558baf44da622c6f0d7a1774a50a7d5c1cb6c9d34185a0fc7447abea
    ++ Octets.ofNatBig 32 0x5280ea1d0296da350e7a4af026adee45095870a068a6a07867d3205c6003f739

def sampleSigner : Signer where
  scheme := .secp256k1Ecdsa
  publicKey := sampleKey
  sign message :=
    if Scheme.secp256k1Ecdsa.verifies sampleKey message sampleSignature then .ok sampleSignature
    else .error (.signature .badSecret)

theorem sampleSigner_consistent : sampleSigner.Consistent := by
  intro message signature signed
  simp only [sampleSigner] at signed ⊢
  split at signed
  next verifies =>
    obtain rfl := Except.ok.inj signed
    exact verifies
  next => simp at signed

def sampleCodes : QuadOf Field where
  subject := .ofNat 0x20a3cfb43b024865b1cb28b60342d9ba3cbe906aae5b2090eca89f96dbc4a92a
  predicate := .ofNat 0x10e0f5e9567cdffea893fd2474029b9af9b6eae80e7a08afc5e2d7f5a09e3d76
  object := .ofNat 0x1431265b1b3b7acb9263fa927de57e7c73e5baaa2a8c954d1b19bd2e5d05bbc7
  graph := .ofNat 0xa875241e550a88752175f0e9da48687c954131bcd148ea2583505ffaf1d8b33

def sampleRoot : Field :=
  .ofNat 0x135113753d608952553dac1633e6118312b68bc74ded0ddea451a58681cb39be

def sampleDataset : Dataset where
  depth := 1
  root := sampleRoot
  signature := Hex.ofOctets sampleSignature
  publicKey := Hex.ofOctets sampleKey
  scheme := .secp256k1Ecdsa
  hashSuite := .blake2s
  quads := [sampleQuad]
  encoded := [sampleCodes]
  openings := [⟨0, [Field.zero], [false]⟩]

set_option maxRecDepth 100000 in
theorem sample_encodes : sampleConfig.encoder.encodeQuad sampleQuad = .ok sampleCodes := by
  rw [Config.encoder_eq]
  exact eq_ok_of_toOption (by decide +kernel)

set_option maxRecDepth 100000 in
theorem sample_root :
    sampleConfig.hasher.pair (sampleConfig.encoder.leaf sampleCodes) Field.zero = sampleRoot := by
  rw [Config.encoder_eq, Config.hasher_eq]
  decide +kernel

set_option maxRecDepth 100000 in
theorem sample_verifies :
    Scheme.secp256k1Ecdsa.verifies sampleKey sampleRoot.toBigEndian sampleSignature = true := by
  decide +kernel

theorem sample_signs :
    Dataset.sign [sampleQuad] sampleConfig sampleSigner = .ok sampleDataset := by
  have valid : sampleConfig.validate = .ok () := rfl
  have encoded : [sampleQuad].mapM sampleConfig.encoder.encodeQuad = .ok [sampleCodes] := by
    simp [sample_encodes]
  obtain ⟨tree, built, root, openings⟩ : ∃ tree,
      Commitment.Tree.build sampleConfig.encoder.hasher sampleConfig.treeDepth
        [sampleConfig.encoder.leaf sampleCodes] = .ok tree ∧ tree.root = sampleRoot ∧
      (List.range tree.size).filterMap tree.opening? = sampleDataset.openings :=
    ⟨_, rfl, sample_root, rfl⟩
  have signed : sampleSigner.sign tree.root.toBigEndian = .ok sampleSignature := by
    rw [root]
    simp [sampleSigner, sample_verifies]
  refine bind_ok_iff.2 ⟨(), valid, bind_ok_iff.2 ⟨_, encoded, bind_ok_iff.2 ⟨tree, built,
    bind_ok_iff.2 ⟨_, signed, ?_⟩⟩⟩⟩
  rw [root, openings]
  rfl

end AttestedQuery
