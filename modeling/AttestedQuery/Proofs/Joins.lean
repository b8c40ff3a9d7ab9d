import AttestedQuery.Proofs.PairedRows

/-!
# Rows of joined parts

Where the keys that two parts share are bound before each optional part or never, the rows of a join
are the joined rows. Where a key is bound in an optional part only, a row of the left part may come
back in the join, though it is extended: its extension may not fit the other side.
-/

set_option autoImplicit false

namespace AttestedQuery

/-! ## Rows of an algebra -/

/-- The rows that a dataset has for all user-visible keys of an algebra. -/
def Algebra.rows (d : Dataset) (config : Config) (a : Algebra) : Result (List Row) := do
  let p ← Program.ofNormal config a.query
  let resolver ← Resolver.ofDataset d config
  let resolution ← resolver.resolve p
  return resolution.witnesses.map (·.bindings)

section Rows

variable {quads : List Quad} {config : Config} {signer : Signer} {d : Dataset}
  {tree : Commitment.Tree} {signature : Octets}

/-- The rows of a plain algebra are the user-visible parts of those that are kept of a fragment. -/
theorem Algebra.rows_ok (s : d.SignedBy quads config signer tree signature) (nonempty : quads ≠ [])
    {a : Algebra} (plain : a.Plain) {p : Program}
    (compiled : Program.ofNormal config a.query = .ok p) : ∃ fragments next rows,
      Fragment.ofAlgebra 0 a = .ok (fragments, next) ∧ a.rows d config = .ok rows ∧ rows.Nodup ∧
      ∀ row, row ∈ rows ↔ ∃ i full, row = full.visible ∧
        Fragment.Kept config.encoder quads fragments i full := by
  obtain ⟨fragments, compiles⟩ := Program.ofNormal_ok compiled
  obtain ⟨next, folded⟩ := compiles.folded
  obtain ⟨resolution, resolved, nodup, rows⟩ := Resolver.plain_rows s nonempty compiles
    (Fragment.closed_plain.ofAlgebra a folded plain) a.query_projectsAll
  exact ⟨fragments, next, _, folded, bind_ok_iff.2 ⟨p, compiled, bind_ok_iff.2 ⟨_, s.resolver,
    bind_ok_iff.2 ⟨resolution, resolved, rfl⟩⟩⟩, nodup, rows⟩

end Rows

/-! ## Joined algebras -/

/-- Two algebras that share user-visible keys only, and such that at every optional part of one the
left rows and the joined rows bind the same of the keys of the other. -/
structure Algebra.WellJoined (left right : Algebra) : Prop where
  user : ∀ key ∈ left.keys, key ∈ right.keys → isUserKey key = true
  settledLeft : left.Settles right.keys
  settledRight : right.Settles left.keys

namespace Fragment

section Joined

variable {left right : Algebra} {lefts rights whole : List Fragment} {n m k next : Nat}
  {e : Encoder} {quads : List Quad} {row : Row}

theorem ofAlgebra_joined (n : Nat) (left right : Algebra) :
    ofAlgebra n (left.joined right) = ofAlgebra n (.join left right) := by
  unfold Algebra.joined
  split <;> rfl

/-- The fragments of a join are the pairs of those of its sides. -/
theorem folds_of_joined (folded : ofAlgebra n (left.joined right) = .ok (whole, m)) :
    ∃ lefts k rights, ofAlgebra n left = .ok (lefts, k) ∧ ofAlgebra k right = .ok (rights, m) ∧
      whole = product lefts rights := by
  rw [ofAlgebra_joined] at folded
  exact folds_of_join folded

theorem apart_of_folds (first : ofAlgebra n left = .ok (lefts, m))
    (second : ofAlgebra m right = .ok (rights, k)) : Apart n m k lefts rights where
  left := (closed_scopes.ofAlgebra _ first).2
  right := (closed_scopes.ofAlgebra _ second).2
  leftOnward := closed_onward.ofAlgebra _ first
  rightOnward := closed_onward.ofAlgebra _ second

theorem sharesBound_of_folds (well : left.WellJoined right)
    (first : ofAlgebra n left = .ok (lefts, m)) (second : ofAlgebra m right = .ok (rights, k)) :
    SharesBound lefts rights where
  user a memberA b memberB key inA inB := well.user key
    (closed_mentions.ofAlgebra _ first a memberA inA)
    (closed_mentions.ofAlgebra _ second b memberB inB)
  left a g linked b memberB key inB := ((closed_related.ofAlgebra _ first).2 a g linked).mentions
    _ well.settledLeft key (closed_mentions.ofAlgebra _ second b memberB inB)
  right b g linked a memberA key inA := ((closed_related.ofAlgebra _ second).2 b g linked).mentions
    _ well.settledRight key (closed_mentions.ofAlgebra _ first a memberA inA)

/-- Each side of a join is folded as it is alone, but for the numbers of its filters. -/
theorem folds_joined (n : Nat) (first : ofAlgebra 0 left = .ok (lefts, m))
    (second : ofAlgebra 0 right = .ok (rights, k)) :
    ofAlgebra n left = .ok (lefts.map (renumbered n), m + n) ∧
    ofAlgebra (m + n) right = .ok (rights.map (renumbered (m + n)), k + (m + n)) ∧
    ofAlgebra n (left.joined right) = .ok (product (lefts.map (renumbered n))
      (rights.map (renumbered (m + n))), k + (m + n)) := by
  have one := (closed_renumbered n).ofAlgebra _ first
  have two := (closed_renumbered (m + n)).ofAlgebra _ second
  rw [Nat.zero_add] at one two
  refine ⟨one, two, ?_⟩
  rw [ofAlgebra_joined]
  exact closed_folds.join one two

theorem kept_joined_iff (well : left.WellJoined right) (first : ofAlgebra 0 left = .ok (lefts, m))
    (second : ofAlgebra 0 right = .ok (rights, k))
    (folded : ofAlgebra n (left.joined right) = .ok (whole, next)) :
    (∃ i, Kept e quads whole i row) ↔ ∃ i j u v, Kept e quads lefts i u ∧ Kept e quads rights j v ∧
      u.Agrees v ∧ row = u.plus v := by
  obtain ⟨one, two, joined⟩ := folds_joined n first second
  obtain ⟨rfl, rfl⟩ := Prod.mk.inj (Except.ok.inj (folded.symm.trans joined))
  simp only [kept_product_iff (apart_of_folds one two) (sharesBound_of_folds well one two),
    kept_renumbered_iff]

theorem Kept.mem_keys {fragments : List Fragment} {a : Algebra}
    (folded : ofAlgebra n a = .ok (fragments, m)) {i : Nat} (kept : Kept e quads fragments i row)
    {key : String} (bound : (row.get? key).isSome) : key ∈ a.keys := by
  obtain ⟨f, found, ⟨_, same, admits⟩, _⟩ := kept
  obtain rfl := Option.some.inj (found.symm.trans same)
  exact closed_mentions.ofAlgebra _ folded f (List.mem_of_getElem? found)
    ((admits.bound key).1 bound)

end Joined

end Fragment

theorem Row.agrees_visible_iff {u v : Row}
    (user : ∀ key, (u.get? key).isSome → (v.get? key).isSome → isUserKey key = true) :
    u.visible.Agrees v.visible ↔ u.Agrees v := by
  constructor
  · intro agree key x y here there
    have shown := user key (by simp [here]) (by simp [there])
    exact agree key x y (by rw [visible_get, if_pos shown, here])
      (by rw [visible_get, if_pos shown, there])
  · intro agree key x y here there
    exact agree key x y (u.visible_within key x here) (v.visible_within key y there)

/-- The rows of joined algebras are the joins of the rows of the two that agree, where the keys that
the algebras share are settled at every optional part. -/
theorem resolution_returns_joined (quads : List Quad) (config : Config) (signer : Signer)
    (d : Dataset) (left right : Algebra) (p q r : Program)
    (signed : Dataset.sign quads config signer = .ok d) (nonempty : quads ≠ [])
    (plainLeft : left.Plain) (plainRight : right.Plain) (well : left.WellJoined right)
    (compiledLeft : Program.ofNormal config left.query = .ok p)
    (compiledRight : Program.ofNormal config right.query = .ok q)
    (compiled : Program.ofNormal config (left.joined right).query = .ok r) :
    ∃ lefts rights rows, left.rows d config = .ok lefts ∧ right.rows d config = .ok rights ∧
      (left.joined right).rows d config = .ok rows ∧
      ∀ row, row ∈ rows ↔ ∃ u ∈ lefts, ∃ v ∈ rights, u.Agrees v ∧ row = u.plus v := by
  obtain ⟨tree, signature, s⟩ := Dataset.sign_ok signed
  obtain ⟨frs, m, lefts, first, resolvedLeft, _, inLefts⟩ :=
    Algebra.rows_ok s nonempty plainLeft compiledLeft
  obtain ⟨_, k, rights, second, resolvedRight, _, inRights⟩ :=
    Algebra.rows_ok s nonempty plainRight compiledRight
  obtain ⟨_, _, rows, folded, resolved, _, inRows⟩ :=
    Algebra.rows_ok s nonempty (plainLeft.joined plainRight) compiled
  refine ⟨lefts, rights, rows, resolvedLeft, resolvedRight, resolved, fun row => ?_⟩
  have agrees {i j : Nat} {u v : Row} (keptU : Fragment.Kept config.encoder quads frs i u)
      (keptV : Fragment.Kept config.encoder quads _ j v) :=
    Row.agrees_visible_iff fun key inU inV =>
      well.user key (keptU.mem_keys first inU) (keptV.mem_keys second inV)
  rw [inRows]
  constructor
  · rintro ⟨i, full, rfl, kept⟩
    obtain ⟨i, j, u, v, keptU, keptV, agree, rfl⟩ :=
      (Fragment.kept_joined_iff well first second folded).1 ⟨i, kept⟩
    exact ⟨u.visible, (inLefts _).2 ⟨i, u, rfl, keptU⟩, v.visible,
      (inRights _).2 ⟨j, v, rfl, keptV⟩, (agrees keptU keptV).2 agree, u.visible_plus v⟩
  · rintro ⟨_, memberU, _, memberV, agree, rfl⟩
    obtain ⟨i, u, rfl, keptU⟩ := (inLefts _).1 memberU
    obtain ⟨j, v, rfl, keptV⟩ := (inRights _).1 memberV
    obtain ⟨l, kept⟩ := (Fragment.kept_joined_iff well first second folded).2
      ⟨i, j, u, v, keptU, keptV, (agrees keptU keptV).1 agree, rfl⟩
    exact ⟨l, _, (u.visible_plus v).symm, kept⟩

/-! ## A row that comes back -/

def Pattern.ofVars (subject predicate object : String) (graph : Option String) : Pattern :=
  ⟨.var subject, .var predicate, .var object, graph.map .var⟩

theorem Pattern.fits_ofVars_iff {agrees : Term → Term → Prop} {row : Row} {quad : Quad}
    {subject predicate object : String} {graph : Option String} :
    (ofVars subject predicate object graph).Fits agrees row quad ↔
      row.get? subject = some quad.subject ∧ row.get? predicate = some quad.predicate ∧
        row.get? object = some quad.object ∧ ∀ name ∈ graph, row.get? name = some quad.graph := by
  simp [fits_iff, ofVars, PatternTerm.fits_var_iff]

def sampleGraphs : Algebra :=
  Normal.optionalOf (.bgp [.ofVars "s" "p" "o" none])
    (.bgp [.ofVars "s" "p" "o" none, .ofVars "s" "p" "o" (some "x")])

def sampleSubjects : Algebra := .bgp [.ofVars "s" "q" "y" none]

theorem sampleGraphs_plain : sampleGraphs.Plain := by
  refine .union _ fun branch member => ?_
  rcases List.mem_pair.1 member with rfl | rfl
  · exact .bgp _
  · exact .bgp _

theorem sampleGraphs_settles {names : List String} (definite : ∀ key ∈ names,
    sampleGraphs.Definite key) : sampleGraphs.Settles names := by
  refine .optional (fun branch member => ?_) definite
  rcases List.mem_pair.1 member with rfl | rfl
  · exact .bgp _
  · exact .bgp _

theorem sampleGraphs_wellJoined : sampleGraphs.WellJoined sampleSubjects where
  user := by decide
  settledLeft := sampleGraphs_settles (by unfold Algebra.Definite; decide)
  settledRight := .bgp _

set_option maxRecDepth 100000 in
theorem sampleGraphs_compiles : (sampleCompiles sampleGraphs.query).isOk = true ∧
    (sampleCompiles sampleSubjects.query).isOk = true ∧
    (sampleCompiles (sampleGraphs.joined sampleSubjects).query).isOk = true := by
  decide +kernel

/-- The sample triples with the triples of their subjects. -/
theorem resolution_returns_joined_sample :
    Dataset.sign [sampleQuad] sampleConfig sampleSigner = .ok sampleDataset ∧
    sampleGraphs.WellJoined sampleSubjects ∧
    ∃ lefts rights rows, sampleGraphs.rows sampleDataset sampleConfig = .ok lefts ∧
      sampleSubjects.rows sampleDataset sampleConfig = .ok rights ∧
      (sampleGraphs.joined sampleSubjects).rows sampleDataset sampleConfig = .ok rows ∧
      ∀ row, row ∈ rows ↔ ∃ u ∈ lefts, ∃ v ∈ rights, u.Agrees v ∧ row = u.plus v := by
  obtain ⟨compilesLeft, compilesRight, compiles⟩ := sampleGraphs_compiles
  obtain ⟨p, compiledLeft, _⟩ := exists_sampleProgram compilesLeft
  obtain ⟨q, compiledRight, _⟩ := exists_sampleProgram compilesRight
  obtain ⟨r, compiled, _⟩ := exists_sampleProgram compiles
  exact ⟨sample_signs, sampleGraphs_wellJoined,
    resolution_returns_joined [sampleQuad] sampleConfig sampleSigner sampleDataset sampleGraphs
      sampleSubjects p q r sample_signs (List.cons_ne_nil _ _) sampleGraphs_plain (.bgp _)
      sampleGraphs_wellJoined compiledLeft compiledRight compiled⟩

def sampleGraphFragments : List Fragment :=
  [{ Fragment.ofPatterns [.ofVars "s" "p" "o" none] with exclusiveOf := [1] },
    .ofPatterns [.ofVars "s" "p" "o" none, .ofVars "s" "p" "o" (some "x")]]

def sampleTripleRow (x : Term) : Row :=
  KeyMap.ofList [("s", sampleQuad.subject), ("p", sampleQuad.predicate), ("o", sampleQuad.object),
    ("x", x)]

/-- A row is admitted over the sample quad where all patterns fit it and nothing else is bound. -/
theorem Fragment.admits_sample {agrees : Term → Term → Prop} {f : Fragment}
    {patterns : List Pattern} {row : Row} (same : f.patterns = patterns) (bare : f.extensions = [])
    (fits : ∀ p ∈ patterns, p.Fits agrees row sampleQuad)
    (asked : ∀ key ∈ row.keys, key ∈ patterns.flatMap Pattern.keys)
    (bound : ∀ key ∈ patterns.flatMap Pattern.keys, key ∈ row.keys) :
    f.Admits agrees [sampleQuad] row where
  suits :=
    ⟨fun p member => ⟨sampleQuad, List.mem_cons_self, fits p (same ▸ member)⟩, by simp [bare]⟩
  bound key := by
    rw [← KeyMap.mem_keys_iff, mentions, bare, same, List.flatMap_nil, List.append_nil]
    exact ⟨asked key, bound key⟩

theorem Fragment.Admits.fits_sample {agrees : Term → Term → Prop} {f : Fragment} {row : Row}
    (admits : f.Admits agrees [sampleQuad] row) {p : Pattern} (member : p ∈ f.patterns) :
    p.Fits agrees row sampleQuad := by
  obtain ⟨quad, inside, fits⟩ := admits.suits.fits p member
  obtain rfl := List.mem_singleton.1 inside
  exact fits

/-- Over the sample quad only the triple with its graph is kept. -/
theorem sampleGraphs_kept {e : Encoder} {i : Nat} {row : Row}
    (kept : Fragment.Kept e [sampleQuad] sampleGraphFragments i row) :
    row.get? "x" = some sampleQuad.graph := by
  obtain ⟨f, found, ⟨_, same, admits⟩, _, free⟩ := kept
  obtain rfl := Option.some.inj (found.symm.trans same)
  match i, found with
  | 0, found =>
    obtain rfl := Option.some.inj found
    obtain ⟨subject, predicate, object, _⟩ :=
      Pattern.fits_ofVars_iff.1 (admits.fits_sample List.mem_cons_self)
    refine absurd ⟨1, List.mem_cons_self, _, sampleTripleRow sampleQuad.graph, rfl, ⟨_, rfl,
      Fragment.admits_sample rfl rfl (fun p member => ?_) (by decide) (by decide)⟩, ?_, ?_⟩ free
    · rcases List.mem_pair.1 member with rfl | rfl
      · exact Pattern.fits_ofVars_iff.2 ⟨rfl, rfl, rfl, by simp⟩
      · exact Pattern.fits_ofVars_iff.2 ⟨rfl, rfl, rfl, by simp; rfl⟩
    · simp [Fragment.PassesBeside, Fragment.ofPatterns]
    · intro key value held
      have held := row.visible_within key value held
      have mentioned := (admits.bound key).1 (by simp [held])
      change key ∈ ["s", "p", "o"] at mentioned
      simp only [List.mem_cons, List.not_mem_nil, or_false] at mentioned
      rcases mentioned with rfl | rfl | rfl
      · exact subject.symm.trans held
      · exact predicate.symm.trans held
      · exact object.symm.trans held
  | 1, found =>
    obtain rfl := Option.some.inj found
    exact (Pattern.fits_ofVars_iff.1
      (admits.fits_sample (List.mem_cons_of_mem _ List.mem_cons_self))).2.2.2 "x" rfl

/-- Triples whose subject is bound to the key of the graphs. -/
def sampleClash : Algebra := .bgp [.ofVars "x" "p" "o" none]

set_option maxRecDepth 100000 in
theorem sampleClash_compiles : (sampleCompiles sampleClash.query).isOk = true ∧
    (sampleCompiles (sampleGraphs.joined sampleClash).query).isOk = true := by
  decide +kernel

/-- The triple without its graph comes back beside the clash, for the triple with its graph does not
agree with it. -/
theorem sampleClash_kept (e : Encoder) :
    Fragment.Kept e [sampleQuad]
      [{ Fragment.ofPatterns [.ofVars "s" "p" "o" none, .ofVars "x" "p" "o" none] with
          exclusiveOf := [1] },
        .ofPatterns [.ofVars "s" "p" "o" none, .ofVars "s" "p" "o" (some "x"),
          .ofVars "x" "p" "o" none]] 0 (sampleTripleRow sampleQuad.subject) := by
  refine ⟨_, rfl, ⟨_, rfl, Fragment.admits_sample rfl rfl (fun p member => ?_) (by decide)
    (by decide)⟩, ?_, ?_⟩
  · rcases List.mem_pair.1 member with rfl | rfl
    · exact Pattern.fits_ofVars_iff.2 ⟨rfl, rfl, rfl, by simp⟩
    · exact Pattern.fits_ofVars_iff.2 ⟨rfl, rfl, rfl, by simp⟩
  · simp [Fragment.Passes, Fragment.ofPatterns]
  · rintro ⟨j, excluded, g, other, found, ⟨_, same, admits⟩, _, _⟩
    obtain rfl := Option.some.inj (found.symm.trans same)
    obtain rfl := List.mem_singleton.1 excluded
    obtain rfl := Option.some.inj found
    have graph := (Pattern.fits_ofVars_iff.1 (admits.fits_sample
      (show Pattern.ofVars "s" "p" "o" (some "x") ∈ _ from
        List.mem_cons_of_mem _ List.mem_cons_self))).2.2.2 "x" rfl
    have subject := (Pattern.fits_ofVars_iff.1 (admits.fits_sample
      (show Pattern.ofVars "x" "p" "o" none ∈ _ from
        List.mem_cons_of_mem _ (List.mem_cons_of_mem _ List.mem_cons_self)))).1
    exact absurd (graph.symm.trans subject) (by decide)

/-- The rows of joined algebras are not always the joins of rows. Of the sample triple alone and
with its graph only the latter is a row. It does not agree with the row that binds the key of the
graph to the subject; yet the join of the two has a row. -/
theorem joined_row_comes_back :
    Dataset.sign [sampleQuad] sampleConfig sampleSigner = .ok sampleDataset ∧
    ∃ lefts rights rows, sampleGraphs.rows sampleDataset sampleConfig = .ok lefts ∧
      sampleClash.rows sampleDataset sampleConfig = .ok rights ∧
      (sampleGraphs.joined sampleClash).rows sampleDataset sampleConfig = .ok rows ∧
      ∃ row ∈ rows, ¬ ∃ u ∈ lefts, ∃ v ∈ rights, u.Agrees v ∧ row = u.plus v := by
  obtain ⟨tree, signature, s⟩ := Dataset.sign_ok sample_signs
  obtain ⟨p, compiledLeft, _⟩ := exists_sampleProgram sampleGraphs_compiles.1
  obtain ⟨q, compiledRight, _⟩ := exists_sampleProgram sampleClash_compiles.1
  obtain ⟨r, compiled, _⟩ := exists_sampleProgram sampleClash_compiles.2
  have plain : (sampleGraphs.joined sampleClash).Plain := sampleGraphs_plain.joined (.bgp _)
  obtain ⟨_, _, lefts, first, resolvedLeft, _, inLefts⟩ :=
    Algebra.rows_ok s (List.cons_ne_nil _ _) sampleGraphs_plain compiledLeft
  obtain ⟨_, _, rights, second, resolvedRight, _, inRights⟩ :=
    Algebra.rows_ok s (List.cons_ne_nil _ _) (.bgp _) compiledRight
  obtain ⟨_, _, rows, folded, resolved, _, inRows⟩ :=
    Algebra.rows_ok s (List.cons_ne_nil _ _) plain compiled
  obtain ⟨rfl, _⟩ := Prod.mk.inj (Except.ok.inj first)
  obtain ⟨rfl, _⟩ := Prod.mk.inj (Except.ok.inj second)
  obtain ⟨rfl, _⟩ := Prod.mk.inj (Except.ok.inj folded)
  refine ⟨sample_signs, lefts, rights, rows, resolvedLeft, resolvedRight, resolved,
    (sampleTripleRow sampleQuad.subject).visible,
    (inRows _).2 ⟨0, _, rfl, sampleClash_kept sampleConfig.encoder⟩, ?_⟩
  rintro ⟨_, memberU, _, memberV, agree, _⟩
  obtain ⟨i, u, rfl, keptU⟩ := (inLefts _).1 memberU
  obtain ⟨j, v, rfl, g, found, ⟨_, same, admits⟩, _⟩ := (inRights _).1 memberV
  obtain rfl := Option.some.inj (found.symm.trans same)
  obtain rfl := List.mem_singleton.1 (List.mem_of_getElem? found)
  have graph := sampleGraphs_kept keptU
  have subject := (Pattern.fits_ofVars_iff.1 (admits.fits_sample List.mem_cons_self)).1
  have clash := agree "x" _ _ ((u.visible_get "x").trans graph) ((v.visible_get "x").trans subject)
  exact absurd clash (by decide)

end AttestedQuery
