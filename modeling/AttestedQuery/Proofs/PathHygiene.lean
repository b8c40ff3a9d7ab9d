import AttestedQuery.Proofs.RenamedFragments

/-!
# Path variables that nobody names

User-visible keys are not reserved, so a permutation of reserved keys that conditions do not name
leaves the returned rows as they are. A query whose expressions name no path variable has the same
results whatever supply its path variables are drawn from.
-/

set_option autoImplicit false

namespace AttestedQuery

open AttestedQuery.Normal (Reserved)

/-! ## Rows of renamed fragments -/

section Rows

variable {σ : Equiv.Perm String} (fixes : ∀ key, ¬ Reserved key → σ key = key)
include fixes

/-- User-visible keys are not reserved, so a renamed row looks the same to its user. -/
theorem Row.visible_renamed (row : Row) : Row.visible (row.renamed σ) = row.visible := by
  apply KeyMap.ext
  intro key
  rw [visible_get, visible_get]
  split
  next user =>
    have back : σ.symm key = key := by
      rw [Equiv.symm_apply_eq, fixes key (Normal.not_reserved_of_user user)]
    rw [KeyMap.get_renamed, back]
  next => rfl

theorem Row.within_renamed (row other : Row) :
    row.visible.Within (other.renamed σ) ↔ row.visible.Within other := by
  have same (key : String) (value : Term) (held : row.visible.get? key = some value) :
      (other.renamed σ).get? key = other.get? key := by
    rw [visible_get] at held
    split at held
    next user =>
      have back : σ.symm key = key := by
        rw [Equiv.symm_apply_eq, fixes key (Normal.not_reserved_of_user user)]
      rw [KeyMap.get_renamed, back]
    next => cases held
  exact forall₃_congr fun key value held => by rw [same key value held]

namespace Fragment

variable {e : Encoder} {quads : List Quad} {fragments : List Fragment}
  {admits admits' : Nat → Row → Prop}

theorem keeps_renamed (unmoved : ∀ f ∈ fragments, f.Unmoved σ)
    (admitted : ∀ i row, admits' i (row.renamed σ) ↔ admits i row) (i : Nat) (row : Row) :
    Keeps e (fragments.map (renamed σ)) admits' i (row.renamed σ) ↔
      Keeps e fragments admits i row := by
  have suppressed (f : Fragment) : (f.renamed σ).Suppressed e (fragments.map (renamed σ)) admits'
      (row.renamed σ) ↔ f.Suppressed e fragments admits row := by
    simp only [Suppressed, List.getElem?_map, Option.map_eq_some_iff, Row.visible_renamed fixes]
    refine exists_congr fun j => and_congr Iff.rfl ?_
    constructor
    · rintro ⟨_, other, ⟨g, here, rfl⟩, admits, beside, within⟩
      rw [← KeyMap.renamed_symm σ other] at admits beside within
      exact ⟨g, _, here, (admitted j _).1 admits,
        (passesBeside_renamed (unmoved g (List.mem_of_getElem? here))).1 beside,
        (Row.within_renamed fixes row _).1 within⟩
    · rintro ⟨g, other, here, admits, beside, within⟩
      exact ⟨_, _, ⟨g, here, rfl⟩, (admitted j other).2 admits,
        (passesBeside_renamed (unmoved g (List.mem_of_getElem? here))).2 beside,
        (Row.within_renamed fixes row other).2 within⟩
  simp only [Keeps, List.getElem?_map, Option.map_eq_some_iff]
  constructor
  · rintro ⟨_, ⟨f, here, rfl⟩, admits, passes, free⟩
    exact ⟨f, here, (admitted i row).1 admits,
      (passes_renamed (unmoved f (List.mem_of_getElem? here))).1 passes,
      (suppressed f).not.1 free⟩
  · rintro ⟨f, here, admits, passes, free⟩
    exact ⟨_, ⟨f, here, rfl⟩, (admitted i row).2 admits,
      (passes_renamed (unmoved f (List.mem_of_getElem? here))).2 passes,
      (suppressed f).not.2 free⟩

end Fragment

end Rows

/-! ## Renamed queries -/

section Queries

open Fragment

variable {σ : Equiv.Perm String} {config : Config} {query : NormalQuery} {p q : Program}
  {fragments others : List Fragment} (fixes : ∀ key, ¬ Reserved key → σ key = key)
  (unread : ∀ key ∈ (Program.bodyOf query.algebra).reads, σ key = key)

theorem bodyOf_renamed (a : Algebra) :
    Program.bodyOf (a.renamed σ) = (Program.bodyOf a).renamed σ := by
  cases a <;> rfl

include fixes unread

theorem Program.exists_ofNormal_renamed (compiled : ∃ p, ofNormal config query = .ok p) :
    ∃ q, ofNormal config (query.renamed σ) = .ok q := by
  obtain ⟨fragments, next, folded, each⟩ := exists_ofNormal_iff.1 compiled
  refine exists_ofNormal_iff.2 ⟨fragments.map (Fragment.renamed σ), next, ?_,
    List.forall_mem_map.2 fun f member => ?_⟩
  · rw [NormalQuery.renamed, bodyOf_renamed]
    exact (closed_renamed fixes).ofAlgebra _ folded unread
  · refine (compiles_renamed fixes fun x filter key named => ?_).2 (each f member)
    exact unread key (closed_reads.ofAlgebra _ folded f member x filter key named)

theorem Program.keeps_renamed_iff (compiles : p.Compiles config query fragments)
    (compiles' : q.Compiles config (query.renamed σ) others) (d : Dataset) (row : Row) :
    (∃ i full, row = full.visible ∧
      Fragment.Keeps config.encoder fragments (p.Admits d config.encoder) i full) ↔
    ∃ i full, row = full.visible ∧
      Fragment.Keeps config.encoder others (q.Admits d config.encoder) i full := by
  obtain ⟨next, folded⟩ := compiles.folded
  obtain ⟨last, folded'⟩ := compiles'.folded
  rw [NormalQuery.renamed, bodyOf_renamed,
    (closed_renamed fixes).ofAlgebra _ folded unread] at folded'
  obtain ⟨rfl, rfl⟩ := Prod.mk.inj (Except.ok.inj folded')
  have unmoved (f : Fragment) (member : f ∈ fragments) : f.Unmoved σ := fun x filter key named =>
    unread key (closed_reads.ofAlgebra _ folded f member x filter key named)
  have admitted (i : Nat) (row : Row) : q.Admits d config.encoder i (row.renamed σ) ↔
      p.Admits d config.encoder i row := by
    rw [compiles.admits_iff_yields, compiles'.admits_iff_yields]
    simp only [List.getElem?_map, Option.map_eq_some_iff]
    constructor
    · rintro ⟨_, ⟨f, here, rfl⟩, yields⟩
      exact ⟨f, here, (yields_renamed fixes).1 yields⟩
    · rintro ⟨f, here, yields⟩
      exact ⟨_, ⟨f, here, rfl⟩, (yields_renamed fixes).2 yields⟩
  constructor
  · rintro ⟨i, full, rfl, kept⟩
    exact ⟨i, full.renamed σ, (Row.visible_renamed fixes full).symm,
      (keeps_renamed fixes unmoved admitted i full).2 kept⟩
  · rintro ⟨i, full, rfl, kept⟩
    rw [← KeyMap.renamed_symm σ full] at kept ⊢
    exact ⟨i, _, Row.visible_renamed fixes _,
      (keeps_renamed fixes unmoved admitted i _).1 kept⟩

theorem Program.resolve_renamed {quads : List Quad} {signer : Signer} {d : Dataset}
    {tree : Commitment.Tree} {signature : Octets}
    (s : d.SignedBy quads config signer tree signature)
    (compiles : p.Compiles config query fragments)
    (compiles' : q.Compiles config (query.renamed σ) others)
    (user : ∀ name ∈ p.projected, isUserKey name = true) :
    ∃ resolution resolution', (d.resolver config).resolve p = .ok resolution ∧
      (d.resolver config).resolve q = .ok resolution' ∧
      (resolution.witnesses.map (·.bindings)).Perm (resolution'.witnesses.map (·.bindings)) := by
  have projected (name : String) : name ∈ p.projected ↔ name ∈ q.projected := by
    rw [compiles.projected, compiles'.projected]
    rfl
  exact Resolver.resolve_same s compiles compiles' user projected
    (keeps_renamed_iff fixes unread compiles compiles' d)

end Queries

/-- The variables of an accepted query that stand at a place of binding are not reserved, and a
query whose expressions name no path variable of two supplies has the same outcome for both: it can
be compiled for both or for neither, and resolves to the same bindings over every signed dataset. -/
theorem path_supply_irrelevant (config : Config) (text : String) (query : Sparql.Query)
    (normal : NormalQuery) (supply : Nat → String) (distinct : Function.Injective supply)
    (reserved : ∀ n, Reserved (supply n)) (parsed : Sparql.Query.parse text = .ok query)
    (accepted : NormalQuery.ofQuery config.maxPathHops query = .ok normal) :
    (∀ name ∈ normal.projected ++ query.pattern.body.inScope, ¬ Reserved name) ∧
    ∃ other count, NormalQuery.drawn pathKey config.maxPathHops query = .ok (normal, count) ∧
      NormalQuery.drawn supply config.maxPathHops query = .ok (other, count) ∧
      ((∀ name ∈ normal.algebra.reads, ∀ n < count, name ≠ pathKey n ∧ name ≠ supply n) →
        ((∃ p, Program.ofNormal config normal = .ok p) ↔
          ∃ q, Program.ofNormal config other = .ok q) ∧
        ∀ p q, Program.ofNormal config normal = .ok p → Program.ofNormal config other = .ok q →
          ∀ quads signer d, Dataset.sign quads config signer = .ok d →
            ∃ resolver resolution resolution', Resolver.ofDataset d config = .ok resolver ∧
              resolver.resolve p = .ok resolution ∧ resolver.resolve q = .ok resolution' ∧
              (resolution.witnesses.map (·.bindings)).Perm
                (resolution'.witnesses.map (·.bindings))) := by
  have free := NormalQuery.free_of_ofQuery accepted
  obtain ⟨count, drawn⟩ := NormalQuery.ofQuery_ok_iff.1 accepted
  obtain ⟨σ, redraws, kept⟩ := exists_redraws (fun n m => pathKey_inj) distinct
    Normal.reserved_pathKey reserved count
  have redrawn := NormalQuery.drawn_renamed redraws drawn
  refine ⟨free, normal.renamed σ, count, drawn, redrawn, fun unnamed => ?_⟩
  have unread : ∀ key ∈ (Program.bodyOf normal.algebra).reads, σ key = key := by
    rw [Algebra.reads_bodyOf]
    exact fun key read => kept key (unnamed key read)
  refine ⟨⟨Program.exists_ofNormal_renamed redraws.fixes unread, fun compiled => ?_⟩, ?_⟩
  · -- Drawn from the first supply again, the other normal form is the first one.
    have back := NormalQuery.drawn_renamed redraws.symm redrawn
    obtain ⟨same, _⟩ := Prod.mk.inj (Except.ok.inj (drawn.symm.trans back))
    rw [same]
    refine Program.exists_ofNormal_renamed redraws.symm.fixes ?_ compiled
    rw [NormalQuery.renamed, bodyOf_renamed, Algebra.reads_renamed]
    exact fun key read => by rw [Equiv.symm_apply_eq, unread key read]
  · intro p q compiled compiled' quads signer d signed
    obtain ⟨tree, signature, s⟩ := Dataset.sign_ok signed
    obtain ⟨fragments, compiles⟩ := Program.ofNormal_ok compiled
    obtain ⟨others, compiles'⟩ := Program.ofNormal_ok compiled'
    have user : ∀ name ∈ p.projected, isUserKey name = true := by
      rw [compiles.projected]
      intro name member
      have written := NormalQuery.ofQuery_written (Sparql.Query.parse_written parsed) accepted
      refine (written name member).isUserKey (Option.not_isSome_iff_eq_none.1 ?_)
      exact free name (List.mem_append_left _ member)
    obtain ⟨resolution, resolution', same⟩ :=
      Program.resolve_renamed redraws.fixes unread s compiles compiles' user
    exact ⟨_, resolution, resolution', s.resolver, same⟩

def otherKey (n : Nat) : String := "__pathway" ++ Decimal.textOfInt n

theorem otherKey_inj : Function.Injective otherKey := by
  intro n m same
  exact pathKey_inj (congrArg (pathVariableLead ++ ·) ((String.append_right_inj _).1 same))

theorem reserved_otherKey (n : Nat) : Reserved (otherKey n) := by
  simp [Reserved, otherKey, pathVariableLead, Text.afterPart]

def steppedText : String :=
  "SELECT ?s ?o WHERE \x7b ?s <http://e/p>+ ?o FILTER(BOUND(?o)) \x7d"

/-- A text can be compiled, and its expressions name just one key. -/
def readsOnly (config : Config) (key text : String) : Result Unit := do
  let query ← Sparql.Query.parse text
  let normal ← NormalQuery.ofQuery config.maxPathHops query
  let _ ← Program.ofNormal config normal
  if normal.algebra.reads = [key] then return () else .error .badQuery

set_option maxRecDepth 100000 in
theorem stepped_reads : (readsOnly sampleConfig "o" steppedText).isOk = true := by
  decide +kernel

theorem path_supply_irrelevant_sample : ∃ query normal other count p q,
    Function.Injective otherKey ∧ (∀ n, Reserved (otherKey n)) ∧
    Sparql.Query.parse steppedText = .ok query ∧
    NormalQuery.ofQuery sampleConfig.maxPathHops query = .ok normal ∧
    NormalQuery.drawn otherKey sampleConfig.maxPathHops query = .ok (other, count) ∧
    (∀ name ∈ normal.algebra.reads, ∀ n < count, name ≠ pathKey n ∧ name ≠ otherKey n) ∧
    Program.ofNormal sampleConfig normal = .ok p ∧ Program.ofNormal sampleConfig other = .ok q ∧
    Dataset.sign [sampleQuad] sampleConfig sampleSigner = .ok sampleDataset ∧
    ∃ resolver resolution resolution',
      Resolver.ofDataset sampleDataset sampleConfig = .ok resolver ∧
      resolver.resolve p = .ok resolution ∧ resolver.resolve q = .ok resolution' ∧
      (resolution.witnesses.map (·.bindings)).Perm (resolution'.witnesses.map (·.bindings)) := by
  obtain ⟨_, made⟩ := exists_ok_of_isOk stepped_reads
  obtain ⟨query, parsed, made⟩ := bind_ok_iff.1 made
  obtain ⟨normal, accepted, made⟩ := bind_ok_iff.1 made
  obtain ⟨p, compiled, made⟩ := bind_ok_iff.1 made
  have reads : normal.algebra.reads = ["o"] := by
    split at made
    next reads => exact reads
    next => cases made
  obtain ⟨_, other, count, _, redrawn, same⟩ := path_supply_irrelevant sampleConfig steppedText
    query normal otherKey otherKey_inj reserved_otherKey parsed accepted
  have unnamed : ∀ name ∈ normal.algebra.reads, ∀ n < count,
      name ≠ pathKey n ∧ name ≠ otherKey n := by
    rw [reads, List.forall_mem_singleton]
    have free : ¬ Reserved "o" := Normal.not_reserved_of_user (by decide)
    exact fun n _ => ⟨fun is => free (is ▸ Normal.reserved_pathKey n),
      fun is => free (is ▸ reserved_otherKey n)⟩
  obtain ⟨both, rows⟩ := same unnamed
  obtain ⟨q, compiled'⟩ := both.1 ⟨p, compiled⟩
  exact ⟨query, normal, other, count, p, q, otherKey_inj, reserved_otherKey, parsed, accepted,
    redrawn, unnamed, compiled, compiled', sample_signs,
    rows p q compiled compiled' _ _ _ sample_signs⟩

/-! ## An expression that names a path variable -/

/-- A pattern with two variables fits a quad whose subject and object they have and whose predicate
agrees with its own. -/
theorem Pattern.fits_step {agrees : Term → Term → Prop} {row : Row} {quad : Quad}
    {subject object : String} {term : Term} (first : row.get? subject = some quad.subject)
    (second : agrees term quad.predicate) (third : row.get? object = some quad.object) :
    Pattern.Fits agrees row ⟨.var subject, .const term, .var object, none⟩ quad :=
  fits_iff.2 ⟨PatternTerm.fits_var_iff.2 first, PatternTerm.fits_const_iff.2 second,
    PatternTerm.fits_var_iff.2 third, nofun⟩

def sharedText : String :=
  "SELECT ?s WHERE \x7b ?s (<http://e/p>/^<http://e/p>)|<http://e/q> ?o " ++
    "FILTER(BOUND(?__path0)) \x7d"

def sharedPatterns (name : String) : List Pattern :=
  [⟨.var "s", .const (.iri "http://e/p"), .var name, none⟩,
    ⟨.var "o", .const (.iri "http://e/p"), .var name, none⟩]

def directPatterns : List Pattern := [⟨.var "s", .const (.iri "http://e/q"), .var "o", none⟩]

def sharedBody (name : String) : Algebra :=
  .filter (.bound (pathKey 0)) (.union .plain [.bgp (sharedPatterns name), .bgp directPatterns])

/-- The body of the normal form is the one where the inner node has the given name. -/
def isSharedBody (name : String) (body : Algebra) : Bool :=
  match body with
  | .filter (.bound key) (.union .plain [.bgp shared, .bgp direct]) =>
    decide (key = pathKey 0 ∧ shared = sharedPatterns name ∧ direct = directPatterns)
  | _ => false

theorem eq_sharedBody {name : String} {body : Algebra} (tested : isSharedBody name body = true) :
    body = sharedBody name := by
  unfold isSharedBody at tested
  split at tested
  next =>
    obtain ⟨rfl, rfl, rfl⟩ := of_decide_eq_true tested
    rfl
  next => cases tested

def sharedFragments (name : String) : List Fragment :=
  [sharedPatterns name, directPatterns].map fun patterns =>
    (Fragment.ofPatterns patterns).withFilter 0 (.bound (pathKey 0))

theorem sharedBody_folded (name : String) :
    Fragment.ofAlgebra 0 (sharedBody name) = .ok (sharedFragments name, 1) := rfl

/-- A row is only kept where the inner node has the name that is asked for. -/
theorem eq_pathKey_of_kept {e : Encoder} {quads : List Quad} {name : String} {i : Nat} {row : Row}
    (kept : Fragment.Kept e quads (sharedFragments name) i row) : name = pathKey 0 := by
  obtain ⟨f, found, ⟨_, same, admits⟩, passes, _⟩ := kept
  obtain rfl := Option.some.inj (found.symm.trans same)
  obtain ⟨patterns, listed, rfl⟩ := List.mem_map.1 (List.mem_of_getElem? found)
  have bound : (row.get? (pathKey 0)).isSome = true := by
    have holds := ((Fragment.passes_withFilter_iff 0).1 passes).2
    rw [ScopedFilter.isTrue, Row.satisfies_bound, KeyMap.get_restrict] at holds
    split at holds
    next => exact holds
    next => cases holds
  have asked := (admits.bound _).1 bound
  rcases List.mem_pair.1 listed with rfl | rfl
  · have among : pathKey 0 ∈ ["s", name, "o", name] := asked
    simpa [show pathKey 0 ≠ "s" by decide, show pathKey 0 ≠ "o" by decide, eq_comm] using among
  · have among : pathKey 0 ∈ ["s", "o"] := asked
    exact absurd among (by decide)

def sharedRow : Row :=
  KeyMap.ofList [("s", sampleQuad.subject), ("o", sampleQuad.subject),
    (pathKey 0, sampleQuad.object)]

theorem sharedRow_kept : Fragment.Kept sampleConfig.encoder [sampleQuad]
    (sharedFragments (pathKey 0)) 0 sharedRow := by
  obtain ⟨_, predicate, _, _⟩ := QuadOf.mapM_ok_iff.1 sample_encodes
  have same : sampleConfig.encoder.SameCode (.iri "http://e/p") sampleQuad.predicate :=
    ⟨_, predicate, predicate⟩
  have admits : Fragment.Admits sampleConfig.encoder.SameCode [sampleQuad]
      ((Fragment.ofPatterns (sharedPatterns (pathKey 0))).withFilter 0 (.bound (pathKey 0)))
      sharedRow := by
    refine Fragment.admits_sample rfl rfl (fun p member => ?_) (by decide) (by decide)
    rcases List.mem_pair.1 member with rfl | rfl
    · exact Pattern.fits_step (by decide) same (by decide)
    · exact Pattern.fits_step (by decide) same (by decide)
  refine ⟨_, rfl, ⟨_, rfl, admits⟩, ?_, ?_⟩
  · rw [Fragment.passes_withFilter_iff, ScopedFilter.isTrue, Row.satisfies_bound,
      KeyMap.get_restrict]
    exact ⟨by simp [Fragment.Passes, Fragment.ofPatterns], by decide⟩
  · simp [Fragment.Suppressed, Fragment.ofPatterns, Fragment.withFilter]

def sharedProgram (supply : Nat → String) :
    Result (Sparql.Query × NormalQuery × Nat × Program) := do
  let query ← Sparql.Query.parse sharedText
  let (normal, count) ← NormalQuery.drawn supply sampleConfig.maxPathHops query
  let p ← Program.ofNormal sampleConfig normal
  return (query, normal, count, p)

def sharedTest (name : String) (normal : NormalQuery) : Bool :=
  isSharedBody name (Program.bodyOf normal.algebra) && normal.projected.all isUserKey

set_option maxRecDepth 100000 in
theorem shared_tested :
    (sharedProgram pathKey).toOption.any (sharedTest (pathKey 0) ·.2.1) = true ∧
    (sharedProgram otherKey).toOption.any (sharedTest (otherKey 0) ·.2.1) = true := by
  decide +kernel

/-- With path variables of a supply the text has an outcome over the sample quad, and returns a row
only if the first of these variables is the one that its filter names. -/
theorem shared_resolves {supply : Nat → String}
    (tested : (sharedProgram supply).toOption.any (sharedTest (supply 0) ·.2.1) = true) :
    ∃ query normal count p resolution, Sparql.Query.parse sharedText = .ok query ∧
      NormalQuery.drawn supply sampleConfig.maxPathHops query = .ok (normal, count) ∧
      Program.ofNormal sampleConfig normal = .ok p ∧
      (sampleDataset.resolver sampleConfig).resolve p = .ok resolution ∧
      (resolution.witnesses ≠ [] ↔ supply 0 = pathKey 0) := by
  obtain ⟨⟨query, normal, count, p⟩, made, tested⟩ := exists_ok_of_any tested
  obtain ⟨query, parsed, made⟩ := bind_ok_iff.1 made
  obtain ⟨⟨normal, count⟩, drawn, made⟩ := bind_ok_iff.1 made
  obtain ⟨p, compiled, made⟩ := bind_ok_iff.1 made
  cases made
  obtain ⟨body, user⟩ := Bool.and_eq_true_iff.1 tested
  obtain ⟨tree, signature, s⟩ := Dataset.sign_ok sample_signs
  obtain ⟨fragments, compiles⟩ := Program.ofNormal_ok compiled
  obtain ⟨next, folded⟩ := compiles.folded
  rw [eq_sharedBody body, sharedBody_folded] at folded
  obtain ⟨rfl, _⟩ := Prod.mk.inj (Except.ok.inj folded)
  obtain ⟨resolution, rows, resolved, bindings, _, kept⟩ :=
    Resolver.resolve_bindings s (List.cons_ne_nil _ _) compiles fun name member =>
      List.all_eq_true.1 user name (compiles.projected ▸ member)
  refine ⟨query, normal, count, p, resolution, parsed, drawn, compiled, resolved, ?_⟩
  have empty : resolution.witnesses = [] ↔ rows = [] := by
    rw [← List.map_eq_nil_iff, bindings, List.map_eq_nil_iff]
  have plain : ∀ f ∈ sharedFragments (supply 0), f.IsPlain := by
    simp [sharedFragments, Fragment.IsPlain, Fragment.withFilter, Fragment.ofPatterns]
  have admitted : p.Admits sampleDataset sampleConfig.encoder = Fragment.AdmitsAt
      sampleConfig.encoder.SameCode [sampleQuad] (sharedFragments (supply 0)) := by
    funext i row
    exact propext (Program.admits_iff compiles plain i row)
  rw [admitted] at kept
  rw [ne_eq, empty]
  constructor
  · intro some
    obtain ⟨row, member⟩ := List.exists_mem_of_ne_nil rows some
    obtain ⟨i, full, _, here⟩ := (kept row).1 member
    exact eq_pathKey_of_kept here
  · intro named
    rw [named] at kept
    exact List.ne_nil_of_mem ((kept _).2 ⟨0, sharedRow, rfl, sharedRow_kept⟩)

/-- A filter names the inner node of a path, and reads it: the query is accepted and returns a row,
and returns none where the path variables are drawn from another supply. -/
theorem path_variable_read : ∃ query normal other count p q resolver resolution resolution',
    Sparql.Query.parse sharedText = .ok query ∧
    NormalQuery.ofQuery sampleConfig.maxPathHops query = .ok normal ∧
    NormalQuery.drawn otherKey sampleConfig.maxPathHops query = .ok (other, count) ∧
    Program.ofNormal sampleConfig normal = .ok p ∧ Program.ofNormal sampleConfig other = .ok q ∧
    Dataset.sign [sampleQuad] sampleConfig sampleSigner = .ok sampleDataset ∧
    Resolver.ofDataset sampleDataset sampleConfig = .ok resolver ∧
    resolver.resolve p = .ok resolution ∧ resolver.resolve q = .ok resolution' ∧
    resolution.witnesses ≠ [] ∧ resolution'.witnesses = [] := by
  obtain ⟨tree, signature, s⟩ := Dataset.sign_ok sample_signs
  obtain ⟨query, normal, count, p, resolution, parsed, drawn, compiled, resolved, found⟩ :=
    shared_resolves shared_tested.1
  obtain ⟨query', other, count', q, resolution', parsed', redrawn, compiled', resolved', none⟩ :=
    shared_resolves shared_tested.2
  obtain rfl := Except.ok.inj (parsed.symm.trans parsed')
  exact ⟨query, normal, other, count', p, q, _, resolution, resolution', parsed,
    NormalQuery.ofQuery_ok_iff.2 ⟨count, drawn⟩, redrawn, compiled, compiled', sample_signs,
    s.resolver, resolved, resolved', found.2 rfl, not_not.1 (none.not.2 (by decide))⟩

end AttestedQuery
