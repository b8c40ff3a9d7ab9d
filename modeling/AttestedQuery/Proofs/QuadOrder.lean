import AttestedQuery.Proofs.ProjectedNames
import AttestedQuery.Proofs.Solutions
import AttestedQuery.Proofs.Skipping

/-!
# Order and repetition of quads

Which rows the branches of a program admit depends on the set of the quads alone, and so does which
of them are kept. Two datasets over the same quads, in any order and however often each of them
stands in them, give the same projected bindings.
-/

set_option autoImplicit false

namespace AttestedQuery

/-! ## Projected names are user-visible -/

theorem Sparql.checkName_ok {name : String} (checked : Normal.checkName name = .ok ()) :
    Text.afterPart pathVariableLead.toList name.toList = none := by
  unfold Normal.checkName at checked
  split at checked
  next => cases checked
  next free => simpa using free

theorem Sparql.IsVariableName.isUserKey {name : String} (written : IsVariableName name)
    (free : Text.afterPart pathVariableLead.toList name.toList = none) : isUserKey name = true := by
  have noBlank : Text.afterPart ['_', ':'] name.toList = none := by
    have written := written.2
    generalize name.toList = letters at written
    match letters with
    | [] => rfl
    | [first] => simp [Text.afterPart]
    | first :: second :: rest =>
      have colon : second ≠ ':' := by
        rintro rfl
        exact absurd (written ':' (by simp)) (by decide)
      simp [Text.afterPart, colon.symm]
  simp [AttestedQuery.isUserKey, noBlank, free]

theorem Program.projected_user {config : Config} {text : String} {p : Program}
    (compiled : compile config text = .ok p) : ∀ name ∈ p.projected, isUserKey name = true := by
  intro name member
  refine (projected_written compiled name member).isUserKey ?_
  obtain ⟨_, _, compiled⟩ := bind_ok_iff.1 compiled
  obtain ⟨query, _, compiled⟩ := bind_ok_iff.1 compiled
  obtain ⟨normal, reduced, compiled⟩ := bind_ok_iff.1 compiled
  obtain ⟨fragments, compiles⟩ := ofNormal_ok compiled
  rw [compiles.projected] at member
  obtain ⟨_, drawn⟩ := NormalQuery.ofQuery_ok_iff.1 reduced
  obtain ⟨_, _, _, _, _, _, _, checked, _, rfl, _⟩ := NormalQuery.drawn_ok_iff.1 drawn
  exact Sparql.checkName_ok (forM_member checked member)

/-! ## The set of the quads decides -/

section Same

variable {first second : Dataset} {e : Encoder}
  (same : ∀ quad, quad ∈ first.quads ↔ quad ∈ second.quads)
include same

theorem Branch.admits_congr (b : Branch) (row : Row) :
    b.Admits first e row ↔ b.Admits second e row := by
  have fits (p : Pattern) : (∃ quad ∈ first.quads, p.Fits e.SameCode row quad) ↔
      ∃ quad ∈ second.quads, p.Fits e.SameCode row quad :=
    exists_congr fun quad => and_congr_left fun _ => same quad
  constructor
  · intro admits
    exact ⟨fun p member => (fits p).1 (admits.fits p member), admits.extended, admits.bound⟩
  · intro admits
    exact ⟨fun p member => (fits p).2 (admits.fits p member), admits.extended, admits.bound⟩

theorem Program.admits_congr (p : Program) : p.Admits first e = p.Admits second e := by
  funext i row
  exact propext (exists_congr fun b => and_congr_right fun _ => b.admits_congr same row)

end Same

theorem Row.restrict_visible {projected : List String}
    (user : ∀ name ∈ projected, isUserKey name = true) (row : Row) :
    row.visible.restrict projected.contains = row.restrict projected.contains := by
  apply KeyMap.ext
  intro key
  rw [KeyMap.get_restrict, KeyMap.get_restrict, Row.visible_get]
  split
  next listed => rw [if_pos (user key (List.contains_iff_mem.1 listed))]
  next => rfl

section Signed

variable {quads : List Quad} {config : Config} {signer : Signer} {d : Dataset}
  {tree : Commitment.Tree} {signature : Octets} {query : NormalQuery} {p : Program}
  {fragments : List Fragment}

/-- A resolution over no quads succeeds and returns nothing: no quad is there to fill a slot. -/
theorem Resolver.resolve_empty (s : d.SignedBy quads config signer tree signature)
    (empty : d.quads = []) (compiles : p.Compiles config query fragments) :
    ∃ resolution, (d.resolver config).resolve p = .ok resolution ∧ resolution.witnesses = [] := by
  obtain ⟨resolution, resolved⟩ : ∃ resolution,
      (d.resolver config).resolve p = .ok resolution := by
    apply resolve_succeeds
    intro b member
    obtain ⟨f, _, t, linked, traces⟩ := compiles.traces member
    exact ⟨_, compiles.candidates member, fun c inside =>
      Candidate.encodable s.encodedBy traces (compiles.candidates member) inside⟩
  refine ⟨resolution, resolved, List.eq_nil_iff_forall_not_mem.2 fun w member => ?_⟩
  obtain ⟨b, candidates, c, _, _, _, builds, _⟩ := mem_witnesses resolved member
  have slots : 0 < w.slots.length := by
    rw [length_slots builds]
    exact p.width_bounds.1
  have filled := builds.slots.get (builds.slots.length_eq ▸ slots) slots
  obtain ⟨codes, stored, _⟩ := Option.bind_eq_some_iff.1 filled
  have none : d.encoded = [] := by
    rw [← List.length_eq_zero_iff, s.encodedBy.length, empty]
    rfl
  change d.encoded[_]? = some codes at stored
  simp [none] at stored

/-- The bindings of a resolution are the kept rows, cut down to the projected names. -/
theorem Resolver.resolve_bindings (s : d.SignedBy quads config signer tree signature)
    (nonempty : d.quads ≠ []) (compiles : p.Compiles config query fragments)
    (user : ∀ name ∈ p.projected, isUserKey name = true) :
    ∃ (resolution : Resolution) (rows : List Row),
      (d.resolver config).resolve p = .ok resolution ∧
      resolution.witnesses.map (·.bindings) =
        rows.map (·.restrict p.projected.contains) ∧ rows.Nodup ∧
      ∀ row, row ∈ rows ↔ ∃ i full, row = full.visible ∧
        Fragment.Keeps config.encoder fragments (p.Admits d config.encoder) i full := by
  obtain ⟨resolution, entries, resolved, witnesses, nodup, rows, bindings⟩ :=
    resolve_entries s nonempty compiles
  refine ⟨resolution, entries.map Prod.fst, resolved, ?_, nodup, rows⟩
  rw [witnesses, List.map_map, List.map_map]
  refine List.map_congr_left fun entry member => ?_
  obtain ⟨i, full, _, row, bound⟩ := bindings entry member
  rw [Function.comp_apply, Function.comp_apply, bound, row, Row.restrict_visible user]

end Signed

/-- Two datasets of the same quads, signed under one configuration, give the same bindings of the
projected variables, and each as often. -/
theorem resolution_ignores_order (first second : List Quad) (config : Config)
    (signer other : Signer) (text : String) (d d' : Dataset) (p : Program)
    (same : ∀ quad, quad ∈ first ↔ quad ∈ second)
    (signed : Dataset.sign first config signer = .ok d)
    (resigned : Dataset.sign second config other = .ok d')
    (compiled : Program.compile config text = .ok p) :
    ∃ resolver resolver' resolution resolution', Resolver.ofDataset d config = .ok resolver ∧
      Resolver.ofDataset d' config = .ok resolver' ∧ resolver.resolve p = .ok resolution ∧
      resolver'.resolve p = .ok resolution' ∧
      (resolution.witnesses.map (·.bindings)).Perm (resolution'.witnesses.map (·.bindings)) := by
  obtain ⟨tree, signature, s⟩ := Dataset.sign_ok signed
  obtain ⟨tree', signature', s'⟩ := Dataset.sign_ok resigned
  obtain ⟨query, normal⟩ := Program.compile_ok compiled
  obtain ⟨fragments, compiles⟩ := Program.ofNormal_ok normal
  have user := Program.projected_user compiled
  have quads : ∀ quad, quad ∈ d.quads ↔ quad ∈ d'.quads := by
    rw [s.quads, s'.quads]
    exact same
  suffices resolves : ∃ resolution resolution', (d.resolver config).resolve p = .ok resolution ∧
      (d'.resolver config).resolve p = .ok resolution' ∧
      (resolution.witnesses.map (·.bindings)).Perm (resolution'.witnesses.map (·.bindings)) by
    obtain ⟨resolution, resolution', resolved, resolved', perm⟩ := resolves
    exact ⟨_, _, resolution, resolution', s.resolver, s'.resolver, resolved, resolved', perm⟩
  by_cases empty : d.quads = []
  · have empty' : d'.quads = [] := by
      refine List.eq_nil_iff_forall_not_mem.2 fun quad member => ?_
      rw [← quads quad, empty] at member
      cases member
    obtain ⟨resolution, resolved, none⟩ := Resolver.resolve_empty s empty compiles
    obtain ⟨resolution', resolved', none'⟩ := Resolver.resolve_empty s' empty' compiles
    exact ⟨resolution, resolution', resolved, resolved', by simp [none, none']⟩
  · have nonempty' : d'.quads ≠ [] := by
      obtain ⟨quad, member⟩ := List.exists_mem_of_ne_nil _ empty
      exact List.ne_nil_of_mem ((quads quad).1 member)
    obtain ⟨resolution, rows, resolved, bindings, nodup, kept⟩ :=
      Resolver.resolve_bindings s empty compiles user
    obtain ⟨resolution', rows', resolved', bindings', nodup', kept'⟩ :=
      Resolver.resolve_bindings s' nonempty' compiles user
    have perm : rows.Perm rows' := (List.perm_ext_iff_of_nodup nodup nodup').2 fun row => by
      rw [kept, kept', p.admits_congr quads]
    refine ⟨resolution, resolution', resolved, resolved', ?_⟩
    rw [bindings, bindings']
    exact perm.map _

def sampleDeepConfig : Config := { sampleConfig with treeDepth := 2 }

def sampleRepeated : List Quad := sampleLiterals.reverse ++ sampleLiterals

def sampleReordered : Result (Dataset × Dataset × Program) := do
  let d ← Dataset.sign sampleLiterals sampleDeepConfig sampleLiteralsSigner
  let d' ← Dataset.sign sampleRepeated sampleDeepConfig sampleLiteralsSigner
  return (d, d', ← Program.compile sampleDeepConfig sampleObjectsText)

set_option maxRecDepth 100000 in
theorem sampleReordered_isOk : sampleReordered.isOk = true := by decide +kernel

/-- The objects of the sample literals, listed once and repeated. -/
theorem resolution_ignores_order_sample : ∃ d d' p,
    (∀ quad, quad ∈ sampleLiterals ↔ quad ∈ sampleRepeated) ∧
    Dataset.sign sampleLiterals sampleDeepConfig sampleLiteralsSigner = .ok d ∧
    Dataset.sign sampleRepeated sampleDeepConfig sampleLiteralsSigner = .ok d' ∧
    Program.compile sampleDeepConfig sampleObjectsText = .ok p ∧
    ∃ resolver resolver' resolution resolution',
      Resolver.ofDataset d sampleDeepConfig = .ok resolver ∧
      Resolver.ofDataset d' sampleDeepConfig = .ok resolver' ∧
      resolver.resolve p = .ok resolution ∧ resolver'.resolve p = .ok resolution' ∧
      (resolution.witnesses.map (·.bindings)).Perm (resolution'.witnesses.map (·.bindings)) := by
  obtain ⟨⟨_, _, _⟩, made⟩ := exists_ok_of_isOk sampleReordered_isOk
  obtain ⟨d, signed, made⟩ := bind_ok_iff.1 made
  obtain ⟨d', resigned, made⟩ := bind_ok_iff.1 made
  obtain ⟨p, compiled, _⟩ := bind_ok_iff.1 made
  have same : ∀ quad, quad ∈ sampleLiterals ↔ quad ∈ sampleRepeated := by simp [sampleRepeated]
  exact ⟨d, d', p, same, signed, resigned, compiled,
    resolution_ignores_order sampleLiterals sampleRepeated sampleDeepConfig sampleLiteralsSigner
      sampleLiteralsSigner sampleObjectsText d d' p same signed resigned compiled⟩

end AttestedQuery
