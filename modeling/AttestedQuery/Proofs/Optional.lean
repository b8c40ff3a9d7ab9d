import AttestedQuery.Proofs.LeftJoin

/-!
# One optional part with filters inside and above

The rows of `A OPTIONAL { B FILTER F } FILTER G` for pattern groups `A` and `B`. The left part is
one fragment and the joined part another, which the first is exclusive of. Both share the outer
filter, so it does not count when a left row is given up, while the inner one does.
-/

set_option autoImplicit false

namespace AttestedQuery

/-- The normal form of an optional part with a filter inside and one above. -/
def Algebra.filteredOptional (left right : List Pattern) (inner outer : Expr) : Algebra :=
  .filter outer
    (Normal.optionalOf (.bgp left) (.filter inner ((Algebra.bgp left).joined (.bgp right))))

/-- A joined row that an inner filter is true of. -/
def Algebra.JoinsWhere (e : Encoder) (quads : List Quad) (left right : List Pattern) (inner : Expr)
    (row : Row) : Prop :=
  (join (.bgp left) (.bgp right)).Solves e.SameCode quads row ∧ row.satisfies e inner = true

/-! ## One fragment of patterns -/

namespace Fragment

section Patterns

variable {e : Encoder} {quads : List Quad} {row : Row} {patterns : List Pattern}

theorem found_ofPatterns_iff : Found e quads [ofPatterns patterns] row ↔
    (Algebra.bgp patterns).Solves e.SameCode quads row := by
  rw [Algebra.solves_bgp_iff]
  constructor
  · rintro ⟨f, member, admits, _⟩
    exact List.mem_singleton.1 member ▸ admits
  · intro admits
    exact ⟨_, List.mem_singleton.2 rfl, admits, by simp [Passes, ofPatterns]⟩

theorem kept_ofPatterns_iff : (∃ i, Kept e quads [ofPatterns patterns] i row) ↔
    (Algebra.bgp patterns).Solves e.SameCode quads row := by
  rw [← found_ofPatterns_iff]
  constructor
  · rintro ⟨i, kept⟩
    exact kept.found
  · rintro ⟨f, member, admits, passes⟩
    obtain rfl := List.mem_singleton.1 member
    exact ⟨0, _, rfl, ⟨_, rfl, admits⟩, passes, by simp [Suppressed, ofPatterns]⟩

theorem hasNames_of_bare {fragments : List Fragment} (bare : ∀ f ∈ fragments, f.extensions = [])
    (condition : Expr) : HasNames condition fragments :=
  fun f member _ _ mentioned => (contains_keys_iff (bare f member)).2 mentioned

end Patterns

/-! ## The fragments of the left and the joined rows -/

section Rows

variable {left right : List Pattern} {inner outer : Expr} {e : Encoder} {quads : List Quad}
  {row : Row}

def ofOptional (left right : List Pattern) (inner outer : Expr) : List Fragment :=
  (optional [ofPatterns left] ([ofPatterns (left ++ right)].map (withFilter 0 inner))).map
    (withFilter 1 outer)

theorem ofAlgebra_filteredOptional :
    ofAlgebra 0 (.filteredOptional left right inner outer) =
      .ok (ofOptional left right inner outer, 2) := rfl

theorem found_joinsWhere_iff :
    Found e quads ([ofPatterns (left ++ right)].map (withFilter 0 inner)) row ↔
      Algebra.JoinsWhere e quads left right inner row := by
  rw [found_withFilter_iff (hasNames_of_bare (by simp [ofPatterns]) inner), found_ofPatterns_iff,
    Algebra.JoinsWhere, ← Algebra.solves_joined_iff, Algebra.joined]

theorem kept_joinsWhere_iff :
    (∃ i, Kept e quads ([ofPatterns (left ++ right)].map (withFilter 0 inner)) i row) ↔
      Algebra.JoinsWhere e quads left right inner row := by
  have scopes : ∀ f ∈ [ofPatterns (left ++ right)], f.Scopes 0 0 :=
    (closed_scopes.bgp 0 (left ++ right)).2
  simp only [kept_withFilter_iff scopes (hasNames_of_bare (by simp [ofPatterns]) inner),
    exists_and_right, kept_ofPatterns_iff]
  rw [Algebra.JoinsWhere, ← Algebra.solves_joined_iff, Algebra.joined]

theorem kept_filteredOptional_iff : (∃ i, Kept e quads (ofOptional left right inner outer) i row) ↔
    (Algebra.JoinsWhere e quads left right inner row ∧ row.satisfies e outer = true) ∨
    ((Algebra.bgp left).Solves e.SameCode quads row ∧ row.satisfies e outer = true ∧
      ¬ ∃ other, Algebra.JoinsWhere e quads left right inner other ∧
        row.visible.Within other) := by
  have folded : ofAlgebra 0 (Normal.optionalOf (.bgp left)
      (.filter inner ((Algebra.bgp left).joined (.bgp right)))) = .ok (optional [ofPatterns left]
        ([ofPatterns (left ++ right)].map (withFilter 0 inner)), 1) := rfl
  have inside : ofAlgebra 0 (.filter inner ((Algebra.bgp left).joined (.bgp right))) =
      .ok ([ofPatterns (left ++ right)].map (withFilter 0 inner), 1) := rfl
  have names : HasNames outer (optional [ofPatterns left]
      ([ofPatterns (left ++ right)].map (withFilter 0 inner))) :=
    hasNames_of_bare (by simp [optional, ofPatterns, withFilter, shifted]) outer
  simp only [ofOptional, kept_withFilter_iff (closed_scopes.ofAlgebra _ folded).2 names,
    exists_and_right]
  rw [kept_optional_iff (closed_onward.bgp 0 left) (closed_scopes.bgp 0 left).2
    (closed_scopes.ofAlgebra _ inside).2, kept_ofPatterns_iff, kept_joinsWhere_iff]
  simp only [found_joinsWhere_iff]
  tauto

end Rows

end Fragment

/-- What a resolution returns for one optional part with filters inside and above, each row once:
the joined rows that both filters are true of, and the left rows that the outer filter is true of
and that no joined row extends of which the inner one is true. -/
theorem resolution_returns_optional (quads : List Quad) (config : Config) (signer : Signer)
    (d : Dataset) (left right : List Pattern) (inner outer : Expr) (query : NormalQuery)
    (p : Program) (signed : Dataset.sign quads config signer = .ok d) (nonempty : quads ≠ [])
    (shape : Program.bodyOf query.algebra = .filteredOptional left right inner outer)
    (projects : query.ProjectsAll) (compiled : Program.ofNormal config query = .ok p) :
    ∃ resolver resolution, Resolver.ofDataset d config = .ok resolver ∧
      resolver.resolve p = .ok resolution ∧
      (resolution.witnesses.map (·.bindings)).Nodup ∧
      ∀ row, row ∈ resolution.witnesses.map (·.bindings) ↔
        (∃ full, Algebra.JoinsWhere config.encoder quads left right inner full ∧
          full.satisfies config.encoder outer = true ∧ row = full.visible) ∨
        (∃ full, (Algebra.bgp left).Solves config.encoder.SameCode quads full ∧
          full.satisfies config.encoder outer = true ∧ row = full.visible ∧
          ¬ ∃ other, Algebra.JoinsWhere config.encoder quads left right inner other ∧
            full.visible.Within other) := by
  obtain ⟨tree, signature, s⟩ := Dataset.sign_ok signed
  obtain ⟨fragments, compiles⟩ := Program.ofNormal_ok compiled
  obtain ⟨next, folded⟩ := compiles.folded
  rw [shape] at folded
  have inside : ((Algebra.bgp left).leftJoin (.bgp right) (some inner)).Plain :=
    Algebra.leftJoin_plain (.bgp left) (.bgp right)
  have plain := Fragment.closed_plain.ofAlgebra _ folded (.filter outer inside)
  obtain ⟨resolution, resolved, nodup, rows⟩ :=
    Resolver.plain_rows s nonempty compiles plain projects
  obtain ⟨rfl, _⟩ :=
    Prod.mk.inj (Except.ok.inj (folded.symm.trans Fragment.ofAlgebra_filteredOptional))
  refine ⟨d.resolver config, resolution, s.resolver, resolved, nodup, fun row => ?_⟩
  rw [rows]
  constructor
  · rintro ⟨i, full, rfl, kept⟩
    rcases Fragment.kept_filteredOptional_iff.1 ⟨i, kept⟩ with
      ⟨joins, above⟩ | ⟨solves, above, free⟩
    · exact Or.inl ⟨full, joins, above, rfl⟩
    · exact Or.inr ⟨full, solves, above, rfl, free⟩
  · rintro (⟨full, joins, above, rfl⟩ | ⟨full, solves, above, rfl, free⟩)
    · obtain ⟨i, kept⟩ := Fragment.kept_filteredOptional_iff.2 (Or.inl ⟨joins, above⟩)
      exact ⟨i, full, rfl, kept⟩
    · obtain ⟨i, kept⟩ := Fragment.kept_filteredOptional_iff.2 (Or.inr ⟨solves, above, free⟩)
      exact ⟨i, full, rfl, kept⟩

/-- Triples with the graphs that they stand in, where the outer filter asks for no graph. -/
def sampleOptional : Algebra :=
  .filteredOptional [⟨.var "s", .var "p", .var "o", none⟩]
    [⟨.var "s", .var "p", .var "o", some (.var "g")⟩] (.call .isIri (.var "o")) (.not (.bound "g"))

set_option maxRecDepth 100000 in
theorem sampleOptional_compiles : (sampleCompiles sampleOptional.query).isOk = true := by
  decide +kernel

/-- The rows of the sample optional part over the sample quad. -/
theorem resolution_returns_optional_sample : ∃ p,
    Dataset.sign [sampleQuad] sampleConfig sampleSigner = .ok sampleDataset ∧
    Program.ofNormal sampleConfig sampleOptional.query = .ok p ∧
    sampleOptional.query.ProjectsAll ∧
    ∃ resolver resolution, Resolver.ofDataset sampleDataset sampleConfig = .ok resolver ∧
      resolver.resolve p = .ok resolution ∧
      (resolution.witnesses.map (·.bindings)).Nodup ∧
      ∀ row, row ∈ resolution.witnesses.map (·.bindings) ↔
        (∃ full, Algebra.JoinsWhere sampleConfig.encoder [sampleQuad]
            [⟨.var "s", .var "p", .var "o", none⟩] [⟨.var "s", .var "p", .var "o", some (.var "g")⟩]
            (.call .isIri (.var "o")) full ∧
          full.satisfies sampleConfig.encoder (.not (.bound "g")) = true ∧ row = full.visible) ∨
        (∃ full, (Algebra.bgp [⟨.var "s", .var "p", .var "o", none⟩]).Solves
            sampleConfig.encoder.SameCode [sampleQuad] full ∧
          full.satisfies sampleConfig.encoder (.not (.bound "g")) = true ∧ row = full.visible ∧
          ¬ ∃ other, Algebra.JoinsWhere sampleConfig.encoder [sampleQuad]
              [⟨.var "s", .var "p", .var "o", none⟩]
              [⟨.var "s", .var "p", .var "o", some (.var "g")⟩] (.call .isIri (.var "o")) other ∧
            full.visible.Within other) := by
  obtain ⟨p, compiled, _⟩ := exists_sampleProgram sampleOptional_compiles
  exact ⟨p, sample_signs, compiled, sampleOptional.query_projectsAll,
    resolution_returns_optional [sampleQuad] sampleConfig sampleSigner sampleDataset
      [⟨.var "s", .var "p", .var "o", none⟩] [⟨.var "s", .var "p", .var "o", some (.var "g")⟩]
      (.call .isIri (.var "o")) (.not (.bound "g")) sampleOptional.query p sample_signs
      (List.cons_ne_nil _ _) rfl sampleOptional.query_projectsAll compiled⟩

end AttestedQuery
