import AttestedQuery.Proofs.Joins
import AttestedQuery.Proofs.OpenedUnions

/-!
# Trees whose joins and unions are merged

A tree can be made with the combinators of joins and plain unions in place of the plain nodes:
pattern groups that are joined become one, unions in a union are opened, and a single branch stands
alone. The fragments are the same, with their filters, their numbers and what they exclude, so the
program is the same. One thing is seen from outside: a projection that is the only branch of unions
at the root comes up to the root, where it is no subquery.
-/

set_option autoImplicit false

namespace AttestedQuery

namespace Algebra

mutual

/-- The same tree with its joins and plain unions made by the combinators. -/
def merged : Algebra → Algebra
  | .bgp patterns => .bgp patterns
  | .join left right => left.merged.joined right.merged
  | .union .plain branches => united (mergedAll branches)
  | .union .exclusive branches => .union .exclusive (mergedAll branches)
  | .filter condition inner => .filter condition inner.merged
  | .extend pathAlias name value inner => .extend pathAlias name value inner.merged
  | .project names inner => .project names inner.merged

def mergedAll : List Algebra → List Algebra
  | [] => []
  | branch :: rest => branch.merged :: mergedAll rest

end

def IsProjection (a : Algebra) : Prop := ∃ names inner, a = .project names inner

/-- Merging leaves a projection at a root that was none. -/
def BringsUpProjection (a : Algebra) : Prop := ¬a.IsProjection ∧ a.merged.IsProjection

end Algebra

namespace Fragment

mutual

theorem ofAlgebra_merged : (a : Algebra) → (n : Nat) → ofAlgebra n a.merged = ofAlgebra n a
  | .bgp patterns, n => rfl
  | .join left right, n => by
    rw [Algebra.merged, ofAlgebra_joined, ofAlgebra, ofAlgebra, ofAlgebra_merged left]
    simp only [ofAlgebra_merged right]
  | .union .plain branches, n => by
    rw [Algebra.merged, ofAlgebra_united, ofAlgebra, ofAlgebra, ofBranches_merged branches]
  | .union .exclusive branches, n => by
    rw [Algebra.merged, ofAlgebra, ofAlgebra, ofBranches_merged branches]
  | .filter condition inner, n => by
    rw [Algebra.merged, ofAlgebra, ofAlgebra, ofAlgebra_merged inner]
  | .extend pathAlias name value inner, n => by
    rw [Algebra.merged, ofAlgebra, ofAlgebra, ofAlgebra_merged inner]
  | .project names inner, n => rfl

theorem ofBranches_merged : (branches : List Algebra) → (n : Nat) →
    ofBranches n (Algebra.mergedAll branches) = ofBranches n branches
  | [], n => rfl
  | branch :: rest, n => by
    rw [Algebra.mergedAll, ofBranches, ofBranches, ofAlgebra_merged branch]
    simp only [ofBranches_merged rest]

end

end Fragment

/-- The same query with its tree merged. -/
def NormalQuery.merged (query : NormalQuery) : NormalQuery :=
  { query with algebra := query.algebra.merged }

namespace Program

theorem bodyOf_of_not_projection {a : Algebra} (other : ¬a.IsProjection) : bodyOf a = a := by
  unfold bodyOf
  split
  next names inner => exact absurd ⟨names, inner, rfl⟩ other
  next => rfl

/-- Merging and taking the part below the projection can be done in either order. -/
theorem bodyOf_merged {a : Algebra} (stays : ¬a.BringsUpProjection) :
    bodyOf a.merged = (bodyOf a).merged := by
  by_cases projection : a.IsProjection
  · obtain ⟨names, inner, rfl⟩ := projection
    rfl
  · have same : ¬a.merged.IsProjection := fun raised => stays ⟨projection, raised⟩
    rw [bodyOf_of_not_projection projection, bodyOf_of_not_projection same]

/-- Merging is invisible in the fragments of every tree, and in the program of every query, unless a
projection comes up to the root; such a query is refused as it is. -/
theorem merged_tree_compiles_alike (config : Config) (query : NormalQuery) :
    (∀ n, Fragment.ofAlgebra n query.algebra.merged = Fragment.ofAlgebra n query.algebra) ∧
    (¬query.algebra.BringsUpProjection → ofNormal config query.merged = ofNormal config query) ∧
    (query.algebra.BringsUpProjection →
      ofNormal config query = .error (.unsupported .subquery)) := by
  refine ⟨Fragment.ofAlgebra_merged query.algebra, fun stays => ?_, fun raised => ?_⟩
  · have body : Fragment.ofAlgebra 0 (bodyOf query.merged.algebra) =
        Fragment.ofAlgebra 0 (bodyOf query.algebra) := by
      rw [NormalQuery.merged, bodyOf_merged stays, Fragment.ofAlgebra_merged]
    rw [ofNormal, ofNormal, body]
    rfl
  · obtain ⟨hidden, names, inner, same⟩ := raised
    have refused : Fragment.ofAlgebra 0 query.algebra = .error (.unsupported .subquery) := by
      rw [← Fragment.ofAlgebra_merged, same, Fragment.ofAlgebra]
    rw [ofNormal, bodyOf_of_not_projection hidden, refused]
    rfl

/-! ## Samples -/

def samplePatternOf (name : String) : Pattern := ⟨.var name, .var "p", .var "o", none⟩

/-- Unions below an optional part with a filter in one of them, joined with pattern groups. -/
def sampleNested : Algebra :=
  .join (.join (.bgp [samplePatternOf "a"]) (.bgp [samplePatternOf "b"]))
    (.union .plain [.union .plain [.bgp [samplePatternOf "c"], .bgp [samplePatternOf "d"]],
      .union .exclusive [.bgp [samplePatternOf "e"],
        .union .plain [.filter (.bound "e") (.bgp [samplePatternOf "e"])]]])

def sampleHidden : Algebra := .union .plain [.project ["s"] (.bgp [samplePatternOf "s"])]

def sampleSelect (a : Algebra) : NormalQuery := ⟨.select, a, ["s"], .none⟩

theorem sampleNested_stays : ¬(sampleSelect sampleNested).algebra.BringsUpProjection := by
  rintro ⟨_, names, inner, same⟩
  cases same

theorem sampleHidden_raised : (sampleSelect sampleHidden).algebra.BringsUpProjection := by
  refine ⟨?_, _, _, rfl⟩
  rintro ⟨names, inner, same⟩
  cases same

theorem merged_tree_compiles_alike_sample :
    ¬(sampleSelect sampleNested).algebra.BringsUpProjection ∧
      ofNormal sampleConfig (sampleSelect sampleNested).merged =
        ofNormal sampleConfig (sampleSelect sampleNested) ∧
      (sampleSelect sampleHidden).algebra.BringsUpProjection ∧
      ofNormal sampleConfig (sampleSelect sampleHidden) = .error (.unsupported .subquery) :=
  ⟨sampleNested_stays,
    (merged_tree_compiles_alike sampleConfig (sampleSelect sampleNested)).2.1 sampleNested_stays,
    sampleHidden_raised,
    (merged_tree_compiles_alike sampleConfig (sampleSelect sampleHidden)).2.2 sampleHidden_raised⟩

/-- A projection in a union is refused as a subquery, and is a query of its own when the union is
merged. -/
theorem hidden_projection_compiles_when_merged :
    ofNormal sampleConfig (sampleSelect sampleHidden) = .error (.unsupported .subquery) ∧
      ∃ p, ofNormal sampleConfig (sampleSelect sampleHidden).merged = .ok p := by
  refine ⟨rfl, ?_⟩
  exact exists_ok_of_isOk (by decide +kernel)

end Program

end AttestedQuery
