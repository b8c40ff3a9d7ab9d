import AttestedQuery.Proofs.BoundRows
import AttestedQuery.Proofs.PathEnds
import AttestedQuery.Proofs.SurfacedRows

/-!
# The graphs of patterns

The name of a GRAPH stands in the graph position of every pattern below it, unless another GRAPH is
between them. There it is a key like any other, and the default graph is a term like any other. So
all patterns below one GRAPH are matched by quads of one graph, which the name is bound to. It is
the default graph where these quads are quads of the default graph.
-/

set_option autoImplicit false

namespace AttestedQuery

open Sparql (GraphPattern)

/-! ## Graph names of a query -/

def Fragment.graphs (f : Fragment) : List (Option PatternTerm) := f.patterns.map (·.graph)

namespace Normal

def bothSlots (left right : List (List (Option PatternTerm))) : List (List (Option PatternTerm)) :=
  left.flatMap fun first => right.map (first ++ ·)

/-- The name of the innermost GRAPH around each slot, for each branch of a pattern below a GRAPH, in
the order of the fragments of its normal form. A path has its slots in each way to take it. -/
def graphNames (maxHops : Nat) (graph : Option PatternTerm) :
    GraphPattern → Naming (List (List (Option PatternTerm)))
  | .bgp triples => do
    let _ ← triples.mapM (triple graph)
    return [triples.map fun _ => graph]
  | .path subject path object => do
    let subject ← node subject
    let object ← node object
    let (ways, _) ← Fragment.ofAlgebra 0 (← pathBetween pathKey maxHops graph path subject object)
    return ways.map fun way => way.patterns.map fun _ => graph
  | .join left right => do
    let left ← graphNames maxHops graph left
    let right ← graphNames maxHops graph right
    return bothSlots left right
  | .leftJoin left right | .leftJoinIf left right _ => do
    let left ← graphNames maxHops graph left
    let right ← graphNames maxHops graph right
    return left ++ bothSlots left right
  | .union left right => do
    let left ← graphNames maxHops graph left
    let right ← graphNames maxHops graph right
    return left ++ right
  | .filter _ inner | .extend inner _ _ => graphNames maxHops graph inner
  | .graph name inner => do
    let name ← node name
    graphNames maxHops (some name) inner
  | _ => return []

end Normal

/-- The name of the innermost GRAPH around each slot of each branch of a query. -/
def Sparql.Query.graphNames (maxHops : Nat) (query : Sparql.Query) :
    Result (List (List (Option PatternTerm))) := do
  let (names, _) ← (Normal.graphNames maxHops none query.pattern.body).run ⟨0, []⟩
  return names

/-! ## Algebras of paths -/

namespace Normal

structure PathClosed (graph : Option PatternTerm) (holds : Algebra → Prop) : Prop where
  step : ∀ s text o, holds (.bgp [⟨s, .const (.iri text), o, graph⟩])
  empty : holds .empty
  linked : ∀ key s, holds (zeroSteps.linked key s)
  joined : ∀ {a b}, holds a → holds b → holds (a.joined b)
  united : ∀ {parts}, (∀ part ∈ parts, holds part) → holds (.united parts)

section PathClosed

variable {graph : Option PatternTerm} {holds : Algebra → Prop}
  {supply : Nat → String} {link : PatternTerm → PatternTerm → Naming Algebra} {s o : PatternTerm}
  {names after : Names} {a : Algebra}

theorem PathClosed.zero (closed : PathClosed graph holds) (zero : zeroSteps s o = some a) :
    holds a := by
  unfold zeroSteps at zero
  split at zero
  next =>
    obtain ⟨_, whole⟩ := Option.ite_none_right_eq_some.1 zero
    exact Option.some.inj whole ▸ closed.empty
  next => exact Option.some.inj zero ▸ closed.linked _ _
  next => exact Option.some.inj zero ▸ closed.linked _ _
  next =>
    split at zero
    · exact Option.some.inj zero ▸ closed.empty
    · exact Option.some.inj zero ▸ closed.linked _ _

theorem PathClosed.chain (closed : PathClosed graph holds)
    (each : ∀ {s o names after a}, link s o names = .ok (a, after) → holds a) {steps : Nat}
    {before : Option Algebra} (kept : ∀ b ∈ before, holds b)
    (made : Normal.chain supply link o steps s before names = .ok (a, after)) : holds a := by
  induction steps using Nat.twoStepInduction generalizing s before names with
  | zero =>
    obtain ⟨rfl, _⟩ := run_pure_ok_iff.1 made
    cases before with
    | none => exact closed.empty
    | some before => exact kept before rfl
  | one =>
    obtain ⟨last, _, linked, made⟩ := run_bind_ok_iff.1 made
    obtain ⟨rfl, _⟩ := run_pure_ok_iff.1 made
    cases before with
    | none => exact each linked
    | some before => exact closed.joined (kept before rfl) (each linked)
  | more steps _ induction =>
    obtain ⟨middle, _, _, made⟩ := run_bind_ok_iff.1 made
    obtain ⟨next, _, linked, made⟩ := run_bind_ok_iff.1 made
    refine induction (fun b member => ?_) made
    obtain rfl := Option.some.inj member
    cases before with
    | none => exact each linked
    | some before => exact closed.joined (kept before rfl) (each linked)

theorem PathClosed.chains (closed : PathClosed graph holds)
    (each : ∀ {s o names after a}, link s o names = .ok (a, after) → holds a) {maxHops : Nat}
    {parts : List Algebra}
    (made : Normal.chains supply link maxHops s o names = .ok (parts, after)) :
    ∀ part ∈ parts, holds part := by
  intro part member
  obtain ⟨place, inside, rfl⟩ := List.getElem_of_mem member
  have listed := run_mapM_each made
  obtain ⟨_, _, one⟩ := listed.get (listed.length_eq ▸ inside) inside
  exact closed.chain each (by simp) one

theorem PathClosed.pathBetween (closed : PathClosed graph holds) (maxHops : Nat)
    (path : Sparql.Path) :
    ∀ {s o names after a}, Normal.pathBetween supply maxHops graph path s o names = .ok (a, after) →
      holds a := by
  induction path with
  | iri text =>
    intro s o names after a made
    obtain ⟨rfl, _⟩ := run_pure_ok_iff.1 made
    exact closed.step s text o
  | reverse inner induction => exact induction
  | sequence first second left right =>
    intro s o names after a made
    obtain ⟨middle, _, _, made⟩ := run_bind_ok_iff.1 made
    obtain ⟨a, _, here, made⟩ := run_bind_ok_iff.1 made
    obtain ⟨b, _, there, made⟩ := run_bind_ok_iff.1 made
    obtain ⟨rfl, _⟩ := run_pure_ok_iff.1 made
    exact closed.joined (left here) (right there)
  | alternative first second left right =>
    intro s o names after a made
    obtain ⟨a, _, here, made⟩ := run_bind_ok_iff.1 made
    obtain ⟨b, _, there, made⟩ := run_bind_ok_iff.1 made
    obtain ⟨rfl, _⟩ := run_pure_ok_iff.1 made
    exact closed.united (by simpa using ⟨left here, right there⟩)
  | zeroOrOne inner induction =>
    intro s o names after a made
    obtain ⟨one, _, here, made⟩ := run_bind_ok_iff.1 made
    obtain ⟨rfl, _⟩ := run_pure_ok_iff.1 made
    refine closed.united (List.forall_mem_cons.2 ⟨induction here, fun part member => ?_⟩)
    exact closed.zero (Option.mem_toList.1 member)
  | oneOrMore inner induction =>
    intro s o names after a made
    obtain ⟨parts, _, here, made⟩ := run_bind_ok_iff.1 made
    obtain ⟨rfl, _⟩ := run_pure_ok_iff.1 made
    exact closed.united (closed.chains induction here)
  | zeroOrMore inner induction =>
    intro s o names after a made
    obtain ⟨parts, _, here, made⟩ := run_bind_ok_iff.1 made
    obtain ⟨rfl, _⟩ := run_pure_ok_iff.1 made
    refine closed.united (List.forall_mem_append.2 ⟨fun part member => ?_, ?_⟩)
    · exact closed.zero (Option.mem_toList.1 member)
    · exact closed.chains induction here
  | outside iris =>
    intro s o names after a made
    cases made

end PathClosed

end Normal

/-! ## Graph names of fragments -/

namespace Fragment

/-- Every slot of every fragment of an algebra has one graph name. -/
def InGraph (graph : Option PatternTerm) (a : Algebra) : Prop :=
  ∀ n fragments m, ofAlgebra n a = .ok (fragments, m) → ∀ f ∈ fragments, ∀ p ∈ f.patterns,
    p.graph = graph

theorem pathClosed_inGraph (graph : Option PatternTerm) :
    Normal.PathClosed graph (InGraph graph) where
  step s text o n fragments m folded f member p inside := by
    obtain ⟨rfl, _⟩ := Prod.mk.inj (Except.ok.inj folded)
    obtain rfl := List.mem_singleton.1 member
    obtain rfl := List.mem_singleton.1 inside
    rfl
  empty n fragments m folded f member p inside := by
    obtain ⟨rfl, _⟩ := Prod.mk.inj (Except.ok.inj folded)
    obtain rfl := List.mem_singleton.1 member
    cases inside
  linked key s n fragments m folded f member p inside := by
    obtain ⟨rfl, _⟩ := Prod.mk.inj (Except.ok.inj folded)
    obtain rfl := List.mem_singleton.1 member
    cases inside
  joined {a b} first second n fragments m folded f member p inside := by
    obtain ⟨lefts, _, rights, foldedLeft, foldedRight, rfl⟩ := folds_of_joined folded
    obtain ⟨i, j, a, b, here, there, rfl⟩ := mem_product.1 member
    rcases List.mem_append.1 inside with inside | inside
    · exact first _ _ _ foldedLeft a (List.mem_of_getElem? here) p inside
    · exact second _ _ _ foldedRight b (List.mem_of_getElem? there) p inside
  united {parts} each n fragments m folded f member p inside := by
    rw [ofAlgebra_united] at folded
    obtain ⟨lists, made, rfl⟩ := folds_of_union folded
    obtain ⟨list, among, g, here, same⟩ := mem_united member
    obtain ⟨part, branched, _, _, holds⟩ :=
      (closed_folds.ofBranches parts made).exists_branch among
    exact each part branched _ _ _ holds g here p (by rw [same] at inside; exact inside)

theorem graphs_product (left right : List Fragment) :
    (product left right).map graphs = Normal.bothSlots (left.map graphs) (right.map graphs) := by
  have numbered (fragments : List Fragment) :
      fragments.map graphs = fragments.zipIdx.map fun x => graphs x.1 := by
    conv_lhs => rw [← List.zipIdx_map_fst 0 fragments, List.map_map]
    rfl
  rw [numbered left, numbered right]
  simp only [product, Normal.bothSlots, List.map_flatMap, List.flatMap_map, List.map_map]
  refine List.flatMap_congr fun x _ => List.map_congr_left fun y _ => ?_
  exact List.map_append

theorem graphs_united (kind : UnionKind) (left right : List Fragment) :
    (united kind [left, right]).map graphs = left.map graphs ++ right.map graphs := by
  cases kind <;> simp [united, optional, concatenated, List.map_map] <;> rfl

end Fragment

namespace Normal

section Names

open Fragment

/-- The fragments of an algebra, whatever the number of its first filter, have the slots that are
told from the pattern that it is made from. -/
def TellsGraphs (maxHops : Nat) (graph : Option PatternTerm) (p : GraphPattern)
    (names after : Names) (a : Algebra) : Prop :=
  ∀ {n m : Nat} {fragments : List Fragment}, ofAlgebra n a = .ok (fragments, m) →
    graphNames maxHops graph p names = .ok (fragments.map graphs, after)

/-- The left part of an OPTIONAL is folded twice, and has the same slots both times. -/
theorem TellsGraphs.optional {maxHops : Nat} {graph : Option PatternTerm}
    {left right : GraphPattern} {names middle after : Names} {l r : Algebra}
    (first : TellsGraphs maxHops graph left names middle l)
    (second : TellsGraphs maxHops graph right middle after r) {n k m : Nat}
    {lefts joined : List Fragment} (foldedLeft : ofAlgebra n l = .ok (lefts, k))
    (foldedJoined : ofAlgebra k (l.joined r) = .ok (joined, m)) :
    graphNames maxHops graph (.leftJoin left right) names =
      .ok (lefts.map graphs ++ joined.map graphs, after) := by
  obtain ⟨again, _, rights, foldedAgain, foldedRight, rfl⟩ := folds_of_joined foldedJoined
  have same : again.map graphs = lefts.map graphs :=
    (Prod.mk.inj (Except.ok.inj ((first foldedAgain).symm.trans (first foldedLeft)))).1
  rw [graphs_product, same]
  exact run_bind_ok_iff.2 ⟨_, _, first foldedLeft,
    run_bind_ok_iff.2 ⟨_, _, second foldedRight, rfl⟩⟩

theorem graphs_pattern {maxHops : Nat} {graph : Option PatternTerm} {p : GraphPattern} {a : Algebra}
    {names after : Names} (forms : Forms pathKey maxHops graph p names a after) :
    TellsGraphs maxHops graph p names after a := by
  induction forms with intro n m fragments folded
  | @bgp graph triples patterns _ _ each =>
    obtain ⟨rfl, _⟩ := Prod.mk.inj (Except.ok.inj folded)
    have same : patterns.map (·.graph) = triples.map fun _ => graph := by
      rw [← List.forall₂_eq_eq_eq, List.forall₂_map_left_iff, List.forall₂_map_right_iff]
      refine (run_mapM_each each).flip.imp ?_
      rintro p t ⟨_, _, one⟩
      obtain ⟨_, _, _, one⟩ := run_bind_ok_iff.1 one
      obtain ⟨_, _, _, one⟩ := run_bind_ok_iff.1 one
      obtain ⟨_, _, _, one⟩ := run_bind_ok_iff.1 one
      obtain ⟨rfl, _⟩ := run_pure_ok_iff.1 one
      rfl
    refine run_bind_ok_iff.2 ⟨patterns, _, each, run_pure_ok_iff.2 ⟨?_, rfl⟩⟩
    rw [← same]
    rfl
  | @path graph _ _ _ _ path _ _ _ _ _ first second between =>
    obtain ⟨ways, next, alone, rfl⟩ := folds_alone folded
    have named := (pathClosed_inGraph graph).pathBetween maxHops path between
    have same : (ways.map (renumbered n)).map graphs =
        ways.map fun way => way.patterns.map fun _ => graph := by
      rw [List.map_map]
      exact List.map_congr_left fun way member => List.map_congr_left (named _ _ _ alone way member)
    rw [same]
    exact run_bind_ok_iff.2 ⟨_, _, first, run_bind_ok_iff.2 ⟨_, _, second,
      run_bind_ok_iff.2 ⟨_, _, between, run_bind_ok_iff.2 ⟨_, _, run_lift_ok_iff.2 ⟨alone, rfl⟩,
        rfl⟩⟩⟩⟩
  | join _ _ first second =>
    obtain ⟨lefts, _, rights, foldedLeft, foldedRight, rfl⟩ := folds_of_joined folded
    rw [graphs_product]
    exact run_bind_ok_iff.2 ⟨_, _, first foldedLeft,
      run_bind_ok_iff.2 ⟨_, _, second foldedRight, rfl⟩⟩
  | union _ _ first second =>
    rw [ofAlgebra_united] at folded
    obtain ⟨lefts, _, rights, foldedLeft, foldedRight, rfl⟩ := folds_of_pair folded
    rw [graphs_united]
    exact run_bind_ok_iff.2 ⟨_, _, first foldedLeft,
      run_bind_ok_iff.2 ⟨_, _, second foldedRight, rfl⟩⟩
  | leftJoin _ _ first second =>
    obtain ⟨lefts, _, joined, foldedLeft, foldedJoined, rfl⟩ := folds_of_pair folded
    rw [graphs_united]
    exact TellsGraphs.optional first second foldedLeft foldedJoined
  | leftJoinIf _ _ _ first second =>
    obtain ⟨lefts, _, filtered, foldedLeft, foldedFilter, rfl⟩ := folds_of_pair folded
    obtain ⟨joined, _, foldedJoined, rfl, rfl⟩ := folds_of_filter foldedFilter
    rw [graphs_united, List.map_map]
    exact TellsGraphs.optional first second foldedLeft foldedJoined
  | filter _ _ inside =>
    obtain ⟨fragments, _, foldedInner, rfl, rfl⟩ := folds_of_filter folded
    rw [List.map_map]
    exact inside foldedInner
  | extend _ _ _ inside =>
    obtain ⟨fragments, foldedInner, rfl⟩ := folds_of_extend folded
    rw [List.map_map]
    exact inside foldedInner
  | graph named _ inside => exact run_bind_ok_iff.2 ⟨_, _, named, inside folded⟩

end Names

end Normal

theorem NormalQuery.graphs_of_ofQuery {maxHops : Nat} {query : Sparql.Query} {normal : NormalQuery}
    (reduced : ofQuery maxHops query = .ok normal) {n m : Nat} {fragments : List Fragment}
    (folded : Fragment.ofAlgebra n (Program.bodyOf normal.algebra) = .ok (fragments, m)) :
    query.graphNames maxHops = .ok (fragments.map Fragment.graphs) := by
  obtain ⟨body, names, made, algebra, _⟩ := ofQuery_ok reduced
  rw [algebra] at folded
  exact bind_ok_iff.2 ⟨_, Normal.graphs_pattern (Normal.pattern_ok_iff.1 made) folded, rfl⟩

/-! ## Quads under a graph name -/

theorem Pattern.exists_held {p : Pattern} {position : Nat} {asked : Option PatternTerm}
    (found : p.positions.get? position = some asked) (quad : Quad) :
    ∃ value, quad.get? position = some value := by
  rw [← Option.isSome_iff_exists, QuadOf.get_isSome_iff _ p.positions, found]
  rfl

theorem Pattern.Fits.within {agrees : Term → Term → Prop} {row other : Row} {p : Pattern}
    {quad : Quad} (fits : p.Fits agrees row quad) (within : row.Within other) :
    p.Fits agrees other quad where
  constant := fits.constant
  key position term key asked named := by
    have held := fits.key position term key asked named
    obtain ⟨value, here⟩ := Pattern.exists_held asked quad
    rw [here] at held ⊢
    exact within key value held

theorem Program.Compiles.graphs_eq {config : Config} {normal : NormalQuery} {p : Program}
    {fragments : List Fragment} (compiles : p.Compiles config normal fragments) :
    fragments.map Fragment.graphs = p.branches.map fun b => b.patterns.map (·.graph) := by
  refine List.ext_getElem (by simp [compiles.length]) fun i here there => ?_
  rw [List.length_map] at here there
  obtain ⟨_, _, comes⟩ := compiles.comes (List.getElem?_eq_getElem here)
    (List.getElem?_eq_getElem there)
  obtain ⟨_, _, applies⟩ := comes.applies
  rw [List.getElem_map, List.getElem_map, applies.patterns, Fragment.graphs]

namespace Candidate

def Holds (d : Dataset) (row : Row) (patterns : List Pattern) (quads : List Nat) : Prop :=
  List.Forall₂ (fun p i => ∃ quad, d.quads[i]? = some quad ∧ p.Fits (fun _ _ => True) row quad)
    patterns quads

variable {d : Dataset} {e : Encoder} {b : Branch}

theorem Holds.within {row other : Row} {patterns : List Pattern} {quads : List Nat}
    (holds : Holds d row patterns quads) (within : row.Within other) :
    Holds d other patterns quads :=
  holds.imp fun _ _ ⟨quad, found, fits⟩ => ⟨quad, found, fits.within within⟩

theorem Holds.graph {row : Row} {patterns : List Pattern} {quads : List Nat}
    (holds : Holds d row patterns quads) {place : Nat} {p : Pattern} {name : String}
    (here : patterns[place]? = some p) (named : p.graph = some (.var name)) :
    ∃ i quad, quads[place]? = some i ∧ d.quads[i]? = some quad ∧
      row.get? name = some quad.graph := by
  obtain ⟨i, listed, quad, found, fits⟩ := exists_related_left holds here
  exact ⟨i, quad, listed, found, fits.key 3 (.var name) name (congrArg some named) rfl⟩

theorem holds_extendBy {p : Pattern} {consts : QuadOf (Option Field)} {draft next : Draft}
    {patterns : List Pattern} (holds : Holds d draft.row patterns draft.quads)
    (extended : next ∈ extendBy (.ofDataset d) p consts draft) :
    Holds d next.row (patterns ++ [p]) next.quads := by
  obtain ⟨i, quad, bound, found, binds, rfl⟩ := exists_of_mem_extendBy extended
  have here : p.Fits (fun _ _ => True) bound.row quad := by
    refine ⟨fun _ _ _ _ _ => trivial, fun position term key asked named => ?_⟩
    obtain ⟨value, held⟩ := Pattern.exists_held asked quad
    rw [held]
    exact binds.entries key value (Draft.mem_entriesOf_iff.2 ⟨position, term, asked, named, held⟩)
  exact List.rel_append (holds.within binds.within) (.cons ⟨quad, found, here⟩ .nil)

theorem holds_joined {pairs : List (Pattern × QuadOf (Option Field))} {draft : Draft}
    (member : draft ∈ joined (.ofDataset d) pairs) :
    Holds d draft.row (pairs.map (·.1)) draft.quads := by
  refine joined_induction (motive := fun pairs draft =>
    Holds d draft.row (pairs.map (·.1)) draft.quads) .nil ?_ member
  intro pairs pair draft next holds extended
  rw [List.map_append]
  exact holds_extendBy holds extended

theorem holds_of_mem {f : Fragment} {start final : Tracing} {candidates : List Candidate}
    (applies : b.Applies e f start final) (made : ofBranch (.ofDataset d) e b = .ok candidates)
    {c : Candidate} (member : c ∈ candidates) : Holds d c.row b.patterns c.quads := by
  obtain ⟨pairs, paired, whole⟩ := bind_ok_iff.1 made
  obtain rfl := pure_ok_iff.1 whole
  obtain ⟨draft, joins, finished⟩ := List.mem_filterMap.1 member
  obtain ⟨row, extended, rfl⟩ := Option.map_eq_some_iff.1 finished
  have patterns := (paired_ok paired).1
  have keys := keys_underway applies (.done start) ⟨pairs, draft, paired, joins, rfl⟩
  have holds := holds_joined joins
  rw [patterns] at holds
  exact holds.within ((foldlM_applyExtension applies.extensions keys).1 extended).1

end Candidate

/-- Quads of one graph fill the slots of a witness whose patterns have a name in the graph position,
and the name is published with that graph where it is projected. -/
structure Witness.InGraph (w : Witness) (d : Dataset) (projected : List String)
    (patterns : List Pattern) (name : String) (graph : Term) : Prop where
  quads : ∀ (place : Nat) (p : Pattern), patterns[place]? = some p → p.graph = some (.var name) →
    ∃ slot quad, w.slots[place]? = some slot ∧ d.quads[slot.quadIndex]? = some quad ∧
      quad.graph = graph
  binding : name ∈ projected → w.bindings.get? name = some graph

namespace Resolver

variable {d : Dataset} {config : Config} {p : Program}

theorem slot_index {r : Resolver} {i : Nat} {slot : Slot} (found : r.slot? i = some slot) :
    slot.quadIndex = i := by
  obtain ⟨_, _, found⟩ := Option.bind_eq_some_iff.1 found
  obtain ⟨_, _, found⟩ := Option.bind_eq_some_iff.1 found
  exact (Option.some.inj found) ▸ rfl

theorem exists_slot {r : Resolver} {branch : Nat} {used : List Nat} {c : Candidate} {w : Witness}
    (builds : r.Builds p branch used c w) {place i : Nat} (inside : place < p.width)
    (here : c.quads[place]? = some i) :
    ∃ slot, w.slots[place]? = some slot ∧ slot.quadIndex = i := by
  have padding : (padded p.width c.quads)[place]? = some i := by
    rw [padded, List.getElem?_map, List.getElem?_range inside, Option.map_some,
      List.getD_eq_getElem?_getD, here, Option.getD_some]
  obtain ⟨slot, filled, found⟩ := exists_related_left builds.slots padding
  exact ⟨slot, filled, slot_index found⟩

end Resolver

/-- The names of GRAPH stand in the graph positions of the patterns below them, up to the next
GRAPH. In every witness all patterns of its branch with one such variable are matched by quads of
one graph, which may be the default graph, and the variable is published with that graph. -/
theorem graph_names_bind_one_graph (config : Config) (d : Dataset) (r : Resolver)
    (query : Sparql.Query) (normal : NormalQuery) (p : Program) (resolution : Resolution)
    (opened : Resolver.ofDataset d config = .ok r)
    (reduced : NormalQuery.ofQuery config.maxPathHops query = .ok normal)
    (compiled : Program.ofNormal config normal = .ok p)
    (resolved : r.resolve p = .ok resolution) :
    query.graphNames config.maxPathHops = .ok (p.branches.map fun b => b.patterns.map (·.graph)) ∧
    ∀ w ∈ resolution.witnesses, ∃ b, p.branches[w.branch]? = some b ∧
      ∀ q ∈ b.patterns, ∀ name, q.graph = some (.var name) →
        ∃ graph, w.InGraph d p.projected b.patterns name graph := by
  obtain ⟨fragments, compiles⟩ := Program.ofNormal_ok compiled
  obtain ⟨next, folded⟩ := compiles.folded
  obtain rfl := Resolver.ofDataset_ok opened
  refine ⟨?_, fun w member => ?_⟩
  · rw [← compiles.graphs_eq]
    exact NormalQuery.graphs_of_ofQuery reduced folded
  · obtain ⟨b, candidates, c, branch, made, candidate, builds, _⟩ :=
      Resolver.mem_witnesses resolved member
    obtain ⟨_, _, _, comes⟩ := compiles.exists_comes (List.mem_of_getElem? branch)
    obtain ⟨start, final, applies⟩ := comes.applies
    have holds := Candidate.holds_of_mem applies made candidate
    refine ⟨b, branch, fun q inside name named => ?_⟩
    obtain ⟨place, here⟩ := List.getElem?_of_mem inside
    obtain ⟨_, quad, _, _, row⟩ := holds.graph here named
    refine ⟨quad.graph, fun place q here named => ?_, fun projected => ?_⟩
    · obtain ⟨i, other, listed, found, same⟩ := holds.graph here named
      have width : place < p.width := Nat.lt_of_lt_of_le (List.getElem?_eq_some_iff.1 here).1
        (Program.slotCount_le_width (List.mem_of_getElem? branch))
      obtain ⟨slot, filled, rfl⟩ := Resolver.exists_slot builds width listed
      exact ⟨slot, other, filled, found, Option.some.inj (same.symm.trans row)⟩
    · rw [builds.bindings, KeyMap.get_restrict, if_pos (List.contains_iff_mem.2 projected), row]

/-! ## A dataset of two graphs -/

def sampleTwoGraphs : List Quad := [sampleQuad, { sampleQuad with graph := .iri "http://e/g" }]

/-- A signer that knows the signature of the root over these quads, and gives it for every
message. -/
def sampleTwoGraphsSigner : Signer where
  scheme := .secp256k1Ecdsa
  publicKey := sampleLiteralsSigner.publicKey
  sign _ := .ok (
    Octets.ofNatBig 32 0x21c0a2ba9a6cc4de5d91ce1829deb16ea96cb42860ab70fad77eb628ff296821
      ++ Octets.ofNatBig 32 0x3edb5b1bb3515937a84a0becfe93fdc82b7982a8c23541e0eb6c6bffa023174a)

def sampleTwoGraphsText : String := "SELECT ?g WHERE \x7b GRAPH ?g \x7b ?s ?p ?o \x7d \x7d"

def sampleTwoGraphsOpened : Result (Dataset × Resolver × Sparql.Query × NormalQuery × Program) := do
  let d ← Dataset.sign sampleTwoGraphs sampleConfig sampleTwoGraphsSigner
  let r ← Resolver.ofDataset d sampleConfig
  return (d, r, ← compiledText sampleTwoGraphsText)

set_option maxRecDepth 100000 in
theorem sampleTwoGraphs_resolve : sampleTwoGraphsOpened.toOption.any (fun (_, r, _, _, p) =>
    (r.resolve p).toOption.any fun resolution =>
      resolution.witnesses.map (·.bindings.get? "g") ==
        [some .defaultGraph, some (.iri "http://e/g")]) = true := by
  simp only [sampleTwoGraphsOpened, compiledText, Dataset.sign, Resolver.ofDataset,
    Program.ofNormal, Config.encoder_eq]
  decide +kernel

theorem sampleTwoGraphs_ok : ∃ d r query normal p resolution,
    Dataset.sign sampleTwoGraphs sampleConfig sampleTwoGraphsSigner = .ok d ∧
    Resolver.ofDataset d sampleConfig = .ok r ∧ Sparql.Query.parse sampleTwoGraphsText = .ok query ∧
    NormalQuery.ofQuery sampleConfig.maxPathHops query = .ok normal ∧
    Program.ofNormal sampleConfig normal = .ok p ∧ r.resolve p = .ok resolution ∧
    resolution.witnesses.map (·.bindings.get? "g") =
      [some .defaultGraph, some (.iri "http://e/g")] := by
  obtain ⟨⟨d, r, query, normal, p⟩, made, found⟩ := exists_ok_of_any sampleTwoGraphs_resolve
  obtain ⟨_, signed, made⟩ := bind_ok_iff.1 made
  obtain ⟨_, opened, made⟩ := bind_ok_iff.1 made
  obtain ⟨⟨_, _, _⟩, texted, made⟩ := bind_ok_iff.1 made
  obtain ⟨rfl, rfl, rfl, rfl, rfl⟩ : _ ∧ _ ∧ _ ∧ _ ∧ _ := by simpa using pure_ok_iff.1 made
  obtain ⟨parsed, reduced, compiled⟩ := compiledText_ok texted
  obtain ⟨resolution, resolved, graphs⟩ := exists_ok_of_any found
  exact ⟨_, _, _, _, _, resolution, signed, opened, parsed, reduced, compiled, resolved,
    eq_of_beq graphs⟩

/-- Each of the two witnesses has its quad from the graph that it publishes. -/
theorem graph_names_bind_one_graph_sample : ∃ d r query normal p resolution,
    Resolver.ofDataset d sampleConfig = .ok r ∧
    NormalQuery.ofQuery sampleConfig.maxPathHops query = .ok normal ∧
    Program.ofNormal sampleConfig normal = .ok p ∧ r.resolve p = .ok resolution ∧
    resolution.witnesses.length = 2 ∧
    query.graphNames sampleConfig.maxPathHops =
      .ok (p.branches.map fun b => b.patterns.map (·.graph)) ∧
    ∀ w ∈ resolution.witnesses, ∃ b, p.branches[w.branch]? = some b ∧
      ∀ q ∈ b.patterns, ∀ name, q.graph = some (.var name) →
        ∃ graph, w.InGraph d p.projected b.patterns name graph := by
  obtain ⟨d, r, query, normal, p, resolution, _, opened, _, reduced, compiled, resolved, graphs⟩ :=
    sampleTwoGraphs_ok
  have two : resolution.witnesses.length = 2 := by simpa using congrArg List.length graphs
  exact ⟨d, r, query, normal, p, resolution, opened, reduced, compiled, resolved, two,
    graph_names_bind_one_graph sampleConfig d r query normal p resolution opened reduced compiled
      resolved⟩

/-- A witness publishes the default graph for a variable of GRAPH, over a dataset that has another
graph too. -/
theorem default_graph_published : ∃ d r query normal p resolution,
    Dataset.sign sampleTwoGraphs sampleConfig sampleTwoGraphsSigner = .ok d ∧
    Resolver.ofDataset d sampleConfig = .ok r ∧ Sparql.Query.parse sampleTwoGraphsText = .ok query ∧
    NormalQuery.ofQuery sampleConfig.maxPathHops query = .ok normal ∧
    Program.ofNormal sampleConfig normal = .ok p ∧ r.resolve p = .ok resolution ∧
    ∃ w ∈ resolution.witnesses, w.bindings.get? "g" = some .defaultGraph := by
  obtain ⟨d, r, query, normal, p, resolution, signed, opened, parsed, reduced, compiled, resolved,
    graphs⟩ := sampleTwoGraphs_ok
  have member : some Term.defaultGraph ∈ resolution.witnesses.map (·.bindings.get? "g") := by
    rw [graphs]
    exact List.mem_cons_self
  obtain ⟨w, inside, published⟩ := List.mem_map.1 member
  exact ⟨d, r, query, normal, p, resolution, signed, opened, parsed, reduced, compiled, resolved,
    w, inside, published⟩

end AttestedQuery
