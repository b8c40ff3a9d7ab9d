import AttestedQuery.Proofs.PathAlternatives
import AttestedQuery.Proofs.PathNames

/-!
# The ends of paths

A path of a query is taken in some way in each branch that it belongs to. Which ways and which
branches these are is told from the query, in the order of the fragments of its normal form. The
branch binds both ends of the path, and its witnesses publish what they are bound to, unless the way
is that of length zero from a key to itself: such a way has neither a pattern nor an extension, and
nobody asks whether the rest of the branch binds the key. Between two different keys a path of
length zero is refused where neither of them is bound when its turn comes.
-/

set_option autoImplicit false

namespace AttestedQuery

open Sparql (GraphPattern)

/-! ## Paths of a query -/

/-- A path in a branch: its ends by their names in the normal form, and the way it is taken. -/
structure PathUse where
  subject : PatternTerm
  path : Sparql.Path
  object : PatternTerm
  way : Fragment

namespace PathUse

/-- The ends of a path: the variables and blank nodes there, by their keys. -/
def IsEnd (use : PathUse) (key : String) : Prop :=
  use.subject.key? = some key ∨ use.object.key? = some key

/-- A way of length zero from a key to itself. -/
def IsLoop (use : PathUse) : Prop := use.way.IsEmpty ∧ use.subject.key? = use.object.key?

/-- A fragment takes the way of a path, which binds both ends unless it is a loop. -/
structure StandsIn (use : PathUse) (f : Fragment) : Prop where
  inside : use.way.Inside f
  spans : use.way.Spans use.subject use.object

theorem StandsIn.mono {use : PathUse} {f g : Fragment} (stands : use.StandsIn f)
    (inside : f.Inside g) : use.StandsIn g :=
  ⟨stands.inside.trans inside, stands.spans⟩

theorem StandsIn.loop_of_unbound {use : PathUse} {f : Fragment} {key : String}
    (stands : use.StandsIn f) (isEnd : use.IsEnd key) (unbound : ¬ f.Binds key) : use.IsLoop :=
  stands.spans.resolve_right fun secures => unbound ((secures key isEnd).binds stands.inside)

end PathUse

namespace Normal

def bothUses (left right : List (List PathUse)) : List (List PathUse) :=
  left.flatMap fun first => right.map (first ++ ·)

/-- The paths of each branch of a pattern, in the order of the fragments of its normal form and with
the names that are given there. -/
def pathUses (maxHops : Nat) (graph : Option PatternTerm) :
    GraphPattern → Naming (List (List PathUse))
  | .bgp triples => do
    let _ ← triples.mapM (triple graph)
    return [[]]
  | .path subject path object => do
    let subject ← node subject
    let object ← node object
    let (ways, _) ← Fragment.ofAlgebra 0 (← pathBetween pathKey maxHops graph path subject object)
    return ways.map fun way => [⟨subject, path, object, way⟩]
  | .join left right => do
    let left ← pathUses maxHops graph left
    let right ← pathUses maxHops graph right
    return bothUses left right
  | .leftJoin left right | .leftJoinIf left right _ => do
    let left ← pathUses maxHops graph left
    let right ← pathUses maxHops graph right
    return left ++ bothUses left right
  | .union left right => do
    let left ← pathUses maxHops graph left
    let right ← pathUses maxHops graph right
    return left ++ right
  | .filter _ inner | .extend inner _ _ => pathUses maxHops graph inner
  | .graph name inner => do
    let name ← node name
    pathUses maxHops (some name) inner
  | _ => return []

end Normal

def Sparql.Query.pathUses (maxHops : Nat) (query : Sparql.Query) : Result (List (List PathUse)) := do
  let (uses, _) ← (Normal.pathUses maxHops none query.pattern.body).run ⟨0, []⟩
  return uses

/-! ## Ways and fragments -/

namespace Fragment

def Carry (fragments : List Fragment) (uses : List (List PathUse)) : Prop :=
  List.Forall₂ (fun f here => ∀ use ∈ here, use.StandsIn f) fragments uses

variable {lefts rights fragments : List Fragment} {us vs uses : List (List PathUse)}

theorem Carry.map (carry : Carry fragments uses) {change : Fragment → Fragment}
    (around : ∀ f : Fragment, f.Inside (change f)) : Carry (fragments.map change) uses :=
  List.forall₂_map_left_iff.2
    (carry.imp fun f _ stands use member => (stands use member).mono (around f))

theorem carry_product (first : Carry lefts us) (second : Carry rights vs) :
    Carry (product lefts rights) (Normal.bothUses us vs) := by
  -- The numbers of the sides only say what the pairs exclude.
  have numbered {fragments : List Fragment} {uses : List (List PathUse)}
      (carry : Carry fragments uses) :
      List.Forall₂ (fun x here => ∀ use ∈ here, use.StandsIn x.1) fragments.zipIdx uses :=
    List.forall₂_map_left_iff.1 (by rwa [List.zipIdx_map_fst 0])
  refine List.rel_flatMap (numbered first) fun x here left => ?_
  refine List.forall₂_map_left_iff.2 (List.forall₂_map_right_iff.2 ((numbered second).imp ?_))
  intro y there right use member
  rcases List.mem_append.1 member with member | member
  · exact (left use member).mono (inside_paired_left ..)
  · exact (right use member).mono (inside_paired_right ..)

theorem Carry.append (first : Carry lefts us) (second : Carry rights vs)
    {here there : Fragment → Fragment} (aroundHere : ∀ f : Fragment, f.Inside (here f))
    (aroundThere : ∀ f : Fragment, f.Inside (there f)) :
    Carry (lefts.map here ++ rights.map there) (us ++ vs) :=
  List.rel_append (first.map aroundHere) (second.map aroundThere)

theorem carry_united (kind : UnionKind) (first : Carry lefts us) (second : Carry rights vs) :
    Carry (united kind [lefts, rights]) (us ++ vs) := by
  have same (f : Fragment) (excluded : List Nat) : f.Inside { f with exclusiveOf := excluded } :=
    ⟨List.infix_rfl, List.infix_rfl⟩
  cases kind with
  | exclusive => exact first.append second (fun f => same f _) fun f => same f _
  | plain => exact first.append second (fun f => same f _) fun f => same f _

theorem folds_of_pair {kind : UnionKind} {left right : Algebra} {n m : Nat}
    (folded : ofAlgebra n (.union kind [left, right]) = .ok (fragments, m)) :
    ∃ lefts k rights, ofAlgebra n left = .ok (lefts, k) ∧ ofAlgebra k right = .ok (rights, m) ∧
      fragments = united kind [lefts, rights] := by
  obtain ⟨lists, made, rfl⟩ := folds_of_union folded
  cases closed_folds.ofBranches _ made with
  | cons first others =>
    cases others with
    | cons second none =>
      cases none
      exact ⟨_, _, _, first, second, rfl⟩

end Fragment

/-! ## Paths of a pattern -/

namespace Normal

theorem blank_ok {label : String} {term : PatternTerm} {names after : Names}
    (made : blank label names = .ok (term, after)) : ∃ given, term = .blank given := by
  obtain ⟨known, _, read, made⟩ := run_bind_ok_iff.1 made
  split at made
  · obtain ⟨rfl, _⟩ := run_pure_ok_iff.1 made
    exact ⟨_, rfl⟩
  · obtain ⟨_, _, _, made⟩ := run_bind_ok_iff.1 made
    obtain ⟨rfl, _⟩ := run_pure_ok_iff.1 made
    exact ⟨_, rfl⟩

/-- The nodes of a query are no inner nodes of paths. -/
theorem node_before {t term : PatternTerm} {names after : Names}
    (made : node t names = .ok (term, after)) (n : Nat) : term.Before n := by
  intro i _ same
  cases t with
  | const constant =>
    obtain ⟨rfl, rfl⟩ := run_pure_ok_iff.1 made
    cases same
  | var name =>
    obtain ⟨named, rfl⟩ := run_lift_ok_iff.1 made
    obtain ⟨⟨⟩, checked, whole⟩ := bind_ok_iff.1 named
    obtain rfl := pure_ok_iff.1 whole
    exact checkName_ok_iff.1 checked (Option.some.inj same ▸ reserved_pathKey i)
  | blank label =>
    obtain ⟨given, rfl⟩ := blank_ok made
    exact not_reserved_blank given (Option.some.inj same ▸ reserved_pathKey i)

section Carry

open Fragment

variable {graph : Option PatternTerm} {names after : Names} {a : Algebra}

theorem carry_path {maxHops : Nat} {path : Sparql.Path} {s o : PatternTerm}
    (made : pathBetween pathKey maxHops graph path s o names = .ok (a, after))
    (sBefore : s.Before names.paths) (oBefore : o.Before names.paths) {n m : Nat}
    {fragments : List Fragment} (folded : ofAlgebra n a = .ok (fragments, m)) :
    ∃ ways next, ofAlgebra 0 a = .ok (ways, next) ∧
      Carry fragments (ways.map fun way => [⟨s, path, o, way⟩]) := by
  obtain ⟨ways, next, alone, rfl⟩ := folds_alone folded
  obtain ⟨_, spans⟩ := Algebra.spanning_pathBetween maxHops graph path made sBefore oBefore
  refine ⟨ways, next, alone, List.forall₂_map_left_iff.2 (List.forall₂_map_right_iff.2
    (List.forall₂_same.2 fun way member use here => ?_))⟩
  obtain rfl := List.mem_singleton.1 here
  exact ⟨⟨List.infix_rfl, List.infix_rfl⟩, spans _ _ _ alone way member⟩

/-- The fragments of an algebra, whatever the number of its first filter, take the ways that are
told from the pattern that it is made from. -/
def Told (maxHops : Nat) (graph : Option PatternTerm) (p : GraphPattern) (names after : Names)
    (a : Algebra) : Prop :=
  ∀ {n m : Nat} {fragments : List Fragment}, ofAlgebra n a = .ok (fragments, m) →
    ∃ uses, pathUses maxHops graph p names = .ok (uses, after) ∧ Carry fragments uses

theorem Told.optional {maxHops : Nat} {left right : GraphPattern} {middle : Names}
    {l r : Algebra} (first : Told maxHops graph left names middle l)
    (second : Told maxHops graph right middle after r) {n k m : Nat}
    {lefts joined : List Fragment} (foldedLeft : ofAlgebra n l = .ok (lefts, k))
    (foldedJoined : ofAlgebra k (l.joined r) = .ok (joined, m)) :
    ∃ uses, pathUses maxHops graph (.leftJoin left right) names = .ok (uses, after) ∧
      ∀ change : Fragment → Fragment, (∀ f : Fragment, f.Inside (change f)) →
        Carry (Fragment.optional lefts (joined.map change)) uses := by
  obtain ⟨again, _, rights, foldedAgain, foldedRight, rfl⟩ := folds_of_joined foldedJoined
  obtain ⟨us, runLeft, carryLeft⟩ := first foldedLeft
  obtain ⟨us', runAgain, carryAgain⟩ := first foldedAgain
  obtain ⟨vs, runRight, carryRight⟩ := second foldedRight
  obtain ⟨rfl, _⟩ := Prod.mk.inj (Except.ok.inj (runLeft.symm.trans runAgain))
  exact ⟨_, run_bind_ok_iff.2 ⟨us, _, runLeft, run_bind_ok_iff.2 ⟨vs, _, runRight, rfl⟩⟩,
    fun change around =>
      carry_united .exclusive carryLeft ((carry_product carryAgain carryRight).map around)⟩

theorem carry_pattern {maxHops : Nat} {graph : Option PatternTerm} {p : GraphPattern} {a : Algebra}
    {names after : Names} (forms : Forms pathKey maxHops graph p names a after) :
    Told maxHops graph p names after a := by
  induction forms with intro n m fragments folded
  | bgp each =>
    obtain ⟨rfl, _⟩ := Prod.mk.inj (Except.ok.inj folded)
    exact ⟨[[]], run_bind_ok_iff.2 ⟨_, _, each, rfl⟩, .cons (by simp) .nil⟩
  | path first second between =>
    obtain ⟨ways, next, alone, carry⟩ :=
      carry_path between (node_before first _) (node_before second _) folded
    exact ⟨_, run_bind_ok_iff.2 ⟨_, _, first, run_bind_ok_iff.2 ⟨_, _, second,
      run_bind_ok_iff.2 ⟨_, _, between, run_bind_ok_iff.2 ⟨_, _, run_lift_ok_iff.2 ⟨alone, rfl⟩,
        rfl⟩⟩⟩⟩, carry⟩
  | join _ _ first second =>
    obtain ⟨lefts, _, rights, foldedLeft, foldedRight, rfl⟩ := folds_of_joined folded
    obtain ⟨us, runLeft, carryLeft⟩ := first foldedLeft
    obtain ⟨vs, runRight, carryRight⟩ := second foldedRight
    exact ⟨_, run_bind_ok_iff.2 ⟨us, _, runLeft, run_bind_ok_iff.2 ⟨vs, _, runRight, rfl⟩⟩,
      carry_product carryLeft carryRight⟩
  | union _ _ first second =>
    rw [ofAlgebra_united] at folded
    obtain ⟨lefts, _, rights, foldedLeft, foldedRight, rfl⟩ := folds_of_pair folded
    obtain ⟨us, runLeft, carryLeft⟩ := first foldedLeft
    obtain ⟨vs, runRight, carryRight⟩ := second foldedRight
    exact ⟨_, run_bind_ok_iff.2 ⟨us, _, runLeft, run_bind_ok_iff.2 ⟨vs, _, runRight, rfl⟩⟩,
      carry_united .plain carryLeft carryRight⟩
  | leftJoin _ _ first second =>
    obtain ⟨lefts, _, joined, foldedLeft, foldedJoined, rfl⟩ := folds_of_pair folded
    obtain ⟨uses, run, carry⟩ := Told.optional first second foldedLeft foldedJoined
    have whole := carry id inside_refl
    rw [List.map_id] at whole
    exact ⟨uses, run, whole⟩
  | leftJoinIf _ _ _ first second =>
    obtain ⟨lefts, _, filtered, foldedLeft, foldedFilter, rfl⟩ := folds_of_pair folded
    obtain ⟨joined, _, foldedJoined, rfl, rfl⟩ := folds_of_filter foldedFilter
    obtain ⟨uses, run, carry⟩ := Told.optional first second foldedLeft foldedJoined
    exact ⟨uses, run, carry _ fun f => ⟨List.infix_rfl, List.infix_rfl⟩⟩
  | filter _ _ inside =>
    obtain ⟨fragments, _, foldedInner, rfl, rfl⟩ := folds_of_filter folded
    obtain ⟨uses, run, carry⟩ := inside foldedInner
    exact ⟨uses, run, carry.map fun f => ⟨List.infix_rfl, List.infix_rfl⟩⟩
  | extend _ _ _ inside =>
    obtain ⟨fragments, foldedInner, rfl⟩ := folds_of_extend folded
    obtain ⟨uses, run, carry⟩ := inside foldedInner
    exact ⟨uses, run, carry.map (inside_withExtension _ _ _)⟩
  | graph named _ inside =>
    obtain ⟨uses, run, carry⟩ := inside folded
    exact ⟨uses, run_bind_ok_iff.2 ⟨_, _, named, run⟩, carry⟩

end Carry

end Normal

theorem NormalQuery.carry_of_ofQuery {maxHops : Nat} {query : Sparql.Query} {normal : NormalQuery}
    (reduced : ofQuery maxHops query = .ok normal) {n m : Nat} {fragments : List Fragment}
    (folded : Fragment.ofAlgebra n (Program.bodyOf normal.algebra) = .ok (fragments, m)) :
    ∃ uses, query.pathUses maxHops = .ok uses ∧ Fragment.Carry fragments uses := by
  obtain ⟨body, names, made, algebra, _⟩ := ofQuery_ok reduced
  rw [algebra] at folded
  obtain ⟨uses, run, carry⟩ := Normal.carry_pattern (Normal.pattern_ok_iff.1 made) folded
  exact ⟨uses, bind_ok_iff.2 ⟨(uses, names), run, rfl⟩, carry⟩

/-! ## What branches bind -/

namespace Tracing

theorem Applies.isSome_iff {e : Encoder} {t final : Tracing} {xs : List ScopedExtension}
    {made : List Extension} (applies : Applies e t xs made final) (key : String) :
    (final.sources.get? key).isSome ↔
      (t.sources.get? key).isSome ∨ ∃ x ∈ made, x.name = key := by
  induction applies with
  | done t => simp
  | skip found _ induction => exact induction
  | make found _ induction =>
    rw [induction, isSome_withKey, List.exists_mem_cons_iff, or_assoc, or_left_comm]
    simp only [eq_comm]

end Tracing

/-- A branch has a key in a pattern, or as what an extension binds. -/
def Branch.Binds (b : Branch) (key : String) : Prop :=
  (∃ p ∈ b.patterns, key ∈ p.keys) ∨ ∃ x ∈ b.extensions, x.name = key

theorem Branch.Applies.contains_bound_iff {e : Encoder} {f : Fragment} {b : Branch}
    {start final : Tracing} (applies : b.Applies e f start final) (key : String) :
    b.bound.contains key = true ↔ b.Binds key := by
  rw [applies.bound, applies.extensions.isSome_iff, Tracing.isSome_ofPatterns applies.traced,
    ← applies.patterns, Branch.Binds]

namespace Resolver

variable {r : Resolver} {p : Program} {resolution : Resolution} {w : Witness} {key : String}

theorem publishes_bound (resolved : r.resolve p = .ok resolution)
    (member : w ∈ resolution.witnesses) (projected : key ∈ p.projected) {b : Branch}
    (branch : p.branches[w.branch]? = some b) {e : Encoder} {f : Fragment} {start final : Tracing}
    (applies : b.Applies e f start final) (bound : b.bound.contains key = true) :
    ∃ term code, w.bindings.get? key = some term ∧ r.encoder.encode term = .ok code ∧
      w.values.get? key = some code := by
  obtain ⟨b', candidates, c, found, made, candidate, builds, _⟩ := mem_witnesses resolved member
  obtain rfl := Option.some.inj (branch.symm.trans found)
  obtain ⟨x, published, stored⟩ := values_hold builds projected
  have held := Candidate.isSome_row applies made candidate key
  rw [bound] at held
  obtain ⟨term, held⟩ := Option.isSome_iff_exists.1 held
  rw [publicValue, held] at published
  refine ⟨term, x, ?_, published, stored⟩
  rw [builds.bindings, KeyMap.get_restrict, if_pos (List.contains_iff_mem.2 projected), held]

end Resolver

/-- A program has no branch with a path of length zero between keys that are both unbound when its
turn comes. -/
theorem Program.refuses_open {config : Config} {query : NormalQuery} {fragments : List Fragment}
    {next : Nat}
    (folded : Fragment.ofAlgebra 0 (bodyOf query.algebra) = .ok (fragments, next)) {f : Fragment}
    (member : f ∈ fragments) {before after : List ScopedExtension} {x : ScopedExtension}
    (split : f.extensions = before ++ x :: after)
    (openEnds : ¬ x.Reached (ScopedExtension.afterAll f.Matched before)) :
    ∃ fault, ofNormal config query = .error fault := by
  cases compiled : ofNormal config query with
  | error fault => exact ⟨fault, rfl⟩
  | ok p =>
    obtain ⟨all, _, same, each⟩ := exists_ofNormal_iff.1 ⟨p, compiled⟩
    obtain ⟨rfl, _⟩ := Prod.mk.inj (Except.ok.inj (folded.symm.trans same))
    have run := (each f member).extensions
    rw [split, ScopedExtension.run_append] at run
    exact absurd run.2.1.reached openEnds

/-- A path of a query in a branch of its program. The branch has the way of the path, and it leaves
an end of the path unbound exactly if the way is a loop and nothing in the branch binds the end. Where
the end is bound and projected, every witness of the branch publishes the code of a term that it is
bound to. A query with a path of length zero whose ends are both unbound when its turn comes is
refused, unless its ends are one. -/
theorem path_ends_bound (config : Config) (query : Sparql.Query) (normal : NormalQuery)
    (reduced : NormalQuery.ofQuery config.maxPathHops query = .ok normal) :
    (∀ p, Program.ofNormal config normal = .ok p → ∃ uses,
      query.pathUses config.maxPathHops = .ok uses ∧ p.branches.length = uses.length ∧
      ∀ (i : Nat) (b : Branch) (here : List PathUse), p.branches[i]? = some b →
        uses[i]? = some here → ∀ use ∈ here, use.way.patterns <:+: b.patterns ∧
          ∀ key, use.IsEnd key →
            (b.bound.contains key = false ↔ use.IsLoop ∧ ¬ b.Binds key) ∧
            (b.bound.contains key = true → key ∈ p.projected → ∀ r resolution,
              Resolver.resolve r p = .ok resolution → ∀ w ∈ resolution.witnesses, w.branch = i →
                ∃ term code, w.bindings.get? key = some term ∧
                  r.encoder.encode term = .ok code ∧ w.values.get? key = some code)) ∧
    ∀ fragments next, Fragment.ofAlgebra 0 (Program.bodyOf normal.algebra) = .ok (fragments, next) →
      ∀ f ∈ fragments, ∀ before x after, f.extensions = before ++ x :: after →
        ¬ x.Reached (ScopedExtension.afterAll f.Matched before) →
          ∃ fault, Program.ofNormal config normal = .error fault := by
  refine ⟨fun p compiled => ?_, fun fragments next folded f member before x after split openEnds =>
    Program.refuses_open folded member split openEnds⟩
  obtain ⟨fragments, compiles⟩ := Program.ofNormal_ok compiled
  obtain ⟨next, folded⟩ := compiles.folded
  obtain ⟨uses, told, carry⟩ := NormalQuery.carry_of_ofQuery reduced folded
  refine ⟨uses, told, compiles.length.trans carry.length_eq,
    fun i b here branch taken use member => ?_⟩
  obtain ⟨short, rfl⟩ := List.getElem?_eq_some_iff.1 taken
  have inside : i < fragments.length := carry.length_eq ▸ short
  obtain ⟨_, _, comes⟩ := compiles.comes (List.getElem?_eq_getElem inside) branch
  obtain ⟨start, final, applies⟩ := comes.applies
  have stands := carry.get inside short use member
  refine ⟨applies.patterns ▸ stands.inside.patterns, fun key isEnd => ⟨?_, ?_⟩⟩
  · rw [← applies.contains_bound_iff, Bool.not_eq_true, iff_and_self]
    intro unbound
    refine stands.loop_of_unbound isEnd fun binds => ?_
    rw [(Fragment.contains_bound_iff applies).2 binds] at unbound
    cases unbound
  · intro bound projected r resolution resolved w among same
    exact Resolver.publishes_bound resolved among projected (same ▸ branch) applies bound

def pathsOf (text : String) : Result (Program × List (List PathUse)) := do
  let (query, _, p) ← compiledText text
  return (p, ← query.pathUses sampleConfig.maxPathHops)

theorem pathsOf_ok {text : String} {p : Program} {uses : List (List PathUse)}
    (found : pathsOf text = .ok (p, uses)) : ∃ query normal,
      Sparql.Query.parse text = .ok query ∧
      NormalQuery.ofQuery sampleConfig.maxPathHops query = .ok normal ∧
      Program.ofNormal sampleConfig normal = .ok p ∧
      query.pathUses sampleConfig.maxPathHops = .ok uses := by
  obtain ⟨⟨query, normal, _⟩, made, found⟩ := bind_ok_iff.1 found
  obtain ⟨_, told, found⟩ := bind_ok_iff.1 found
  obtain ⟨rfl, rfl⟩ := Prod.mk.inj (pure_ok_iff.1 found)
  obtain ⟨parsed, reduced, compiled⟩ := compiledText_ok made
  exact ⟨query, normal, parsed, reduced, compiled, told⟩

def knownEndText : String := "SELECT ?s WHERE \x7b ?s <http://e/p>? <http://e/a> \x7d"

def startsPaths (key : String) (uses : List (List PathUse)) : Bool :=
  uses.all fun here => here.any fun use =>
    use.subject.key? == some key && !(use.way.patterns.isEmpty && use.way.extensions.isEmpty)

set_option maxRecDepth 100000 in
theorem knownEnd_starts :
    (pathsOf knownEndText).toOption.any (fun (_, uses) => startsPaths "s" uses) = true := by
  decide +kernel

theorem path_ends_bound_sample : ∃ query normal p,
    Sparql.Query.parse knownEndText = .ok query ∧
    NormalQuery.ofQuery sampleConfig.maxPathHops query = .ok normal ∧
    Program.ofNormal sampleConfig normal = .ok p ∧
    ∀ b ∈ p.branches, b.bound.contains "s" = true := by
  obtain ⟨⟨p, uses⟩, found, starts⟩ := exists_ok_of_any knownEnd_starts
  obtain ⟨query, normal, parsed, reduced, compiled, told⟩ := pathsOf_ok found
  obtain ⟨_, same, length, each⟩ := (path_ends_bound sampleConfig query normal reduced).1 p compiled
  obtain rfl := Except.ok.inj (told.symm.trans same)
  refine ⟨query, normal, p, parsed, reduced, compiled, fun b member => ?_⟩
  obtain ⟨i, branch⟩ := List.mem_iff_getElem?.1 member
  have short : i < uses.length := length ▸ (List.getElem?_eq_some_iff.1 branch).1
  obtain ⟨use, inside, starts⟩ := List.any_eq_true.1 (List.all_eq_true.1 starts _
    (List.getElem_mem short))
  obtain ⟨isStart, full⟩ := Bool.and_eq_true_iff.1 starts
  have ends := (each i b _ branch (List.getElem?_eq_getElem short) use inside).2 "s"
    (Or.inl (beq_iff_eq.1 isStart))
  by_contra unbound
  obtain ⟨⟨⟨none, empty⟩, _⟩, _⟩ := ends.1.1 (by simpa using unbound)
  simp [none, empty] at full

/-! ## A loop that nothing binds -/

def loopText : String := "SELECT ?x WHERE \x7b ?x <http://e/p>? ?x \x7d"

def losesStart (key : String) (found : Program × List (List PathUse)) : Bool :=
  (found.1.branches.zip found.2).any fun (b, here) =>
    !(b.bound.contains key) && here.any fun use => use.subject.key? == some key

set_option maxRecDepth 100000 in
theorem loop_loses : (pathsOf loopText).toOption.any (losesStart "x") = true := by
  decide +kernel

/-- A path of length zero from a variable to itself is no reason for the branch to bind it, and the
query is compiled although nothing else does. -/
theorem loop_leaves_end_unbound : ∃ query normal p uses,
    Sparql.Query.parse loopText = .ok query ∧
    NormalQuery.ofQuery sampleConfig.maxPathHops query = .ok normal ∧
    Program.ofNormal sampleConfig normal = .ok p ∧
    query.pathUses sampleConfig.maxPathHops = .ok uses ∧
    ∃ (i : Nat) (b : Branch) (here : List PathUse) (use : PathUse), p.branches[i]? = some b ∧
      uses[i]? = some here ∧ use ∈ here ∧ use.IsEnd "x" ∧ b.bound.contains "x" = false := by
  obtain ⟨⟨p, uses⟩, found, loses⟩ := exists_ok_of_any loop_loses
  obtain ⟨query, normal, parsed, reduced, compiled, told⟩ := pathsOf_ok found
  obtain ⟨⟨b, here⟩, member, loses⟩ := List.any_eq_true.1 loses
  obtain ⟨i, both⟩ := List.mem_iff_getElem?.1 member
  obtain ⟨branch, taken⟩ := List.getElem?_zip_eq_some.1 both
  obtain ⟨unbound, starts⟩ := Bool.and_eq_true_iff.1 loses
  obtain ⟨use, inside, isStart⟩ := List.any_eq_true.1 starts
  exact ⟨query, normal, p, uses, parsed, reduced, compiled, told, i, b, here, use, branch, taken,
    inside, Or.inl (beq_iff_eq.1 isStart), by simpa using unbound⟩

end AttestedQuery
