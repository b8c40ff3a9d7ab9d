import AttestedQuery.Proofs.BindingOrder
import AttestedQuery.Proofs.Joins

/-!
# Joins in either order

The fragments of a join run through the extensions of one side after those of the other. Two sides
can change places where this makes no difference to any extension: where a copy of a variable has a
value after the other side exactly if it has one before it, and where an end of each path of length
zero is bound before the other side if one is bound after it. The patterns of both sides are bound
from the start, so only what the extensions of one side bind for those of the other is at stake.
Without optional parts the joins in both orders then resolve to the same rows; and where copies are
not affected, a join in one order that can be compiled can be compiled in the other exactly if the
ends of its paths are bound in both.
-/

set_option autoImplicit false

namespace AttestedQuery

/-! ## Extensions after those of another side -/

namespace ScopedExtension

/-- Each of several extensions that passes a test where more keys are bound before passes it where
few are. -/
def Steady (test : (String → Prop) → ScopedExtension → Prop) :
    (String → Prop) → (String → Prop) → List ScopedExtension → Prop
  | _, _, [] => True
  | few, more, x :: rest =>
    (test more x → test few x) ∧ Steady test (x.after few) (x.after more) rest

variable {few more : String → Prop} {xs : List ScopedExtension} {row : Row} {e : Encoder}

/-- Extensions that have their values anyway bind the same keys, beside those bound before. -/
theorem Steady.afterAll_iff (steady : Steady Supplied few more xs)
    (grows : ∀ key, few key → more key) (key : String) :
    afterAll more xs key ↔ more key ∨ afterAll few xs key := by
  induction xs generalizing few more with
  | nil => exact ⟨Or.inl, fun bound => bound.elim id (grows key)⟩
  | cons x rest induction =>
    rw [afterAll_cons, afterAll_cons, induction steady.2 (after_mono grows)]
    constructor
    · rintro ((bound | ⟨supplied, about⟩) | later)
      · exact Or.inl bound
      · exact Or.inr (afterAll_keeps (Or.inr ⟨steady.1 supplied, about⟩))
      · exact Or.inr later
    · exact Or.imp_left Or.inl

theorem Steady.met_iff (steady : Steady Supplied few more xs)
    (grows : ∀ key, few key → more key) : Met row more xs ↔ Met row few xs := by
  induction xs generalizing few more with
  | nil => exact Iff.rfl
  | cons x rest induction =>
    rw [Met, Met, induction steady.2 (after_mono grows)]
    have supplied : x.Supplied more ↔ x.Supplied few := ⟨steady.1, fun here => here.mono grows⟩
    rw [supplied]

theorem Run.steady (run : Run e few xs) : Steady Reached few more xs := by
  induction xs generalizing few more with
  | nil => trivial
  | cons x rest induction => exact ⟨fun _ => run.1.reached, induction run.2⟩

/-- What can be compiled where more keys are bound can be where few are, if an end of each path is
bound there too. -/
theorem Run.of_steady (run : Run e more xs) (steady : Steady Reached few more xs) :
    Run e few xs := by
  induction xs generalizing few more with
  | nil => trivial
  | cons x rest induction =>
    exact ⟨run.1.of_reached (steady.1 run.1.reached), induction run.2 steady.2⟩

/-- An extension by a constant or of an alias always has a value. -/
theorem supplied_of_plain {x : ScopedExtension} (plain : x.isPlain = true) : x.Supplied few := by
  by_contra missing
  obtain ⟨source, visible, value, shown⟩ := copies_of_not_supplied missing
  simp [isPlain, value, shown] at plain

theorem steady_of_plain (plain : ∀ x ∈ xs, x.isPlain = true) : Steady Supplied few more xs := by
  induction xs generalizing few more with
  | nil => trivial
  | cons x rest induction =>
    rw [List.forall_mem_cons] at plain
    exact ⟨fun _ => supplied_of_plain plain.1, induction plain.2⟩

end ScopedExtension

/-! ## Pairs in either order -/

namespace Fragment

open ScopedExtension

def Shared (a b : Fragment) (key : String) : Prop := a.Matched key ∨ b.Matched key

/-- Each extension of two fragments that passes a test after those of the other one passes it
before them. -/
structure Indifferent (test : (String → Prop) → ScopedExtension → Prop) (a b : Fragment) :
    Prop where
  left : Steady test (a.Shared b) (afterAll (a.Shared b) b.extensions) a.extensions
  right : Steady test (a.Shared b) (afterAll (a.Shared b) a.extensions) b.extensions

def tests (f : Fragment) : List (Expr × KeySet) := f.filters.map fun x => (x.condition, x.visible)

structure Pairs (a b f : Fragment) : Prop where
  patterns : f.patterns = a.patterns ++ b.patterns
  extensions : f.extensions = a.extensions ++ b.extensions
  tests : f.tests = a.tests ++ b.tests

theorem pairs_paired (width i j offset : Nat) (a b : Fragment) :
    a.Pairs b (paired width i j a (b.renumbered offset)) where
  patterns := rfl
  extensions := rfl
  tests := by simp [Fragment.tests, paired, renumbered, Function.comp_def]

theorem passes_iff_tests {e : Encoder} {f : Fragment} {row : Row} : f.Passes e row ↔
    ∀ test ∈ f.tests, Row.satisfies e (row.restrict test.2.contains) test.1 = true := by
  rw [tests, List.forall_mem_map]
  rfl

section Pairs

variable {test : (String → Prop) → ScopedExtension → Prop} {a b f g : Fragment} {e : Encoder}
  {agrees : Term → Term → Prop} {quads : List Quad} {row : Row}

theorem shared_comm (a b : Fragment) : a.Shared b = b.Shared a :=
  funext fun _ => propext or_comm

theorem Indifferent.symm (indifferent : a.Indifferent test b) : b.Indifferent test a := by
  have same := shared_comm a b
  exact ⟨same ▸ indifferent.right, same ▸ indifferent.left⟩

theorem Pairs.matched (pair : a.Pairs b f) : f.Matched = a.Shared b := by
  funext key
  simp only [Matched, Shared, pair.patterns, List.mem_append, or_and_right, exists_or]

theorem Pairs.run_iff (pair : a.Pairs b f) : Run e f.Matched f.extensions ↔
    Run e (a.Shared b) a.extensions ∧ Run e (afterAll (a.Shared b) a.extensions) b.extensions := by
  rw [pair.matched, pair.extensions, run_append]

theorem Pairs.binds_iff (pair : a.Pairs b f) (copies : a.Indifferent Supplied b) (key : String) :
    f.Binds key ↔
      afterAll (a.Shared b) a.extensions key ∨ afterAll (a.Shared b) b.extensions key := by
  rw [Binds, pair.matched, pair.extensions, afterAll_append,
    copies.right.afterAll_iff fun _ => afterAll_keeps]

theorem Pairs.met_iff (pair : a.Pairs b f) (copies : a.Indifferent Supplied b) :
    Met row f.Matched f.extensions ↔
      Met row (a.Shared b) a.extensions ∧ Met row (a.Shared b) b.extensions := by
  rw [pair.matched, pair.extensions, met_append, copies.right.met_iff fun _ => afterAll_keeps]

theorem Pairs.binds_eq (pair : a.Pairs b f) (swapped : b.Pairs a g)
    (copies : a.Indifferent Supplied b) : f.Binds = g.Binds := by
  funext key
  rw [pair.binds_iff copies, swapped.binds_iff copies.symm, shared_comm b a]
  exact propext or_comm

theorem Pairs.yields_iff (pair : a.Pairs b f) (swapped : b.Pairs a g)
    (copies : a.Indifferent Supplied b) :
    f.Yields agrees quads row ↔ g.Yields agrees quads row := by
  have patterns (p : Pattern) : p ∈ f.patterns ↔ p ∈ g.patterns := by
    rw [pair.patterns, swapped.patterns, List.mem_append, List.mem_append]
    exact or_comm
  have met : Met row f.Matched f.extensions ↔ Met row g.Matched g.extensions := by
    rw [pair.met_iff copies, swapped.met_iff copies.symm, shared_comm b a]
    exact and_comm
  have binds := pair.binds_eq swapped copies
  constructor
  · intro yields
    exact ⟨fun p member => yields.fits p ((patterns p).2 member), met.1 yields.met,
      binds ▸ yields.bound⟩
  · intro yields
    exact ⟨fun p member => yields.fits p ((patterns p).1 member), met.2 yields.met,
      binds ▸ yields.bound⟩

theorem Pairs.mem_tests_iff (pair : a.Pairs b f) (swapped : b.Pairs a g) (test : Expr × KeySet) :
    test ∈ f.tests ↔ test ∈ g.tests := by
  rw [pair.tests, swapped.tests, List.mem_append, List.mem_append]
  exact or_comm

theorem Pairs.passes_iff (pair : a.Pairs b f) (swapped : b.Pairs a g) :
    f.Passes e row ↔ g.Passes e row := by
  simp only [passes_iff_tests, pair.mem_tests_iff swapped]

/-- A pair that can be compiled can be compiled in the other order exactly where an end of each path
is bound in both. -/
theorem Pairs.compiles_iff (pair : a.Pairs b f) (swapped : b.Pairs a g)
    (copies : a.Indifferent Supplied b) (compiles : f.Compiles e) :
    g.Compiles e ↔ a.Indifferent Reached b := by
  obtain ⟨left, right⟩ := pair.run_iff.1 compiles.extensions
  constructor
  · intro other
    have here := (swapped.run_iff.1 other.extensions).1
    exact ⟨left.steady, (shared_comm b a ▸ here).steady⟩
  · intro indifferent
    refine ⟨fun p member => compiles.patterns p ?_, swapped.run_iff.2 ?_, ?_⟩
    · rw [swapped.patterns, List.mem_append] at member
      rw [pair.patterns, List.mem_append]
      exact member.symm
    · rw [shared_comm b a]
      exact ⟨right.of_steady indifferent.right, left.mono fun _ => afterAll_keeps⟩
    · intro x filter
      have binds := pair.binds_eq swapped copies
      have listed : (x.condition, x.visible) ∈ f.tests :=
        (pair.mem_tests_iff swapped _).2 (List.mem_map_of_mem filter)
      obtain ⟨y, inside, same⟩ := List.mem_map.1 listed
      obtain ⟨condition, visible⟩ := Prod.mk.inj same
      rw [← condition, ← visible, ← binds]
      exact compiles.filters y inside

end Pairs

end Fragment

/-! ## Joins of algebras -/

namespace Algebra

/-- Algebras without optional parts. -/
inductive Inclusive : Algebra → Prop
  | bgp (patterns : List Pattern) : Inclusive (.bgp patterns)
  | join {left right : Algebra} (first : Inclusive left) (second : Inclusive right) :
      Inclusive (.join left right)
  | union {branches : List Algebra} (each : ∀ branch ∈ branches, Inclusive branch) :
      Inclusive (.union .plain branches)
  | filter (condition : Expr) {inner : Algebra} (inclusive : Inclusive inner) :
      Inclusive (.filter condition inner)
  | extend (pathAlias : Bool) (name : String) (value : Expr) {inner : Algebra}
    (inclusive : Inclusive inner) : Inclusive (.extend pathAlias name value inner)

/-- Each extension of two algebras that passes a test after those of the other one passes it before
them, in every pair of their fragments. -/
def Indifferent (test : (String → Prop) → ScopedExtension → Prop) (left right : Algebra) : Prop :=
  ∀ lefts n rights m, Fragment.ofAlgebra 0 left = .ok (lefts, n) →
    Fragment.ofAlgebra 0 right = .ok (rights, m) → ∀ a ∈ lefts, ∀ b ∈ rights, a.Indifferent test b

theorem Indifferent.symm {test : (String → Prop) → ScopedExtension → Prop} {left right : Algebra}
    (indifferent : left.Indifferent test right) : right.Indifferent test left :=
  fun rights m lefts n second first b inB a inA =>
    (indifferent lefts n rights m first second a inA b inB).symm

end Algebra

namespace Fragment

/-- Fragments without optional parts exclude nothing. -/
theorem closed_inclusive : Closed fun _ a fragments _ =>
    a.Inclusive → ∀ f ∈ fragments, f.exclusiveOf = [] where
  bgp n patterns := by simp [ofPatterns]
  join first second inclusive := by
    cases inclusive with
    | join left right =>
      intro f member
      obtain ⟨i, j, a, b, here, there, rfl⟩ := mem_product.1 member
      simp [paired, first left a (List.mem_of_getElem? here),
        second right b (List.mem_of_getElem? there)]
  union kind each inclusive := by
    cases inclusive with
    | union all =>
      intro f member
      obtain ⟨list, inside, g, here, offset, rfl⟩ := mem_concatenated member
      obtain ⟨branch, branched, _, _, holds⟩ := each.exists_branch inside
      simp [shifted, holds (all branch branched) g here]
  filter condition induction inclusive := by
    cases inclusive with
    | filter _ inclusive =>
      intro f member
      obtain ⟨g, inside, rfl⟩ := List.mem_map.1 member
      exact induction inclusive g inside
  extend pathAlias name value induction inclusive := by
    cases inclusive with
    | extend _ _ _ inclusive =>
      intro f member
      obtain ⟨g, inside, rfl⟩ := List.mem_map.1 member
      exact induction inclusive g inside

/-- Whether an algebra can be folded does not depend on the number of its first filter. -/
theorem closed_folds_from : Closed fun _ a _ _ => ∀ n, ∃ found, ofAlgebra n a = .ok found where
  bgp _ patterns n := ⟨_, rfl⟩
  join first second n := by
    rw [ofAlgebra]
    exact bind_succeeds (first n) fun found _ => bind_succeeds (second found.2) fun _ _ => ⟨_, rfl⟩
  union kind each n := by
    rw [ofAlgebra]
    refine bind_succeeds ?_ fun _ _ => ⟨_, rfl⟩
    clear kind
    induction each generalizing n with
    | nil => exact ⟨_, rfl⟩
    | cons first _ induction =>
      rw [ofBranches]
      exact bind_succeeds (first n) fun found _ =>
        bind_succeeds (induction found.2) fun _ _ => ⟨_, rfl⟩
  filter condition induction n := by
    rw [ofAlgebra]
    exact bind_succeeds (induction n) fun _ _ => ⟨_, rfl⟩
  extend pathAlias name value induction n := by
    rw [ofAlgebra]
    exact bind_succeeds (induction n) fun _ _ => ⟨_, rfl⟩

/-- Fragments differ from those folded alone in the numbers of their filters only. -/
theorem folds_alone {a : Algebra} {fragments : List Fragment} {n m : Nat}
    (folded : ofAlgebra n a = .ok (fragments, m)) :
    ∃ alone k, ofAlgebra 0 a = .ok (alone, k) ∧ fragments = alone.map (renumbered n) := by
  obtain ⟨⟨alone, k⟩, first⟩ := closed_folds_from.ofAlgebra a folded 0
  have again := (closed_renumbered n).ofAlgebra a first
  rw [Nat.zero_add] at again
  obtain ⟨rfl, _⟩ := Prod.mk.inj (Except.ok.inj (folded.symm.trans again))
  exact ⟨alone, k, first, rfl⟩

section Joined

variable {left right : Algebra} {lefts rights whole : List Fragment} {n m : Nat}

/-- Every fragment of a join is the pair of two fragments of its sides, folded alone. -/
theorem exists_pairs_of_join (folded : ofAlgebra 0 (.join left right) = .ok (whole, m)) :
    ∃ lefts n rights k, ofAlgebra 0 left = .ok (lefts, n) ∧ ofAlgebra 0 right = .ok (rights, k) ∧
      (∀ f ∈ whole, ∃ a ∈ lefts, ∃ b ∈ rights, a.Pairs b f) ∧
      ∀ a ∈ lefts, ∀ b ∈ rights, ∃ f ∈ whole, a.Pairs b f := by
  obtain ⟨lefts, n, numbered, first, later, rfl⟩ := folds_of_join folded
  obtain ⟨rights, low, second, rfl⟩ := folds_alone later
  refine ⟨lefts, n, rights, low, first, second, fun f member => ?_, fun a inA b inB => ?_⟩
  · obtain ⟨i, j, a, c, here, there, rfl⟩ := mem_product.1 member
    obtain ⟨b, inB, rfl⟩ := List.mem_map.1 (List.mem_of_getElem? there)
    exact ⟨a, List.mem_of_getElem? here, b, inB, pairs_paired _ i j n a b⟩
  · obtain ⟨i, here⟩ := List.mem_iff_getElem?.1 inA
    obtain ⟨j, there⟩ := List.mem_iff_getElem?.1 inB
    have numbered : (rights.map (renumbered n))[j]? = some (b.renumbered n) := by
      rw [List.getElem?_map, there, Option.map_some]
    exact ⟨_, mem_product.2 ⟨i, j, a, _, here, numbered, rfl⟩, pairs_paired _ i j n a b⟩

theorem exists_join_of_folds (first : ofAlgebra 0 left = .ok (lefts, n))
    (second : ofAlgebra 0 right = .ok (rights, m)) :
    ∃ whole k, ofAlgebra 0 (.join left right) = .ok (whole, k) := by
  have later := (closed_renumbered n).ofAlgebra right second
  rw [Nat.zero_add] at later
  exact ⟨_, _, closed_folds.join first later⟩

theorem exists_swapped {others : List Fragment}
    (folded : ofAlgebra 0 (.join left right) = .ok (whole, n))
    (swapped : ofAlgebra 0 (.join right left) = .ok (others, m)) :
    ∃ lefts k rights l, ofAlgebra 0 left = .ok (lefts, k) ∧ ofAlgebra 0 right = .ok (rights, l) ∧
      (∀ f ∈ whole, ∃ a ∈ lefts, ∃ b ∈ rights, ∃ g ∈ others, a.Pairs b f ∧ b.Pairs a g) ∧
      ∀ a ∈ lefts, ∀ b ∈ rights, ∃ f ∈ whole, ∃ g ∈ others, a.Pairs b f ∧ b.Pairs a g := by
  obtain ⟨lefts, k, rights, l, first, second, parts, pairs⟩ := exists_pairs_of_join folded
  obtain ⟨_, _, _, _, second', first', _, pairs'⟩ := exists_pairs_of_join swapped
  obtain ⟨rfl, rfl⟩ := Prod.mk.inj (Except.ok.inj (first.symm.trans first'))
  obtain ⟨rfl, rfl⟩ := Prod.mk.inj (Except.ok.inj (second.symm.trans second'))
  refine ⟨lefts, k, rights, l, first, second, fun f member => ?_, fun a inA b inB => ?_⟩
  · obtain ⟨a, inA, b, inB, pair⟩ := parts f member
    obtain ⟨g, inside, other⟩ := pairs' b inB a inA
    exact ⟨a, inA, b, inB, g, inside, pair, other⟩
  · obtain ⟨f, member, pair⟩ := pairs a inA b inB
    obtain ⟨g, inside, other⟩ := pairs' b inB a inA
    exact ⟨f, member, g, inside, pair, other⟩

end Joined

end Fragment

section Joined

open Fragment

variable {config : Config} {query other : NormalQuery} {left right : Algebra} {p q : Program}
  {fragments others : List Fragment}

/-- A join that can be compiled can be compiled in the other order where an end of each path is
bound in both. -/
theorem Program.exists_ofNormal_swapped (here : bodyOf query.algebra = .join left right)
    (there : bodyOf other.algebra = .join right left)
    (copies : left.Indifferent ScopedExtension.Supplied right)
    (reached : left.Indifferent ScopedExtension.Reached right)
    (compiled : ∃ p, ofNormal config query = .ok p) : ∃ q, ofNormal config other = .ok q := by
  obtain ⟨whole, _, folded, each⟩ := exists_ofNormal_iff.1 compiled
  rw [here] at folded
  obtain ⟨lefts, n, rights, m, first, second, _, pairs⟩ := exists_pairs_of_join folded
  obtain ⟨others, next, swapped⟩ := exists_join_of_folds second first
  refine exists_ofNormal_iff.2 ⟨others, next, there ▸ swapped, fun g member => ?_⟩
  obtain ⟨_, _, _, _, second', first', parts, _⟩ := exists_pairs_of_join swapped
  obtain ⟨rfl, rfl⟩ := Prod.mk.inj (Except.ok.inj (first.symm.trans first'))
  obtain ⟨rfl, rfl⟩ := Prod.mk.inj (Except.ok.inj (second.symm.trans second'))
  obtain ⟨b, inB, a, inA, pair'⟩ := parts g member
  obtain ⟨f, inside, pair⟩ := pairs a inA b inB
  exact (pair.compiles_iff pair' (copies _ _ _ _ first second a inA b inB) (each f inside)).2
    (reached _ _ _ _ first second a inA b inB)

/-- Where a join can be compiled in both orders, an end of each path is bound in both. -/
theorem Program.reached_of_both (here : bodyOf query.algebra = .join left right)
    (there : bodyOf other.algebra = .join right left)
    (copies : left.Indifferent ScopedExtension.Supplied right)
    (compiled : ∃ p, ofNormal config query = .ok p)
    (swapped : ∃ q, ofNormal config other = .ok q) :
    left.Indifferent ScopedExtension.Reached right := by
  obtain ⟨whole, _, folded, each⟩ := exists_ofNormal_iff.1 compiled
  obtain ⟨others, _, folded', each'⟩ := exists_ofNormal_iff.1 swapped
  rw [here] at folded
  rw [there] at folded'
  obtain ⟨lefts, n, rights, m, first, second, _, pairs⟩ := exists_swapped folded folded'
  intro lefts' n' rights' m' first' second' a inA b inB
  obtain ⟨rfl, rfl⟩ := Prod.mk.inj (Except.ok.inj (first.symm.trans first'))
  obtain ⟨rfl, rfl⟩ := Prod.mk.inj (Except.ok.inj (second.symm.trans second'))
  obtain ⟨f, inside, g, inside', pair, pair'⟩ := pairs a inA b inB
  exact (pair.compiles_iff pair' (copies _ _ _ _ first second a inA b inB) (each f inside)).1
    (each' g inside')

theorem Fragment.keeps_of_swapped (compiles : p.Compiles config query fragments)
    (compiles' : q.Compiles config other others)
    (here : Program.bodyOf query.algebra = .join left right)
    (there : Program.bodyOf other.algebra = .join right left)
    (inclusive : left.Inclusive) (inclusive' : right.Inclusive)
    (copies : left.Indifferent ScopedExtension.Supplied right) {d : Dataset} {i : Nat} {row : Row}
    (kept : Keeps config.encoder fragments (p.Admits d config.encoder) i row) :
    ∃ j, Keeps config.encoder others (q.Admits d config.encoder) j row := by
  obtain ⟨n, folded⟩ := compiles.folded
  obtain ⟨m, swapped⟩ := compiles'.folded
  rw [here] at folded
  rw [there] at swapped
  obtain ⟨lefts, _, rights, _, first, second, parts, _⟩ := exists_swapped folded swapped
  obtain ⟨f, fragment, admits, passes, _⟩ := kept
  obtain ⟨a, inA, b, inB, g, inside, pair, pair'⟩ := parts f (List.mem_of_getElem? fragment)
  obtain ⟨j, place⟩ := List.mem_iff_getElem?.1 inside
  obtain ⟨_, found, yields⟩ := compiles.admits_iff_yields.1 admits
  obtain rfl := Option.some.inj (fragment.symm.trans found)
  have copies := copies _ _ _ _ first second a inA b inB
  refine ⟨j, g, place, compiles'.admits_iff_yields.2 ⟨g, place, ?_⟩, ?_, ?_⟩
  · exact (pair.yields_iff pair' copies).1 yields
  · exact (pair.passes_iff pair').1 passes
  · rintro ⟨k, excluded, _⟩
    have none := closed_inclusive.ofAlgebra _ swapped (.join inclusive' inclusive) g inside
    rw [none] at excluded
    cases excluded

end Joined

/-- Where the extensions of the sides of a join are indifferent to each other, both orders of the
join can be compiled or neither, and resolve to the same rows over every signed dataset. Where only
copies of variables are, the join can be compiled in both orders only if an end of each path is
bound in both. -/
theorem join_in_either_order (config : Config) (query other : NormalQuery) (left right : Algebra)
    (here : Program.bodyOf query.algebra = .join left right)
    (there : Program.bodyOf other.algebra = .join right left)
    (inclusive : left.Inclusive) (inclusive' : right.Inclusive)
    (user : ∀ name ∈ query.projected, isUserKey name = true)
    (projected : ∀ name, name ∈ query.projected ↔ name ∈ other.projected)
    (copies : left.Indifferent ScopedExtension.Supplied right) :
    (left.Indifferent ScopedExtension.Reached right →
      ((∃ p, Program.ofNormal config query = .ok p) ↔
        ∃ q, Program.ofNormal config other = .ok q)) ∧
    ((∃ p, Program.ofNormal config query = .ok p) → (∃ q, Program.ofNormal config other = .ok q) →
      left.Indifferent ScopedExtension.Reached right) ∧
    ∀ p q, Program.ofNormal config query = .ok p → Program.ofNormal config other = .ok q →
      ∀ quads signer d, Dataset.sign quads config signer = .ok d →
        ∃ resolver resolution resolution', Resolver.ofDataset d config = .ok resolver ∧
          resolver.resolve p = .ok resolution ∧ resolver.resolve q = .ok resolution' ∧
          (resolution.witnesses.map (·.bindings)).Perm
            (resolution'.witnesses.map (·.bindings)) := by
  refine ⟨fun reached => ⟨?_, ?_⟩, ?_, ?_⟩
  · exact Program.exists_ofNormal_swapped here there copies reached
  · exact Program.exists_ofNormal_swapped there here copies.symm reached.symm
  · exact Program.reached_of_both here there copies
  · intro p q compiled swapped quads signer d signed
    obtain ⟨tree, signature, s⟩ := Dataset.sign_ok signed
    obtain ⟨fragments, compiles⟩ := Program.ofNormal_ok compiled
    obtain ⟨others, compiles'⟩ := Program.ofNormal_ok swapped
    rw [← compiles.projected] at user projected
    rw [← compiles'.projected] at projected
    obtain ⟨resolution, resolution', resolved, resolved', same⟩ :=
      Resolver.resolve_same s compiles compiles' user projected fun row => by
        constructor
        · rintro ⟨i, full, rfl, kept⟩
          obtain ⟨j, kept⟩ := Fragment.keeps_of_swapped compiles compiles' here there inclusive
            inclusive' copies kept
          exact ⟨j, full, rfl, kept⟩
        · rintro ⟨i, full, rfl, kept⟩
          obtain ⟨j, kept⟩ := Fragment.keeps_of_swapped compiles' compiles there here inclusive'
            inclusive copies.symm kept
          exact ⟨j, full, rfl, kept⟩
    exact ⟨_, resolution, resolution', s.resolver, resolved, resolved', same⟩

/-- Sides that copy no variables leave each other's copies alone. -/
theorem Algebra.Plain.indifferent {left right : Algebra} (plain : left.Plain)
    (plain' : right.Plain) : left.Indifferent ScopedExtension.Supplied right := by
  intro lefts n rights m first second a inA b inB
  exact ⟨ScopedExtension.steady_of_plain (Fragment.closed_plain.ofAlgebra _ first plain a inA),
    ScopedExtension.steady_of_plain (Fragment.closed_plain.ofAlgebra _ second plain' b inB)⟩

theorem Algebra.mem_projected_comm (left right : Algebra) (name : String) :
    name ∈ (join left right).query.projected ↔ name ∈ (join right left).query.projected := by
  simp only [query, keys, List.mem_eraseDups, List.mem_filter, List.mem_append, or_comm]

def sampleStep (subject object : String) : Algebra :=
  .union .plain [.bgp [⟨.var subject, .const (.iri "http://e/q"), .var object, none⟩],
    .extend true object (.var subject) .empty]

theorem sampleStep_plain (subject object : String) : (sampleStep subject object).Plain := by
  refine .union _ fun branch member => ?_
  rcases List.mem_pair.1 member with rfl | rfl
  · exact .bgp _
  · exact .link _ _ (.bgp _)

theorem sampleStep_inclusive (subject object : String) :
    (sampleStep subject object).Inclusive := by
  refine .union fun branch member => ?_
  rcases List.mem_pair.1 member with rfl | rfl
  · exact .bgp _
  · exact .extend _ _ _ (.bgp _)

def sampleStart : Algebra := .bgp [⟨.var "a", .const (.iri "http://e/p"), .var "d", none⟩]

set_option maxRecDepth 100000 in
theorem sampleStart_compiles :
    (∃ p, Program.ofNormal sampleConfig (sampleStart.join (sampleStep "a" "b")).query = .ok p) ∧
    ∃ q, Program.ofNormal sampleConfig ((sampleStep "a" "b").join sampleStart).query = .ok q :=
  ⟨exists_ok_of_isOk (by decide +kernel), exists_ok_of_isOk (by decide +kernel)⟩

theorem join_in_either_order_sample :
    sampleStart.Inclusive ∧ (sampleStep "a" "b").Inclusive ∧
    sampleStart.Indifferent ScopedExtension.Supplied (sampleStep "a" "b") ∧
    sampleStart.Indifferent ScopedExtension.Reached (sampleStep "a" "b") ∧
    ∃ p q, Program.ofNormal sampleConfig (sampleStart.join (sampleStep "a" "b")).query = .ok p ∧
      Program.ofNormal sampleConfig ((sampleStep "a" "b").join sampleStart).query = .ok q ∧
      Dataset.sign [sampleQuad] sampleConfig sampleSigner = .ok sampleDataset ∧
      ∃ resolver resolution resolution',
        Resolver.ofDataset sampleDataset sampleConfig = .ok resolver ∧
        resolver.resolve p = .ok resolution ∧ resolver.resolve q = .ok resolution' ∧
        (resolution.witnesses.map (·.bindings)).Perm (resolution'.witnesses.map (·.bindings)) := by
  obtain ⟨⟨p, compiled⟩, q, swapped⟩ := sampleStart_compiles
  have inclusive : sampleStart.Inclusive := .bgp _
  have copies : sampleStart.Indifferent ScopedExtension.Supplied (sampleStep "a" "b") :=
    Algebra.Plain.indifferent (.bgp _) (sampleStep_plain "a" "b")
  obtain ⟨_, reached, same⟩ := join_in_either_order sampleConfig
    (sampleStart.join (sampleStep "a" "b")).query ((sampleStep "a" "b").join sampleStart).query
    sampleStart (sampleStep "a" "b") rfl rfl inclusive (sampleStep_inclusive "a" "b")
    (Algebra.query_projectsAll _).user (Algebra.mem_projected_comm _ _) copies
  exact ⟨inclusive, sampleStep_inclusive "a" "b", copies, reached ⟨p, compiled⟩ ⟨q, swapped⟩,
    p, q, compiled, swapped, sample_signs, same p q compiled swapped _ _ _ sample_signs⟩

/-- A path of at most one step from a variable that is itself the end of such a path. -/
def sampleNear : Algebra := .join sampleStart (sampleStep "a" "b")

def openText : String :=
  "SELECT * WHERE \x7b \x7b ?b <http://e/q>? ?c \x7d " ++
    "\x7b ?a <http://e/p> ?d . ?a <http://e/q>? ?b \x7d \x7d"

def boundText : String :=
  "SELECT * WHERE \x7b \x7b ?a <http://e/p> ?d . ?a <http://e/q>? ?b \x7d " ++
    "\x7b ?b <http://e/q>? ?c \x7d \x7d"

/-- The outcome is that a path of length zero has no bound end. -/
def isOpenAlias (outcome : Result Program) : Bool :=
  match outcome with
  | .error (.unsupported (.openAlias _ _)) => true
  | _ => false

theorem exists_openAlias {outcome : Result Program} (refused : isOpenAlias outcome = true) :
    ∃ target source, outcome = .error (.unsupported (.openAlias target source)) := by
  unfold isOpenAlias at refused
  split at refused
  next target source => exact ⟨target, source, rfl⟩
  next => cases refused

set_option maxRecDepth 100000 in
theorem sampleNear_tested :
    isOpenAlias (Program.ofNormal sampleConfig ((sampleStep "b" "c").join sampleNear).query) ∧
    (Program.ofNormal sampleConfig (sampleNear.join (sampleStep "b" "c")).query).isOk ∧
    isOpenAlias (Program.compile sampleConfig openText) ∧
    (Program.compile sampleConfig boundText).isOk := by
  decide +kernel

/-- The group binds the variable between two paths through the alias of one of them, and the other
one is refused where it is written first. -/
theorem open_alias_in_one_order :
    (∃ target source,
      Program.ofNormal sampleConfig ((sampleStep "b" "c").join sampleNear).query =
        .error (.unsupported (.openAlias target source))) ∧
    (∃ q, Program.ofNormal sampleConfig (sampleNear.join (sampleStep "b" "c")).query = .ok q) ∧
    (∃ target source, Program.compile sampleConfig openText =
      .error (.unsupported (.openAlias target source))) ∧
    ∃ q, Program.compile sampleConfig boundText = .ok q := by
  obtain ⟨first, second, third, fourth⟩ := sampleNear_tested
  exact ⟨exists_openAlias first, exists_ok_of_isOk second, exists_openAlias third,
    exists_ok_of_isOk fourth⟩

end AttestedQuery
