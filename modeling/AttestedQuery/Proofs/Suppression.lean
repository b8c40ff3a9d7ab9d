import AttestedQuery.Proofs.Exclusions
import AttestedQuery.Proofs.Verdicts

/-!
# Which branches suppress which

A branch of a program is one way to choose a branch in every union that is reached. The numbers of
the branches that suppress it are moved up in every union and multiplied out in every join, but what
they say can be told from the choices alone: one branch chooses the left part of an OPTIONAL, the
other its joined part, and outside of that OPTIONAL they choose the same wherever both choose.
-/

set_option autoImplicit false

namespace AttestedQuery

/-! ## Choices -/

/-- One way to choose a branch in every union of an algebra that is reached. -/
inductive Choice where
  | alone
  | both (left right : Choice)
  | branch (number : Nat) (inner : Choice)
  deriving DecidableEq

/-- A step down an algebra. Filters and extensions are passed without one. -/
inductive Step where
  | left
  | right
  | branch (number : Nat)
  deriving DecidableEq

/-- The branch that is chosen in the union at the end of some steps; none where no union is
reached. -/
def Choice.chosenAt : List Step → Choice → Option Nat
  | [], .branch number _ => some number
  | .left :: steps, .both left _ => left.chosenAt steps
  | .right :: steps, .both _ right => right.chosenAt steps
  | .branch i :: steps, .branch number inner =>
    if i = number then inner.chosenAt steps else none
  | _, _ => none

namespace Algebra

mutual

/-- The choices of an algebra, in the order of the branches: a join runs through those of its right
side faster. -/
def choices : Algebra → List Choice
  | .bgp _ => [.alone]
  | .join left right => left.choices.flatMap fun c => right.choices.map (.both c)
  | .union _ branches => choicesFrom 0 branches
  | .filter _ inner => inner.choices
  | .extend _ _ _ inner => inner.choices
  | .project _ _ => []

def choicesFrom (number : Nat) : List Algebra → List Choice
  | [] => []
  | branch :: rest => branch.choices.map (.branch number) ++ choicesFrom (number + 1) rest

end

/-- A choice of an algebra, and the patterns that it leads to. -/
inductive Chooses : Algebra → Choice → List Pattern → Prop
  | bgp (patterns : List Pattern) : Chooses (.bgp patterns) .alone patterns
  | join {left right : Algebra} {c d : Choice} {ps qs : List Pattern} (first : Chooses left c ps)
    (second : Chooses right d qs) : Chooses (.join left right) (.both c d) (ps ++ qs)
  | union {kind : UnionKind} {branches : List Algebra} {i : Nat} {branch : Algebra} {c : Choice}
    {ps : List Pattern} (member : branches[i]? = some branch) (inner : Chooses branch c ps) :
      Chooses (.union kind branches) (.branch i c) ps
  | filter {condition : Expr} {a : Algebra} {c : Choice} {ps : List Pattern}
    (inner : Chooses a c ps) : Chooses (.filter condition a) c ps
  | extend {pathAlias : Bool} {name : String} {value : Expr} {a : Algebra} {c : Choice}
    {ps : List Pattern} (inner : Chooses a c ps) : Chooses (.extend pathAlias name value a) c ps

inductive OptionalAt : List Step → Algebra → Prop
  | here (left joined : Algebra) : OptionalAt [] (.union .exclusive [left, joined])
  | left {steps : List Step} {left right : Algebra} (inside : OptionalAt steps left) :
      OptionalAt (.left :: steps) (.join left right)
  | right {steps : List Step} {left right : Algebra} (inside : OptionalAt steps right) :
      OptionalAt (.right :: steps) (.join left right)
  | branch {steps : List Step} {kind : UnionKind} {branches : List Algebra} {i : Nat}
    {branch : Algebra} (member : branches[i]? = some branch) (inside : OptionalAt steps branch) :
      OptionalAt (.branch i :: steps) (.union kind branches)
  | filter {steps : List Step} {condition : Expr} {a : Algebra} (inside : OptionalAt steps a) :
      OptionalAt steps (.filter condition a)
  | extend {steps : List Step} {pathAlias : Bool} {name : String} {value : Expr} {a : Algebra}
    (inside : OptionalAt steps a) : OptionalAt steps (.extend pathAlias name value a)

/-- At some OPTIONAL one choice takes the left part and another the joined part, and the two are
the same in every union that both reach outside of it. -/
def Suppresses (a : Algebra) (c d : Choice) : Prop :=
  ∃ steps, a.OptionalAt steps ∧ c.chosenAt steps = some 0 ∧ d.chosenAt steps = some 1 ∧
    ∀ other, ¬ steps <+: other → ∀ m n, c.chosenAt other = some m → d.chosenAt other = some n →
      m = n

/-! ## The list of choices -/

section Choices

variable {branches : List Algebra} {n : Nat} {c : Choice}

theorem mem_choicesFrom : c ∈ choicesFrom n branches ↔
    ∃ i branch d, branches[i]? = some branch ∧ d ∈ branch.choices ∧ c = .branch (n + i) d := by
  induction branches generalizing n with
  | nil => simp [choicesFrom]
  | cons first rest induction =>
    rw [choicesFrom, List.mem_append, List.mem_map, induction]
    constructor
    · rintro (⟨d, member, rfl⟩ | ⟨i, branch, d, found, member, rfl⟩)
      · exact ⟨0, first, d, rfl, member, rfl⟩
      · exact ⟨i + 1, branch, d, found, member, by rw [Nat.add_assoc, Nat.add_comm 1]⟩
    · rintro ⟨i, branch, d, found, member, rfl⟩
      cases i with
      | zero =>
        obtain rfl := Option.some.inj found
        exact Or.inl ⟨d, member, rfl⟩
      | succ i => exact Or.inr ⟨i, branch, d, found, member, by rw [Nat.add_assoc, Nat.add_comm 1]⟩

theorem choicesFrom_append (others : List Algebra) : choicesFrom n (branches ++ others) =
    choicesFrom n branches ++ choicesFrom (n + branches.length) others := by
  induction branches generalizing n with
  | nil => simp [choicesFrom]
  | cons first rest induction =>
    rw [List.cons_append, choicesFrom, induction, choicesFrom, List.append_assoc,
      List.length_cons, Nat.add_assoc, Nat.add_comm 1]

theorem nodup_choicesFrom (each : ∀ branch ∈ branches, branch.choices.Nodup) :
    (choicesFrom n branches).Nodup := by
  induction branches generalizing n with
  | nil => exact List.nodup_nil
  | cons first rest induction =>
    rw [List.forall_mem_cons] at each
    refine List.nodup_append'.2 ⟨?_, induction each.2, ?_⟩
    · exact each.1.map fun _ _ same => (Choice.branch.inj same).2
    · intro c here later
      obtain ⟨d, _, rfl⟩ := List.mem_map.1 here
      obtain ⟨i, _, _, _, _, same⟩ := mem_choicesFrom.1 later
      have := (Choice.branch.inj same).1
      omega

theorem Chooses.mem_choices {a : Algebra} {ps : List Pattern} (chooses : a.Chooses c ps) :
    c ∈ a.choices := by
  induction chooses with
  | bgp => exact List.mem_singleton_self _
  | join _ _ first second =>
    exact List.mem_flatMap.2 ⟨_, first, List.mem_map_of_mem second⟩
  | union member _ induction =>
    exact mem_choicesFrom.2 ⟨_, _, _, member, induction, by rw [Nat.zero_add]⟩
  | filter _ induction => exact induction
  | extend _ induction => exact induction

end Choices

/-! ## Suppression, part by part -/

section Parts

variable {left right inner : Algebra} {c d c' d' : Choice} {ps qs ps' qs' : List Pattern}

theorem Chooses.eq_of_agree {a : Algebra} (first : a.Chooses c ps) (second : a.Chooses d qs)
    (agree : ∀ steps m n, c.chosenAt steps = some m → d.chosenAt steps = some n → m = n) :
    c = d := by
  induction first generalizing d qs with
  | bgp =>
    cases second
    rfl
  | join _ _ inductionLeft inductionRight =>
    cases second with
    | join left right =>
      rw [inductionLeft left fun steps => agree (.left :: steps),
        inductionRight right fun steps => agree (.right :: steps)]
  | @union _ _ i _ _ _ member _ induction =>
    cases second with
    | @union _ _ j _ _ _ found inner =>
      obtain rfl : i = j := agree [] i j rfl rfl
      obtain rfl := Option.some.inj (member.symm.trans found)
      rw [induction inner fun steps m n here there =>
        agree (.branch i :: steps) m n (by simpa [Choice.chosenAt] using here)
          (by simpa [Choice.chosenAt] using there)]
  | filter _ induction =>
    cases second with
    | filter inner => exact induction inner agree
  | extend _ induction =>
    cases second with
    | extend inner => exact induction inner agree

theorem not_suppresses_bgp {patterns : List Pattern} : ¬ (bgp patterns).Suppresses c d := by
  rintro ⟨_, optional, _⟩
  cases optional

theorem suppresses_filter {condition : Expr} :
    (filter condition inner).Suppresses c d ↔ inner.Suppresses c d :=
  exists_congr fun _ => and_congr_left' ⟨fun | .filter inside => inside, .filter⟩

theorem suppresses_extend {pathAlias : Bool} {name : String} {value : Expr} :
    (extend pathAlias name value inner).Suppresses c d ↔ inner.Suppresses c d :=
  exists_congr fun _ => and_congr_left' ⟨fun | .extend inside => inside, .extend⟩

/-- An OPTIONAL stands on one side of a join, and the other side is chosen the same. -/
theorem suppresses_join (first : left.Chooses c ps) (second : right.Chooses d qs)
    (first' : left.Chooses c' ps') (second' : right.Chooses d' qs') :
    (join left right).Suppresses (.both c d) (.both c' d') ↔
      left.Suppresses c c' ∧ d = d' ∨ c = c' ∧ right.Suppresses d d' := by
  constructor
  · rintro ⟨steps, optional, here, there, agree⟩
    cases optional with
    | @left steps _ _ inside =>
      refine Or.inl ⟨⟨steps, inside, here, there, fun other outside => ?_⟩, ?_⟩
      · exact agree (.left :: other) fun within => outside (List.cons_prefix_cons.1 within).2
      · refine second.eq_of_agree second' fun other => agree (.right :: other) fun within => ?_
        cases (List.cons_prefix_cons.1 within).1
    | @right steps _ _ inside =>
      refine Or.inr ⟨?_, ⟨steps, inside, here, there, fun other outside => ?_⟩⟩
      · refine first.eq_of_agree first' fun other => agree (.left :: other) fun within => ?_
        cases (List.cons_prefix_cons.1 within).1
      · exact agree (.right :: other) fun within => outside (List.cons_prefix_cons.1 within).2
  · rintro (⟨⟨steps, inside, here, there, agree⟩, rfl⟩ | ⟨rfl, steps, inside, here, there, agree⟩)
    · refine ⟨.left :: steps, .left inside, here, there, fun other outside m n => ?_⟩
      match other with
      | [] | .branch _ :: _ => nofun
      | .left :: other =>
        exact agree other (fun within => outside (List.cons_prefix_cons.2 ⟨rfl, within⟩)) m n
      | .right :: other => exact fun one two => Option.some.inj (one.symm.trans two)
    · refine ⟨.right :: steps, .right inside, here, there, fun other outside m n => ?_⟩
      match other with
      | [] | .branch _ :: _ => nofun
      | .left :: other => exact fun one two => Option.some.inj (one.symm.trans two)
      | .right :: other =>
        exact agree other (fun within => outside (List.cons_prefix_cons.2 ⟨rfl, within⟩)) m n

/-- An OPTIONAL stands in one branch of a union, which both choose, or is the union itself. -/
theorem suppresses_union {kind : UnionKind} {branches : List Algebra} {i j : Nat} :
    (union kind branches).Suppresses (.branch i c) (.branch j d) ↔
      (i = j ∧ ∃ branch, branches[i]? = some branch ∧ branch.Suppresses c d) ∨
        (kind = .exclusive ∧ branches.length = 2 ∧ i = 0 ∧ j = 1) := by
  constructor
  · rintro ⟨steps, optional, here, there, agree⟩
    cases optional with
    | here left joined => exact Or.inr ⟨rfl, rfl, Option.some.inj here, Option.some.inj there⟩
    | @branch steps _ _ k branch member inside =>
      simp only [Choice.chosenAt, Option.ite_none_right_eq_some] at here there
      obtain ⟨rfl, here⟩ := here
      obtain ⟨rfl, there⟩ := there
      refine Or.inl ⟨rfl, branch, member, steps, inside, here, there, ?_⟩
      intro other outside m n one two
      refine agree (.branch k :: other) (fun within => outside (List.cons_prefix_cons.1 within).2)
        m n ?_ ?_
      · simpa [Choice.chosenAt] using one
      · simpa [Choice.chosenAt] using two
  · rintro (⟨rfl, branch, member, steps, inside, here, there, agree⟩ | ⟨rfl, two, rfl, rfl⟩)
    · refine ⟨.branch i :: steps, .branch member inside, by simpa [Choice.chosenAt] using here,
        by simpa [Choice.chosenAt] using there, fun other outside m n => ?_⟩
      match other with
      | .left :: _ | .right :: _ => nofun
      | [] => exact fun one two => Option.some.inj (one.symm.trans two)
      | .branch k :: other =>
        simp only [Choice.chosenAt, Option.ite_none_right_eq_some]
        rintro ⟨rfl, one⟩ ⟨_, two⟩
        exact agree other (fun within => outside (List.cons_prefix_cons.2 ⟨rfl, within⟩)) m n one
          two
    · obtain ⟨left, joined, rfl⟩ := List.length_eq_two.1 two
      exact ⟨[], .here left joined, rfl, rfl, fun other outside => absurd List.nil_prefix outside⟩

end Parts

end Algebra

/-! ## Numbers of choices -/

namespace Fragment

def Excludes (related : Choice → Choice → Prop) (choices : List Choice) (f : Fragment)
    (c : Choice) : Prop :=
  ∀ j, j ∈ f.exclusiveOf ↔ ∃ d, choices[j]? = some d ∧ related c d

section Excludes

variable {related : Choice → Choice → Prop} {before after : List Choice} {f : Fragment}
  {c : Choice}

theorem Excludes.append_left (excludes : f.Excludes related before c)
    (apart : ∀ d ∈ after, ¬ related c d) : f.Excludes related (before ++ after) c := by
  intro j
  rw [excludes]
  refine exists_congr fun d => and_congr_left fun holds => ⟨fun found => ?_, fun found => ?_⟩
  · rw [List.getElem?_append_left (List.getElem?_eq_some_iff.1 found).1, found]
  · by_cases inside : j < before.length
    · rwa [List.getElem?_append_left inside] at found
    · rw [List.getElem?_append_right (Nat.le_of_not_lt inside)] at found
      exact absurd holds (apart d (List.mem_of_getElem? found))

theorem Excludes.append_right (excludes : f.Excludes related after c)
    (apart : ∀ d ∈ before, ¬ related c d) :
    (f.shifted before.length).Excludes related (before ++ after) c := by
  intro j
  rw [shifted, List.mem_map]
  constructor
  · rintro ⟨l, original, rfl⟩
    obtain ⟨d, found, holds⟩ := (excludes l).1 original
    refine ⟨d, ?_, holds⟩
    rw [List.getElem?_append_right (Nat.le_add_left _ _), Nat.add_sub_cancel, found]
  · rintro ⟨d, found, holds⟩
    by_cases inside : j < before.length
    · rw [List.getElem?_append_left inside] at found
      exact absurd holds (apart d (List.mem_of_getElem? found))
    · rw [List.getElem?_append_right (Nat.le_of_not_lt inside)] at found
      exact ⟨j - before.length, (excludes _).2 ⟨d, found, holds⟩, by omega⟩

/-- The left part of an OPTIONAL excludes all of its joined part. -/
theorem Excludes.optional (excludes : f.Excludes related before c)
    (all : ∀ d ∈ after, related c d) :
    ({ f with exclusiveOf := f.exclusiveOf ++
      (List.range after.length).map (· + before.length) } : Fragment).Excludes related
        (before ++ after) c := by
  intro j
  rw [List.mem_append, excludes]
  constructor
  · rintro (⟨d, found, holds⟩ | extra)
    · exact ⟨d, by rw [List.getElem?_append_left (List.getElem?_eq_some_iff.1 found).1, found],
        holds⟩
    · obtain ⟨l, bound, rfl⟩ := List.mem_map.1 extra
      rw [List.getElem?_append_right (Nat.le_add_left _ _), Nat.add_sub_cancel,
        List.getElem?_eq_getElem (List.mem_range.1 bound)]
      exact ⟨_, rfl, all _ (List.getElem_mem _)⟩
  · rintro ⟨d, found, holds⟩
    by_cases inside : j < before.length
    · rw [List.getElem?_append_left inside] at found
      exact Or.inl ⟨d, found, holds⟩
    · rw [List.getElem?_append_right (Nat.le_of_not_lt inside)] at found
      obtain ⟨short, _⟩ := List.getElem?_eq_some_iff.1 found
      exact Or.inr (List.mem_map.2 ⟨j - before.length, List.mem_range.2 short, by omega⟩)

theorem Excludes.map {other : Choice → Choice → Prop} {choices : List Choice}
    {change : Choice → Choice} (excludes : f.Excludes related choices c)
    (same : ∀ d ∈ choices, other (change c) (change d) ↔ related c d) :
    f.Excludes other (choices.map change) (change c) := by
  intro j
  simp only [excludes j, List.getElem?_map, Option.map_eq_some_iff]
  constructor
  · rintro ⟨d, found, holds⟩
    exact ⟨_, ⟨d, found, rfl⟩, (same d (List.mem_of_getElem? found)).2 holds⟩
  · rintro ⟨_, ⟨d, found, rfl⟩, holds⟩
    exact ⟨d, found, (same d (List.mem_of_getElem? found)).1 holds⟩

end Excludes

def Follow (a : Algebra) (choices : List Choice) (fragments : List Fragment) : Prop :=
  List.Forall₂ (fun f c => a.Chooses c f.patterns ∧ f.Excludes a.Suppresses choices c)
    fragments choices

section Follow

variable {a left right : Algebra} {choices before after : List Choice}
  {fragments lefts rights : List Fragment} {c : Choice}

theorem Follow.chooses (follow : Follow a choices fragments) (member : c ∈ choices) :
    ∃ ps, a.Chooses c ps := by
  obtain ⟨i, inside, rfl⟩ := List.getElem_of_mem member
  exact ⟨_, (follow.get (follow.length_eq ▸ inside) inside).1⟩

theorem follow_of_getElem (length : fragments.length = choices.length)
    (each : ∀ (i : Nat) (f : Fragment) (c : Choice), fragments[i]? = some f → choices[i]? = some c →
      a.Chooses c f.patterns ∧ f.Excludes a.Suppresses choices c) : Follow a choices fragments :=
  List.forall₂_iff_get.2 ⟨length, fun i short inside =>
    each i _ _ (List.getElem?_eq_getElem short) (List.getElem?_eq_getElem inside)⟩

theorem Follow.getElem (follow : Follow a choices fragments) {i : Nat} {f : Fragment}
    (fragment : fragments[i]? = some f) : ∃ c, choices[i]? = some c ∧
      a.Chooses c f.patterns ∧ f.Excludes a.Suppresses choices c := by
  obtain ⟨short, rfl⟩ := List.getElem?_eq_some_iff.1 fragment
  have inside : i < choices.length := follow.length_eq ▸ short
  exact ⟨_, List.getElem?_eq_getElem inside, follow.get short inside⟩

theorem follow_product (first : Follow left left.choices lefts)
    (second : Follow right right.choices rights) (nodupLeft : left.choices.Nodup)
    (nodupRight : right.choices.Nodup) :
    Follow (.join left right) (Algebra.join left right).choices (product lefts rights) := by
  have width := second.length_eq
  refine follow_of_getElem ?_ fun k f e found chosen => ?_
  · simp [length_product, Algebra.choices, List.length_flatMap, List.map_const', first.length_eq,
      width]
  obtain ⟨i, j, a, b, here, there, rfl, rfl⟩ := exists_of_product_getElem found
  obtain ⟨c, cHere, choosesA, excludesA⟩ := first.getElem here
  obtain ⟨d, dThere, choosesB, excludesB⟩ := second.getElem there
  have pair {i j : Nat} {c d : Choice} (one : left.choices[i]? = some c)
      (two : right.choices[j]? = some d) :
      (Algebra.join left right).choices[i * rights.length + j]? = some (.both c d) := by
    rw [width]
    exact pairs_getElem Choice.both one two
  obtain rfl := Option.some.inj (chosen.symm.trans (pair cHere dThere))
  refine ⟨.join choosesA choosesB, fun n => ?_⟩
  have excluded : n ∈ (paired rights.length i j a b).exclusiveOf ↔
      (∃ k ∈ a.exclusiveOf, k * rights.length + j = n) ∨
        ∃ l ∈ b.exclusiveOf, i * rights.length + l = n := by
    simp [paired]
  rw [excluded]
  constructor
  · rintro (⟨k, original, rfl⟩ | ⟨l, original, rfl⟩)
    · obtain ⟨c', one, holds⟩ := (excludesA k).1 original
      obtain ⟨ps, chooses⟩ := first.chooses (List.mem_of_getElem? one)
      exact ⟨_, pair one dThere,
        (Algebra.suppresses_join choosesA choosesB chooses choosesB).2 (Or.inl ⟨holds, rfl⟩)⟩
    · obtain ⟨d', two, holds⟩ := (excludesB l).1 original
      obtain ⟨ps, chooses⟩ := second.chooses (List.mem_of_getElem? two)
      exact ⟨_, pair cHere two,
        (Algebra.suppresses_join choosesA choosesB choosesA chooses).2 (Or.inr ⟨rfl, holds⟩)⟩
  · rintro ⟨e, listed, holds⟩
    obtain ⟨k, l, c', d', one, two, rfl, rfl⟩ := exists_of_pairs_getElem listed
    obtain ⟨ps, choosesLeft⟩ := first.chooses (List.mem_of_getElem? one)
    obtain ⟨qs, choosesRight⟩ := second.chooses (List.mem_of_getElem? two)
    rw [width]
    -- The other side chooses the same, and a choice is listed once.
    rcases (Algebra.suppresses_join choosesA choosesB choosesLeft choosesRight).1 holds with
      ⟨inside, rfl⟩ | ⟨rfl, inside⟩
    · obtain rfl := (List.getElem?_inj (List.getElem?_eq_some_iff.1 dThere).1 nodupRight).1
        (dThere.trans two.symm)
      exact Or.inl ⟨k, (excludesA k).2 ⟨c', one, inside⟩, rfl⟩
    · obtain rfl := (List.getElem?_inj (List.getElem?_eq_some_iff.1 cHere).1 nodupLeft).1
        (cHere.trans one.symm)
      exact Or.inr ⟨l, (excludesB l).2 ⟨d', two, inside⟩, rfl⟩

/-! ## Unions -/

section Union

variable {kind : UnionKind} {branches : List Algebra} {i : Nat} {branch : Algebra}

/-- Only the two parts of an OPTIONAL suppress across the branches of a union. -/
theorem suppresses_branches {j : Nat} {c d : Choice} (different : i ≠ j) :
    (Algebra.union kind branches).Suppresses (.branch i c) (.branch j d) ↔
      kind = .exclusive ∧ branches.length = 2 ∧ i = 0 ∧ j = 1 :=
  Algebra.suppresses_union.trans (or_iff_right fun same => different same.1)

theorem follow_branch (member : branches[i]? = some branch)
    (follow : Follow branch branch.choices fragments) :
    Follow (.union kind branches) (branch.choices.map (.branch i)) fragments := by
  have within {c d : Choice} : (Algebra.union kind branches).Suppresses (.branch i c) (.branch i d) ↔
      branch.Suppresses c d := by
    rw [Algebra.suppresses_union]
    constructor
    · rintro (⟨_, other, found, holds⟩ | ⟨_, _, rfl, impossible⟩)
      · obtain rfl := Option.some.inj (member.symm.trans found)
        exact holds
      · cases impossible
    · exact fun holds => Or.inl ⟨rfl, branch, member, holds⟩
  refine List.forall₂_map_right_iff.2 (follow.imp fun f c ⟨chooses, excludes⟩ => ?_)
  exact ⟨.union member chooses, excludes.map fun d _ => within⟩

/-- Fragments of later choices come after those before, with their numbers moved up. -/
theorem Follow.append (first : Follow a before lefts) (second : Follow a after rights)
    (apart : ∀ c ∈ before, ∀ d ∈ after, ¬ a.Suppresses c d ∧ ¬ a.Suppresses d c) :
    Follow a (before ++ after) (lefts ++ rights.map (shifted lefts.length)) := by
  rw [first.length_eq]
  refine List.rel_append (List.forall₂_iff_get.2 ⟨first.length_eq, fun i short inside => ?_⟩)
    (List.forall₂_map_left_iff.2 (List.forall₂_iff_get.2 ⟨second.length_eq,
      fun i short inside => ?_⟩))
  · obtain ⟨chooses, excludes⟩ := first.get short inside
    exact ⟨chooses, excludes.append_left fun d member => (apart _ (List.get_mem _ _) d member).1⟩
  · obtain ⟨chooses, excludes⟩ := second.get short inside
    exact ⟨chooses, excludes.append_right fun d member => (apart d member _ (List.get_mem _ _)).2⟩

theorem follow_concatenated {n m : Nat} {rest : List Algebra} {lists : List (List Fragment)}
    (each : Each (fun _ a fragments _ => Follow a a.choices fragments) n rest lists m)
    (plain : ¬ (kind = .exclusive ∧ branches.length = 2)) {done : List Algebra}
    (split : branches = done ++ rest) {start : List Fragment}
    (follow : Follow (.union kind branches) (Algebra.choicesFrom 0 done) start) :
    Follow (.union kind branches) (Algebra.choicesFrom 0 branches)
      (lists.foldl (fun before list => before ++ list.map (shifted before.length)) start) := by
  induction each generalizing done start with
  | nil =>
    obtain rfl : branches = done := by simpa using split
    exact follow
  | @cons _ _ _ branch list rest lists first _ induction =>
    have further : branches = (done ++ [branch]) ++ rest := by
      rw [split, List.append_assoc]
      rfl
    refine induction further ?_
    have member : branches[done.length]? = some branch := by simp [split]
    have here : Algebra.choicesFrom 0 (done ++ [branch]) =
        Algebra.choicesFrom 0 done ++ branch.choices.map (.branch done.length) := by
      simp [Algebra.choicesFrom_append, Algebra.choicesFrom]
    rw [here]
    refine follow.append (follow_branch member first) fun c before d after => ?_
    obtain ⟨i, _, c, found, _, rfl⟩ := Algebra.mem_choicesFrom.1 before
    obtain ⟨d, _, rfl⟩ := List.mem_map.1 after
    have short := (List.getElem?_eq_some_iff.1 found).1
    rw [suppresses_branches (by omega), suppresses_branches (by omega)]
    exact ⟨fun two => plain ⟨two.1, two.2.1⟩, fun two => plain ⟨two.1, two.2.1⟩⟩

/-- The fragments of an OPTIONAL: those of the left part exclude all of the joined part. -/
theorem follow_optional (first : Follow left left.choices lefts)
    (second : Follow right right.choices rights) :
    Follow (.union .exclusive [left, right]) (Algebra.union .exclusive [left, right]).choices
      (optional lefts rights) := by
  have before : Follow (.union .exclusive [left, right]) (left.choices.map (.branch 0)) lefts :=
    follow_branch rfl first
  have after : Follow (.union .exclusive [left, right]) (right.choices.map (.branch 1)) rights :=
    follow_branch rfl second
  have listed : (Algebra.union .exclusive [left, right]).choices =
      left.choices.map (.branch 0) ++ right.choices.map (.branch 1) := by
    simp [Algebra.choices, Algebra.choicesFrom]
  have length : lefts.length = (left.choices.map (Choice.branch 0)).length := before.length_eq
  have extra : rights.length = (right.choices.map (Choice.branch 1)).length := after.length_eq
  rw [listed, optional, length, extra]
  refine List.rel_append (List.forall₂_map_left_iff.2 (List.forall₂_iff_get.2 ⟨before.length_eq,
    fun i short inside => ?_⟩)) (List.forall₂_map_left_iff.2 (List.forall₂_iff_get.2
      ⟨after.length_eq, fun i short inside => ?_⟩))
  · obtain ⟨chooses, excludes⟩ := before.get short inside
    refine ⟨chooses, excludes.optional fun d member => ?_⟩
    obtain ⟨c, _, same⟩ := List.mem_map.1 (List.get_mem _ ⟨i, inside⟩)
    obtain ⟨d, _, rfl⟩ := List.mem_map.1 member
    rw [← same]
    exact (suppresses_branches (by decide)).2 ⟨rfl, rfl, rfl, rfl⟩
  · obtain ⟨chooses, excludes⟩ := after.get short inside
    refine ⟨chooses, excludes.append_right fun d member => ?_⟩
    obtain ⟨c, _, same⟩ := List.mem_map.1 (List.get_mem _ ⟨i, inside⟩)
    obtain ⟨d, _, rfl⟩ := List.mem_map.1 member
    rw [← same, suppresses_branches (by decide)]
    rintro ⟨_, _, impossible, _⟩
    cases impossible

end Union

end Follow

theorem closed_follow : Closed fun _ a fragments _ =>
    a.choices.Nodup ∧ Follow a a.choices fragments where
  bgp n patterns := by
    refine ⟨List.nodup_singleton _, .cons ⟨.bgp patterns, fun j => ?_⟩ .nil⟩
    simp [ofPatterns, Algebra.not_suppresses_bgp]
  join first second := by
    refine ⟨?_, follow_product first.2 second.2 first.1 second.1⟩
    refine List.nodup_flatMap.2 ⟨fun c _ => second.1.map fun _ _ same => (Choice.both.inj same).2,
      first.1.imp fun different e here there => ?_⟩
    obtain ⟨_, _, rfl⟩ := List.mem_map.1 here
    obtain ⟨_, _, same⟩ := List.mem_map.1 there
    exact different (Choice.both.inj same).1.symm
  union kind each := by
    refine ⟨Algebra.nodup_choicesFrom fun branch member => ?_, ?_⟩
    · obtain ⟨_, _, _, _, nodup, _⟩ := each.exists_list member
      exact nodup
    have follows := each.imp fun _ _ _ _ => And.right
    unfold united
    split
    next left joined =>
      cases follows with
      | cons first others =>
        cases others with
        | cons second none =>
          cases none
          exact follow_optional first second
    next plain =>
      refine follow_concatenated follows ?_ (List.nil_append _).symm .nil
      rintro ⟨rfl, two⟩
      obtain ⟨left, joined, rfl⟩ := List.length_eq_two.1 (each.length_eq.trans two)
      exact plain left joined rfl rfl
  filter condition follows := by
    refine ⟨follows.1, List.forall₂_map_left_iff.2 (follows.2.imp ?_)⟩
    rintro f c ⟨chooses, excludes⟩
    refine ⟨.filter chooses, fun j => ?_⟩
    simp only [Algebra.suppresses_filter]
    exact excludes j
  extend pathAlias name value follows := by
    refine ⟨follows.1, List.forall₂_map_left_iff.2 (follows.2.imp ?_)⟩
    rintro f c ⟨chooses, excludes⟩
    refine ⟨.extend chooses, fun j => ?_⟩
    simp only [Algebra.suppresses_extend]
    exact excludes j

end Fragment

/-! ## Branches -/

/-- A branch lists another as one whose rows suppress its own. -/
def Program.Lists (p : Program) (i j : Nat) : Prop :=
  ∃ b, p.branches[i]? = some b ∧ j ∈ b.exclusiveOf

/-- The branches of a compiled program are the choices of its algebra, in their order. Each lists
later branches of the program only, so that none suppresses itself, however indirectly; and those
it lists are the branches that take the joined part of an OPTIONAL of which it takes the left part,
and choose the same as it does in all other unions that both reach outside of this OPTIONAL. -/
theorem suppression_follows_optionals (config : Config) (query : NormalQuery) (p : Program)
    (compiled : Program.ofNormal config query = .ok p) :
    let body := Program.bodyOf query.algebra
    body.choices.Nodup ∧ (∀ c, c ∈ body.choices ↔ ∃ ps, body.Chooses c ps) ∧
      p.branches.length = body.choices.length ∧
      (∀ (i : Nat) (b : Branch) (c : Choice), p.branches[i]? = some b →
        body.choices[i]? = some c → body.Chooses c b.patterns ∧
          (∀ j ∈ b.exclusiveOf, i < j ∧ j < p.branches.length) ∧
          ∀ (j : Nat) (d : Choice), body.choices[j]? = some d →
            (j ∈ b.exclusiveOf ↔ body.Suppresses c d)) ∧
      ∀ i, ¬ Relation.TransGen p.Lists i i := by
  intro body
  obtain ⟨fragments, compiles⟩ := Program.ofNormal_ok compiled
  obtain ⟨next, folded⟩ := compiles.folded
  obtain ⟨nodup, follow⟩ := Fragment.closed_follow.ofAlgebra body folded
  have onward := Fragment.closed_onward.ofAlgebra body folded
  have each (i : Nat) (b : Branch) (branch : p.branches[i]? = some b) : ∃ f,
      fragments[i]? = some f ∧ b.patterns = f.patterns ∧ b.exclusiveOf = f.exclusiveOf := by
    obtain ⟨f, t, linked, fragment, comes⟩ := compiles.of_branch branch
    exact ⟨f, fragment, comes.compiles.traces.patterns, comes.compiles.traces.exclusiveOf⟩
  have later {i j : Nat} (lists : p.Lists i j) : i < j ∧ j < p.branches.length := by
    obtain ⟨b, branch, listed⟩ := lists
    obtain ⟨f, fragment, _, same⟩ := each i b branch
    rw [compiles.length]
    exact onward i f fragment j (same ▸ listed)
  refine ⟨nodup, fun c => ⟨follow.chooses, fun ⟨ps, chooses⟩ => chooses.mem_choices⟩,
    compiles.length.trans follow.length_eq, fun i b c branch choice => ?_, fun i cycle => ?_⟩
  · obtain ⟨f, fragment, patterns, excluded⟩ := each i b branch
    obtain ⟨c', found, chooses, excludes⟩ := follow.getElem fragment
    obtain rfl := Option.some.inj (choice.symm.trans found)
    refine ⟨patterns ▸ chooses, fun j listed => later ⟨b, branch, listed⟩, fun j d here => ?_⟩
    rw [excluded, excludes]
    constructor
    · rintro ⟨d', there, holds⟩
      obtain rfl := Option.some.inj (here.symm.trans there)
      exact holds
    · exact fun holds => ⟨d, here, holds⟩
  · have rises {m n : Nat} (path : Relation.TransGen p.Lists m n) : m < n := by
      induction path with
      | single lists => exact (later lists).1
      | tail _ lists before => exact before.trans (later lists).1
    exact Nat.lt_irrefl i (rises cycle)

def sampleExtended (subject object further : String) : Algebra :=
  let known : Pattern := ⟨.var subject, .const (.iri "http://e/p"), .var object, none⟩
  .union .exclusive [.bgp [known],
    .bgp [known, ⟨.var object, .const (.iri "http://e/q"), .var further, none⟩]]

def sampleOptionals : NormalQuery :=
  ⟨.select, .project ["s"] (.join (sampleExtended "s" "a" "b") (sampleExtended "s" "c" "d")), ["s"],
    .none⟩

set_option maxRecDepth 100000 in
theorem sampleOptionals_compiles : ∃ p, Program.ofNormal sampleConfig sampleOptionals = .ok p :=
  exists_ok_of_isOk (by decide +kernel)

/-- Of two OPTIONALs side by side, the branch of both left parts is suppressed by the two branches
that extend one side each, and not by the branch that extends both. -/
theorem suppression_follows_optionals_sample : ∃ p b,
    Program.ofNormal sampleConfig sampleOptionals = .ok p ∧ p.branches[0]? = some b ∧
      1 ∈ b.exclusiveOf ∧ 2 ∈ b.exclusiveOf ∧ 3 ∉ b.exclusiveOf := by
  obtain ⟨p, compiled⟩ := sampleOptionals_compiles
  obtain ⟨_, _, length, each, _⟩ :=
    suppression_follows_optionals sampleConfig sampleOptionals p compiled
  have four : p.branches.length = 4 := length.trans rfl
  obtain ⟨b, branch⟩ : ∃ b, p.branches[0]? = some b :=
    ⟨_, List.getElem?_eq_getElem (by omega)⟩
  obtain ⟨_, _, lists⟩ := each 0 b _ branch rfl
  have grows (subject object further : String) : (sampleExtended subject object further).Suppresses
      (.branch 0 .alone) (.branch 1 .alone) :=
    Algebra.suppresses_union.2 (Or.inr ⟨rfl, rfl, rfl, rfl⟩)
  have chooses (i : Nat) (subject object further : String) (two : i < 2) :
      ∃ ps, (sampleExtended subject object further).Chooses (.branch i .alone) ps := by
    match i, two with
    | 0, _ => exact ⟨_, .union (i := 0) rfl (.bgp _)⟩
    | 1, _ => exact ⟨_, .union (i := 1) rfl (.bgp _)⟩
  obtain ⟨_, zero⟩ := chooses 0 "s" "a" "b" (by decide)
  obtain ⟨_, one⟩ := chooses 1 "s" "a" "b" (by decide)
  obtain ⟨_, zero'⟩ := chooses 0 "s" "c" "d" (by decide)
  obtain ⟨_, one'⟩ := chooses 1 "s" "c" "d" (by decide)
  refine ⟨p, b, compiled, branch, (lists 1 _ rfl).2 ?_, (lists 2 _ rfl).2 ?_,
    (lists 3 _ rfl).not.2 ?_⟩
  · exact (Algebra.suppresses_join zero zero' zero one').2 (Or.inr ⟨rfl, grows ..⟩)
  · exact (Algebra.suppresses_join zero zero' one zero').2 (Or.inl ⟨grows .., rfl⟩)
  · refine fun both => ?_
    rcases (Algebra.suppresses_join zero zero' one one').1 both with ⟨_, same⟩ | ⟨same, _⟩
    · cases (Choice.branch.inj same).1
    · cases (Choice.branch.inj same).1

end AttestedQuery
