import AttestedQuery.Proofs.Folding

/-!
# The solutions of an algebra

The meaning of patterns, joins, plain unions and extensions by recursion: which rows solve each.
Folding into fragments keeps this meaning, so a resolution returns the user-visible part of every
solution once, and nothing else.
-/

set_option autoImplicit false

namespace AttestedQuery

namespace Algebra

/-- The rows that solve an algebra over some quads, where a constant stands for the terms that agree
with it. An alias binds both ends of a path of length zero to one term. -/
inductive Solves (agrees : Term → Term → Prop) (quads : List Quad) : Algebra → Row → Prop
  | bgp {patterns : List Pattern} {row : Row}
    (fits : ∀ p ∈ patterns, ∃ quad ∈ quads, p.Fits agrees row quad)
    (bound : ∀ key, (row.get? key).isSome ↔ ∃ p ∈ patterns, key ∈ p.keys) :
      Solves agrees quads (.bgp patterns) row
  | join {left right : Algebra} {a b : Row} (first : Solves agrees quads left a)
    (second : Solves agrees quads right b) (compatible : a.Agrees b) :
      Solves agrees quads (.join left right) (a.plus b)
  | union {branches : List Algebra} {branch : Algebra} {row : Row} (member : branch ∈ branches)
    (solves : Solves agrees quads branch row) : Solves agrees quads (.union .plain branches) row
  | extend {inner : Algebra} {row : Row} {pathAlias : Bool} {name : String} {term : Term}
    (solves : Solves agrees quads inner row)
    (equal : ∀ held, row.get? name = some held → held = term) :
      Solves agrees quads (.extend pathAlias name (.const term) inner) (row.insert name term)
  | link {inner : Algebra} {row : Row} {name key : String} {term : Term}
    (solves : Solves agrees quads inner row)
    (nameEqual : ∀ held, row.get? name = some held → held = term)
    (keyEqual : ∀ held, row.get? key = some held → held = term) :
      Solves agrees quads (.extend true name (.var key) inner)
        ((row.insert name term).insert key term)

/-- Algebras of patterns, joins, plain unions, extensions by constants and aliases of paths. -/
inductive Positive : Algebra → Prop
  | bgp (patterns : List Pattern) : Positive (.bgp patterns)
  | join {left right : Algebra} (first : Positive left) (second : Positive right) :
      Positive (.join left right)
  | union {branches : List Algebra} (each : ∀ branch ∈ branches, Positive branch) :
      Positive (.union .plain branches)
  | extend {inner : Algebra} (pathAlias : Bool) (name : String) (term : Term)
    (positive : Positive inner) : Positive (.extend pathAlias name (.const term) inner)
  | link {inner : Algebra} (name key : String) (positive : Positive inner) :
      Positive (.extend true name (.var key) inner)

section Composed

variable {agrees : Term → Term → Prop} {quads : List Quad} {left right : Algebra} {row : Row}

theorem solves_bgp_iff {patterns : List Pattern} :
    (bgp patterns).Solves agrees quads row ↔
      (Fragment.ofPatterns patterns).Admits agrees quads row := by
  constructor
  · intro solves
    cases solves with
    | bgp fits bound =>
      refine ⟨⟨fits, by simp [Fragment.ofPatterns]⟩, fun key => ?_⟩
      simpa [Fragment.mentions, Fragment.ofPatterns] using bound key
  · rintro ⟨⟨fits, _⟩, bound⟩
    exact .bgp fits fun key => by simpa [Fragment.mentions, Fragment.ofPatterns] using bound key

theorem solves_join_iff : (join left right).Solves agrees quads row ↔ ∃ a b,
    left.Solves agrees quads a ∧ right.Solves agrees quads b ∧ a.Agrees b ∧ row = a.plus b := by
  constructor
  · intro solves
    cases solves with
    | join first second compatible => exact ⟨_, _, first, second, compatible, rfl⟩
  · rintro ⟨a, b, first, second, compatible, rfl⟩
    exact .join first second compatible

theorem solves_union_iff {branches : List Algebra} :
    (union .plain branches).Solves agrees quads row ↔
      ∃ branch ∈ branches, branch.Solves agrees quads row := by
  constructor
  · intro solves
    cases solves with
    | union member solves => exact ⟨_, member, solves⟩
  · rintro ⟨branch, member, solves⟩
    exact .union member solves

theorem solves_joined_iff : (left.joined right).Solves agrees quads row ↔
    (join left right).Solves agrees quads row := by
  unfold joined
  split
  next first second =>
    rw [solves_join_iff, solves_bgp_iff]
    simp only [solves_bgp_iff]
    have pair : (Fragment.paired 0 0 0 (.ofPatterns first) (.ofPatterns second)).Admits agrees quads
        row ↔ _ := Fragment.admits_paired_iff
    rw [← pair]
    exact ⟨fun ⟨⟨fits, extended⟩, bound⟩ => ⟨⟨fits, extended⟩, bound⟩,
      fun ⟨⟨fits, extended⟩, bound⟩ => ⟨⟨fits, extended⟩, bound⟩⟩
  next => rfl

/-- What is said of a plain union where it is said of a branch, is said of united parts where it is
said of a part: opening the unions among them changes nothing. -/
theorem united_iff (said : Algebra → Prop) (union : ∀ branches,
    said (.union .plain branches) ↔ ∃ branch ∈ branches, said branch) (parts : List Algebra) :
    said (united parts) ↔ ∃ part ∈ parts, said part := by
  have plain (part : Algebra) : (∃ branch ∈ part.plainBranches, said branch) ↔ said part := by
    unfold plainBranches
    split
    next branches => exact (union branches).symm
    next => simp
  have opened : (∃ branch ∈ parts.flatMap plainBranches, said branch) ↔
      ∃ part ∈ parts, said part := by
    constructor
    · rintro ⟨branch, member, holds⟩
      obtain ⟨part, inside, member⟩ := List.mem_flatMap.1 member
      exact ⟨part, inside, (plain part).1 ⟨branch, member, holds⟩⟩
    · rintro ⟨part, inside, holds⟩
      obtain ⟨branch, member, holds⟩ := (plain part).2 holds
      exact ⟨branch, List.mem_flatMap.2 ⟨part, inside, member⟩, holds⟩
  rw [← opened]
  unfold united
  split
  next single same => simp [same]
  next => exact union _

theorem solves_united_iff {parts : List Algebra} : (united parts).Solves agrees quads row ↔
    ∃ part ∈ parts, part.Solves agrees quads row :=
  united_iff (fun part => part.Solves agrees quads row) (fun _ => solves_union_iff) parts

theorem Positive.plain (positive : left.Positive) : left.Plain := by
  induction positive with
  | bgp patterns => exact .bgp patterns
  | join _ _ first second => exact .join first second
  | union _ each => exact .union .plain each
  | extend pathAlias name term _ plain => exact .extend pathAlias name term plain
  | link name key _ plain => exact .link name key plain

theorem Plain.joined (first : left.Plain) (second : right.Plain) : (left.joined right).Plain := by
  unfold Algebra.joined
  split
  next => exact .bgp _
  next => exact .join first second

theorem Positive.joined (first : left.Positive) (second : right.Positive) :
    (left.joined right).Positive := by
  unfold Algebra.joined
  split
  next => exact .bgp _
  next => exact .join first second

theorem Positive.united {parts : List Algebra} (each : ∀ part ∈ parts, part.Positive) :
    (united parts).Positive := by
  have union (branches : List Algebra) : ¬ (Algebra.union .plain branches).Positive ↔
      ∃ branch ∈ branches, ¬ branch.Positive := by
    have all : (Algebra.union .plain branches).Positive ↔ ∀ branch ∈ branches, branch.Positive := by
      refine ⟨fun positive => ?_, .union⟩
      cases positive with
      | union each => exact each
    simp [all]
  by_contra other
  obtain ⟨part, inside, negative⟩ := (united_iff (¬ Positive ·) union parts).1 other
  exact negative (each part inside)

theorem mem_keys_joined {key : String} :
    key ∈ (left.joined right).keys ↔ key ∈ left.keys ∨ key ∈ right.keys := by
  unfold joined
  split <;> simp [keys]

theorem mem_keys_united {parts : List Algebra} {key : String} :
    key ∈ (united parts).keys ↔ ∃ part ∈ parts, key ∈ part.keys :=
  united_iff (fun part => key ∈ part.keys) (fun _ => by rw [keys, mem_keysOfAll]) parts

/-- A solution binds no keys but those of its algebra. -/
theorem Solves.mem_keys (solves : left.Solves agrees quads row) {key : String}
    (bound : (row.get? key).isSome) : key ∈ left.keys := by
  induction solves with
  | bgp _ keyed => exact List.mem_flatMap.2 ((keyed key).1 bound)
  | @join _ _ a b _ _ _ first second =>
    rw [keys, List.mem_append]
    rw [Row.get_plus] at bound
    cases held : a.get? key with
    | some value => exact Or.inl (first (by simp [held]))
    | none => exact Or.inr (second (by simpa [held] using bound))
  | union member _ induction => exact mem_keysOfAll.2 ⟨_, member, induction bound⟩
  | extend _ _ induction =>
    rw [KeyMap.get_insert] at bound
    split at bound
    next same => simp [keys, ScopedExtension.keys, same]
    next => exact List.mem_append_left _ (induction bound)
  | link _ _ _ induction =>
    rw [KeyMap.get_insert, KeyMap.get_insert] at bound
    split at bound
    next same => simp [keys, ScopedExtension.keys, same]
    next =>
      split at bound
      next same => simp [keys, ScopedExtension.keys, same]
      next => exact List.mem_append_left _ (induction bound)

end Composed

end Algebra

/-! ## Folding -/

namespace Fragment

section Solving

variable {agrees : Term → Term → Prop} {quads : List Quad}

/-- Neither filters nor exclusions have a part in what a fragment admits. -/
theorem Admits.of_same {f g : Fragment} {row : Row} (admits : f.Admits agrees quads row)
    (patterns : f.patterns = g.patterns) (extensions : f.extensions = g.extensions) :
    g.Admits agrees quads row := by
  obtain ⟨_, _, _, _⟩ := f
  obtain ⟨_, _, _, _⟩ := g
  obtain rfl : _ = _ := patterns
  obtain rfl : _ = _ := extensions
  obtain ⟨⟨fits, extended⟩, bound⟩ := admits
  exact ⟨⟨fits, extended⟩, bound⟩

theorem admits_shifted_iff {f : Fragment} {offset : Nat} {row : Row} :
    (f.shifted offset).Admits agrees quads row ↔ f.Admits agrees quads row :=
  ⟨fun admits => admits.of_same rfl rfl, fun admits => admits.of_same rfl rfl⟩

theorem suits_withExtension_iff {f : Fragment} {pathAlias : Bool} {name : String} {value : Expr}
    {row : Row} : (f.withExtension pathAlias name value).Suits agrees quads row ↔
      f.Suits agrees quads row ∧
        ScopedExtension.Holds row ⟨name, value, if pathAlias then none else some f.keys⟩ := by
  constructor
  · intro ⟨fits, extended⟩
    exact ⟨⟨fits, fun x member => extended x (List.mem_append_left _ member)⟩,
      extended _ (List.mem_append_right _ (List.mem_singleton.2 rfl))⟩
  · rintro ⟨⟨fits, extended⟩, holds⟩
    refine ⟨fits, fun x member => ?_⟩
    rcases List.mem_append.1 member with before | last
    · exact extended x before
    · rw [List.mem_singleton.1 last]
      exact holds

theorem get_part_beside {f : Fragment} {pathAlias : Bool} {name : String} {value : Expr} {row : Row}
    (admits : (f.withExtension pathAlias name value).Admits agrees quads row) {key : String}
    (beside : key ∉ ScopedExtension.keys ⟨name, value, if pathAlias then none else some f.keys⟩) :
    (f.part row).get? key = row.get? key := by
  by_cases member : key ∈ f.mentions
  · exact get_part member
  · have absent : row.get? key = none := by
      rw [← Option.not_isSome_iff_eq_none, admits.bound, mem_mentions_withExtension]
      exact fun either => either.elim member beside
    rw [absent, part, KeyMap.get_restrict, if_neg (by simpa using member)]

theorem admits_constant_iff {f : Fragment} {pathAlias : Bool} {name : String} {term : Term}
    {row : Row} : (f.withExtension pathAlias name (.const term)).Admits agrees quads row ↔
      ∃ inner, f.Admits agrees quads inner ∧
        (∀ held, inner.get? name = some held → held = term) ∧ row = inner.insert name term := by
  constructor
  · intro admits
    obtain ⟨inside, holds⟩ := suits_withExtension_iff.1 admits.suits
    have here : row.get? name = some term := holds
    refine ⟨f.part row, admits_part_iff.2 inside, fun held found => ?_, KeyMap.ext fun key => ?_⟩
    · exact Option.some.inj ((part_within name held found).symm.trans here)
    · rw [KeyMap.get_insert]
      split
      next same => rw [same, here]
      next different =>
        exact (get_part_beside admits (by simpa [ScopedExtension.keys] using different)).symm
  · rintro ⟨inner, admits, equal, rfl⟩
    refine ⟨suits_withExtension_iff.2 ⟨admits.suits_within (Row.within_insert equal),
      KeyMap.get_insert_same inner name term⟩, fun key => ?_⟩
    rw [mem_mentions_withExtension, ← admits.bound, KeyMap.get_insert]
    by_cases same : key = name <;> simp [ScopedExtension.keys, same]

theorem admits_alias_iff {f : Fragment} {name other : String} {row : Row} :
    (f.withExtension true name (.var other)).Admits agrees quads row ↔
      ∃ inner term, f.Admits agrees quads inner ∧
        (∀ held, inner.get? name = some held → held = term) ∧
        (∀ held, inner.get? other = some held → held = term) ∧
        row = (inner.insert name term).insert other term := by
  constructor
  · intro admits
    obtain ⟨inside, term, first, second⟩ := suits_withExtension_iff.1 admits.suits
    refine ⟨f.part row, term, admits_part_iff.2 inside, fun held found => ?_, fun held found => ?_,
      KeyMap.ext fun key => ?_⟩
    · exact Option.some.inj ((part_within name held found).symm.trans first)
    · exact Option.some.inj ((part_within other held found).symm.trans second)
    · rw [KeyMap.get_insert, KeyMap.get_insert]
      split
      next same => rw [same, second]
      next different =>
        split
        next same => rw [same, first]
        next beside =>
          exact (get_part_beside admits
            (by simpa [ScopedExtension.keys] using ⟨beside, different⟩)).symm
  · rintro ⟨inner, term, admits, nameEqual, otherEqual, rfl⟩
    have equal (held : Term) (found : (inner.insert name term).get? other = some held) :
        held = term := by
      rw [KeyMap.get_insert] at found
      split at found
      · exact (Option.some.inj found).symm
      · exact otherEqual held found
    have within := (Row.within_insert nameEqual).trans (Row.within_insert equal)
    refine ⟨suits_withExtension_iff.2 ⟨admits.suits_within within, term, ?_,
      KeyMap.get_insert_same _ other term⟩, fun key => ?_⟩
    · exact Row.within_insert equal name term (KeyMap.get_insert_same inner name term)
    · rw [mem_mentions_withExtension, ← admits.bound, KeyMap.get_insert, KeyMap.get_insert]
      by_cases first : key = other
      · simp [ScopedExtension.keys, first]
      · by_cases second : key = name <;> simp [ScopedExtension.keys, first, second]

/-- A fragment without filters that suppresses nothing. -/
def IsBare (f : Fragment) : Prop := f.filters = [] ∧ f.exclusiveOf = []

/-- A row is admitted alike where constants agree alike with the terms of the quads. -/
theorem admits_congr {other : Term → Term → Prop} {f : Fragment} {row : Row}
    (same : ∀ p ∈ f.patterns, ∀ position term,
      p.positions.get? position = some (some (.const term)) → ∀ quad ∈ quads, ∀ held,
        quad.get? position = some held → (agrees term held ↔ other term held)) :
    f.Admits agrees quads row ↔ f.Admits other quads row := by
  suffices fits : (∀ p ∈ f.patterns, ∃ quad ∈ quads, p.Fits agrees row quad) ↔
      ∀ p ∈ f.patterns, ∃ quad ∈ quads, p.Fits other row quad from
    ⟨fun ⟨⟨first, extended⟩, bound⟩ => ⟨⟨fits.1 first, extended⟩, bound⟩,
      fun ⟨⟨first, extended⟩, bound⟩ => ⟨⟨fits.2 first, extended⟩, bound⟩⟩
  refine forall_congr' fun p => forall_congr' fun listed => exists_congr fun quad =>
    and_congr_right fun stored => ⟨fun fits => ⟨?_, fits.key⟩, fun fits => ⟨?_, fits.key⟩⟩
  · intro position term held asked found
    exact (same p listed position term asked quad stored held found).1
      (fits.constant position term held asked found)
  · intro position term held asked found
    exact (same p listed position term asked quad stored held found).2
      (fits.constant position term held asked found)

theorem exists_admits_product_iff {lefts rights : List Fragment} {row : Row} :
    (∃ f ∈ product lefts rights, f.Admits agrees quads row) ↔ ∃ left right,
      (∃ a ∈ lefts, a.Admits agrees quads left) ∧ (∃ b ∈ rights, b.Admits agrees quads right) ∧
        left.Agrees right ∧ row = left.plus right := by
  constructor
  · rintro ⟨f, member, admits⟩
    obtain ⟨i, j, a, b, here, there, rfl⟩ := mem_product.1 member
    obtain ⟨left, right, admitsA, admitsB, agree, rfl⟩ := admits_paired_iff.1 admits
    exact ⟨left, right, ⟨a, List.mem_of_getElem? here, admitsA⟩,
      ⟨b, List.mem_of_getElem? there, admitsB⟩, agree, rfl⟩
  · rintro ⟨left, right, ⟨a, memberA, admitsA⟩, ⟨b, memberB, admitsB⟩, agree, rfl⟩
    obtain ⟨i, here⟩ := List.mem_iff_getElem?.1 memberA
    obtain ⟨j, there⟩ := List.mem_iff_getElem?.1 memberB
    exact ⟨_, mem_product.2 ⟨i, j, a, b, here, there, rfl⟩,
      admits_paired_iff.2 ⟨_, _, admitsA, admitsB, agree, rfl⟩⟩

theorem exists_admits_concatenated_iff {lists : List (List Fragment)} {row : Row} :
    (∃ f ∈ concatenated lists, f.Admits agrees quads row) ↔
      ∃ list ∈ lists, ∃ f ∈ list, f.Admits agrees quads row := by
  constructor
  · rintro ⟨f, member, admits⟩
    obtain ⟨list, inside, g, here, offset, rfl⟩ := mem_concatenated member
    exact ⟨list, inside, g, here, admits_shifted_iff.1 admits⟩
  · rintro ⟨list, inside, g, here, admits⟩
    obtain ⟨offset, found⟩ := exists_mem_concatenated inside here
    exact ⟨_, found, admits_shifted_iff.2 admits⟩

/-- The fragments of an algebra without filters and optional parts have none of either. -/
theorem closed_bare : Closed fun _ algebra fragments _ =>
    algebra.Positive → ∀ f ∈ fragments, f.IsBare where
  bgp n patterns _ := by simp [ofPatterns, IsBare]
  join first second positive := by
    cases positive with
    | join positiveLeft positiveRight =>
      intro f member
      obtain ⟨i, j, a, b, here, there, rfl⟩ := mem_product.1 member
      obtain ⟨filtersA, exclusiveA⟩ := first positiveLeft a (List.mem_of_getElem? here)
      obtain ⟨filtersB, exclusiveB⟩ := second positiveRight b (List.mem_of_getElem? there)
      exact ⟨by simp [paired, filtersA, filtersB], by simp [paired, exclusiveA, exclusiveB]⟩
  union kind each positive := by
    cases positive with
    | union all =>
      intro f member
      obtain ⟨list, inside, g, here, offset, rfl⟩ := mem_concatenated member
      obtain ⟨branch, branched, _, _, bare⟩ := each.exists_branch inside
      obtain ⟨filters, exclusive⟩ := bare (all branch branched) g here
      exact ⟨filters, by simp [shifted, exclusive]⟩
  filter condition _ positive := by cases positive
  extend pathAlias name value bare positive f member := by
    obtain ⟨g, inside, rfl⟩ := List.mem_map.1 member
    cases positive with
    | extend _ _ _ positive | link _ _ positive => exact bare positive g inside

/-- The fragments of an algebra without filters and optional parts admit its solutions. -/
theorem closed_solves (agrees : Term → Term → Prop) (quads : List Quad) :
    Closed fun _ algebra fragments _ => algebra.Positive → ∀ row,
      (∃ f ∈ fragments, f.Admits agrees quads row) ↔ algebra.Solves agrees quads row where
  bgp n patterns _ row := by
    rw [Algebra.solves_bgp_iff]
    simp
  join first second positive row := by
    cases positive with
    | join positiveLeft positiveRight =>
      rw [Algebra.solves_join_iff, exists_admits_product_iff]
      simp only [first positiveLeft, second positiveRight]
  union kind each positive row := by
    cases positive with
    | union all =>
      have plainUnion {lists : List (List Fragment)} : united .plain lists = concatenated lists :=
        rfl
      rw [plainUnion, Algebra.solves_union_iff, exists_admits_concatenated_iff]
      constructor
      · rintro ⟨list, inside, admits⟩
        obtain ⟨branch, branched, _, _, solves⟩ := each.exists_branch inside
        exact ⟨branch, branched, (solves (all branch branched) row).1 admits⟩
      · rintro ⟨branch, branched, solution⟩
        obtain ⟨list, inside, _, _, solves⟩ := each.exists_list branched
        exact ⟨list, inside, (solves (all branch branched) row).2 solution⟩
  filter condition _ positive := by cases positive
  extend pathAlias name value induction positive row := by
    cases positive with
    | extend _ _ term positive =>
      have solves := induction positive
      constructor
      · rintro ⟨f, member, admits⟩
        obtain ⟨g, inside, rfl⟩ := List.mem_map.1 member
        obtain ⟨ν, here, equal, rfl⟩ := admits_constant_iff.1 admits
        exact .extend ((solves ν).1 ⟨g, inside, here⟩) equal
      · intro extended
        cases extended with
        | extend inner equal =>
          obtain ⟨g, inside, here⟩ := (solves _).2 inner
          exact ⟨_, List.mem_map_of_mem inside, admits_constant_iff.2 ⟨_, here, equal, rfl⟩⟩
    | link _ key positive =>
      have solves := induction positive
      constructor
      · rintro ⟨f, member, admits⟩
        obtain ⟨g, inside, rfl⟩ := List.mem_map.1 member
        obtain ⟨ν, term, here, nameEqual, keyEqual, rfl⟩ := admits_alias_iff.1 admits
        exact .link ((solves ν).1 ⟨g, inside, here⟩) nameEqual keyEqual
      · intro linked
        cases linked with
        | link inner nameEqual keyEqual =>
          obtain ⟨g, inside, here⟩ := (solves _).2 inner
          exact ⟨_, List.mem_map_of_mem inside,
            admits_alias_iff.2 ⟨_, _, here, nameEqual, keyEqual, rfl⟩⟩

end Solving

end Fragment

/-- The projected names of a query are the user-visible keys of its algebra. -/
structure NormalQuery.ProjectsAll (query : NormalQuery) : Prop where
  user : ∀ name ∈ query.projected, isUserKey name = true
  all : ∀ key ∈ (Program.bodyOf query.algebra).keys, isUserKey key = true → key ∈ query.projected

theorem Dataset.SignedBy.resolver {quads : List Quad} {config : Config} {signer : Signer}
    {d : Dataset} {tree : Commitment.Tree} {signature : Octets}
    (s : d.SignedBy quads config signer tree signature) :
    Resolver.ofDataset d config = .ok (d.resolver config) := by
  rw [Resolver.ofDataset, s.compatible]
  rfl

/-- The query for all user-visible keys of an algebra. -/
def Algebra.query (a : Algebra) : NormalQuery :=
  let names := (a.keys.filter isUserKey).eraseDups
  ⟨.select, .project names a, names, .none⟩

theorem Algebra.query_projectsAll (a : Algebra) : a.query.ProjectsAll where
  user _ member := (List.mem_filter.1 (List.mem_eraseDups.1 member)).2
  all _ member user := List.mem_eraseDups.2 (List.mem_filter.2 ⟨member, user⟩)

section Query

variable {quads : List Quad} {config : Config} {signer : Signer} {d : Dataset}
  {tree : Commitment.Tree} {signature : Octets} {query : NormalQuery} {p : Program}
  {fragments : List Fragment}

theorem NormalQuery.ProjectsAll.showsAll (projects : query.ProjectsAll)
    (compiles : p.Compiles config query fragments) : p.ShowsAll := by
  obtain ⟨next, folded⟩ := compiles.folded
  refine ⟨?_, fun b member key bound user => ?_⟩
  · rw [compiles.projected]
    exact projects.user
  · obtain ⟨i, branch⟩ := List.mem_iff_getElem?.1 member
    obtain ⟨f, t, linked, fragment, comes⟩ := compiles.of_branch branch
    obtain ⟨start, final, applies⟩ := comes.applies
    rw [compiles.projected]
    refine projects.all key ?_ user
    exact Fragment.closed_mentions.ofAlgebra _ folded f (List.mem_of_getElem? fragment)
      (Fragment.mentions_of_bound applies bound)

def Fragment.AdmitsAt (agrees : Term → Term → Prop) (quads : List Quad) (fragments : List Fragment)
    (i : Nat) (row : Row) : Prop :=
  ∃ f, fragments[i]? = some f ∧ f.Admits agrees quads row

def Fragment.Kept (e : Encoder) (quads : List Quad) (fragments : List Fragment) (i : Nat)
    (row : Row) : Prop :=
  Keeps e fragments (AdmitsAt e.SameCode quads fragments) i row

theorem Program.admits_iff (compiles : p.Compiles config query fragments)
    (plain : ∀ f ∈ fragments, f.IsPlain) (i : Nat) (row : Row) :
    p.Admits d config.encoder i row ↔
      Fragment.AdmitsAt config.encoder.SameCode d.quads fragments i row := by
  constructor
  · rintro ⟨b, branch, admits⟩
    obtain ⟨f, t, linked, fragment, comes⟩ := compiles.of_branch branch
    obtain ⟨start, final, applies⟩ := comes.applies
    exact ⟨f, fragment,
      (Fragment.admits_branch_iff applies (plain f (List.mem_of_getElem? fragment)) row).1 admits⟩
  · rintro ⟨f, fragment, admits⟩
    obtain ⟨b, t, linked, branch, comes⟩ := compiles.of_fragment fragment
    obtain ⟨start, final, applies⟩ := comes.applies
    refine ⟨b, branch, ?_⟩
    exact (Fragment.admits_branch_iff applies (plain f (List.mem_of_getElem? fragment)) row).2
      admits

theorem Resolver.plain_rows (s : d.SignedBy quads config signer tree signature)
    (nonempty : quads ≠ []) (compiles : p.Compiles config query fragments)
    (plain : ∀ f ∈ fragments, f.IsPlain) (projects : query.ProjectsAll) : ∃ resolution,
      (d.resolver config).resolve p = .ok resolution ∧
      (resolution.witnesses.map (·.bindings)).Nodup ∧
      ∀ row, row ∈ resolution.witnesses.map (·.bindings) ↔ ∃ i full, row = full.visible ∧
        Fragment.Kept config.encoder quads fragments i full := by
  have same : p.Admits d config.encoder =
      Fragment.AdmitsAt config.encoder.SameCode quads fragments := by
    funext i row
    rw [← s.quads]
    exact propext (Program.admits_iff compiles plain i row)
  simp only [Fragment.Kept, ← same]
  exact resolve_rows s (by rw [s.quads]; exact nonempty) compiles (projects.showsAll compiles)

/-- Among distinguished terms a constant of a compiled query only agrees with itself. -/
theorem Program.Compiles.admits_eq_iff (s : d.SignedBy quads config signer tree signature)
    (compiles : p.Compiles config query fragments)
    (distinct : config.encoder.Distinguishes (d.terms ++ p.constants)) {f : Fragment}
    (member : f ∈ fragments) (row : Row) :
    f.Admits config.encoder.SameCode quads row ↔ f.Admits Eq quads row := by
  obtain ⟨i, fragment⟩ := List.getElem?_of_mem member
  obtain ⟨b, t, linked, branch, comes⟩ := compiles.of_fragment fragment
  refine Fragment.admits_congr fun pattern listed position term asked quad stored held found => ?_
  have known : term ∈ p.constants := by
    refine List.mem_flatMap.2 ⟨b, List.mem_of_getElem? branch, ?_⟩
    exact Branch.mem_constants_of_pattern (comes.compiles.traces.patterns ▸ listed) asked
  have here : quad ∈ d.quads := by rw [s.quads]; exact stored
  have holds : held ∈ d.terms :=
    List.mem_flatMap.2 ⟨quad, here, (QuadOf.mem_toList_iff _ _).2 ⟨position, found⟩⟩
  constructor
  · exact distinct term (List.mem_append_right _ known) held (List.mem_append_left _ holds)
  · rintro rfl
    obtain ⟨code, encodes⟩ := s.encodedBy.encodable here found
    exact ⟨code, encodes, encodes⟩

/-- The rows that a resolution returns for an algebra without filters and optional parts. -/
theorem Resolver.positive_rows (s : d.SignedBy quads config signer tree signature)
    (nonempty : quads ≠ []) (compiles : p.Compiles config query fragments)
    (positive : (Program.bodyOf query.algebra).Positive) (projects : query.ProjectsAll)
    (distinct : config.encoder.Distinguishes (d.terms ++ p.constants)) : ∃ resolution,
      (d.resolver config).resolve p = .ok resolution ∧
      (resolution.witnesses.map (·.bindings)).Nodup ∧
      ∀ row, row ∈ resolution.witnesses.map (·.bindings) ↔
        ∃ full, (Program.bodyOf query.algebra).Solves Eq quads full ∧ row = full.visible := by
  obtain ⟨next, folded⟩ := compiles.folded
  have bare := Fragment.closed_bare.ofAlgebra _ folded positive
  have solves := (Fragment.closed_solves Eq quads).ofAlgebra _ folded positive
  have plain := Fragment.closed_plain.ofAlgebra _ folded positive.plain
  obtain ⟨resolution, resolved, nodup, rows⟩ := plain_rows s nonempty compiles plain projects
  refine ⟨resolution, resolved, nodup, fun row => ?_⟩
  rw [rows]
  constructor
  · rintro ⟨i, full, rfl, f, fragment, ⟨_, same, admits⟩, _⟩
    obtain rfl := Option.some.inj (fragment.symm.trans same)
    have member := List.mem_of_getElem? fragment
    have here := (compiles.admits_eq_iff s distinct member full).1 admits
    exact ⟨full, (solves full).1 ⟨f, member, here⟩, rfl⟩
  · rintro ⟨full, solution, rfl⟩
    obtain ⟨f, member, here⟩ := (solves full).2 solution
    obtain ⟨i, fragment⟩ := List.mem_iff_getElem?.1 member
    have admits := (compiles.admits_eq_iff s distinct member full).2 here
    obtain ⟨filters, exclusive⟩ := bare f member
    refine ⟨i, full, rfl, f, fragment, ⟨f, fragment, admits⟩, ?_, ?_⟩
    · simp [Fragment.Passes, filters]
    · simp [Fragment.Suppressed, exclusive]

end Query

/-- What a resolution returns for an algebra without filters and optional parts: the user-visible
part of every solution, each once. -/
theorem resolution_returns_solutions (quads : List Quad) (config : Config) (signer : Signer)
    (d : Dataset) (query : NormalQuery) (p : Program)
    (signed : Dataset.sign quads config signer = .ok d) (nonempty : quads ≠ [])
    (compiled : Program.ofNormal config query = .ok p)
    (positive : (Program.bodyOf query.algebra).Positive) (projects : query.ProjectsAll)
    (distinct : config.encoder.Distinguishes (d.terms ++ p.constants)) :
    ∃ resolver resolution, Resolver.ofDataset d config = .ok resolver ∧
      resolver.resolve p = .ok resolution ∧
      (resolution.witnesses.map (·.bindings)).Nodup ∧
      ∀ row, row ∈ resolution.witnesses.map (·.bindings) ↔
        ∃ full, (Program.bodyOf query.algebra).Solves Eq quads full ∧ row = full.visible := by
  obtain ⟨tree, signature, s⟩ := Dataset.sign_ok signed
  obtain ⟨fragments, compiles⟩ := Program.ofNormal_ok compiled
  obtain ⟨resolution, resolved, nodup, rows⟩ :=
    Resolver.positive_rows s nonempty compiles positive projects distinct
  exact ⟨d.resolver config, resolution, s.resolver, resolved, nodup, rows⟩

def sampleCompiles (query : NormalQuery) : Result Unit := do
  let p ← Program.ofNormal sampleConfig query
  if ∀ term ∈ sampleDataset.terms ++ p.constants, term ∈ sampleQuad.toList then return ()
  else .error .badQuery

theorem exists_sampleProgram {query : NormalQuery} (compiles : (sampleCompiles query).isOk = true) :
    ∃ p, Program.ofNormal sampleConfig query = .ok p ∧
      sampleConfig.encoder.Distinguishes (sampleDataset.terms ++ p.constants) := by
  obtain ⟨_, compiles⟩ := exists_ok_of_isOk compiles
  obtain ⟨p, compiled, checks⟩ := bind_ok_iff.1 compiles
  split at checks
  next subset =>
    obtain ⟨subject, predicate, object, graph⟩ := QuadOf.mapM_ok_iff.1 sample_encodes
    have coded : sampleQuad.toList.mapM sampleConfig.encoder.encode = .ok sampleCodes.toList := by
      simp only [QuadOf.toList, List.mapM_cons, List.mapM_nil, subject, predicate, object, graph]
      rfl
    exact ⟨p, compiled, Encoder.distinguishes_of_nodup subset coded (by decide)⟩
  next => simp at checks

/-- A union of a pattern with a join whose shared key is bound to a constant. -/
def sampleUnion : Algebra :=
  .union .plain [.bgp [⟨.var "s", .var "p", .var "o", none⟩],
    .extend false "x" (.const (.iri "http://e/a"))
      (.join (.bgp [⟨.var "x", .const (.iri "http://e/p"), .var "o", none⟩])
        (.bgp [⟨.blank "b0", .var "p", .var "o", some (.var "g")⟩]))]

theorem sampleUnion_positive : sampleUnion.Positive := by
  refine .union fun branch member => ?_
  rcases List.mem_pair.1 member with rfl | rfl
  · exact .bgp _
  · exact .extend _ _ _ (.join (.bgp _) (.bgp _))

set_option maxRecDepth 100000 in
theorem sampleUnion_compiles : (sampleCompiles sampleUnion.query).isOk = true := by decide +kernel

/-- The rows of the sample union over the sample quad are its solutions. -/
theorem resolution_returns_solutions_sample : ∃ p,
    Dataset.sign [sampleQuad] sampleConfig sampleSigner = .ok sampleDataset ∧
    Program.ofNormal sampleConfig sampleUnion.query = .ok p ∧
    sampleUnion.query.ProjectsAll ∧
    sampleConfig.encoder.Distinguishes (sampleDataset.terms ++ p.constants) ∧
    ∃ resolver resolution, Resolver.ofDataset sampleDataset sampleConfig = .ok resolver ∧
      resolver.resolve p = .ok resolution ∧
      (resolution.witnesses.map (·.bindings)).Nodup ∧
      ∀ row, row ∈ resolution.witnesses.map (·.bindings) ↔
        ∃ full, sampleUnion.Solves Eq [sampleQuad] full ∧ row = full.visible := by
  obtain ⟨p, compiled, distinct⟩ := exists_sampleProgram sampleUnion_compiles
  exact ⟨p, sample_signs, compiled, sampleUnion.query_projectsAll, distinct,
    resolution_returns_solutions [sampleQuad] sampleConfig sampleSigner sampleDataset
      sampleUnion.query p sample_signs (List.cons_ne_nil _ _) compiled sampleUnion_positive
      sampleUnion.query_projectsAll distinct⟩

end AttestedQuery
