import AttestedQuery.Algebra.OfQuery
import AttestedQuery.Proofs.Exclusions
import AttestedQuery.Proofs.Solutions

/-!
# Rows of pairs of fragments

What a resolution keeps of the pairs of two lists of fragments. A pair is given up where one side is
exclusive of another fragment that, beside the same fragment of the other side, has a row that it
extends to. Where the keys that the sides share are bound before each optional part or never, this
is so exactly where one side alone is given up.
-/

set_option autoImplicit false

namespace AttestedQuery

namespace Fragment

def Found (e : Encoder) (quads : List Quad) (fragments : List Fragment) (row : Row) : Prop :=
  ∃ f ∈ fragments, f.Admits e.SameCode quads row ∧ f.Passes e row

variable {e : Encoder} {agrees : Term → Term → Prop} {quads : List Quad} {row : Row}

/-! ## Changed filters -/

/-- A change of fragments that leaves everything but their filters alone. -/
structure Refilters (change : Fragment → Fragment) : Prop where
  patterns : ∀ f, (change f).patterns = f.patterns
  extensions : ∀ f, (change f).extensions = f.extensions
  exclusiveOf : ∀ f, (change f).exclusiveOf = f.exclusiveOf

section Refilters

variable {change : Fragment → Fragment} {fragments : List Fragment} {extra : Prop}

theorem Refilters.admits_iff (refilters : Refilters change) {f : Fragment} :
    (change f).Admits agrees quads row ↔ f.Admits agrees quads row :=
  ⟨fun admits => admits.of_same (refilters.patterns f) (refilters.extensions f),
    fun admits => admits.of_same (refilters.patterns f).symm (refilters.extensions f).symm⟩

theorem Refilters.admitsAt_iff (refilters : Refilters change) (i : Nat) :
    AdmitsAt agrees quads (fragments.map change) i row ↔ AdmitsAt agrees quads fragments i row := by
  simp only [AdmitsAt, List.getElem?_map, Option.map_eq_some_iff]
  constructor
  · rintro ⟨_, ⟨f, here, rfl⟩, admits⟩
    exact ⟨f, here, refilters.admits_iff.1 admits⟩
  · rintro ⟨f, here, admits⟩
    exact ⟨_, ⟨f, here, rfl⟩, refilters.admits_iff.2 admits⟩

/-- What fragments find where a change asks something more of the row. -/
theorem Refilters.found_iff (refilters : Refilters change)
    (passes : ∀ f ∈ fragments, f.Admits e.SameCode quads row →
      ((change f).Passes e row ↔ f.Passes e row ∧ extra)) :
    Found e quads (fragments.map change) row ↔ Found e quads fragments row ∧ extra := by
  constructor
  · rintro ⟨_, member, admits, passed⟩
    obtain ⟨f, inside, rfl⟩ := List.mem_map.1 member
    have admitted := refilters.admits_iff.1 admits
    obtain ⟨passed, more⟩ := (passes f inside admitted).1 passed
    exact ⟨⟨f, inside, admitted, passed⟩, more⟩
  · rintro ⟨⟨f, inside, admits, passed⟩, more⟩
    exact ⟨_, List.mem_map_of_mem inside, refilters.admits_iff.2 admits,
      (passes f inside admits).2 ⟨passed, more⟩⟩

theorem Refilters.suppressed_iff (refilters : Refilters change) {f : Fragment}
    (beside : ∀ g ∈ fragments, ∀ other,
      (change g).PassesBeside e (change f) other ↔ g.PassesBeside e f other) :
    (change f).Suppressed e (fragments.map change)
        (AdmitsAt agrees quads (fragments.map change)) row ↔
      f.Suppressed e fragments (AdmitsAt agrees quads fragments) row := by
  simp only [Suppressed, refilters.exclusiveOf, List.getElem?_map, Option.map_eq_some_iff,
    refilters.admitsAt_iff]
  refine exists_congr fun j => and_congr Iff.rfl ?_
  constructor
  · rintro ⟨_, other, ⟨g, here, rfl⟩, admits, passed, within⟩
    exact ⟨g, other, here, admits, (beside g (List.mem_of_getElem? here) other).1 passed, within⟩
  · rintro ⟨g, other, here, admits, passed, within⟩
    exact ⟨_, other, ⟨g, here, rfl⟩, admits, (beside g (List.mem_of_getElem? here) other).2 passed,
      within⟩

/-- What is kept where a change asks something more of the row, but nothing more of one that another
is given up for. -/
theorem Refilters.kept_iff (refilters : Refilters change)
    (passes : ∀ f ∈ fragments, f.Admits e.SameCode quads row →
      ((change f).Passes e row ↔ f.Passes e row ∧ extra))
    (beside : ∀ f g, g ∈ fragments → ∀ other,
      ((change g).PassesBeside e (change f) other ↔ g.PassesBeside e f other)) (i : Nat) :
    Kept e quads (fragments.map change) i row ↔ Kept e quads fragments i row ∧ extra := by
  simp only [Kept, Keeps, List.getElem?_map, Option.map_eq_some_iff, refilters.admitsAt_iff]
  constructor
  · rintro ⟨_, ⟨f, here, rfl⟩, ⟨_, same, admits⟩, passed, free⟩
    obtain rfl := Option.some.inj (here.symm.trans same)
    obtain ⟨passed, more⟩ := (passes f (List.mem_of_getElem? here) admits).1 passed
    exact ⟨⟨f, here, ⟨f, here, admits⟩, passed,
      (refilters.suppressed_iff (beside f)).not.1 free⟩, more⟩
  · rintro ⟨⟨f, here, ⟨_, same, admits⟩, passed, free⟩, more⟩
    obtain rfl := Option.some.inj (here.symm.trans same)
    exact ⟨_, ⟨f, here, rfl⟩, ⟨f, here, admits⟩,
      (passes f (List.mem_of_getElem? here) admits).2 ⟨passed, more⟩,
      (refilters.suppressed_iff (beside f)).not.2 free⟩

end Refilters

section Renumbered

variable {offset : Nat} {fragments : List Fragment}

theorem refilters_renumbered (offset : Nat) : Refilters (renumbered offset) :=
  ⟨fun _ => rfl, fun _ => rfl, fun _ => rfl⟩

theorem isTrue_renumbered (x : ScopedFilter) :
    ScopedFilter.isTrue e row { x with number := x.number + offset } = x.isTrue e row := rfl

theorem passes_renumbered_iff {f : Fragment} :
    (f.renumbered offset).Passes e row ↔ f.Passes e row ∧ True := by
  simp [Passes, renumbered, isTrue_renumbered]

theorem passesBeside_renumbered_iff {f g : Fragment} :
    (g.renumbered offset).PassesBeside e (f.renumbered offset) row ↔ g.PassesBeside e f row := by
  simp [PassesBeside, renumbered, isTrue_renumbered]

/-- The numbers of filters only tell which filters are shared. -/
theorem kept_renumbered_iff (i : Nat) :
    Kept e quads (fragments.map (renumbered offset)) i row ↔ Kept e quads fragments i row := by
  rw [(refilters_renumbered offset).kept_iff (fun _ _ _ => passes_renumbered_iff)
    fun _ _ _ _ => passesBeside_renumbered_iff, and_true]

theorem found_renumbered_iff :
    Found e quads (fragments.map (renumbered offset)) row ↔ Found e quads fragments row := by
  rw [(refilters_renumbered offset).found_iff fun _ _ _ => passes_renumbered_iff, and_true]

end Renumbered

/-! ## Filters of pairs -/

section Filters

variable {a b g : Fragment} {u v part whole : Row} {low high n m : Nat}

theorem isTrue_within (scopes : g.Scopes low high) (admits : g.Admits agrees quads part)
    (within : part.Within whole) {x : ScopedFilter} (filter : x ∈ g.filters) :
    x.isTrue e whole = x.isTrue e part := by
  rw [ScopedFilter.isTrue, ScopedFilter.isTrue]
  congr 1
  apply KeyMap.ext
  intro key
  rw [KeyMap.get_restrict, KeyMap.get_restrict]
  split
  next shown =>
    have bound := (admits.bound key).2 (scopes.visible x filter key shown)
    obtain ⟨value, held⟩ := Option.isSome_iff_exists.1 bound
    rw [held, within key value held]
  next => rfl

theorem passes_paired_iff (scopesA : a.Scopes low m) (scopesB : b.Scopes m high) {i j width : Nat}
    (admitsA : a.Admits agrees quads u) (admitsB : b.Admits agrees quads v) (agree : u.Agrees v) :
    (paired width i j a b).Passes e (u.plus v) ↔ a.Passes e u ∧ b.Passes e v := by
  have left {x} (inside : x ∈ a.filters) := isTrue_within (e := e) scopesA admitsA
    (u.within_plus v) inside
  have right {x} (inside : x ∈ b.filters) := isTrue_within (e := e) scopesB admitsB
    agree.within_plus inside
  constructor
  · intro passes
    exact ⟨fun x inside => (left inside).symm.trans (passes x (List.mem_append_left _ inside)),
      fun x inside => (right inside).symm.trans (passes x (List.mem_append_right _ inside))⟩
  · rintro ⟨first, second⟩ x inside
    rcases List.mem_append.1 inside with inside | inside
    · exact (left inside).trans (first x inside)
    · exact (right inside).trans (second x inside)

/-- Beside a pair with the same right side only the filters of the left sides count. -/
theorem passesBeside_left_iff (scopesG : g.Scopes low m) (scopesB : b.Scopes m high)
    {i j k l width : Nat} (admitsG : g.Admits agrees quads u) :
    (paired width k l g b).PassesBeside e (paired width i j a b) (u.plus v) ↔
      g.PassesBeside e a u := by
  have left {x} (inside : x ∈ g.filters) := isTrue_within (e := e) scopesG admitsG
    (u.within_plus v) inside
  simp only [PassesBeside, paired, List.map_append, List.mem_append, not_or]
  constructor
  · intro passes x inside fresh
    rw [← left inside]
    refine passes x (Or.inl inside) ⟨fresh, fun shared => ?_⟩
    obtain ⟨y, other, same⟩ := List.mem_map.1 shared
    have := (scopesG.numbered x inside).2
    have := (scopesB.numbered y other).1
    omega
  · rintro passes x (inside | inside) ⟨fresh, beside⟩
    · rw [left inside]
      exact passes x inside fresh
    · exact absurd (List.mem_map_of_mem inside) beside

/-- Beside a pair with the same left side only the filters of the right sides count. -/
theorem passesBeside_right_iff (scopesA : a.Scopes low m) (scopesG : g.Scopes m high)
    {i j k l width : Nat} (admitsG : g.Admits agrees quads v) (agree : u.Agrees v) :
    (paired width k l a g).PassesBeside e (paired width i j a b) (u.plus v) ↔
      g.PassesBeside e b v := by
  have right {x} (inside : x ∈ g.filters) := isTrue_within (e := e) scopesG admitsG
    agree.within_plus inside
  simp only [PassesBeside, paired, List.map_append, List.mem_append, not_or]
  constructor
  · intro passes x inside fresh
    rw [← right inside]
    refine passes x (Or.inr inside) ⟨fun shared => ?_, fresh⟩
    obtain ⟨y, other, same⟩ := List.mem_map.1 shared
    have := (scopesG.numbered x inside).1
    have := (scopesA.numbered y other).2
    omega
  · rintro passes x (inside | inside) ⟨beside, fresh⟩
    · exact absurd (List.mem_map_of_mem inside) beside
    · rw [right inside]
      exact passes x inside fresh

end Filters

/-! ## Suppression of pairs -/

section Suppression

variable {lefts rights : List Fragment} {low m high : Nat}

/-- Two lists of fragments whose filters are numbered apart, and that exclude their own members. -/
structure Apart (low m high : Nat) (lefts rights : List Fragment) : Prop where
  left : ∀ a ∈ lefts, a.Scopes low m
  right : ∀ b ∈ rights, b.Scopes m high
  leftOnward : Onward lefts
  rightOnward : Onward rights

theorem suppressed_paired_iff (apart : Apart low m high lefts rights) {i j : Nat} {a b : Fragment}
    (here : lefts[i]? = some a) (there : rights[j]? = some b) :
    (paired rights.length i j a b).Suppressed e (product lefts rights)
        (AdmitsAt agrees quads (product lefts rights)) row ↔
      (∃ k ∈ a.exclusiveOf, ∃ g u v, lefts[k]? = some g ∧ g.Admits agrees quads u ∧
        b.Admits agrees quads v ∧ u.Agrees v ∧ g.PassesBeside e a u ∧
        row.visible.Within (u.plus v)) ∨
      ∃ l ∈ b.exclusiveOf, ∃ g u v, rights[l]? = some g ∧ a.Admits agrees quads u ∧
        g.Admits agrees quads v ∧ u.Agrees v ∧ g.PassesBeside e b v ∧
        row.visible.Within (u.plus v) := by
  have memberA := List.mem_of_getElem? here
  have memberB := List.mem_of_getElem? there
  constructor
  · rintro ⟨_, excluded, f, other, found, admits, beside, within⟩
    rcases List.mem_append.1 excluded with inside | inside
    · obtain ⟨k, original, rfl⟩ := List.mem_map.1 inside
      have range := apart.leftOnward.of_mem memberA original
      have stored := List.getElem?_eq_getElem range
      obtain rfl := Option.some.inj (found.symm.trans (product_getElem stored there))
      obtain ⟨_, same, admits⟩ := admits
      obtain rfl := Option.some.inj (found.symm.trans same)
      obtain ⟨u, v, admitsG, admitsB, agree, rfl⟩ := admits_paired_iff.1 admits
      refine Or.inl ⟨k, original, _, u, v, stored, admitsG, admitsB, agree, ?_, within⟩
      exact (passesBeside_left_iff (apart.left _ (List.getElem_mem range)) (apart.right b memberB)
        admitsG).1 beside
    · obtain ⟨l, original, rfl⟩ := List.mem_map.1 inside
      have range := apart.rightOnward.of_mem memberB original
      have stored := List.getElem?_eq_getElem range
      obtain rfl := Option.some.inj (found.symm.trans (product_getElem here stored))
      obtain ⟨_, same, admits⟩ := admits
      obtain rfl := Option.some.inj (found.symm.trans same)
      obtain ⟨u, v, admitsA, admitsG, agree, rfl⟩ := admits_paired_iff.1 admits
      refine Or.inr ⟨l, original, _, u, v, stored, admitsA, admitsG, agree, ?_, within⟩
      exact (passesBeside_right_iff (apart.left a memberA) (apart.right _ (List.getElem_mem range))
        admitsG agree).1 beside
  · rintro (⟨k, original, g, u, v, stored, admitsG, admitsB, agree, beside, within⟩ |
      ⟨l, original, g, u, v, stored, admitsA, admitsG, agree, beside, within⟩)
    · have found := product_getElem stored there
      refine ⟨_, List.mem_append_left _ (List.mem_map_of_mem original), _, u.plus v, found,
        ⟨_, found, admits_paired_iff.2 ⟨u, v, admitsG, admitsB, agree, rfl⟩⟩, ?_, within⟩
      exact (passesBeside_left_iff (apart.left g (List.mem_of_getElem? stored))
        (apart.right b memberB) admitsG).2 beside
    · have found := product_getElem here stored
      refine ⟨_, List.mem_append_right _ (List.mem_map_of_mem original), _, u.plus v, found,
        ⟨_, found, admits_paired_iff.2 ⟨u, v, admitsA, admitsG, agree, rfl⟩⟩, ?_, within⟩
      exact (passesBeside_right_iff (apart.left a memberA)
        (apart.right g (List.mem_of_getElem? stored)) admitsG agree).2 beside

/-- Keys that both sides of a join mention are user-visible, and a fragment mentions the same of the
keys of the other side as those that it excludes. -/
structure SharesBound (lefts rights : List Fragment) : Prop where
  user : ∀ a ∈ lefts, ∀ b ∈ rights, ∀ key ∈ a.mentions, key ∈ b.mentions → isUserKey key = true
  left : ∀ a g, Linked lefts a g → ∀ b ∈ rights, ∀ key ∈ b.mentions,
    (key ∈ a.mentions ↔ key ∈ g.mentions)
  right : ∀ b g, Linked rights b g → ∀ a ∈ lefts, ∀ key ∈ a.mentions,
    (key ∈ b.mentions ↔ key ∈ g.mentions)

end Suppression

end Fragment

/-! ## Rows that share bound keys -/

namespace Row

variable {own other ours theirs : Row}

theorem visible_plus (a b : Row) : (a.plus b).visible = a.visible.plus b.visible := by
  apply KeyMap.ext
  intro key
  rw [visible_get, get_plus, get_plus, visible_get, visible_get]
  split <;> simp

theorem visible_within (row : Row) : row.visible.Within row := restrict_within row isUserKey

theorem visible_within_of_plus
    (bound : ∀ key, (own.get? key).isSome → (theirs.get? key).isSome → (ours.get? key).isSome)
    (within : (own.plus other).visible.Within (ours.plus theirs)) : own.visible.Within ours := by
  intro key value held
  have user : isUserKey key = true := by
    by_contra hidden
    rw [visible_get, if_neg hidden] at held
    cases held
  rw [visible_get, if_pos user] at held
  have here : (ours.plus theirs).get? key = some value :=
    within key value (by rw [visible_get, if_pos user, get_plus, held, Option.some_or])
  rw [get_plus] at here
  cases found : ours.get? key with
  | some mine => simpa [found] using here
  | none =>
    have shared := bound key (by simp [held])
    rw [found, Option.none_or] at here
    simp [found, here] at shared

/-- A row that extends another joins with what the other joins with, where the shared keys are
bound before. -/
theorem plus_within_of_visible (agree : own.Agrees other)
    (bound : ∀ key, (ours.get? key).isSome → (other.get? key).isSome →
      isUserKey key = true ∧ (own.get? key).isSome)
    (within : own.visible.Within ours) :
    ours.Agrees other ∧ (own.plus other).visible.Within (ours.plus other) := by
  have agrees : ours.Agrees other := by
    intro key x y mine here
    obtain ⟨user, before⟩ := bound key (by simp [mine]) (by simp [here])
    obtain ⟨value, held⟩ := Option.isSome_iff_exists.1 before
    have extended := within key value (by rw [visible_get, if_pos user, held])
    rw [mine] at extended
    rw [Option.some.inj extended]
    exact agree key value y held here
  refine ⟨agrees, fun key value held => ?_⟩
  rw [visible_plus, get_plus] at held
  cases found : own.visible.get? key with
  | some x =>
    rw [found, Option.some_or] at held
    rw [get_plus, within key x found, Option.some_or, held]
  | none =>
    rw [found, Option.none_or] at held
    exact agrees.within_plus key value (other.visible_within key value held)

end Row

namespace Fragment

section Kept

variable {e : Encoder} {agrees : Term → Term → Prop} {quads : List Quad} {row : Row}
  {lefts rights : List Fragment} {low m high : Nat}

/-- Beside a row of another fragment a row is given up as it is alone, where what it is given up
for mentions the same of the keys of the other fragment. -/
theorem suppressed_beside_iff {fragments : List Fragment} {a b : Fragment} {u v : Row}
    (member : a ∈ fragments) (admitsA : a.Admits agrees quads u) (admitsB : b.Admits agrees quads v)
    (agree : u.Agrees v)
    (user : ∀ g, Linked fragments a g → ∀ key ∈ g.mentions, key ∈ b.mentions →
      isUserKey key = true)
    (shared : ∀ g, Linked fragments a g → ∀ key ∈ b.mentions,
      (key ∈ a.mentions ↔ key ∈ g.mentions)) :
    (∃ k ∈ a.exclusiveOf, ∃ g ours theirs, fragments[k]? = some g ∧ g.Admits agrees quads ours ∧
        b.Admits agrees quads theirs ∧ ours.Agrees theirs ∧ g.PassesBeside e a ours ∧
        (u.plus v).visible.Within (ours.plus theirs)) ↔
      a.Suppressed e fragments (AdmitsAt agrees quads fragments) u := by
  constructor
  · rintro ⟨k, excluded, g, ours, theirs, stored, admitsG, admits, _, beside, within⟩
    have linked : Linked fragments a g := .excludes member excluded stored
    refine ⟨k, excluded, g, ours, stored, ⟨g, stored, admitsG⟩, beside,
      Row.visible_within_of_plus (fun key first second => ?_) within⟩
    rw [admitsA.bound] at first
    rw [admits.bound] at second
    rw [admitsG.bound]
    exact (shared g linked key second).1 first
  · rintro ⟨k, excluded, g, ours, stored, ⟨_, same, admitsG⟩, beside, within⟩
    obtain rfl := Option.some.inj (stored.symm.trans same)
    have linked : Linked fragments a g := .excludes member excluded stored
    obtain ⟨agrees, within⟩ := Row.plus_within_of_visible agree (fun key first second => by
      rw [admitsG.bound] at first
      rw [admitsB.bound] at second
      rw [admitsA.bound]
      exact ⟨user g linked key first second, (shared g linked key second).2 first⟩) within
    exact ⟨k, excluded, g, ours, v, stored, admitsG, admitsB, agrees, beside, within⟩

/-- Where two sides share settled keys, a pair is given up exactly if a side is given up alone. -/
theorem suppressed_pair_iff (apart : Apart low m high lefts rights)
    (shares : SharesBound lefts rights) {i j : Nat} {a b : Fragment} (here : lefts[i]? = some a)
    (there : rights[j]? = some b) {u v : Row} (admitsA : a.Admits agrees quads u)
    (admitsB : b.Admits agrees quads v) (agree : u.Agrees v) :
    (paired rights.length i j a b).Suppressed e (product lefts rights)
        (AdmitsAt agrees quads (product lefts rights)) (u.plus v) ↔
      a.Suppressed e lefts (AdmitsAt agrees quads lefts) u ∨
        b.Suppressed e rights (AdmitsAt agrees quads rights) v := by
  have memberA := List.mem_of_getElem? here
  have memberB := List.mem_of_getElem? there
  rw [suppressed_paired_iff apart here there]
  refine or_congr ?_ ?_
  · exact suppressed_beside_iff memberA admitsA admitsB agree
      (fun g linked key first second => shares.user g linked.mem_right b memberB key first second)
      fun g linked key mentioned => shares.left a g linked b memberB key mentioned
  · rw [← suppressed_beside_iff memberB admitsB admitsA agree.symm
      (fun g linked key first second => shares.user a memberA g linked.mem_right key second first)
      fun g linked key mentioned => shares.right b g linked a memberA key mentioned]
    rw [agree.plus_comm]
    constructor
    · rintro ⟨l, excluded, g, theirs, ours, stored, admits, admitsG, agrees, beside, within⟩
      rw [agrees.plus_comm] at within
      exact ⟨l, excluded, g, ours, theirs, stored, admitsG, admits, agrees.symm, beside, within⟩
    · rintro ⟨l, excluded, g, ours, theirs, stored, admitsG, admits, agrees, beside, within⟩
      rw [agrees.plus_comm] at within
      exact ⟨l, excluded, g, theirs, ours, stored, admits, admitsG, agrees.symm, beside, within⟩

/-- Where two sides share settled keys, the kept pairs are those of kept rows. -/
theorem kept_product_iff (apart : Apart low m high lefts rights)
    (shares : SharesBound lefts rights) :
    (∃ k, Kept e quads (product lefts rights) k row) ↔ ∃ i j u v, Kept e quads lefts i u ∧
      Kept e quads rights j v ∧ u.Agrees v ∧ row = u.plus v := by
  constructor
  · rintro ⟨k, f, found, admits, passes, free⟩
    obtain ⟨i, j, a, b, here, there, rfl, rfl⟩ := exists_of_product_getElem found
    obtain ⟨_, same, admits⟩ := admits
    obtain rfl := Option.some.inj (found.symm.trans same)
    obtain ⟨u, v, admitsA, admitsB, agree, rfl⟩ := admits_paired_iff.1 admits
    rw [suppressed_pair_iff apart shares here there admitsA admitsB agree, not_or] at free
    obtain ⟨passesA, passesB⟩ := (passes_paired_iff (apart.left a (List.mem_of_getElem? here))
      (apart.right b (List.mem_of_getElem? there)) admitsA admitsB agree).1 passes
    exact ⟨i, j, u, v, ⟨a, here, ⟨a, here, admitsA⟩, passesA, free.1⟩,
      ⟨b, there, ⟨b, there, admitsB⟩, passesB, free.2⟩, agree, rfl⟩
  · rintro ⟨i, j, u, v, ⟨a, here, ⟨_, sameA, admitsA⟩, passesA, freeA⟩,
      ⟨b, there, ⟨_, sameB, admitsB⟩, passesB, freeB⟩, agree, rfl⟩
    obtain rfl := Option.some.inj (here.symm.trans sameA)
    obtain rfl := Option.some.inj (there.symm.trans sameB)
    have found := product_getElem here there
    refine ⟨_, _, found, ⟨_, found, admits_paired_iff.2 ⟨u, v, admitsA, admitsB, agree, rfl⟩⟩,
      (passes_paired_iff (apart.left a (List.mem_of_getElem? here))
        (apart.right b (List.mem_of_getElem? there)) admitsA admitsB agree).2
        ⟨passesA, passesB⟩, ?_⟩
    rw [suppressed_pair_iff apart shares here there admitsA admitsB agree, not_or]
    exact ⟨freeA, freeB⟩

end Kept

end Fragment

end AttestedQuery
