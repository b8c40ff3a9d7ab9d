import AttestedQuery.Proofs.Folding
import AttestedQuery.Proofs.Truth

/-!
# What fragments exclude

Fragments exclude later fragments of their own list only. A fragment and one that it excludes differ
in one optional part: where the keys that matter are bound before that part or never, both bind the
same of them, and what is written above the part reads the same in both.
-/

set_option autoImplicit false

namespace AttestedQuery

/-! ## Settled keys -/

namespace Algebra

def Definite (a : Algebra) (key : String) : Prop :=
  key ∈ a.keys → a.certainlyBound.contains key = true

/-- At every optional part the left rows and the joined rows bind the same of some names. -/
inductive Settles (names : List String) : Algebra → Prop
  | bgp (patterns : List Pattern) : Settles names (.bgp patterns)
  | join {left right : Algebra} (first : Settles names left) (second : Settles names right) :
      Settles names (.join left right)
  | plain {branches : List Algebra} (each : ∀ branch ∈ branches, Settles names branch) :
      Settles names (.union .plain branches)
  | optional {branches : List Algebra} (each : ∀ branch ∈ branches, Settles names branch)
    (definite : ∀ key ∈ names, (union .exclusive branches).Definite key) :
      Settles names (.union .exclusive branches)
  | filter (condition : Expr) {inner : Algebra} (settles : Settles names inner) :
      Settles names (.filter condition inner)
  | extend (pathAlias : Bool) (name : String) (value : Expr) {inner : Algebra}
    (settles : Settles names inner) : Settles names (.extend pathAlias name value inner)

inductive Steady : Algebra → Prop
  | bgp (patterns : List Pattern) : Steady (.bgp patterns)
  | join {left right : Algebra} (first : Steady left) (second : Steady right) :
      Steady (.join left right)
  | union (kind : UnionKind) {branches : List Algebra} (each : ∀ branch ∈ branches, Steady branch) :
      Steady (.union kind branches)
  | filter {condition : Expr} {inner : Algebra} (steady : Steady inner)
    (settles : inner.Settles condition.names)
    (user : ∀ key ∈ condition.names, isUserKey key = true) : Steady (.filter condition inner)

theorem Steady.plain {a : Algebra} (steady : a.Steady) : a.Plain := by
  induction steady with
  | bgp patterns => exact .bgp patterns
  | join _ _ first second => exact .join first second
  | union kind _ each => exact .union kind each
  | filter _ _ _ plain => exact .filter _ plain

theorem Settles.of_union {names : List String} {kind : UnionKind} {branches : List Algebra}
    (settles : (union kind branches).Settles names) {branch : Algebra}
    (member : branch ∈ branches) : branch.Settles names := by
  cases settles with
  | plain each => exact each branch member
  | optional each _ => exact each branch member

end Algebra

namespace Fragment

/-! ## Pairs by their numbers -/

theorem length_product (left right : List Fragment) :
    (product left right).length = left.length * right.length := by
  simp [product, List.length_flatMap, List.map_const']

theorem index_lt {i j n width : Nat} (row : i < n) (column : j < width) :
    i * width + j < n * width :=
  calc
    i * width + j < i * width + width := Nat.add_lt_add_left column _
    _ = (i + 1) * width := (Nat.succ_mul i width).symm
    _ ≤ n * width := Nat.mul_le_mul_right width row

/-- The pairs of two lists, the right one running faster, by the places of their parts. -/
theorem pairs_getElem {α β γ : Type} (pair : α → β → γ) {xs : List α} {ys : List β} {i j : Nat}
    {x : α} {y : β} (here : xs[i]? = some x) (there : ys[j]? = some y) :
    (xs.flatMap fun x => ys.map (pair x))[i * ys.length + j]? = some (pair x y) := by
  obtain ⟨short, _⟩ := List.getElem?_eq_some_iff.1 there
  induction xs generalizing i with
  | nil => simp at here
  | cons first rest induction =>
    rw [List.flatMap_cons]
    cases i with
    | zero =>
      obtain rfl := Option.some.inj here
      rw [List.getElem?_append_left (by simpa using short)]
      simp [there]
    | succ i =>
      have past : (i + 1) * ys.length + j - ys.length = i * ys.length + j := by
        rw [Nat.succ_mul]
        omega
      rw [List.getElem?_append_right (by simp [Nat.succ_mul]; omega), List.length_map, past]
      exact induction here

theorem exists_of_pairs_getElem {α β γ : Type} {pair : α → β → γ} {xs : List α} {ys : List β}
    {k : Nat} {z : γ} (found : (xs.flatMap fun x => ys.map (pair x))[k]? = some z) :
    ∃ i j x y, xs[i]? = some x ∧ ys[j]? = some y ∧ k = i * ys.length + j ∧ z = pair x y := by
  obtain ⟨short, _⟩ := List.getElem?_eq_some_iff.1 found
  have short : k < xs.length * ys.length := by
    simpa [List.length_flatMap, List.map_const'] using short
  have some : 0 < ys.length := Nat.pos_of_ne_zero fun zero => by simp [zero] at short
  have here := List.getElem?_eq_getElem ((Nat.div_lt_iff_lt_mul some).2 short)
  have there := List.getElem?_eq_getElem (Nat.mod_lt k some)
  have number : k = k / ys.length * ys.length + k % ys.length :=
    (Nat.div_add_mod' k ys.length).symm
  refine ⟨_, _, _, _, here, there, number, ?_⟩
  rw [number, pairs_getElem pair here there] at found
  exact (Option.some.inj found).symm

section Product

variable {lefts rights : List Fragment}

theorem product_getElem {i j : Nat} {a b : Fragment} (here : lefts[i]? = some a)
    (there : rights[j]? = some b) :
    (product lefts rights)[i * rights.length + j]? = some (paired rights.length i j a b) := by
  have first : lefts.zipIdx[i]? = some (a, i) := by simp [here]
  have second : rights.zipIdx[j]? = some (b, j) := by simp [there]
  have found := pairs_getElem (fun x y : Fragment × Nat => paired rights.length x.2 y.2 x.1 y.1)
    first second
  rwa [List.length_zipIdx] at found

theorem exists_of_product_getElem {k : Nat} {f : Fragment}
    (found : (product lefts rights)[k]? = some f) : ∃ i j a b, lefts[i]? = some a ∧
      rights[j]? = some b ∧ k = i * rights.length + j ∧ f = paired rights.length i j a b := by
  obtain ⟨i, j, ⟨a, row⟩, ⟨b, column⟩, first, second, number, rfl⟩ := exists_of_pairs_getElem found
  obtain ⟨here, rfl⟩ : lefts[i]? = some a ∧ i = row := by simpa using first
  obtain ⟨there, rfl⟩ : rights[j]? = some b ∧ j = column := by simpa using second
  rw [List.length_zipIdx] at number
  exact ⟨i, j, a, b, here, there, number, rfl⟩

end Product

theorem getElem_append_cases {before list : List Fragment} {i : Nat} {f : Fragment}
    (found : (before ++ list)[i]? = some f) :
    before[i]? = some f ∨ ∃ j, i = before.length + j ∧ list[j]? = some f := by
  by_cases inside : i < before.length
  · rw [List.getElem?_append_left inside] at found
    exact Or.inl found
  · rw [List.getElem?_append_right (Nat.le_of_not_lt inside)] at found
    exact Or.inr ⟨i - before.length, by omega, found⟩

/-! ## Exclusions of later fragments -/

def Onward (fragments : List Fragment) : Prop :=
  ∀ i f, fragments[i]? = some f → ∀ k ∈ f.exclusiveOf, i < k ∧ k < fragments.length

theorem Onward.of_mem {fragments : List Fragment} (onward : Onward fragments) {f : Fragment}
    (member : f ∈ fragments) {k : Nat} (excluded : k ∈ f.exclusiveOf) : k < fragments.length := by
  obtain ⟨i, here⟩ := List.mem_iff_getElem?.1 member
  exact (onward i f here k excluded).2

theorem onward_map {fragments : List Fragment} (onward : Onward fragments)
    {change : Fragment → Fragment} (same : ∀ f, (change f).exclusiveOf = f.exclusiveOf) :
    Onward (fragments.map change) := by
  intro i f found k excluded
  rw [List.getElem?_map, Option.map_eq_some_iff] at found
  obtain ⟨g, found, rfl⟩ := found
  rw [List.length_map]
  exact onward i g found k (same g ▸ excluded)

theorem onward_product {lefts rights : List Fragment} (first : Onward lefts)
    (second : Onward rights) : Onward (product lefts rights) := by
  intro n f found k excluded
  obtain ⟨i, j, a, b, here, there, rfl, rfl⟩ := exists_of_product_getElem found
  obtain ⟨row, _⟩ := List.getElem?_eq_some_iff.1 here
  obtain ⟨column, _⟩ := List.getElem?_eq_some_iff.1 there
  rw [length_product]
  rcases List.mem_append.1 excluded with inside | inside
  · obtain ⟨l, original, rfl⟩ := List.mem_map.1 inside
    obtain ⟨later, within⟩ := first i a here l original
    have wide : 0 < rights.length := Nat.zero_lt_of_lt column
    exact ⟨Nat.add_lt_add_right (Nat.mul_lt_mul_of_pos_right later wide) j, index_lt within column⟩
  · obtain ⟨l, original, rfl⟩ := List.mem_map.1 inside
    obtain ⟨later, within⟩ := second j b there l original
    exact ⟨Nat.add_lt_add_left later _, index_lt row within⟩

theorem onward_append {before list : List Fragment} (first : Onward before)
    (second : Onward list) : Onward (before ++ list.map (shifted before.length)) := by
  intro i f found k excluded
  rw [List.length_append, List.length_map]
  rcases getElem_append_cases found with here | ⟨j, rfl, there⟩
  · have := first i f here k excluded
    omega
  · rw [List.getElem?_map, Option.map_eq_some_iff] at there
    obtain ⟨g, there, rfl⟩ := there
    obtain ⟨l, original, rfl⟩ := List.mem_map.1 excluded
    have := second j g there l original
    omega

theorem onward_concatenated {lists : List (List Fragment)}
    (each : ∀ list ∈ lists, Onward list) : Onward (concatenated lists) := by
  suffices general : ∀ start, Onward start → Onward (lists.foldl
      (fun before list => before ++ list.map (shifted before.length)) start) from
    general [] (by simp [Onward])
  induction lists with
  | nil => exact fun start onward => onward
  | cons list rest induction =>
    intro start onward
    rw [List.forall_mem_cons] at each
    exact induction each.2 _ (onward_append onward each.1)

theorem onward_optional {left joined : List Fragment} (first : Onward left)
    (second : Onward joined) : Onward (optional left joined) := by
  intro i f found k excluded
  simp only [optional, List.length_append, List.length_map]
  rcases getElem_append_cases found with here | ⟨j, rfl, there⟩
  · rw [List.getElem?_map, Option.map_eq_some_iff] at here
    obtain ⟨g, here, rfl⟩ := here
    obtain ⟨short, _⟩ := List.getElem?_eq_some_iff.1 here
    rcases List.mem_append.1 excluded with own | extra
    · have := first i g here k own
      omega
    · obtain ⟨l, bound, rfl⟩ := List.mem_map.1 extra
      have := List.mem_range.1 bound
      omega
  · rw [List.getElem?_map, Option.map_eq_some_iff] at there
    obtain ⟨g, there, rfl⟩ := there
    obtain ⟨l, original, rfl⟩ := List.mem_map.1 excluded
    have := second j g there l original
    simp only [List.length_map]
    omega

theorem closed_onward : Closed fun _ _ fragments _ => Onward fragments where
  bgp n patterns := by
    intro i f found k excluded
    obtain rfl := List.mem_singleton.1 (List.mem_of_getElem? found)
    cases excluded
  join first second := onward_product first second
  union kind each := by
    unfold united
    split
    next left joined =>
      obtain ⟨_, _, _, _, first⟩ := each.exists_branch (show left ∈ [left, joined] by simp)
      obtain ⟨_, _, _, _, second⟩ := each.exists_branch (show joined ∈ [left, joined] by simp)
      exact onward_optional first second
    next =>
      refine onward_concatenated fun list member => ?_
      obtain ⟨_, _, _, _, onward⟩ := each.exists_branch member
      exact onward
  filter condition onward := onward_map onward fun _ => rfl
  extend pathAlias name value onward := onward_map onward fun _ => rfl

/-! ## Fragments with what they exclude -/

inductive Linked (fragments : List Fragment) : Fragment → Fragment → Prop
  | refl {f : Fragment} (member : f ∈ fragments) : Linked fragments f f
  | excludes {f g : Fragment} {k : Nat} (member : f ∈ fragments) (excluded : k ∈ f.exclusiveOf)
    (found : fragments[k]? = some g) : Linked fragments f g

/-- Fragments alike but for the numbers that they exclude. -/
def Alike (f g : Fragment) : Prop := f = { g with exclusiveOf := f.exclusiveOf }

theorem Linked.mem_left {fragments : List Fragment} {f g : Fragment}
    (linked : Linked fragments f g) : f ∈ fragments := by
  cases linked with
  | refl member => exact member
  | excludes member _ _ => exact member

theorem Linked.mem_right {fragments : List Fragment} {f g : Fragment}
    (linked : Linked fragments f g) : g ∈ fragments := by
  cases linked with
  | refl member => exact member
  | excludes _ _ found => exact List.mem_of_getElem? found

theorem linked_map {fragments : List Fragment} {change : Fragment → Fragment} {f g : Fragment}
    (linked : Linked (fragments.map change) f g)
    (same : ∀ f, (change f).exclusiveOf = f.exclusiveOf) :
    ∃ a b, Linked fragments a b ∧ f = change a ∧ g = change b := by
  cases linked with
  | refl member =>
    obtain ⟨a, inside, rfl⟩ := List.mem_map.1 member
    exact ⟨a, a, .refl inside, rfl, rfl⟩
  | excludes member excluded found =>
    obtain ⟨a, inside, rfl⟩ := List.mem_map.1 member
    rw [List.getElem?_map, Option.map_eq_some_iff] at found
    obtain ⟨b, found, rfl⟩ := found
    exact ⟨a, b, .excludes inside (same a ▸ excluded) found, rfl, rfl⟩

theorem linked_product {lefts rights : List Fragment} (first : Onward lefts)
    (second : Onward rights) {f g : Fragment} (linked : Linked (product lefts rights) f g) :
    ∃ i j k l a b c d, Linked lefts a c ∧ Linked rights b d ∧
      f = paired rights.length i j a b ∧ g = paired rights.length k l c d := by
  obtain ⟨i, j, a, b, here, there, rfl⟩ := mem_product.1 linked.mem_left
  have memberA := List.mem_of_getElem? here
  have memberB := List.mem_of_getElem? there
  generalize known : paired rights.length i j a b = f at linked
  cases linked with
  | refl =>
    exact ⟨i, j, i, j, a, b, a, b, .refl memberA, .refl memberB, known.symm, known.symm⟩
  | excludes _ excluded found =>
    subst known
    rcases List.mem_append.1 excluded with inside | inside
    · obtain ⟨k, original, rfl⟩ := List.mem_map.1 inside
      have stored := List.getElem?_eq_getElem (first.of_mem memberA original)
      obtain rfl := Option.some.inj (found.symm.trans (product_getElem stored there))
      exact ⟨i, j, k, j, a, b, _, b, .excludes memberA original stored, .refl memberB, rfl, rfl⟩
    · obtain ⟨l, original, rfl⟩ := List.mem_map.1 inside
      have stored := List.getElem?_eq_getElem (second.of_mem memberB original)
      obtain rfl := Option.some.inj (found.symm.trans (product_getElem here stored))
      exact ⟨i, j, i, l, a, b, a, _, .refl memberA, .excludes memberB original stored, rfl, rfl⟩

theorem linked_append {before list : List Fragment} (onward : Onward before) {f g : Fragment}
    (linked : Linked (before ++ list.map (shifted before.length)) f g) :
    Linked before f g ∨ ∃ a b, Linked list a b ∧ Alike f a ∧ Alike g b := by
  cases linked with
  | refl member =>
    rcases List.mem_append.1 member with inside | inside
    · exact Or.inl (.refl inside)
    · obtain ⟨a, here, rfl⟩ := List.mem_map.1 inside
      exact Or.inr ⟨a, a, .refl here, rfl, rfl⟩
  | excludes member excluded found =>
    rcases List.mem_append.1 member with inside | inside
    · rw [List.getElem?_append_left (onward.of_mem inside excluded)] at found
      exact Or.inl (.excludes inside excluded found)
    · obtain ⟨a, here, rfl⟩ := List.mem_map.1 inside
      obtain ⟨l, original, rfl⟩ := List.mem_map.1 excluded
      rw [List.getElem?_append_right (Nat.le_add_left _ _), Nat.add_sub_cancel,
        List.getElem?_map, Option.map_eq_some_iff] at found
      obtain ⟨b, found, rfl⟩ := found
      exact Or.inr ⟨a, b, .excludes here original found, rfl, rfl⟩

theorem linked_concatenated {lists : List (List Fragment)} (each : ∀ list ∈ lists, Onward list)
    {f g : Fragment} (linked : Linked (concatenated lists) f g) :
    ∃ list ∈ lists, ∃ a b, Linked list a b ∧ Alike f a ∧ Alike g b := by
  suffices general : ∀ start, Onward start → Linked (lists.foldl
      (fun before list => before ++ list.map (shifted before.length)) start) f g →
        Linked start f g ∨ ∃ list ∈ lists, ∃ a b, Linked list a b ∧ Alike f a ∧ Alike g b by
    rcases general [] (by simp [Onward]) linked with none | found
    · cases none.mem_left
    · exact found
  clear linked
  induction lists with
  | nil => exact fun start _ linked => Or.inl linked
  | cons list rest induction =>
    intro start onward linked
    rw [List.forall_mem_cons] at each
    rcases induction each.2 _ (onward_append onward each.1) linked with before | later
    · exact (linked_append onward before).imp_right fun found =>
        ⟨list, List.mem_cons_self, found⟩
    · obtain ⟨other, member, found⟩ := later
      exact Or.inr ⟨other, List.mem_cons_of_mem _ member, found⟩

theorem linked_optional {left joined : List Fragment} (onward : Onward left) {f g : Fragment}
    (linked : Linked (optional left joined) f g) :
    ∃ a b, Alike f a ∧ Alike g b ∧
      (Linked left a b ∨ Linked joined a b ∨ a ∈ left ∧ b ∈ joined) := by
  cases linked with
  | refl member =>
    rcases List.mem_append.1 member with inside | inside
    · obtain ⟨a, here, rfl⟩ := List.mem_map.1 inside
      exact ⟨a, a, rfl, rfl, Or.inl (.refl here)⟩
    · obtain ⟨a, here, rfl⟩ := List.mem_map.1 inside
      exact ⟨a, a, rfl, rfl, Or.inr (Or.inl (.refl here))⟩
  | excludes member excluded found =>
    rcases List.mem_append.1 member with inside | inside
    · obtain ⟨a, here, rfl⟩ := List.mem_map.1 inside
      rcases List.mem_append.1 excluded with own | extra
      · have range := onward.of_mem here own
        rw [optional, List.getElem?_append_left (by simpa using range), List.getElem?_map,
          Option.map_eq_some_iff] at found
        obtain ⟨b, found, rfl⟩ := found
        exact ⟨a, b, rfl, rfl, Or.inl (.excludes here own found)⟩
      · obtain ⟨l, _, rfl⟩ := List.mem_map.1 extra
        rw [optional, List.getElem?_append_right (by simp), List.getElem?_map,
          Option.map_eq_some_iff] at found
        obtain ⟨b, found, rfl⟩ := found
        exact ⟨a, b, rfl, rfl, Or.inr (Or.inr ⟨here, List.mem_of_getElem? found⟩)⟩
    · obtain ⟨a, here, rfl⟩ := List.mem_map.1 inside
      obtain ⟨l, original, rfl⟩ := List.mem_map.1 excluded
      rw [optional, List.getElem?_append_right (by simp), List.length_map, Nat.add_sub_cancel,
        List.getElem?_map, Option.map_eq_some_iff] at found
      obtain ⟨b, found, rfl⟩ := found
      exact ⟨a, b, rfl, rfl, Or.inr (Or.inl (.excludes here original found))⟩

/-- Fragments of a union are linked in one list, or across the two lists of an optional part. -/
theorem linked_united {kind : UnionKind} {lists : List (List Fragment)}
    (each : ∀ list ∈ lists, Onward list) {f g : Fragment}
    (linked : Linked (united kind lists) f g) : ∃ a b, Alike f a ∧ Alike g b ∧
      ((∃ list ∈ lists, Linked list a b) ∨ kind = .exclusive ∧
        ∃ left joined, lists = [left, joined] ∧ a ∈ left ∧ b ∈ joined) := by
  unfold united at linked
  split at linked
  next left joined =>
    obtain ⟨a, b, alike, alike', here | there | across⟩ :=
      linked_optional (each left (by simp)) linked
    · exact ⟨a, b, alike, alike', Or.inl ⟨left, by simp, here⟩⟩
    · exact ⟨a, b, alike, alike', Or.inl ⟨joined, by simp, there⟩⟩
    · exact ⟨a, b, alike, alike', Or.inr ⟨rfl, left, joined, rfl, across⟩⟩
  next =>
    obtain ⟨list, member, a, b, here, alike, alike'⟩ := linked_concatenated each linked
    exact ⟨a, b, alike, alike', Or.inl ⟨list, member, here⟩⟩

/-! ## What linked fragments share -/

section Alike

variable {f g : Fragment}

theorem Alike.mentions (alike : Alike f g) : f.mentions = g.mentions := by
  rw [alike]
  rfl

theorem Alike.filters (alike : Alike f g) : f.filters = g.filters := by
  rw [alike]

theorem contains_keys_iff (bare : f.extensions = []) {key : String} :
    f.keys.contains key = true ↔ key ∈ f.mentions := by
  simp [keys, mentions, bare, KeySet.contains_ofKeys]

end Alike

end Fragment

structure ScopedFilter.Twins (x y : ScopedFilter) : Prop where
  condition : y.condition = x.condition
  visible : ∀ key ∈ x.condition.names, y.visible.contains key = x.visible.contains key
  user : ∀ key ∈ x.condition.names, isUserKey key = true

namespace Fragment

structure Related (a : Algebra) (f g : Fragment) : Prop where
  mentions : ∀ names, a.Settles names → ∀ key ∈ names, (key ∈ f.mentions ↔ key ∈ g.mentions)
  filters : a.Steady → ∀ x ∈ f.filters, ∀ y ∈ g.filters, y.number = x.number → x.Twins y

theorem closed_unextended :
    Closed fun _ a fragments _ => a.Steady → ∀ f ∈ fragments, f.extensions = [] where
  bgp n patterns := by simp [ofPatterns]
  join first second steady := by
    cases steady with
    | join steadyLeft steadyRight =>
      intro f member
      obtain ⟨i, j, a, b, here, there, rfl⟩ := mem_product.1 member
      rw [paired, first steadyLeft a (List.mem_of_getElem? here),
        second steadyRight b (List.mem_of_getElem? there), List.append_nil]
  union kind each steady := by
    cases steady with
    | union _ all =>
      intro f member
      obtain ⟨list, inside, g, here, same⟩ := mem_united member
      obtain ⟨branch, branched, _, _, holds⟩ := each.exists_branch inside
      rw [same]
      exact holds (all branch branched) g here
  filter condition induction steady := by
    cases steady with
    | filter steady _ _ =>
      intro f member
      obtain ⟨g, inside, rfl⟩ := List.mem_map.1 member
      exact induction steady g inside
  extend _ _ _ _ steady := by cases steady

section Related

variable {a b c d : Fragment} {left right : Algebra} {low m high : Nat}

theorem related_paired {width i j k l : Nat} (first : Related left a c) (second : Related right b d)
    (scopesA : a.Scopes low m) (scopesC : c.Scopes low m) (scopesB : b.Scopes m high)
    (scopesD : d.Scopes m high) :
    Related (.join left right) (paired width i j a b) (paired width k l c d) where
  mentions names settles key member := by
    cases settles with
    | join settlesLeft settlesRight =>
      rw [mem_mentions_paired, mem_mentions_paired]
      exact or_congr (first.mentions names settlesLeft key member)
        (second.mentions names settlesRight key member)
  filters steady x here y there same := by
    cases steady with
    | join steadyLeft steadyRight =>
      rcases List.mem_append.1 here with inA | inB
      · rcases List.mem_append.1 there with inC | inD
        · exact first.filters steadyLeft x inA y inC same
        · have := (scopesA.numbered x inA).2
          have := (scopesD.numbered y inD).1
          omega
      · rcases List.mem_append.1 there with inC | inD
        · have := (scopesB.numbered x inB).1
          have := (scopesC.numbered y inC).2
          omega
        · exact second.filters steadyRight x inB y inD same

/-- The filter that both fragments get is one that reads the same in both, as it reads settled
names; those that they have were numbered before. -/
theorem related_withFilter {condition : Expr} (related : Related left a b)
    (bareA : left.Steady → a.extensions = []) (bareB : left.Steady → b.extensions = [])
    (scopesA : a.Scopes low m) (scopesB : b.Scopes low m) :
    Related (.filter condition left) (withFilter m condition a) (withFilter m condition b) where
  mentions names settles key member := by
    cases settles with
    | filter _ settles => exact related.mentions names settles key member
  filters steady x here y there same := by
    cases steady with
    | filter steady settles user =>
      rcases List.mem_append.1 here with before | last
      · have := (scopesA.numbered x before).2
        rcases List.mem_append.1 there with before' | last'
        · exact related.filters steady x before y before' same
        · rw [List.mem_singleton.1 last'] at same
          dsimp only at same
          omega
      · rcases List.mem_append.1 there with before' | last'
        · have := (scopesB.numbered y before').2
          rw [List.mem_singleton.1 last] at same
          dsimp only at same
          omega
        · rw [List.mem_singleton.1 last, List.mem_singleton.1 last']
          refine ⟨rfl, fun key member => ?_, user⟩
          rw [Bool.eq_iff_iff, contains_keys_iff (bareB steady), contains_keys_iff (bareA steady)]
          exact (related.mentions _ settles key member).symm

/-- Across an optional part definite keys are mentioned on both sides, and no filter is shared. -/
theorem related_across {branches : List Algebra} (branchedA : left ∈ branches)
    (branchedB : right ∈ branches) (mentionsA : a.mentions ⊆ left.keys)
    (mentionsB : b.mentions ⊆ right.keys)
    (certainA : ∀ key, left.certainlyBound.contains key = true → a.keys.contains key = true)
    (certainB : ∀ key, right.certainlyBound.contains key = true → b.keys.contains key = true)
    (scopesA : a.Scopes low m) (scopesB : b.Scopes m high) :
    Related (.union .exclusive branches) a b where
  mentions names settles key member := by
    cases settles with
    | optional _ definite =>
      have certain := definite key member
      constructor
      · intro mentioned
        exact mem_mentions_of_keys (certainB key (Algebra.certainlyBound_of_union
          (certain (Algebra.mem_keysOfAll.2 ⟨left, branchedA, mentionsA mentioned⟩)) branchedB))
      · intro mentioned
        exact mem_mentions_of_keys (certainA key (Algebra.certainlyBound_of_union
          (certain (Algebra.mem_keysOfAll.2 ⟨right, branchedB, mentionsB mentioned⟩)) branchedA))
  filters _ x here y there same := by
    have := (scopesA.numbered x here).2
    have := (scopesB.numbered y there).1
    omega

theorem Related.of_alike {whole : Algebra} (related : Related left a b) (alike : Alike c a)
    (alike' : Alike d b) (settles : ∀ names, whole.Settles names → left.Settles names)
    (steady : whole.Steady → left.Steady) : Related whole c d where
  mentions names settled key member := by
    rw [alike.mentions, alike'.mentions]
    exact related.mentions names (settles names settled) key member
  filters steadied x here y there same := by
    rw [alike.filters] at here
    rw [alike'.filters] at there
    exact related.filters (steady steadied) x here y there same

end Related

theorem closed_related : Closed fun n a fragments m => ofAlgebra n a = .ok (fragments, m) ∧
    ∀ f g, Linked fragments f g → Related a f g where
  bgp n patterns := by
    refine ⟨rfl, fun f g linked => ?_⟩
    rw [List.mem_singleton.1 linked.mem_left, List.mem_singleton.1 linked.mem_right]
    exact ⟨fun _ _ _ _ => Iff.rfl, fun _ x here => by simp [ofPatterns] at here⟩
  join := by
    rintro n m k left right lefts rights ⟨foldedLeft, first⟩ ⟨foldedRight, second⟩
    refine ⟨closed_folds.join foldedLeft foldedRight, fun f g linked => ?_⟩
    obtain ⟨i, j, k, l, a, b, c, d, linkedA, linkedB, rfl, rfl⟩ :=
      linked_product (closed_onward.ofAlgebra _ foldedLeft)
        (closed_onward.ofAlgebra _ foldedRight) linked
    have scopesLeft := (closed_scopes.ofAlgebra _ foldedLeft).2
    have scopesRight := (closed_scopes.ofAlgebra _ foldedRight).2
    exact related_paired (first a c linkedA) (second b d linkedB)
      (scopesLeft a linkedA.mem_left) (scopesLeft c linkedA.mem_right)
      (scopesRight b linkedB.mem_left) (scopesRight d linkedB.mem_right)
  union := by
    intro n k branches lists kind each
    refine ⟨closed_folds.union kind (each.imp fun _ _ _ _ holds => holds.1),
      fun f g linked => ?_⟩
    have onward : ∀ list ∈ lists, Onward list := by
      intro list member
      obtain ⟨branch, _, _, _, folded, _⟩ := each.exists_branch member
      exact closed_onward.ofAlgebra _ folded
    obtain ⟨a, b, alike, alike', here | ⟨rfl, left, joined, rfl, inside, inside'⟩⟩ :=
      linked_united onward linked
    · obtain ⟨list, member, linked⟩ := here
      obtain ⟨branch, branched, _, _, _, related⟩ := each.exists_branch member
      refine (related a b linked).of_alike alike alike' (fun _ settles => settles.of_union branched)
        fun steady => ?_
      cases steady with
      | union _ all => exact all branch branched
    · cases each with
      | @cons _ _ _ one _ _ _ first each =>
        cases each with
        | @cons _ _ _ two _ rest _ second _ =>
          have related := related_across (show one ∈ one :: two :: rest by simp)
            (show two ∈ one :: two :: rest by simp)
            (closed_mentions.ofAlgebra _ first.1 a inside)
            (closed_mentions.ofAlgebra _ second.1 b inside')
            (fun key certain => closed_certain.ofAlgebra _ first.1 key certain a inside)
            (fun key certain => closed_certain.ofAlgebra _ second.1 key certain b inside')
            ((closed_scopes.ofAlgebra _ first.1).2 a inside)
            ((closed_scopes.ofAlgebra _ second.1).2 b inside')
          exact related.of_alike alike alike' (fun _ settles => settles) fun steady => steady
  filter := by
    rintro n m inner fragments condition ⟨folded, induction⟩
    refine ⟨closed_folds.filter condition folded, fun f g linked => ?_⟩
    obtain ⟨a, b, inside, rfl, rfl⟩ := linked_map linked fun _ => rfl
    have bare (steady : inner.Steady) := closed_unextended.ofAlgebra _ folded steady
    have scopes := (closed_scopes.ofAlgebra _ folded).2
    exact related_withFilter (induction a b inside) (fun steady => bare steady a inside.mem_left)
      (fun steady => bare steady b inside.mem_right) (scopes a inside.mem_left)
      (scopes b inside.mem_right)
  extend := by
    rintro n m inner fragments pathAlias name value ⟨folded, induction⟩
    refine ⟨closed_folds.extend pathAlias name value folded, fun f g linked => ?_⟩
    obtain ⟨a, b, inside, rfl, rfl⟩ := linked_map linked fun _ => rfl
    refine ⟨fun names settles key member => ?_, fun steady => by cases steady⟩
    cases settles with
    | extend _ _ _ settles =>
      rw [mem_mentions_withExtension, mem_mentions_withExtension,
        (induction a b inside).mentions names settles key member]
      cases value <;> rfl

end Fragment

end AttestedQuery
