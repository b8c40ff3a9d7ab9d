import AttestedQuery.Proofs.Joins

/-!
# Left joins

The fragments of an optional part are those of the left part, each exclusive of all joined ones, and
the joined ones. So a left row is given up where it extends to any row that a joined fragment
admits, kept or not. Where the filters inside the optional part read settled names, every such row
extends to one that is kept, and the rows are those of the left join, however deep optional parts
are nested. Where a filter asks for a name that an optional part binds, a row that is given up
itself may still take a left row with it.
-/

set_option autoImplicit false

namespace AttestedQuery

/-! ## The left join of rows -/

def Row.Meets (e : Encoder) (condition : Option Expr) (row : Row) : Prop :=
  ∀ c ∈ condition, row.satisfies e c = true

/-- The rows of a left join: agreeing rows together, where the condition is true of them, and left
rows that no right row agrees with so. -/
def Row.LeftJoins (e : Encoder) (condition : Option Expr) (lefts rights : List Row) (row : Row) :
    Prop :=
  (∃ u ∈ lefts, ∃ v ∈ rights, u.Agrees v ∧ (u.plus v).Meets e condition ∧ row = u.plus v) ∨
    (row ∈ lefts ∧ ¬ ∃ v ∈ rights, row.Agrees v ∧ (row.plus v).Meets e condition)

namespace Algebra

def joinedWhere (left right : Algebra) : Option Expr → Algebra
  | none => left.joined right
  | some condition => .filter condition (left.joined right)

/-- The normal form of a left join. -/
def leftJoin (left right : Algebra) (condition : Option Expr) : Algebra :=
  Normal.optionalOf left (left.joinedWhere right condition)

/-- A left join in which only settled names are shared and read inside the optional part. -/
structure WellOptional (left right : Algebra) (condition : Option Expr) : Prop
    extends WellJoined left right where
  steady : right.Steady
  settled : ∀ c ∈ condition, right.Settles c.names
  read : ∀ c ∈ condition, ∀ key ∈ c.names, isUserKey key = true ∧ left.Definite key

end Algebra

namespace Fragment

variable {e : Encoder} {quads : List Quad} {row : Row}

theorem Kept.found {fragments : List Fragment} {i : Nat} (kept : Kept e quads fragments i row) :
    Found e quads fragments row := by
  obtain ⟨f, found, ⟨_, same, admits⟩, passes, _⟩ := kept
  obtain rfl := Option.some.inj (found.symm.trans same)
  exact ⟨f, List.mem_of_getElem? found, admits, passes⟩

theorem Found.mem_keys {a : Algebra} {n m : Nat} {fragments : List Fragment}
    (folded : ofAlgebra n a = .ok (fragments, m)) (found : Found e quads fragments row)
    {key : String} (bound : (row.get? key).isSome) : key ∈ a.keys := by
  obtain ⟨f, member, admits, _⟩ := found
  exact closed_mentions.ofAlgebra _ folded f member ((admits.bound key).1 bound)

theorem Found.bound {a : Algebra} {n m : Nat} {fragments : List Fragment}
    (folded : ofAlgebra n a = .ok (fragments, m)) (found : Found e quads fragments row)
    {key : String} (certain : a.certainlyBound.contains key = true) : (row.get? key).isSome := by
  obtain ⟨f, member, admits, _⟩ := found
  exact (admits.bound key).2
    (mem_mentions_of_keys (closed_certain.ofAlgebra _ folded key certain f member))

/-! ## Optional parts -/

section Optional

variable {left joined : List Fragment}

theorem optional_getElem_left {i : Nat} {a : Fragment} (here : left[i]? = some a) :
    (optional left joined)[i]? = some { a with exclusiveOf :=
      a.exclusiveOf ++ (List.range joined.length).map (· + left.length) } := by
  obtain ⟨short, _⟩ := List.getElem?_eq_some_iff.1 here
  rw [optional, List.getElem?_append_left (by simpa using short), List.getElem?_map, here]
  rfl

theorem optional_getElem_right (j : Nat) :
    (optional left joined)[j + left.length]? = joined[j]?.map (shifted left.length) := by
  rw [optional, List.getElem?_append_right (by simp), List.length_map, Nat.add_sub_cancel,
    List.getElem?_map]

theorem admitsAt_optional_left {i : Nat} (inside : i < left.length) :
    AdmitsAt e.SameCode quads (optional left joined) i row ↔
      AdmitsAt e.SameCode quads left i row := by
  have here := List.getElem?_eq_getElem inside
  constructor
  · rintro ⟨_, found, admits⟩
    obtain rfl := Option.some.inj ((optional_getElem_left here).symm.trans found)
    exact ⟨_, here, admits.of_same rfl rfl⟩
  · rintro ⟨_, found, admits⟩
    obtain rfl := Option.some.inj (here.symm.trans found)
    exact ⟨_, optional_getElem_left here, admits.of_same rfl rfl⟩

theorem admitsAt_optional_right (j : Nat) :
    AdmitsAt e.SameCode quads (optional left joined) (j + left.length) row ↔
      AdmitsAt e.SameCode quads joined j row := by
  simp only [AdmitsAt, optional_getElem_right, Option.map_eq_some_iff]
  constructor
  · rintro ⟨_, ⟨b, there, rfl⟩, admits⟩
    exact ⟨b, there, admits_shifted_iff.1 admits⟩
  · rintro ⟨b, there, admits⟩
    exact ⟨_, ⟨b, there, rfl⟩, admits_shifted_iff.2 admits⟩

/-- A left row is given up for another left row, or for any row of a joined fragment. -/
theorem suppressed_optional_left (onward : Onward left) {n m k : Nat}
    (scopesLeft : ∀ f ∈ left, f.Scopes n m) (scopesJoined : ∀ f ∈ joined, f.Scopes m k) {i : Nat}
    {a : Fragment} (here : left[i]? = some a) :
    Suppressed e (optional left joined) (AdmitsAt e.SameCode quads (optional left joined))
        { a with exclusiveOf :=
          a.exclusiveOf ++ (List.range joined.length).map (· + left.length) } row ↔
      a.Suppressed e left (AdmitsAt e.SameCode quads left) row ∨
        ∃ w, Found e quads joined w ∧ row.visible.Within w := by
  have member := List.mem_of_getElem? here
  constructor
  · rintro ⟨j, excluded, g, other, found, admits, beside, within⟩
    rcases List.mem_append.1 excluded with own | extra
    · have range := onward.of_mem member own
      have stored := List.getElem?_eq_getElem range
      obtain rfl := Option.some.inj ((optional_getElem_left stored).symm.trans found)
      exact Or.inl ⟨j, own, _, other, stored, (admitsAt_optional_left range).1 admits, beside,
        within⟩
    · obtain ⟨l, _, rfl⟩ := List.mem_map.1 extra
      obtain ⟨b, there, admitsB⟩ := (admitsAt_optional_right l).1 admits
      rw [optional_getElem_right, there] at found
      obtain rfl := Option.some.inj found
      have inJoined := List.mem_of_getElem? there
      refine Or.inr ⟨other, ⟨b, inJoined, admitsB, fun x filter => ?_⟩, within⟩
      refine beside x filter fun shared => ?_
      obtain ⟨y, inLeft, same⟩ := List.mem_map.1 shared
      have := ((scopesLeft a member).numbered y inLeft).2
      have := ((scopesJoined b inJoined).numbered x filter).1
      omega
  · rintro (⟨j, own, g, other, stored, admits, beside, within⟩ |
      ⟨w, ⟨b, inJoined, admits, passes⟩, within⟩)
    · have range := onward.of_mem member own
      exact ⟨j, List.mem_append_left _ own, _, other, optional_getElem_left stored,
        (admitsAt_optional_left range).2 admits, beside, within⟩
    · obtain ⟨l, there⟩ := List.mem_iff_getElem?.1 inJoined
      obtain ⟨short, _⟩ := List.getElem?_eq_some_iff.1 there
      refine ⟨l + left.length, List.mem_append_right _
        (List.mem_map_of_mem (List.mem_range.2 short)), shifted left.length b, w, ?_,
        (admitsAt_optional_right l).2 ⟨b, there, admits⟩, fun x filter _ => passes x filter, within⟩
      rw [optional_getElem_right, there]
      rfl

theorem suppressed_optional_right {b : Fragment} :
    (shifted left.length b).Suppressed e (optional left joined)
        (AdmitsAt e.SameCode quads (optional left joined)) row ↔
      b.Suppressed e joined (AdmitsAt e.SameCode quads joined) row := by
  constructor
  · rintro ⟨_, excluded, g, other, found, admits, beside, within⟩
    obtain ⟨l, original, rfl⟩ := List.mem_map.1 excluded
    rw [optional_getElem_right, Option.map_eq_some_iff] at found
    obtain ⟨c, there, rfl⟩ := found
    exact ⟨l, original, c, other, there, (admitsAt_optional_right l).1 admits, beside, within⟩
  · rintro ⟨l, original, c, other, there, admits, beside, within⟩
    refine ⟨l + left.length, List.mem_map_of_mem original, shifted left.length c, other, ?_,
      (admitsAt_optional_right l).2 admits, beside, within⟩
    rw [optional_getElem_right, there]
    rfl

/-- The rows of an optional part: left rows that extend to no row of a joined fragment, and the
joined rows. -/
theorem kept_optional_iff (onward : Onward left) {n m k : Nat}
    (scopesLeft : ∀ f ∈ left, f.Scopes n m) (scopesJoined : ∀ f ∈ joined, f.Scopes m k) :
    (∃ i, Kept e quads (optional left joined) i row) ↔
      ((∃ i, Kept e quads left i row) ∧ ¬ ∃ w, Found e quads joined w ∧ row.visible.Within w) ∨
        ∃ i, Kept e quads joined i row := by
  constructor
  · rintro ⟨i, f, found, admits, passes, free⟩
    by_cases inside : i < left.length
    · have here := List.getElem?_eq_getElem inside
      obtain rfl := Option.some.inj ((optional_getElem_left here).symm.trans found)
      rw [suppressed_optional_left onward scopesLeft scopesJoined here, not_or] at free
      exact Or.inl ⟨⟨i, _, here, (admitsAt_optional_left inside).1 admits, passes, free.1⟩, free.2⟩
    · obtain ⟨j, rfl⟩ := Nat.exists_eq_add_of_le' (Nat.le_of_not_lt inside)
      rw [optional_getElem_right, Option.map_eq_some_iff] at found
      obtain ⟨b, there, rfl⟩ := found
      exact Or.inr ⟨j, b, there, (admitsAt_optional_right j).1 admits, passes,
        suppressed_optional_right.not.1 free⟩
  · rintro (⟨⟨i, a, here, admits, passes, free⟩, none⟩ | ⟨j, b, there, admits, passes, free⟩)
    · obtain ⟨inside, _⟩ := List.getElem?_eq_some_iff.1 here
      refine ⟨i, _, optional_getElem_left here, (admitsAt_optional_left inside).2 admits, passes,
        ?_⟩
      rw [suppressed_optional_left onward scopesLeft scopesJoined here, not_or]
      exact ⟨free, none⟩
    · refine ⟨j + left.length, shifted left.length b, ?_, (admitsAt_optional_right j).2 admits,
        passes, suppressed_optional_right.not.2 free⟩
      rw [optional_getElem_right, there]
      rfl

end Optional

/-! ## Filters above fragments -/

section Filtered

variable {fragments : List Fragment} {condition : Expr} {low high : Nat}

theorem isTrue_of_named {f : Fragment} (admits : f.Admits e.SameCode quads row) (number : Nat)
    (named : ∀ key ∈ condition.names, key ∈ f.mentions → f.keys.contains key = true) :
    ScopedFilter.isTrue e row ⟨number, condition, f.keys⟩ = row.satisfies e condition := by
  refine Row.satisfies_congr fun key member => ?_
  rw [KeyMap.get_restrict]
  split
  next => rfl
  next hidden =>
    have absent : ¬ (row.get? key).isSome := fun bound =>
      hidden (named key member ((admits.bound key).1 bound))
    exact (Option.not_isSome_iff_eq_none.1 absent).symm

def HasNames (condition : Expr) (fragments : List Fragment) : Prop :=
  ∀ f ∈ fragments, ∀ key ∈ condition.names, key ∈ f.mentions → f.keys.contains key = true

theorem refilters_withFilter (number : Nat) (condition : Expr) :
    Refilters (withFilter number condition) :=
  ⟨fun _ => rfl, fun _ => rfl, fun _ => rfl⟩

theorem passes_withFilter_iff {f : Fragment} (number : Nat) :
    (f.withFilter number condition).Passes e row ↔
      f.Passes e row ∧ ScopedFilter.isTrue e row ⟨number, condition, f.keys⟩ = true := by
  simp only [Passes, withFilter, List.forall_mem_append, List.forall_mem_singleton]

/-- A filter that is written above two fragments does not count where one is given up for a row of
the other. -/
theorem passesBeside_withFilter_iff {f g : Fragment} (scopes : g.Scopes low high) :
    (g.withFilter high condition).PassesBeside e (f.withFilter high condition) row ↔
      g.PassesBeside e f row := by
  simp only [PassesBeside, withFilter, List.map_append, List.map_cons, List.map_nil,
    List.mem_append, List.mem_singleton, not_or]
  constructor
  · intro passes x inside fresh
    exact passes x (Or.inl inside) ⟨fresh, (scopes.numbered x inside).2.ne⟩
  · rintro passes x (inside | rfl) ⟨fresh, different⟩
    · exact passes x inside fresh
    · exact absurd rfl different

theorem kept_withFilter_iff (scopes : ∀ f ∈ fragments, f.Scopes low high)
    (names : HasNames condition fragments) (i : Nat) :
    Kept e quads (fragments.map (withFilter high condition)) i row ↔
      Kept e quads fragments i row ∧ row.satisfies e condition = true := by
  refine (refilters_withFilter high condition).kept_iff (fun f inside admits => ?_)
    (fun f g inside other => passesBeside_withFilter_iff (scopes g inside)) i
  rw [passes_withFilter_iff, isTrue_of_named admits high (names f inside)]

theorem found_withFilter_iff (names : HasNames condition fragments) (number : Nat) :
    Found e quads (fragments.map (withFilter number condition)) row ↔
      Found e quads fragments row ∧ row.satisfies e condition = true := by
  refine (refilters_withFilter number condition).found_iff fun f inside admits => ?_
  rw [passes_withFilter_iff, isTrue_of_named admits number (names f inside)]

end Filtered

/-! ## Rows that are given up -/

section Steady

variable {a : Algebra} {n m : Nat} {fragments : List Fragment} {f g : Fragment} {other : Row}

theorem isTrue_twins {x y : ScopedFilter} {low high : Nat} (twins : x.Twins y)
    (scopes : f.Scopes low high) (filter : x ∈ f.filters) (admits : f.Admits e.SameCode quads row)
    (within : row.visible.Within other) : y.isTrue e other = x.isTrue e row := by
  rw [ScopedFilter.isTrue, ScopedFilter.isTrue, twins.condition]
  refine Row.satisfies_congr fun key member => ?_
  rw [KeyMap.get_restrict, KeyMap.get_restrict, twins.visible key member]
  split
  next shown =>
    obtain ⟨value, held⟩ :=
      Option.isSome_iff_exists.1 ((admits.bound key).2 (scopes.visible x filter key shown))
    rw [held, within key value (by rw [Row.visible_get, if_pos (twins.user key member), held])]
  next => rfl

theorem get_settled (related : Related a f g) (admitsF : f.Admits e.SameCode quads row)
    (admitsG : g.Admits e.SameCode quads other) (within : row.visible.Within other)
    {names : List String} (settles : a.Settles names) {key : String} (member : key ∈ names)
    (user : isUserKey key = true) : other.get? key = row.get? key := by
  cases held : row.get? key with
  | some value => exact within key value (by rw [Row.visible_get, if_pos user, held])
  | none =>
    rw [← Option.not_isSome_iff_eq_none, admitsG.bound,
      ← related.mentions names settles key member, ← admitsF.bound, held]
    simp

/-- Where filters read settled names, every row that a fragment admits and that its filters are true
of extends to one that is kept, and gives settled names the same terms. Fragments exclude later ones
only, so going on from a row that is given up to what it is given up for comes to an end. -/
theorem exists_kept (steady : a.Steady) (folded : ofAlgebra n a = .ok (fragments, m)) {i : Nat}
    (here : fragments[i]? = some f) (admits : f.Admits e.SameCode quads row)
    (passes : f.Passes e row) : ∃ j full, Kept e quads fragments j full ∧
      row.visible.Within full ∧ ∀ names, a.Settles names → ∀ key ∈ names, isUserKey key = true →
        full.get? key = row.get? key := by
  have onward := closed_onward.ofAlgebra _ folded
  have scopes := (closed_scopes.ofAlgebra _ folded).2
  induction remaining : fragments.length - i using Nat.strongRecOn generalizing i f row with
  | _ count induction =>
    by_cases free : f.Suppressed e fragments (AdmitsAt e.SameCode quads fragments) row
    · obtain ⟨k, excluded, g, other, found, ⟨_, same, admitsG⟩, beside, within⟩ := free
      obtain rfl := Option.some.inj (found.symm.trans same)
      have memberF := List.mem_of_getElem? here
      have related := (closed_related.ofAlgebra _ folded).2 f g (.excludes memberF excluded found)
      have passesG : g.Passes e other := by
        intro y inside
        by_cases shared : y.number ∈ f.filters.map (·.number)
        · obtain ⟨x, filter, same⟩ := List.mem_map.1 shared
          have twins := related.filters steady x filter y inside same.symm
          rw [isTrue_twins twins (scopes f memberF) filter admits within]
          exact passes x filter
        · exact beside y inside shared
      obtain ⟨later, bounded⟩ := onward i f here k excluded
      obtain ⟨j, full, kept, larger, settled⟩ :=
        induction _ (by omega) found admitsG passesG rfl
      refine ⟨j, full, kept, fun key value held => ?_, fun names settles key member user => ?_⟩
      · refine larger key value ?_
        have user : isUserKey key = true := by
          by_contra hidden
          rw [Row.visible_get, if_neg hidden] at held
          cases held
        rw [Row.visible_get, if_pos user]
        exact within key value held
      · rw [settled names settles key member user]
        exact get_settled related admits admitsG within settles member user
    · exact ⟨i, row, ⟨f, here, ⟨f, here, admits⟩, passes, free⟩, row.visible_within,
        fun _ _ _ _ _ => rfl⟩

end Steady

/-! ## Joined fragments below a condition -/

theorem found_product_iff {lefts rights : List Fragment} {low m high : Nat}
    (apart : Apart low m high lefts rights) : Found e quads (product lefts rights) row ↔
      ∃ u v, Found e quads lefts u ∧ Found e quads rights v ∧ u.Agrees v ∧ row = u.plus v := by
  constructor
  · rintro ⟨_, member, admits, passes⟩
    obtain ⟨i, j, a, b, here, there, rfl⟩ := mem_product.1 member
    obtain ⟨u, v, admitsA, admitsB, agree, rfl⟩ := admits_paired_iff.1 admits
    have memberA := List.mem_of_getElem? here
    have memberB := List.mem_of_getElem? there
    obtain ⟨passesA, passesB⟩ := (passes_paired_iff (apart.left a memberA) (apart.right b memberB)
      admitsA admitsB agree).1 passes
    exact ⟨u, v, ⟨a, memberA, admitsA, passesA⟩, ⟨b, memberB, admitsB, passesB⟩, agree, rfl⟩
  · rintro ⟨u, v, ⟨a, memberA, admitsA, passesA⟩, ⟨b, memberB, admitsB, passesB⟩, agree, rfl⟩
    obtain ⟨i, here⟩ := List.mem_iff_getElem?.1 memberA
    obtain ⟨j, there⟩ := List.mem_iff_getElem?.1 memberB
    exact ⟨_, mem_product.2 ⟨i, j, a, b, here, there, rfl⟩,
      admits_paired_iff.2 ⟨u, v, admitsA, admitsB, agree, rfl⟩,
      (passes_paired_iff (apart.left a memberA) (apart.right b memberB) admitsA admitsB agree).2
        ⟨passesA, passesB⟩⟩

section Joined

variable {left right : Algebra} {condition : Option Expr} {lefts rights joined : List Fragment}
  {n m k next : Nat}

/-- The fragments of a join have the keys of all names of a condition: the left part binds them
always or never, and the right part has no extensions. -/
theorem hasNames_joined {c : Expr} (well : left.WellOptional right (some c))
    (first : ofAlgebra n left = .ok (lefts, m)) (second : ofAlgebra m right = .ok (rights, k)) :
    HasNames c (product lefts rights) := by
  intro f member key named mentioned
  obtain ⟨i, j, a, b, here, there, rfl⟩ := mem_product.1 member
  have memberA := List.mem_of_getElem? here
  have memberB := List.mem_of_getElem? there
  rw [contains_keys_paired]
  refine (mem_mentions_paired.1 mentioned).imp (fun inA => ?_) fun inB => ?_
  · have certain := (well.read c rfl key named).2 (closed_mentions.ofAlgebra _ first a memberA inA)
    exact closed_certain.ofAlgebra _ first key certain a memberA
  · exact (contains_keys_iff (closed_unextended.ofAlgebra _ second well.steady b memberB)).2 inB

/-- The rows that are kept of a join below a condition, and those that its fragments admit. -/
theorem joinedWhere_iff (well : left.WellOptional right condition)
    (first : ofAlgebra 0 left = .ok (lefts, m)) (second : ofAlgebra 0 right = .ok (rights, k))
    (folded : ofAlgebra n (left.joinedWhere right condition) = .ok (joined, next)) (row : Row) :
    ((∃ i, Kept e quads joined i row) ↔ (∃ i j u v, Kept e quads lefts i u ∧
        Kept e quads rights j v ∧ u.Agrees v ∧ row = u.plus v) ∧ row.Meets e condition) ∧
    (Found e quads joined row ↔ (∃ u v, Found e quads lefts u ∧ Found e quads rights v ∧
        u.Agrees v ∧ row = u.plus v) ∧ row.Meets e condition) := by
  obtain ⟨one, two, both⟩ := folds_joined n first second
  have kept : (∃ i, Kept e quads _ i row) ↔ _ :=
    kept_joined_iff well.toWellJoined first second both
  have found : Found e quads _ row ↔ _ := found_product_iff (apart_of_folds one two)
  simp only [found_renumbered_iff] at found
  cases condition with
  | none =>
    obtain ⟨rfl, _⟩ := Prod.mk.inj (Except.ok.inj (folded.symm.trans both))
    have always : row.Meets e none := by simp [Row.Meets]
    exact ⟨by rw [kept, and_iff_left always], by rw [found, and_iff_left always]⟩
  | some c =>
    obtain ⟨rfl, _⟩ := Prod.mk.inj (Except.ok.inj (folded.symm.trans (closed_folds.filter c both)))
    have scopes := (closed_scopes.ofAlgebra _ both).2
    have names := hasNames_joined well one two
    have meets : row.Meets e (some c) ↔ row.satisfies e c = true := by simp [Row.Meets]
    simp only [kept_withFilter_iff scopes names, exists_and_right, kept, found_withFilter_iff names,
      found, meets, and_self]

/-- A left row extends to a row of a joined fragment exactly if it agrees with a right row that is
kept, and the condition is true of both together. -/
theorem extended_iff (well : left.WellOptional right condition)
    (first : ofAlgebra 0 left = .ok (lefts, m)) (second : ofAlgebra 0 right = .ok (rights, k))
    (folded : ofAlgebra n (left.joinedWhere right condition) = .ok (joined, next)) {i : Nat}
    {u : Row} (kept : Kept e quads lefts i u) :
    (∃ w, Found e quads joined w ∧ u.visible.Within w) ↔
      ∃ j v, Kept e quads rights j v ∧ u.Agrees v ∧ (u.plus v).Meets e condition := by
  constructor
  · rintro ⟨w, found, within⟩
    obtain ⟨⟨u', v', foundLeft, ⟨f, member, admits, passes⟩, agree, rfl⟩, meets⟩ :=
      (joinedWhere_iff well first second folded w).2.1 found
    obtain ⟨l, here⟩ := List.mem_iff_getElem?.1 member
    obtain ⟨j, v, keptRight, _, same⟩ := exists_kept well.steady second here admits passes
    have shown {key : String} {value : Term} (user : isUserKey key = true)
        (held : u.get? key = some value) : (u'.plus v').get? key = some value :=
      within key value (by rw [Row.visible_get, if_pos user, held])
    refine ⟨j, v, keptRight, fun key x y mine here => ?_, fun c is => ?_⟩
    · have inLeft : key ∈ left.keys := kept.mem_keys first (by simp [mine])
      have inRight : key ∈ right.keys := keptRight.mem_keys second (by simp [here])
      have user := well.user key inLeft inRight
      rw [same _ well.settledRight key inLeft user] at here
      exact Option.some.inj ((shown user mine).symm.trans (agree.within_plus key y here))
    · rw [← meets c is]
      refine Row.satisfies_congr fun key member => ?_
      obtain ⟨user, definite⟩ := well.read c is key member
      rw [Row.get_plus u v]
      cases mine : u.get? key with
      | some x => rw [shown user mine, Option.some_or]
      | none =>
        have absent : key ∉ left.keys := fun inLeft => by
          simpa [mine] using kept.found.bound first (definite inLeft)
        have unbound : u'.get? key = none := by
          rw [← Option.not_isSome_iff_eq_none]
          exact fun bound => absent (foundLeft.mem_keys first bound)
        rw [Row.get_plus, unbound, Option.none_or, Option.none_or]
        exact same _ (well.settled c is) key member user
  · rintro ⟨j, v, keptRight, agree, meets⟩
    exact ⟨u.plus v, (joinedWhere_iff well first second folded _).2.2
      ⟨⟨u, v, kept.found, keptRight.found, agree, rfl⟩, meets⟩,
      fun key value held => u.within_plus v key value (u.visible_within key value held)⟩

theorem exists_joinedWhere (n : Nat) (condition : Option Expr)
    (first : ofAlgebra 0 left = .ok (lefts, m)) (second : ofAlgebra 0 right = .ok (rights, k)) :
    ∃ joined next, ofAlgebra n (left.joinedWhere right condition) = .ok (joined, next) := by
  obtain ⟨_, _, both⟩ := folds_joined n first second
  cases condition with
  | none => exact ⟨_, _, both⟩
  | some c => exact ⟨_, _, closed_folds.filter c both⟩

/-- The rows that are kept of a left join: of the left rows those that agree with no right row on
which the condition is true, and the joined rows. -/
theorem kept_leftJoin_iff {whole : List Fragment} (well : left.WellOptional right condition)
    (first : ofAlgebra 0 left = .ok (lefts, m)) (second : ofAlgebra 0 right = .ok (rights, k))
    (folded : ofAlgebra 0 (left.leftJoin right condition) = .ok (whole, next)) (row : Row) :
    (∃ i, Kept e quads whole i row) ↔
      (∃ i, Kept e quads lefts i row ∧ ¬ ∃ j v, Kept e quads rights j v ∧ row.Agrees v ∧
        (row.plus v).Meets e condition) ∨
      (∃ i j u v, Kept e quads lefts i u ∧ Kept e quads rights j v ∧ u.Agrees v ∧
        row = u.plus v) ∧ row.Meets e condition := by
  obtain ⟨joined, _, made⟩ := exists_joinedWhere m condition first second
  have union : ofAlgebra 0 (left.leftJoin right condition) = .ok (optional lefts joined, _) :=
    closed_folds.union .exclusive (.cons first (.cons made (.nil _)))
  obtain ⟨rfl, _⟩ := Prod.mk.inj (Except.ok.inj (folded.symm.trans union))
  rw [kept_optional_iff (closed_onward.ofAlgebra _ first) (closed_scopes.ofAlgebra _ first).2
    (closed_scopes.ofAlgebra _ made).2, (joinedWhere_iff well first second made row).1]
  refine or_congr_left ?_
  constructor
  · rintro ⟨⟨i, kept⟩, free⟩
    exact ⟨i, kept, (extended_iff well first second made kept).not.1 free⟩
  · rintro ⟨i, kept, free⟩
    exact ⟨⟨i, kept⟩, (extended_iff well first second made kept).not.2 free⟩

end Joined

end Fragment

theorem Row.meets_visible_iff {e : Encoder} {condition : Option Expr} {row : Row}
    (user : ∀ c ∈ condition, ∀ key ∈ c.names, isUserKey key = true) :
    row.visible.Meets e condition ↔ row.Meets e condition := by
  refine forall₂_congr fun c is => ?_
  rw [satisfies_congr fun key member => ?_]
  rw [visible_get, if_pos (user c is key member)]

theorem Algebra.leftJoin_plain {left right : Algebra} {condition : Option Expr}
    (first : left.Plain) (second : right.Plain) : (left.leftJoin right condition).Plain := by
  refine .union _ fun branch member => ?_
  rcases List.mem_pair.1 member with rfl | rfl
  · exact first
  · cases condition with
    | none => exact first.joined second
    | some c => exact .filter c (first.joined second)

/-- The rows of an optional part are those of the left join of the rows of its parts, at any
nesting, where the keys that the parts share are settled, and the filters of the optional part and
inside it read settled names. -/
theorem resolution_returns_left_join (quads : List Quad) (config : Config) (signer : Signer)
    (d : Dataset) (left right : Algebra) (condition : Option Expr) (p q r : Program)
    (signed : Dataset.sign quads config signer = .ok d) (nonempty : quads ≠ [])
    (plain : left.Plain) (well : left.WellOptional right condition)
    (compiledLeft : Program.ofNormal config left.query = .ok p)
    (compiledRight : Program.ofNormal config right.query = .ok q)
    (compiled : Program.ofNormal config (left.leftJoin right condition).query = .ok r) :
    ∃ lefts rights rows, left.rows d config = .ok lefts ∧ right.rows d config = .ok rights ∧
      (left.leftJoin right condition).rows d config = .ok rows ∧
      ∀ row, row ∈ rows ↔ row.LeftJoins config.encoder condition lefts rights := by
  obtain ⟨tree, signature, s⟩ := Dataset.sign_ok signed
  obtain ⟨frs, m, lefts, first, resolvedLeft, _, inLefts⟩ :=
    Algebra.rows_ok s nonempty plain compiledLeft
  obtain ⟨frs', k, rights, second, resolvedRight, _, inRights⟩ :=
    Algebra.rows_ok s nonempty well.steady.plain compiledRight
  obtain ⟨_, _, rows, folded, resolved, _, inRows⟩ :=
    Algebra.rows_ok s nonempty (Algebra.leftJoin_plain plain well.steady.plain) compiled
  refine ⟨lefts, rights, rows, resolvedLeft, resolvedRight, resolved, fun row => ?_⟩
  -- What full rows agree on and meet is said of their user-visible parts alike.
  have agrees {i j : Nat} {u v : Row} (keptU : Fragment.Kept config.encoder quads frs i u)
      (keptV : Fragment.Kept config.encoder quads frs' j v) :=
    Row.agrees_visible_iff fun key inU inV =>
      well.user key (keptU.mem_keys first inU) (keptV.mem_keys second inV)
  have meets (u v : Row) : (u.visible.plus v.visible).Meets config.encoder condition ↔
      (u.plus v).Meets config.encoder condition := by
    rw [← Row.visible_plus]
    exact Row.meets_visible_iff fun c is key member => (well.read c is key member).1
  rw [inRows]
  constructor
  · rintro ⟨i, full, rfl, kept⟩
    rcases (Fragment.kept_leftJoin_iff well first second folded full).1 ⟨i, kept⟩ with
      ⟨i, keptU, free⟩ | ⟨⟨i, j, u, v, keptU, keptV, agree, rfl⟩, holds⟩
    · refine Or.inr ⟨(inLefts _).2 ⟨i, full, rfl, keptU⟩, ?_⟩
      rintro ⟨_, memberV, agree, holds⟩
      obtain ⟨j, v, rfl, keptV⟩ := (inRights _).1 memberV
      exact free ⟨j, v, keptV, (agrees keptU keptV).1 agree, (meets full v).1 holds⟩
    · exact Or.inl ⟨u.visible, (inLefts _).2 ⟨i, u, rfl, keptU⟩, v.visible,
        (inRights _).2 ⟨j, v, rfl, keptV⟩, (agrees keptU keptV).2 agree, (meets u v).2 holds,
        u.visible_plus v⟩
  · rintro (⟨_, memberU, _, memberV, agree, holds, rfl⟩ | ⟨memberU, free⟩)
    · obtain ⟨i, u, rfl, keptU⟩ := (inLefts _).1 memberU
      obtain ⟨j, v, rfl, keptV⟩ := (inRights _).1 memberV
      obtain ⟨l, kept⟩ := (Fragment.kept_leftJoin_iff well first second folded _).2
        (Or.inr ⟨⟨i, j, u, v, keptU, keptV, (agrees keptU keptV).1 agree, rfl⟩,
          (meets u v).1 holds⟩)
      exact ⟨l, _, (u.visible_plus v).symm, kept⟩
    · obtain ⟨i, u, rfl, keptU⟩ := (inLefts _).1 memberU
      obtain ⟨l, kept⟩ := (Fragment.kept_leftJoin_iff well first second folded u).2
        (Or.inl ⟨i, keptU, fun ⟨j, v, keptV, agree, holds⟩ => free ⟨v.visible,
          (inRights _).2 ⟨j, v, rfl, keptV⟩, (agrees keptU keptV).2 agree, (meets u v).2 holds⟩⟩)
      exact ⟨l, u, rfl, kept⟩

theorem sampleGraphs_wellOptional :
    sampleSubjects.WellOptional sampleGraphs (some (.call .isIri (.var "o"))) where
  user := by decide
  settledLeft := .bgp _
  settledRight := sampleGraphs_settles (by unfold Algebra.Definite; decide)
  steady := by
    refine .union _ fun branch member => ?_
    rcases List.mem_pair.1 member with rfl | rfl
    · exact .bgp _
    · exact .bgp _
  settled := by
    rintro _ ⟨⟩
    exact sampleGraphs_settles (by unfold Algebra.Definite; decide)
  read := by
    rintro _ ⟨⟩
    unfold Algebra.Definite
    decide

set_option maxRecDepth 100000 in
theorem sampleLeftJoin_compiles : (sampleCompiles (sampleSubjects.leftJoin sampleGraphs
    (some (.call .isIri (.var "o")))).query).isOk = true := by
  decide +kernel

/-- The sample subjects with the triples about them that have an IRI for an object, each with its
graph where it has one. -/
theorem resolution_returns_left_join_sample :
    Dataset.sign [sampleQuad] sampleConfig sampleSigner = .ok sampleDataset ∧
    sampleSubjects.WellOptional sampleGraphs (some (.call .isIri (.var "o"))) ∧
    ∃ lefts rights rows, sampleSubjects.rows sampleDataset sampleConfig = .ok lefts ∧
      sampleGraphs.rows sampleDataset sampleConfig = .ok rights ∧
      (sampleSubjects.leftJoin sampleGraphs (some (.call .isIri (.var "o")))).rows sampleDataset
        sampleConfig = .ok rows ∧
      ∀ row, row ∈ rows ↔ row.LeftJoins sampleConfig.encoder (some (.call .isIri (.var "o"))) lefts
        rights := by
  obtain ⟨compilesRight, compilesLeft, _⟩ := sampleGraphs_compiles
  obtain ⟨p, compiledLeft, _⟩ := exists_sampleProgram compilesLeft
  obtain ⟨q, compiledRight, _⟩ := exists_sampleProgram compilesRight
  obtain ⟨r, compiled, _⟩ := exists_sampleProgram sampleLeftJoin_compiles
  exact ⟨sample_signs, sampleGraphs_wellOptional,
    resolution_returns_left_join [sampleQuad] sampleConfig sampleSigner sampleDataset sampleSubjects
      sampleGraphs (some (.call .isIri (.var "o"))) p q r sample_signs (List.cons_ne_nil _ _)
      (.bgp _) sampleGraphs_wellOptional compiledLeft compiledRight compiled⟩

/-! ## A left row that is lost -/

def sampleTriples : Algebra := .bgp [.ofVars "s" "p" "o" none]

def sampleUnbound : Expr := .not (.bound "x")

def sampleLostFragments : List Fragment :=
  let triples := [.ofVars "s" "p" "o" none, .ofVars "s" "p" "o" none]
  let graphs := triples ++ [.ofVars "s" "p" "o" (some "x")]
  [⟨[.ofVars "s" "p" "o" none], [], [], [1, 2]⟩,
    ⟨triples, [], [⟨0, sampleUnbound, (Fragment.ofPatterns triples).keys⟩], [2]⟩,
    ⟨graphs, [], [⟨0, sampleUnbound, (Fragment.ofPatterns graphs).keys⟩], []⟩]

theorem sampleLostFragments_folded : Fragment.ofAlgebra 0
    (sampleTriples.leftJoin sampleGraphs (some sampleUnbound)) = .ok (sampleLostFragments, 1) := rfl

def sampleBareRow : Row :=
  KeyMap.ofList [("s", sampleQuad.subject), ("p", sampleQuad.predicate), ("o", sampleQuad.object)]

set_option maxRecDepth 100000 in
theorem sampleTriples_compiles : (sampleCompiles sampleTriples.query).isOk = true ∧
    (sampleCompiles (sampleTriples.leftJoin sampleGraphs (some sampleUnbound)).query).isOk =
      true := by
  decide +kernel

theorem sampleBareRow_kept {e : Encoder} : Fragment.Kept e [sampleQuad]
    [.ofPatterns [.ofVars "s" "p" "o" none]] 0 sampleBareRow := by
  refine ⟨_, rfl, ⟨_, rfl, Fragment.admits_sample rfl rfl (fun p member => ?_) (by decide)
    (by decide)⟩, ?_, ?_⟩
  · obtain rfl := List.mem_singleton.1 member
    exact Pattern.fits_ofVars_iff.2 ⟨rfl, rfl, rfl, by simp⟩
  · simp [Fragment.Passes, Fragment.ofPatterns]
  · simp [Fragment.Suppressed, Fragment.ofPatterns]

/-- The triple alone is given up for itself, on which the filter is true as the graph is not bound;
that one is given up for the triple with its graph, on which the filter is false. -/
theorem sampleBareRow_lost {e : Encoder} {i : Nat} {full : Row}
    (kept : Fragment.Kept e [sampleQuad] sampleLostFragments i full) :
    full.visible ≠ sampleBareRow.visible := by
  intro same
  obtain ⟨f, found, ⟨_, again, admits⟩, _, free⟩ := kept
  obtain rfl := Option.some.inj (found.symm.trans again)
  match i, found with
  | 0, found =>
    obtain rfl := Option.some.inj found
    refine absurd ⟨1, List.mem_cons_self, _, sampleBareRow, rfl, ⟨_, rfl,
      Fragment.admits_sample rfl rfl (fun p member => ?_) (by decide) (by decide)⟩, ?_, ?_⟩ free
    · rcases List.mem_pair.1 member with rfl | rfl
      · exact Pattern.fits_ofVars_iff.2 ⟨rfl, rfl, rfl, by simp⟩
      · exact Pattern.fits_ofVars_iff.2 ⟨rfl, rfl, rfl, by simp⟩
    · intro x member _
      obtain rfl := List.mem_singleton.1 member
      rw [ScopedFilter.isTrue, sampleUnbound, Row.satisfies_not_bound, KeyMap.get_restrict]
      split <;> rfl
    · rw [same]
      exact sampleBareRow.visible_within
  | 1, found =>
    obtain rfl := Option.some.inj found
    refine absurd ⟨2, List.mem_cons_self, _, sampleTripleRow sampleQuad.graph, rfl, ⟨_, rfl,
      Fragment.admits_sample rfl rfl (fun p member => ?_) (by decide) (by decide)⟩, ?_, ?_⟩ free
    · simp only [List.cons_append, List.nil_append, List.mem_cons, List.not_mem_nil, or_false]
        at member
      rcases member with rfl | rfl | rfl
      · exact Pattern.fits_ofVars_iff.2 ⟨rfl, rfl, rfl, by simp⟩
      · exact Pattern.fits_ofVars_iff.2 ⟨rfl, rfl, rfl, by simp⟩
      · exact Pattern.fits_ofVars_iff.2 ⟨rfl, rfl, rfl, by simp; rfl⟩
    · intro x member fresh
      obtain rfl := List.mem_singleton.1 member
      simp at fresh
    · rw [same]
      exact (sampleBareRow.extendsTo_iff _).1 (by decide)
  | 2, found =>
    obtain rfl := Option.some.inj found
    have graph := (Pattern.fits_ofVars_iff.1 (admits.fits_sample
      (show Pattern.ofVars "s" "p" "o" (some "x") ∈ _ from
        List.mem_append_right _ List.mem_cons_self))).2.2.2 "x" rfl
    have here : full.visible.get? "x" = some sampleQuad.graph := (full.visible_get "x").trans graph
    rw [same] at here
    exact absurd here (by decide)

/-- The rows of an optional part are not always those of the left join. The triple alone agrees with
no right row on which the condition is true, as every right row binds the graph; yet it is no row of
the optional part. -/
theorem left_row_is_lost :
    Dataset.sign [sampleQuad] sampleConfig sampleSigner = .ok sampleDataset ∧
    ∃ lefts rights rows, sampleTriples.rows sampleDataset sampleConfig = .ok lefts ∧
      sampleGraphs.rows sampleDataset sampleConfig = .ok rights ∧
      (sampleTriples.leftJoin sampleGraphs (some sampleUnbound)).rows sampleDataset sampleConfig =
        .ok rows ∧
      ∃ row, row.LeftJoins sampleConfig.encoder (some sampleUnbound) lefts rights ∧ row ∉ rows := by
  obtain ⟨tree, signature, s⟩ := Dataset.sign_ok sample_signs
  obtain ⟨p, compiledLeft, _⟩ := exists_sampleProgram sampleTriples_compiles.1
  obtain ⟨q, compiledRight, _⟩ := exists_sampleProgram sampleGraphs_compiles.1
  obtain ⟨r, compiled, _⟩ := exists_sampleProgram sampleTriples_compiles.2
  obtain ⟨_, _, lefts, first, resolvedLeft, _, inLefts⟩ :=
    Algebra.rows_ok s (List.cons_ne_nil _ _) (.bgp _) compiledLeft
  obtain ⟨_, _, rights, second, resolvedRight, _, inRights⟩ :=
    Algebra.rows_ok s (List.cons_ne_nil _ _) sampleGraphs_plain compiledRight
  obtain ⟨_, _, rows, folded, resolved, _, inRows⟩ :=
    Algebra.rows_ok s (List.cons_ne_nil _ _)
      (Algebra.leftJoin_plain (.bgp _) sampleGraphs_plain) compiled
  obtain ⟨rfl, _⟩ := Prod.mk.inj (Except.ok.inj first)
  obtain ⟨rfl, _⟩ := Prod.mk.inj (Except.ok.inj second)
  obtain ⟨rfl, _⟩ := Prod.mk.inj (Except.ok.inj (sampleLostFragments_folded.symm.trans folded))
  refine ⟨sample_signs, lefts, rights, rows, resolvedLeft, resolvedRight, resolved,
    sampleBareRow.visible,
    Or.inr ⟨(inLefts _).2 ⟨0, sampleBareRow, rfl, sampleBareRow_kept⟩, ?_⟩, ?_⟩
  · rintro ⟨_, memberV, _, meets⟩
    obtain ⟨j, v, rfl, keptV⟩ := (inRights _).1 memberV
    have graph : v.visible.get? "x" = some sampleQuad.graph :=
      (v.visible_get "x").trans (sampleGraphs_kept keptV)
    have unbound : sampleBareRow.visible.get? "x" = none := by decide
    have holds := meets sampleUnbound rfl
    rw [sampleUnbound, Row.satisfies_not_bound, Row.get_plus, unbound, graph] at holds
    cases holds
  · intro member
    obtain ⟨i, full, same, kept⟩ := (inRows _).1 member
    exact sampleBareRow_lost kept same.symm

end AttestedQuery
