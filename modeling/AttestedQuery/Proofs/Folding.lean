import AttestedQuery.Proofs.Fragments

/-!
# Folding an algebra into fragments

One induction over the fragments of an algebra, and what follows from it: they mention no keys but
those of the algebra and have all that it certainly binds, and their filters have the numbers that
were given on the way and read no keys but those of their fragment.
-/

set_option autoImplicit false

namespace AttestedQuery

namespace Algebra

mutual

def keys : Algebra → List String
  | .bgp patterns => patterns.flatMap Pattern.keys
  | .join left right => left.keys ++ right.keys
  | .union _ branches => keysOfAll branches
  | .filter _ inner => inner.keys
  | .extend _ name value inner => inner.keys ++ ScopedExtension.keys ⟨name, value, none⟩
  | .project _ inner => inner.keys

def keysOfAll : List Algebra → List String
  | [] => []
  | branch :: rest => branch.keys ++ keysOfAll rest

end

theorem mem_keysOfAll {branches : List Algebra} {key : String} :
    key ∈ keysOfAll branches ↔ ∃ branch ∈ branches, key ∈ branch.keys := by
  induction branches with
  | nil => simp [keysOfAll]
  | cons first rest induction =>
    rw [keysOfAll, List.mem_append, induction, List.exists_mem_cons_iff]

/-- Algebras that extend rows by constants and by aliases of paths only. -/
inductive Plain : Algebra → Prop
  | bgp (patterns : List Pattern) : Plain (.bgp patterns)
  | join {left right : Algebra} (first : Plain left) (second : Plain right) :
      Plain (.join left right)
  | union (kind : UnionKind) {branches : List Algebra}
    (each : ∀ branch ∈ branches, Plain branch) : Plain (.union kind branches)
  | filter (condition : Expr) {inner : Algebra} (plain : Plain inner) :
      Plain (.filter condition inner)
  | extend (pathAlias : Bool) (name : String) (term : Term) {inner : Algebra}
    (plain : Plain inner) : Plain (.extend pathAlias name (.const term) inner)
  | link (name key : String) {inner : Algebra} (plain : Plain inner) :
      Plain (.extend true name (.var key) inner)

end Algebra

namespace Fragment

/-! ## Members -/

theorem mem_product {left right : List Fragment} {f : Fragment} :
    f ∈ product left right ↔ ∃ i j a b, left[i]? = some a ∧ right[j]? = some b ∧
      f = paired right.length i j a b := by
  simp only [product, List.mem_flatMap, List.mem_map, Prod.exists, List.mem_zipIdx_iff_getElem?]
  constructor
  · rintro ⟨a, i, first, b, j, second, rfl⟩
    exact ⟨i, j, a, b, first, second, rfl⟩
  · rintro ⟨i, j, a, b, first, second, rfl⟩
    exact ⟨a, i, first, b, j, second, rfl⟩

theorem mem_concatenated {lists : List (List Fragment)} {f : Fragment} :
    f ∈ concatenated lists → ∃ list ∈ lists, ∃ g ∈ list, ∃ offset, f = g.shifted offset := by
  suffices general : ∀ start : List Fragment,
      f ∈ lists.foldl (fun before list => before ++ list.map (shifted before.length)) start →
        f ∈ start ∨ ∃ list ∈ lists, ∃ g ∈ list, ∃ offset, f = g.shifted offset by
    intro member
    simpa using general [] member
  induction lists with
  | nil => exact fun start member => Or.inl member
  | cons list rest induction =>
    intro start member
    rcases induction _ member with before | ⟨other, inside, found⟩
    · rcases List.mem_append.1 before with before | here
      · exact Or.inl before
      · obtain ⟨g, inside, rfl⟩ := List.mem_map.1 here
        exact Or.inr ⟨list, List.mem_cons_self, g, inside, _, rfl⟩
    · exact Or.inr ⟨other, List.mem_cons_of_mem _ inside, found⟩

theorem exists_mem_concatenated {lists : List (List Fragment)} {list : List Fragment}
    (member : list ∈ lists) {g : Fragment} (inside : g ∈ list) :
    ∃ offset, g.shifted offset ∈ concatenated lists := by
  suffices general : ∀ start : List Fragment,
      (list ∈ lists ∨ ∃ offset, g.shifted offset ∈ start) → ∃ offset, g.shifted offset ∈
        lists.foldl (fun before list => before ++ list.map (shifted before.length)) start from
    general [] (Or.inl member)
  clear member
  induction lists with
  | nil => simp
  | cons first rest induction =>
    intro start either
    refine induction _ ?_
    rcases either with member | ⟨offset, before⟩
    · rcases List.mem_cons.1 member with rfl | later
      · exact Or.inr ⟨_, List.mem_append_right _ (List.mem_map_of_mem inside)⟩
      · exact Or.inl later
    · exact Or.inr ⟨offset, List.mem_append_left _ before⟩

theorem mem_united {kind : UnionKind} {lists : List (List Fragment)} {f : Fragment}
    (member : f ∈ united kind lists) :
    ∃ list ∈ lists, ∃ g ∈ list, f = { g with exclusiveOf := f.exclusiveOf } := by
  unfold united at member
  split at member
  next left joined =>
    rcases List.mem_append.1 member with inside | inside
    · obtain ⟨g, here, rfl⟩ := List.mem_map.1 inside
      exact ⟨left, by simp, g, here, rfl⟩
    · obtain ⟨g, here, rfl⟩ := List.mem_map.1 inside
      exact ⟨joined, by simp, g, here, rfl⟩
  next =>
    obtain ⟨list, inside, g, here, offset, rfl⟩ := mem_concatenated member
    exact ⟨list, inside, g, here, rfl⟩

/-! ## The induction -/

/-- What holds of the fragments of each branch of a union, while filters are numbered. -/
inductive Each (holds : Nat → Algebra → List Fragment → Nat → Prop) :
    Nat → List Algebra → List (List Fragment) → Nat → Prop
  | nil (n : Nat) : Each holds n [] [] n
  | cons {n m k : Nat} {branch : Algebra} {fragments : List Fragment} {rest : List Algebra}
    {lists : List (List Fragment)} (first : holds n branch fragments m)
    (others : Each holds m rest lists k) : Each holds n (branch :: rest) (fragments :: lists) k

section Each

variable {holds : Nat → Algebra → List Fragment → Nat → Prop} {n m : Nat}
  {branches : List Algebra} {lists : List (List Fragment)}

theorem Each.exists_branch (each : Each holds n branches lists m) {list : List Fragment}
    (member : list ∈ lists) : ∃ branch ∈ branches, ∃ n m, holds n branch list m := by
  induction each with
  | nil => simp at member
  | cons first _ induction =>
    rcases List.mem_cons.1 member with rfl | later
    · exact ⟨_, List.mem_cons_self, _, _, first⟩
    · obtain ⟨branch, inside, holds⟩ := induction later
      exact ⟨branch, List.mem_cons_of_mem _ inside, holds⟩

theorem Each.exists_list (each : Each holds n branches lists m) {branch : Algebra}
    (member : branch ∈ branches) : ∃ list ∈ lists, ∃ n m, holds n branch list m := by
  induction each with
  | nil => simp at member
  | cons first _ induction =>
    rcases List.mem_cons.1 member with rfl | later
    · exact ⟨_, List.mem_cons_self, _, _, first⟩
    · obtain ⟨list, inside, holds⟩ := induction later
      exact ⟨list, List.mem_cons_of_mem _ inside, holds⟩

theorem Each.length_eq (each : Each holds n branches lists m) :
    lists.length = branches.length := by
  induction each with
  | nil => rfl
  | cons _ _ induction => rw [List.length_cons, List.length_cons, induction]

theorem Each.imp {weaker : Nat → Algebra → List Fragment → Nat → Prop}
    (each : Each holds n branches lists m)
    (weakens : ∀ n a fragments m, holds n a fragments m → weaker n a fragments m) :
    Each weaker n branches lists m := by
  induction each with
  | nil n => exact .nil n
  | cons first _ induction => exact .cons (weakens _ _ _ _ first) induction

end Each

/-- What holds of pattern groups and is kept by every way to put algebras together. -/
structure Closed (holds : Nat → Algebra → List Fragment → Nat → Prop) : Prop where
  bgp : ∀ n patterns, holds n (.bgp patterns) [ofPatterns patterns] n
  join : ∀ {n m k left right lefts rights}, holds n left lefts m → holds m right rights k →
    holds n (.join left right) (product lefts rights) k
  union : ∀ {n k branches lists} kind, Each holds n branches lists k →
    holds n (.union kind branches) (united kind lists) k
  filter : ∀ {n m inner fragments} condition, holds n inner fragments m →
    holds n (.filter condition inner) (fragments.map (withFilter m condition)) (m + 1)
  extend : ∀ {n m inner fragments} pathAlias name value, holds n inner fragments m →
    holds n (.extend pathAlias name value inner)
      (fragments.map (withExtension pathAlias name value)) m

section Folds

variable {whole : List Fragment} {n m : Nat}

theorem folds_of_join {left right : Algebra}
    (folded : ofAlgebra n (.join left right) = .ok (whole, m)) :
    ∃ lefts k rights, ofAlgebra n left = .ok (lefts, k) ∧ ofAlgebra k right = .ok (rights, m) ∧
      whole = product lefts rights := by
  rw [ofAlgebra] at folded
  obtain ⟨⟨lefts, k⟩, first, folded⟩ := bind_ok_iff.1 folded
  obtain ⟨⟨rights, _⟩, second, folded⟩ := bind_ok_iff.1 folded
  obtain ⟨rfl, rfl⟩ := Prod.mk.inj (pure_ok_iff.1 folded)
  exact ⟨lefts, k, rights, first, second, rfl⟩

theorem folds_of_union {kind : UnionKind} {branches : List Algebra}
    (folded : ofAlgebra n (.union kind branches) = .ok (whole, m)) :
    ∃ lists, ofBranches n branches = .ok (lists, m) ∧ whole = united kind lists := by
  rw [ofAlgebra] at folded
  obtain ⟨⟨lists, _⟩, made, folded⟩ := bind_ok_iff.1 folded
  obtain ⟨rfl, rfl⟩ := Prod.mk.inj (pure_ok_iff.1 folded)
  exact ⟨lists, made, rfl⟩

theorem folds_of_filter {condition : Expr} {inner : Algebra}
    (folded : ofAlgebra n (.filter condition inner) = .ok (whole, m)) :
    ∃ fragments k, ofAlgebra n inner = .ok (fragments, k) ∧
      whole = fragments.map (withFilter k condition) ∧ m = k + 1 := by
  rw [ofAlgebra] at folded
  obtain ⟨⟨fragments, k⟩, made, folded⟩ := bind_ok_iff.1 folded
  obtain ⟨rfl, rfl⟩ := Prod.mk.inj (pure_ok_iff.1 folded)
  exact ⟨fragments, k, made, rfl, rfl⟩

theorem folds_of_extend {pathAlias : Bool} {name : String} {value : Expr} {inner : Algebra}
    (folded : ofAlgebra n (.extend pathAlias name value inner) = .ok (whole, m)) :
    ∃ fragments, ofAlgebra n inner = .ok (fragments, m) ∧
      whole = fragments.map (withExtension pathAlias name value) := by
  rw [ofAlgebra] at folded
  obtain ⟨⟨fragments, _⟩, made, folded⟩ := bind_ok_iff.1 folded
  obtain ⟨rfl, rfl⟩ := Prod.mk.inj (pure_ok_iff.1 folded)
  exact ⟨fragments, made, rfl⟩

theorem folds_of_cons {branch : Algebra} {rest : List Algebra} {lists : List (List Fragment)}
    (folded : ofBranches n (branch :: rest) = .ok (lists, m)) :
    ∃ fragments k others, ofAlgebra n branch = .ok (fragments, k) ∧
      ofBranches k rest = .ok (others, m) ∧ lists = fragments :: others := by
  rw [ofBranches] at folded
  obtain ⟨⟨fragments, k⟩, first, folded⟩ := bind_ok_iff.1 folded
  obtain ⟨⟨others, _⟩, later, folded⟩ := bind_ok_iff.1 folded
  obtain ⟨rfl, rfl⟩ := Prod.mk.inj (pure_ok_iff.1 folded)
  exact ⟨fragments, k, others, first, later, rfl⟩

end Folds

mutual

theorem Closed.ofAlgebra {holds : Nat → Algebra → List Fragment → Nat → Prop}
    (closed : Closed holds) : (a : Algebra) → {n m : Nat} → {fragments : List Fragment} →
      ofAlgebra n a = .ok (fragments, m) → holds n a fragments m
  | .bgp patterns, n, _, _, folded => by
    obtain ⟨rfl, rfl⟩ := Prod.mk.inj (Except.ok.inj folded)
    exact closed.bgp n patterns
  | .join left right, _, _, _, folded => by
    obtain ⟨lefts, _, rights, first, second, rfl⟩ := folds_of_join folded
    exact closed.join (closed.ofAlgebra left first) (closed.ofAlgebra right second)
  | .union kind branches, _, _, _, folded => by
    obtain ⟨lists, made, rfl⟩ := folds_of_union folded
    exact closed.union kind (closed.ofBranches branches made)
  | .filter condition inner, _, _, _, folded => by
    obtain ⟨fragments, _, made, rfl, rfl⟩ := folds_of_filter folded
    exact closed.filter condition (closed.ofAlgebra inner made)
  | .extend pathAlias name value inner, _, _, _, folded => by
    obtain ⟨fragments, made, rfl⟩ := folds_of_extend folded
    exact closed.extend pathAlias name value (closed.ofAlgebra inner made)
  | .project names inner, _, _, _, folded => by cases folded

theorem Closed.ofBranches {holds : Nat → Algebra → List Fragment → Nat → Prop}
    (closed : Closed holds) : (branches : List Algebra) → {n m : Nat} →
      {lists : List (List Fragment)} → ofBranches n branches = .ok (lists, m) →
        Each holds n branches lists m
  | [], n, _, _, folded => by
    obtain ⟨rfl, rfl⟩ := Prod.mk.inj (Except.ok.inj folded)
    exact .nil n
  | branch :: rest, _, _, _, folded => by
    obtain ⟨fragments, _, others, first, later, rfl⟩ := folds_of_cons folded
    exact .cons (closed.ofAlgebra branch first) (closed.ofBranches rest later)

end

theorem Each.folds {n m : Nat} {branches : List Algebra} {lists : List (List Fragment)}
    (each : Each (fun n a fragments m => ofAlgebra n a = .ok (fragments, m)) n branches lists m) :
    ofBranches n branches = .ok (lists, m) := by
  induction each with
  | nil => rfl
  | cons first _ induction =>
    rw [ofBranches]
    exact bind_ok_iff.2 ⟨_, first, bind_ok_iff.2 ⟨_, induction, rfl⟩⟩

/-- Folding itself is closed, so that what is closed can be told of the parts as well. -/
theorem closed_folds : Closed fun n a fragments m => ofAlgebra n a = .ok (fragments, m) where
  bgp n patterns := rfl
  join first second := by
    rw [ofAlgebra]
    exact bind_ok_iff.2 ⟨_, first, bind_ok_iff.2 ⟨_, second, rfl⟩⟩
  union kind each := by
    rw [ofAlgebra]
    exact bind_ok_iff.2 ⟨_, each.folds, rfl⟩
  filter condition folded := by
    rw [ofAlgebra]
    exact bind_ok_iff.2 ⟨_, folded, rfl⟩
  extend pathAlias name value folded := by
    rw [ofAlgebra]
    exact bind_ok_iff.2 ⟨_, folded, rfl⟩

theorem mem_mentions_withExtension {f : Fragment} {pathAlias : Bool} {name : String} {value : Expr}
    {key : String} : key ∈ (f.withExtension pathAlias name value).mentions ↔
      key ∈ f.mentions ∨ key ∈ ScopedExtension.keys
        ⟨name, value, if pathAlias then none else some f.keys⟩ := by
  simp only [mentions, withExtension, List.flatMap_append, List.mem_append, List.flatMap_cons,
    List.flatMap_nil, List.append_nil, or_assoc]

/-! ## Keys -/

/-- The fragments of an algebra mention no keys but those of the algebra. -/
theorem closed_mentions :
    Closed fun _ a fragments _ => ∀ f ∈ fragments, f.mentions ⊆ a.keys where
  bgp n patterns := by simp [ofPatterns, mentions, Algebra.keys]
  join first second := by
    intro f member key mentioned
    obtain ⟨i, j, a, b, here, there, rfl⟩ := mem_product.1 member
    rw [Algebra.keys, List.mem_append]
    exact (mem_mentions_paired.1 mentioned).imp (first a (List.mem_of_getElem? here) ·)
      (second b (List.mem_of_getElem? there) ·)
  union kind each := by
    intro f member key mentioned
    obtain ⟨list, inside, g, here, same⟩ := mem_united member
    rw [same] at mentioned
    obtain ⟨branch, branched, _, _, holds⟩ := each.exists_branch inside
    exact Algebra.mem_keysOfAll.2 ⟨branch, branched, holds g here mentioned⟩
  filter condition induction := by
    intro f member key mentioned
    obtain ⟨g, inside, rfl⟩ := List.mem_map.1 member
    exact induction g inside mentioned
  extend pathAlias name value induction := by
    intro f member key mentioned
    obtain ⟨g, inside, rfl⟩ := List.mem_map.1 member
    rw [Algebra.keys, List.mem_append]
    exact (mem_mentions_withExtension.1 mentioned).imp (induction g inside ·) fun about => about

theorem mem_mentions_of_keys {f : Fragment} {key : String}
    (member : f.keys.contains key = true) : key ∈ f.mentions := by
  rw [keys, KeySet.contains_ofKeys, List.contains_iff_mem, List.mem_append] at member
  refine List.mem_append.2 (member.imp_right fun named => ?_)
  obtain ⟨⟨name, value, visible⟩, inside, rfl⟩ := List.mem_map.1 named
  refine List.mem_flatMap.2 ⟨_, inside, ?_⟩
  cases value <;> simp [ScopedExtension.keys]

theorem contains_keys_paired {width i j : Nat} {a b : Fragment} {key : String} :
    (paired width i j a b).keys.contains key = true ↔
      a.keys.contains key = true ∨ b.keys.contains key = true := by
  simp only [keys, paired, KeySet.contains_ofKeys, List.contains_iff_mem, List.flatMap_append,
    List.map_append, List.mem_append]
  tauto

theorem contains_keys_withExtension {f : Fragment} {pathAlias : Bool} {name : String} {value : Expr}
    {key : String} : (f.withExtension pathAlias name value).keys.contains key = true ↔
      f.keys.contains key = true ∨ key = name := by
  simp only [keys, withExtension, KeySet.contains_ofKeys, List.contains_iff_mem, List.map_append,
    List.mem_append, List.map_cons, List.map_nil, List.mem_singleton, or_assoc]

end Fragment

namespace Algebra

theorem contains_boundInAll {bound : KeySet} {branches : List Algebra} {key : String} :
    (boundInAll bound branches).contains key = true ↔ bound.contains key = true ∧
      ∀ branch ∈ branches, branch.certainlyBound.contains key = true := by
  induction branches generalizing bound with
  | nil => simp [boundInAll]
  | cons branch rest induction =>
    rw [boundInAll, induction, List.forall_mem_cons]
    simp only [KeyMap.contains_eq_isSome, KeyMap.get_restrict]
    by_cases here : (branch.certainlyBound.get? key).isSome = true
    · simp [here]
    · simp [here]

theorem certainlyBound_of_union {kind : UnionKind} {branches : List Algebra} {key : String}
    (certain : (union kind branches).certainlyBound.contains key = true) {branch : Algebra}
    (member : branch ∈ branches) : branch.certainlyBound.contains key = true := by
  cases branches with
  | nil => cases member
  | cons first rest =>
    rw [certainlyBound, contains_boundInAll] at certain
    rcases List.mem_cons.1 member with rfl | later
    · exact certain.1
    · exact certain.2 branch later

end Algebra

namespace Fragment

theorem closed_certain : Closed fun _ a fragments _ => ∀ key,
    a.certainlyBound.contains key = true → ∀ f ∈ fragments, f.keys.contains key = true where
  bgp n patterns := by simp [ofPatterns, keys, Algebra.certainlyBound]
  join first second := by
    intro key certain f member
    obtain ⟨i, j, a, b, here, there, rfl⟩ := mem_product.1 member
    rw [Algebra.certainlyBound, KeySet.contains_addAll, Bool.or_eq_true, List.contains_iff_mem,
      KeyMap.mem_keys_iff] at certain
    exact contains_keys_paired.2 (certain.symm.imp (first key · a (List.mem_of_getElem? here))
      (second key · b (List.mem_of_getElem? there)))
  union kind each := by
    intro key certain f member
    obtain ⟨list, inside, g, here, same⟩ := mem_united member
    obtain ⟨branch, branched, _, _, holds⟩ := each.exists_branch inside
    rw [same]
    exact holds key (Algebra.certainlyBound_of_union certain branched) g here
  filter condition induction := by
    intro key certain f member
    obtain ⟨g, inside, rfl⟩ := List.mem_map.1 member
    exact induction key certain g inside
  extend pathAlias name value induction := by
    intro key certain f member
    obtain ⟨g, inside, rfl⟩ := List.mem_map.1 member
    rw [Algebra.certainlyBound, KeySet.contains_add, Bool.or_eq_true, beq_iff_eq] at certain
    exact contains_keys_withExtension.2 (certain.symm.imp_left (induction key · g inside))

/-! ## Extensions -/

theorem closed_plain : Closed fun _ a fragments _ => a.Plain → ∀ f ∈ fragments, f.IsPlain where
  bgp n patterns := by simp [ofPatterns, IsPlain]
  join first second plain := by
    cases plain with
    | join plainLeft plainRight =>
      intro f member x extension
      obtain ⟨i, j, a, b, here, there, rfl⟩ := mem_product.1 member
      exact (List.mem_append.1 extension).elim (first plainLeft a (List.mem_of_getElem? here) x)
        (second plainRight b (List.mem_of_getElem? there) x)
  union kind each plain := by
    cases plain with
    | union _ all =>
      intro f member
      obtain ⟨list, inside, g, here, same⟩ := mem_united member
      obtain ⟨branch, branched, _, _, holds⟩ := each.exists_branch inside
      rw [same]
      exact holds (all branch branched) g here
  filter condition induction plain := by
    cases plain with
    | filter _ plain =>
      intro f member
      obtain ⟨g, inside, rfl⟩ := List.mem_map.1 member
      exact induction plain g inside
  extend pathAlias name value induction plain := by
    intro f member x extension
    obtain ⟨g, inside, rfl⟩ := List.mem_map.1 member
    rcases List.mem_append.1 extension with before | last
    · cases plain with
      | extend _ _ _ plain => exact induction plain g inside x before
      | link _ _ plain => exact induction plain g inside x before
    · rw [List.mem_singleton.1 last]
      cases plain <;> rfl

/-! ## Filters -/

/-- A filter has a number within bounds and reads no keys but those of its fragment. -/
structure Scopes (low high : Nat) (f : Fragment) : Prop where
  numbered : ∀ x ∈ f.filters, low ≤ x.number ∧ x.number < high
  visible : ∀ x ∈ f.filters, ∀ key, x.visible.contains key = true → key ∈ f.mentions

theorem Scopes.mono {low high n m : Nat} {f : Fragment} (scopes : f.Scopes n m) (lower : low ≤ n)
    (upper : m ≤ high) : f.Scopes low high where
  numbered x filter := ⟨lower.trans (scopes.numbered x filter).1,
    (scopes.numbered x filter).2.trans_le upper⟩
  visible := scopes.visible

theorem Each.scopes {n m : Nat} {branches : List Algebra} {lists : List (List Fragment)}
    (each :
      Each (fun n _ fragments m => n ≤ m ∧ ∀ f ∈ fragments, f.Scopes n m) n branches lists m) :
    n ≤ m ∧ ∀ list ∈ lists, ∀ f ∈ list, f.Scopes n m := by
  induction each with
  | nil => simp
  | cons first _ induction =>
    obtain ⟨order, scopes⟩ := first
    obtain ⟨later, others⟩ := induction
    refine ⟨order.trans later, fun list member f inside => ?_⟩
    rcases List.mem_cons.1 member with rfl | member
    · exact (scopes f inside).mono le_rfl later
    · exact (others list member f inside).mono order le_rfl

/-- Filters are numbered on, and each reads keys of its fragment. -/
theorem closed_scopes :
    Closed fun n _ fragments m => n ≤ m ∧ ∀ f ∈ fragments, f.Scopes n m where
  bgp n patterns := ⟨le_rfl, fun f member => by
    obtain rfl := List.mem_singleton.1 member
    exact ⟨by simp [ofPatterns], by simp [ofPatterns]⟩⟩
  join := by
    rintro n m k left right lefts rights ⟨orderLeft, first⟩ ⟨orderRight, second⟩
    refine ⟨orderLeft.trans orderRight, fun f member => ?_⟩
    obtain ⟨i, j, a, b, here, there, rfl⟩ := mem_product.1 member
    have scopesA := first a (List.mem_of_getElem? here)
    have scopesB := second b (List.mem_of_getElem? there)
    refine ⟨fun x filter => ?_, fun x filter key shown => mem_mentions_paired.2 ?_⟩
    · rcases List.mem_append.1 filter with inside | inside
      · exact (scopesA.numbered x inside).imp_right (·.trans_le orderRight)
      · exact (scopesB.numbered x inside).imp_left orderLeft.trans
    · exact (List.mem_append.1 filter).imp (scopesA.visible x · key shown)
        (scopesB.visible x · key shown)
  union kind each := by
    obtain ⟨order, scopes⟩ := each.scopes
    refine ⟨order, fun f member => ?_⟩
    obtain ⟨list, inside, g, here, same⟩ := mem_united member
    have scopes := scopes list inside g here
    rw [same]
    exact ⟨scopes.numbered, scopes.visible⟩
  filter := by
    rintro n m condition inner fragments ⟨order, induction⟩
    refine ⟨Nat.le_succ_of_le order, fun f member => ?_⟩
    obtain ⟨g, inside, rfl⟩ := List.mem_map.1 member
    have scopes := induction g inside
    refine ⟨fun x filter => ?_, fun x filter key shown => ?_⟩
    · rcases List.mem_append.1 filter with before | last
      · exact (scopes.numbered x before).imp_right Nat.lt_succ_of_lt
      · rw [List.mem_singleton.1 last]
        exact ⟨order, Nat.lt_succ_self m⟩
    · rcases List.mem_append.1 filter with before | last
      · exact scopes.visible x before key shown
      · rw [List.mem_singleton.1 last] at shown
        exact mem_mentions_of_keys shown
  extend := by
    rintro n m pathAlias name value inner fragments ⟨order, induction⟩
    refine ⟨order, fun f member => ?_⟩
    obtain ⟨g, inside, rfl⟩ := List.mem_map.1 member
    have scopes := induction g inside
    exact ⟨scopes.numbered, fun x filter key shown =>
      mem_mentions_withExtension.2 (Or.inl (scopes.visible x filter key shown))⟩

/-! ## Changed fragments -/

/-- A change of fragments that leaves alone how they are put together. -/
structure Commutes (change : Fragment → Fragment) : Prop where
  paired : ∀ width i j a b, change (paired width i j a b) = paired width i j (change a) (change b)
  shifted : ∀ offset f, change (shifted offset f) = shifted offset (change f)

section Changed

variable {change : Fragment → Fragment}

theorem Commutes.product (commutes : Commutes change) (left right : List Fragment) :
    product (left.map change) (right.map change) = (product left right).map change := by
  simp only [Fragment.product, List.zipIdx_map, List.flatMap_map, List.map_flatMap, List.map_map,
    List.length_map, Prod.map, id, Function.comp_def, commutes.paired]

theorem Commutes.concatenated (commutes : Commutes change) (lists : List (List Fragment)) :
    concatenated (lists.map (List.map change)) = (concatenated lists).map change := by
  suffices general : ∀ start : List Fragment,
      (lists.map (List.map change)).foldl
        (fun before list => before ++ list.map (Fragment.shifted before.length))
          (start.map change) =
      (lists.foldl (fun before list => before ++ list.map (Fragment.shifted before.length))
        start).map change from general []
  induction lists with
  | nil => exact fun start => rfl
  | cons list rest induction =>
    intro start
    rw [List.map_cons, List.foldl_cons, List.foldl_cons, ← induction]
    simp [Function.comp_def, commutes.shifted]

/-- A change that leaves alone what fragments exclude is made branch by branch. -/
theorem Commutes.united (commutes : Commutes change)
    (excluding : ∀ more f, change { f with exclusiveOf := f.exclusiveOf ++ more } =
      { change f with exclusiveOf := (change f).exclusiveOf ++ more })
    (kind : UnionKind) (lists : List (List Fragment)) :
    Fragment.united kind (lists.map (List.map change)) =
      (Fragment.united kind lists).map change := by
  unfold Fragment.united
  split
  next left joined same =>
    match lists, same with
    | [first, second], rfl =>
      simp [optional, Function.comp_def, excluding, commutes.shifted]
  next other =>
    split
    next left joined => exact absurd rfl (other _ _ rfl)
    next => exact commutes.concatenated lists

end Changed

def renumbered (offset : Nat) (f : Fragment) : Fragment :=
  { f with filters := f.filters.map fun x => { x with number := x.number + offset } }

theorem commutes_renumbered (offset : Nat) : Commutes (renumbered offset) where
  paired _ _ _ _ _ := by simp [renumbered, paired]
  shifted _ _ := rfl

theorem Each.renumbered {offset n m : Nat} {branches : List Algebra}
    {lists : List (List Fragment)} (each : Each (fun n a fragments m => ofAlgebra (n + offset) a =
      .ok (fragments.map (renumbered offset), m + offset)) n branches lists m) :
    ofBranches (n + offset) branches =
      .ok (lists.map (List.map (Fragment.renumbered offset)), m + offset) := by
  induction each with
  | nil => rfl
  | cons first _ induction =>
    rw [ofBranches]
    exact bind_ok_iff.2 ⟨_, first, bind_ok_iff.2 ⟨_, induction, rfl⟩⟩

/-- Numbering filters from a later number on gives the same fragments with later numbers. -/
theorem closed_renumbered (offset : Nat) : Closed fun n a fragments m =>
    ofAlgebra (n + offset) a = .ok (fragments.map (renumbered offset), m + offset) where
  bgp n patterns := rfl
  join first second := by
    rw [ofAlgebra]
    refine bind_ok_iff.2 ⟨_, first, bind_ok_iff.2 ⟨_, second, ?_⟩⟩
    exact congrArg (fun l => Except.ok (l, _)) ((commutes_renumbered offset).product _ _)
  union kind each := by
    have branchwise : ofBranches _ _ = _ := each.renumbered
    rw [ofAlgebra]
    refine bind_ok_iff.2 ⟨_, branchwise, ?_⟩
    exact congrArg (fun l => Except.ok (l, _))
      ((commutes_renumbered offset).united (fun _ _ => rfl) kind _)
  filter condition induction := by
    rw [ofAlgebra]
    refine bind_ok_iff.2 ⟨_, induction, ?_⟩
    rw [Nat.add_right_comm]
    exact congrArg (fun l => Except.ok (l, _)) (by
      simp [renumbered, withFilter, Function.comp_def, keys])
  extend pathAlias name value induction := by
    rw [ofAlgebra]
    refine bind_ok_iff.2 ⟨_, induction, ?_⟩
    exact congrArg (fun l => Except.ok (l, _)) (by
      simp [renumbered, withExtension, Function.comp_def, keys])

end Fragment

end AttestedQuery
