import AttestedQuery.Proofs.Filters
import AttestedQuery.Proofs.Folding
import AttestedQuery.Proofs.Solutions

/-!
# What a filter can read

The compiler notes which keys a filter may read before it knows which keys are bound: those at a
place of binding of the group under the filter, and among them those that the whole branch binds in
the end. So two kinds of keys come apart from what the group binds by itself. A path of length zero
that runs towards its first end binds a key that the filter may not read, and a filter may read a
key that its own group has left unbound, where a copy of an unbound variable names it and the rest
of the branch binds it. Of all other keys a filter reads exactly those that its group binds.
-/

set_option autoImplicit false

namespace AttestedQuery

/-! ## Keys that extensions bind -/

/-- An extension has a value where a set of keys is bound: always, unless it is a copy of a
variable. -/
def ScopedExtension.Supplied (bound : String → Prop) (x : ScopedExtension) : Prop :=
  match x.value, x.visible with
  | .var source, some visible => bound source ∧ visible.contains source = true
  | _, _ => True

theorem ScopedExtension.Supplied.mono {bound more : String → Prop} {x : ScopedExtension}
    (supplied : x.Supplied bound) (grows : ∀ key, bound key → more key) : x.Supplied more := by
  obtain ⟨name, value, visible⟩ := x
  cases value with
  | var source =>
    cases visible with
    | none => trivial
    | some visible => exact supplied.imp_left (grows source)
  | _ => trivial

theorem ScopedExtension.copies_of_not_supplied {bound : String → Prop} {x : ScopedExtension}
    (missing : ¬ x.Supplied bound) :
    ∃ source visible, x.value = .var source ∧ x.visible = some visible := by
  obtain ⟨name, value, visible⟩ := x
  cases value with
  | var source =>
    cases visible with
    | none => exact absurd trivial missing
    | some visible => exact ⟨source, visible, rfl, rfl⟩
  | _ => exact absurd trivial missing

namespace Tracing

/-- A key has a source. -/
def Binds (t : Tracing) (key : String) : Prop := (t.sources.get? key).isSome = true

section Extensions

variable {e : Encoder} {t final : Tracing} {x : ScopedExtension} {xs : List ScopedExtension}
  {made : List Extension} {key : String}

theorem extension_copy {name source : String} {visible : KeySet}
    {found : Option (Extension × Wire)}
    (traced : t.extension? e ⟨name, .var source, some visible⟩ = .ok found) :
    (found = none ∧ ¬ (t.Binds source ∧ visible.contains source = true)) ∨
      ∃ wire, found = some (⟨name, .key source⟩, wire) ∧ t.Binds source ∧
        visible.contains source = true := by
  simp only [extension?] at traced
  cases stored : t.sources.get? source with
  | none =>
    rw [stored] at traced
    exact Or.inl ⟨(Except.ok.inj traced).symm, by simp [Binds, stored]⟩
  | some wire =>
    rw [stored] at traced
    have made := Except.ok.inj traced
    by_cases shown : visible.contains source = true
    · rw [if_pos shown] at made
      exact Or.inr ⟨wire, made.symm, by simp [Binds, stored], shown⟩
    · rw [if_neg shown] at made
      exact Or.inl ⟨made.symm, fun both => shown both.2⟩

theorem extension_cases {found : Option (Extension × Wire)} (traced : t.extension? e x = .ok found) :
    x.isPlain = true ∨ ∃ name source visible, x = ⟨name, .var source, some visible⟩ := by
  obtain ⟨name, value, visible⟩ := x
  cases value with
  | const term => exact Or.inl rfl
  | var source =>
    cases visible with
    | none => exact Or.inl rfl
    | some visible => exact Or.inr ⟨name, source, visible, rfl⟩
  | _ => cases traced

theorem not_supplied_of_none (traced : t.extension? e x = .ok none) : ¬ x.Supplied t.Binds := by
  rcases extension_cases traced with plain | ⟨name, source, visible, rfl⟩
  · obtain ⟨extension, wire, impossible, _⟩ := extension_plain plain traced
    cases impossible
  · rcases extension_copy traced with ⟨_, missing⟩ | ⟨wire, impossible, _⟩
    · exact missing
    · cases impossible

theorem supplied_of_some {extension : Extension} {wire : Wire}
    (traced : t.extension? e x = .ok (some (extension, wire))) : x.Supplied t.Binds ∧
      ∀ key, key = extension.name ∨ t.Binds key ↔ key ∈ x.keys ∨ t.Binds key := by
  rcases extension_cases traced with plain | ⟨name, source, visible, rfl⟩
  · obtain ⟨_, _, same, _, keys⟩ := extension_plain plain traced
    obtain ⟨rfl, rfl⟩ := Prod.mk.inj (Option.some.inj same)
    refine ⟨?_, keys⟩
    by_contra missing
    obtain ⟨source, visible, value, shown⟩ := ScopedExtension.copies_of_not_supplied missing
    simp [ScopedExtension.isPlain, value, shown] at plain
  · rcases extension_copy traced with ⟨impossible, _⟩ | ⟨_, same, bound, shown⟩
    · cases impossible
    · obtain ⟨rfl, rfl⟩ := Prod.mk.inj (Option.some.inj same)
      refine ⟨⟨bound, shown⟩, fun key => ?_⟩
      by_cases key = source
      · simp_all [ScopedExtension.keys]
      · simp_all [ScopedExtension.keys]

/-- The first of several extensions binds the keys that it is about where it has a value, and the
others follow. -/
theorem Applies.step (applies : Applies e t (x :: xs) made final) :
    ∃ next later, Applies e next xs later final ∧
      ∀ key, next.Binds key ↔ t.Binds key ∨ x.Supplied t.Binds ∧ key ∈ x.keys := by
  cases applies with
  | skip found later =>
    have missing := not_supplied_of_none found
    exact ⟨t, made, later, fun key => by simp [missing]⟩
  | @make _ _ _ _ extension wire made found later =>
    obtain ⟨supplied, keys⟩ := supplied_of_some found
    refine ⟨_, made, later, fun key => ?_⟩
    rw [Binds, isSome_withKey, and_iff_right supplied, or_comm (a := t.Binds key), ← keys]
    exact Iff.rfl

theorem Applies.keeps (applies : Applies e t xs made final) (bound : t.Binds key) :
    final.Binds key := by
  induction xs generalizing t made with
  | nil =>
    cases applies
    exact bound
  | cons x rest induction =>
    obtain ⟨next, later, others, keys⟩ := applies.step
    exact induction others ((keys key).2 (Or.inl bound))

theorem Applies.split {ys : List ScopedExtension} (applies : Applies e t (xs ++ ys) made final) :
    ∃ middle before after, Applies e t xs before middle ∧ Applies e middle ys after final := by
  induction xs generalizing t made with
  | nil => exact ⟨t, [], made, .done t, applies⟩
  | cons x rest induction =>
    cases applies with
    | skip found later =>
      obtain ⟨middle, before, after, first, second⟩ := induction later
      exact ⟨middle, before, after, .skip found first, second⟩
    | make found later =>
      obtain ⟨middle, before, after, first, second⟩ := induction later
      exact ⟨middle, _, after, .make found first, second⟩

theorem Applies.mono {other last : Tracing} {others : List Extension}
    (applies : Applies e t xs made final) (again : Applies e other xs others last)
    (more : ∀ key, t.Binds key → other.Binds key) : final.Binds key → last.Binds key := by
  induction xs generalizing t other made others with
  | nil =>
    cases applies
    cases again
    exact more key
  | cons x rest induction =>
    obtain ⟨next, later, first, keys⟩ := applies.step
    obtain ⟨nextOther, laterOther, second, keysOther⟩ := again.step
    refine induction first second fun key bound => (keysOther key).2 ?_
    exact ((keys key).1 bound).imp (more key) fun ⟨supplied, about⟩ =>
      ⟨supplied.mono more, about⟩

/-- A key that no extension names is bound by an alias that runs towards it. -/
theorem Applies.alias_of_unnamed (applies : Applies e t xs made final) (bound : final.Binds key)
    (absent : ¬ t.Binds key) (unnamed : ∀ x ∈ xs, x.name ≠ key) :
    ∃ x ∈ xs, x.visible = none ∧ x.value = .var key := by
  induction xs generalizing t made with
  | nil =>
    cases applies
    exact absurd bound absent
  | cons x rest induction =>
    rw [List.forall_mem_cons] at unnamed
    obtain ⟨next, later, others, keys⟩ := applies.step
    by_cases here : next.Binds key
    · obtain ⟨supplied, about⟩ := ((keys key).1 here).resolve_left absent
      refine ⟨x, List.mem_cons_self, ?_⟩
      obtain ⟨name, value, visible⟩ := x
      cases value with
      | var source =>
        obtain rfl : key = source := by
          simpa [ScopedExtension.keys, Ne.symm unnamed.1] using about
        cases visible with
        | none => exact ⟨rfl, rfl⟩
        | some visible => exact absurd supplied.1 absent
      | _ => simp [ScopedExtension.keys, Ne.symm unnamed.1] at about
    · obtain ⟨y, member, linked⟩ := induction others here unnamed.2
      exact ⟨y, List.mem_cons_of_mem _ member, linked⟩

/-- An extension that leaves its name unbound is a copy of a variable. -/
theorem Applies.copies_of_unbound (applies : Applies e t xs made final) (member : x ∈ xs)
    (unbound : ¬ final.Binds x.name) :
    ∃ source visible, x.value = .var source ∧ x.visible = some visible := by
  induction xs generalizing t made with
  | nil => cases member
  | cons first rest induction =>
    obtain ⟨next, later, others, keys⟩ := applies.step
    rcases List.mem_cons.1 member with rfl | member
    · have missing : ¬ x.Supplied t.Binds := by
        refine fun supplied => unbound (others.keeps ((keys x.name).2 (Or.inr ⟨supplied, ?_⟩)))
        cases value : x.value <;> simp [ScopedExtension.keys, value]
      exact ScopedExtension.copies_of_not_supplied missing
    · exact induction others member

end Extensions

end Tracing

/-! ## Fragments inside others -/

namespace Fragment

/-- The patterns and the extensions of a fragment stand together in those of another. -/
structure Inside (f whole : Fragment) : Prop where
  patterns : f.patterns <:+: whole.patterns
  extensions : f.extensions <:+: whole.extensions

variable {f g whole : Fragment}

theorem Inside.trans (first : f.Inside g) (second : g.Inside whole) : f.Inside whole :=
  ⟨first.patterns.trans second.patterns, first.extensions.trans second.extensions⟩

theorem inside_refl (f : Fragment) : f.Inside f := ⟨List.infix_rfl, List.infix_rfl⟩

theorem inside_paired_left (width i j : Nat) (a b : Fragment) :
    a.Inside (paired width i j a b) :=
  ⟨(List.prefix_append _ _).isInfix, (List.prefix_append _ _).isInfix⟩

theorem inside_paired_right (width i j : Nat) (a b : Fragment) :
    b.Inside (paired width i j a b) :=
  ⟨(List.suffix_append _ _).isInfix, (List.suffix_append _ _).isInfix⟩

theorem inside_withExtension (pathAlias : Bool) (name : String) (value : Expr) (f : Fragment) :
    f.Inside (f.withExtension pathAlias name value) :=
  ⟨List.infix_rfl, (List.prefix_append _ _).isInfix⟩

/-- What the branch of a fragment binds, the branch of a fragment around it binds. -/
theorem Inside.bound_mono {e : Encoder} (inside : f.Inside whole) {b c : Branch}
    {start final startWhole finalWhole : Tracing} (part : c.Applies e f start final)
    (around : b.Applies e whole startWhole finalWhole) {key : String}
    (bound : c.bound.contains key = true) : b.bound.contains key = true := by
  rw [part.bound] at bound
  rw [around.bound]
  obtain ⟨before, after, same⟩ := inside.extensions
  have applies := around.extensions
  rw [← same, List.append_assoc] at applies
  obtain ⟨middle, _, _, first, others⟩ := applies.split
  obtain ⟨last, _, _, second, rest⟩ := others.split
  refine rest.keeps (part.extensions.mono second (fun key here => first.keeps ?_) bound)
  obtain ⟨p, member, keyed⟩ := (Tracing.isSome_ofPatterns part.traced key).1 here
  exact (Tracing.isSome_ofPatterns around.traced key).2
    ⟨p, inside.patterns.subset member, keyed⟩

/-! ## Keys of the two kinds -/

/-- A key that a fragment has only as the far end of paths of length zero. -/
structure FarEnd (f : Fragment) (key : String) : Prop where
  linked : ∃ x ∈ f.extensions, x.visible = none ∧ x.value = .var key
  unmatched : ∀ p ∈ f.patterns, key ∉ p.keys
  unnamed : ∀ x ∈ f.extensions, x.name ≠ key

def Copies (f : Fragment) (key : String) : Prop :=
  ∃ x ∈ f.extensions, x.name = key ∧
    ∃ source visible, x.value = .var source ∧ x.visible = some visible

theorem contains_keys_iff_placed {key : String} : f.keys.contains key = true ↔
    (∃ p ∈ f.patterns, key ∈ p.keys) ∨ ∃ x ∈ f.extensions, x.name = key := by
  rw [keys, KeySet.contains_ofKeys, List.contains_iff_mem, List.mem_append, List.mem_flatMap,
    List.mem_map]

/-- The keys at a place of binding are those that the branch binds by itself, but for far ends of
paths, and copies of variables that are not bound. -/
theorem keys_iff_bound {e : Encoder} {c : Branch} {start final : Tracing}
    (part : c.Applies e f start final) {key : String} : f.keys.contains key = true ↔
      (c.bound.contains key = true ∧ ¬ f.FarEnd key) ∨
        (c.bound.contains key = false ∧ f.Copies key) := by
  rw [contains_keys_iff_placed, part.bound]
  have matched : start.Binds key ↔ ∃ p ∈ f.patterns, key ∈ p.keys :=
    Tracing.isSome_ofPatterns part.traced key
  constructor
  · intro placed
    by_cases bound : final.Binds key
    · refine Or.inl ⟨bound, fun far => ?_⟩
      rcases placed with ⟨p, member, keyed⟩ | ⟨x, member, named⟩
      · exact far.unmatched p member keyed
      · exact far.unnamed x member named
    · refine Or.inr ⟨Bool.eq_false_iff.2 bound, ?_⟩
      rcases placed with matching | ⟨x, member, rfl⟩
      · exact absurd (part.extensions.keeps (matched.2 matching)) bound
      · exact ⟨x, member, rfl, part.extensions.copies_of_unbound member bound⟩
  · rintro (⟨bound, near⟩ | ⟨_, x, member, named, _⟩)
    · by_contra placed
      rw [not_or] at placed
      have unnamed : ∀ x ∈ f.extensions, x.name ≠ key := fun x member named =>
        placed.2 ⟨x, member, named⟩
      exact near ⟨part.extensions.alias_of_unnamed bound (matched.not.2 placed.1) unnamed,
        fun p member keyed => placed.1 ⟨p, member, keyed⟩, unnamed⟩
    · exact Or.inr ⟨x, member, named⟩

end Fragment

/-! ## Parts of an algebra -/

namespace Algebra

mutual

/-- A part stands in an algebra whose filters are numbered from a number on; those of the part are
numbered from `first` on. -/
inductive Stands (part : Algebra) (first : Nat) : Nat → Algebra → Prop
  | here : Stands part first first part
  | left {n : Nat} {left : Algebra} (right : Algebra) (stands : Stands part first n left) :
      Stands part first n (.join left right)
  | right {n m : Nat} {left right : Algebra} {lefts : List Fragment}
    (before : Fragment.ofAlgebra n left = .ok (lefts, m)) (stands : Stands part first m right) :
      Stands part first n (.join left right)
  | union {n : Nat} (kind : UnionKind) {branches : List Algebra}
    (stands : StandsAmong part first n branches) : Stands part first n (.union kind branches)
  | filter {n : Nat} (condition : Expr) {inner : Algebra} (stands : Stands part first n inner) :
      Stands part first n (.filter condition inner)
  | extend {n : Nat} (pathAlias : Bool) (name : String) (value : Expr) {inner : Algebra}
    (stands : Stands part first n inner) :
      Stands part first n (.extend pathAlias name value inner)

inductive StandsAmong (part : Algebra) (first : Nat) : Nat → List Algebra → Prop
  | head {n : Nat} {branch : Algebra} (rest : List Algebra) (stands : Stands part first n branch) :
      StandsAmong part first n (branch :: rest)
  | tail {n m : Nat} {branch : Algebra} {rest : List Algebra} {fragments : List Fragment}
    (before : Fragment.ofAlgebra n branch = .ok (fragments, m))
    (stands : StandsAmong part first m rest) : StandsAmong part first n (branch :: rest)

end

def HasPart (part : Algebra) (first n m : Nat) (fragments : List Fragment) : Prop :=
  ∃ parts last, Fragment.ofAlgebra first part = .ok (parts, last) ∧ n ≤ first ∧ last ≤ m ∧
    ∀ whole ∈ fragments, ∀ x ∈ whole.filters, first ≤ x.number → x.number < last →
      ∃ f ∈ parts, x ∈ f.filters ∧ f.Inside whole

section Parts

variable {part inner : Algebra} {first n m k : Nat} {fragments others : List Fragment}

theorem scopes_of_folds {a : Algebra} (folded : Fragment.ofAlgebra n a = .ok (fragments, m)) :
    n ≤ m ∧ ∀ f ∈ fragments, f.Scopes n m :=
  Fragment.closed_scopes.ofAlgebra a folded

/-- Fragments made from those that have a part, without more filters of numbers that the part may
have. -/
theorem HasPart.of_inside (has : HasPart part first n m fragments) (lower : k ≤ n)
    {high : Nat} (upper : m ≤ high) (made : ∀ whole ∈ others, ∀ x ∈ whole.filters,
      n ≤ x.number → x.number < m → ∃ f ∈ fragments, x ∈ f.filters ∧ f.Inside whole) :
    HasPart part first k high others := by
  obtain ⟨parts, last, folded, low, top, inside⟩ := has
  refine ⟨parts, last, folded, lower.trans low, top.trans upper, fun whole member x filter => ?_⟩
  intro above below
  obtain ⟨f, here, kept, within⟩ := made whole member x filter (low.trans above)
    (below.trans_le top)
  obtain ⟨g, there, listed, deeper⟩ := inside f here x kept above below
  exact ⟨g, there, listed, deeper.trans within⟩

theorem HasPart.left {lefts rights : List Fragment} {right : Algebra}
    (has : HasPart part first n m lefts) (folded : Fragment.ofAlgebra m right = .ok (rights, k)) :
    HasPart part first n k (Fragment.product lefts rights) := by
  obtain ⟨order, scopes⟩ := scopes_of_folds folded
  refine has.of_inside le_rfl order fun whole member x filter _ below => ?_
  obtain ⟨i, j, a, b, here, there, rfl⟩ := Fragment.mem_product.1 member
  rcases List.mem_append.1 filter with filter | filter
  · exact ⟨a, List.mem_of_getElem? here, filter, Fragment.inside_paired_left ..⟩
  · have numbered := (scopes b (List.mem_of_getElem? there)).numbered x filter
    omega

theorem HasPart.right {lefts rights : List Fragment} {left : Algebra}
    (has : HasPart part first m k rights) (folded : Fragment.ofAlgebra n left = .ok (lefts, m)) :
    HasPart part first n k (Fragment.product lefts rights) := by
  obtain ⟨order, scopes⟩ := scopes_of_folds folded
  refine has.of_inside order le_rfl fun whole member x filter above _ => ?_
  obtain ⟨i, j, a, b, here, there, rfl⟩ := Fragment.mem_product.1 member
  rcases List.mem_append.1 filter with filter | filter
  · have numbered := (scopes a (List.mem_of_getElem? here)).numbered x filter
    omega
  · exact ⟨b, List.mem_of_getElem? there, filter, Fragment.inside_paired_right ..⟩

theorem HasPart.union {lists : List (List Fragment)} (has : HasPart part first n m lists.flatten)
    (kind : UnionKind) : HasPart part first n m (Fragment.united kind lists) := by
  refine has.of_inside le_rfl le_rfl fun whole member x filter _ _ => ?_
  obtain ⟨list, inside, g, here, same⟩ := Fragment.mem_united member
  refine ⟨g, List.mem_flatten.2 ⟨list, inside, here⟩, ?_⟩
  rw [same] at filter ⊢
  exact ⟨filter, List.infix_rfl, List.infix_rfl⟩

theorem HasPart.filter (has : HasPart part first n m fragments) (condition : Expr) :
    HasPart part first n (m + 1) (fragments.map (Fragment.withFilter m condition)) := by
  refine has.of_inside le_rfl (Nat.le_succ m) fun whole member x filter _ below => ?_
  obtain ⟨g, inside, rfl⟩ := List.mem_map.1 member
  rcases List.mem_append.1 filter with before | last
  · exact ⟨g, inside, before, List.infix_rfl, List.infix_rfl⟩
  · rw [List.mem_singleton.1 last] at below
    exact absurd below (lt_irrefl m)

theorem HasPart.extend (has : HasPart part first n m fragments) (pathAlias : Bool) (name : String)
    (value : Expr) : HasPart part first n m
      (fragments.map (Fragment.withExtension pathAlias name value)) := by
  refine has.of_inside le_rfl le_rfl fun whole member x filter _ _ => ?_
  obtain ⟨g, inside, rfl⟩ := List.mem_map.1 member
  exact ⟨g, inside, filter, Fragment.inside_withExtension ..⟩

theorem HasPart.head {lists : List (List Fragment)} {rest : List Algebra}
    (has : HasPart part first n m fragments)
    (folded : Fragment.ofBranches m rest = .ok (lists, k)) :
    HasPart part first n k (fragments :: lists).flatten := by
  obtain ⟨order, scopes⟩ := (Fragment.closed_scopes.ofBranches rest folded).scopes
  refine has.of_inside le_rfl order fun whole member x filter _ below => ?_
  rcases List.mem_append.1 (List.flatten_cons ▸ member) with here | there
  · exact ⟨whole, here, filter, Fragment.inside_refl whole⟩
  · obtain ⟨list, listed, inside⟩ := List.mem_flatten.1 there
    have numbered := (scopes list listed whole inside).numbered x filter
    omega

theorem HasPart.tail {lists : List (List Fragment)} {branch : Algebra}
    (has : HasPart part first m k lists.flatten)
    (folded : Fragment.ofAlgebra n branch = .ok (fragments, m)) :
    HasPart part first n k (fragments :: lists).flatten := by
  obtain ⟨order, scopes⟩ := scopes_of_folds folded
  refine has.of_inside order le_rfl fun whole member x filter above _ => ?_
  rcases List.mem_append.1 (List.flatten_cons ▸ member) with here | there
  · have numbered := (scopes whole here).numbered x filter
    omega
  · exact ⟨whole, there, filter, Fragment.inside_refl whole⟩

mutual

theorem Stands.hasPart : {n m : Nat} → {a : Algebra} → {fragments : List Fragment} →
    Stands part first n a → Fragment.ofAlgebra n a = .ok (fragments, m) →
      HasPart part first n m fragments
  | _, _, _, _, .here, folded =>
    ⟨_, _, folded, le_rfl, le_rfl, fun whole member _ filter _ _ =>
      ⟨whole, member, filter, Fragment.inside_refl whole⟩⟩
  | _, _, _, _, .left right stands, folded => by
    obtain ⟨lefts, _, rights, before, after, rfl⟩ := Fragment.folds_of_join folded
    exact (stands.hasPart before).left after
  | _, _, _, _, .right numbered stands, folded => by
    obtain ⟨lefts, _, rights, before, after, rfl⟩ := Fragment.folds_of_join folded
    obtain ⟨rfl, rfl⟩ := Prod.mk.inj (Except.ok.inj (before.symm.trans numbered))
    exact (stands.hasPart after).right before
  | _, _, _, _, .union kind stands, folded => by
    obtain ⟨lists, made, rfl⟩ := Fragment.folds_of_union folded
    exact (stands.hasPart made).union kind
  | _, _, _, _, .filter condition stands, folded => by
    obtain ⟨fragments, _, made, rfl, rfl⟩ := Fragment.folds_of_filter folded
    exact (stands.hasPart made).filter condition
  | _, _, _, _, .extend pathAlias name value stands, folded => by
    obtain ⟨fragments, made, rfl⟩ := Fragment.folds_of_extend folded
    exact (stands.hasPart made).extend pathAlias name value

theorem StandsAmong.hasPart : {n m : Nat} → {branches : List Algebra} →
    {lists : List (List Fragment)} → StandsAmong part first n branches →
      Fragment.ofBranches n branches = .ok (lists, m) → HasPart part first n m lists.flatten
  | _, _, _, _, .head rest stands, folded => by
    obtain ⟨fragments, _, lists, here, later, rfl⟩ := Fragment.folds_of_cons folded
    exact (stands.hasPart here).head later
  | _, _, _, _, .tail numbered stands, folded => by
    obtain ⟨fragments, _, lists, here, later, rfl⟩ := Fragment.folds_of_cons folded
    obtain ⟨rfl, rfl⟩ := Prod.mk.inj (Except.ok.inj (here.symm.trans numbered))
    exact (stands.hasPart later).tail here

end

/-- A filter that stands in an algebra is in the fragments of the whole around those of the group
under it, whose keys it may read. -/
theorem Stands.filter_inside {condition : Expr} {whole : Algebra} {count : Nat}
    {groups : List Fragment} (stands : (Algebra.filter condition inner).Stands first n whole)
    (folded : Fragment.ofAlgebra n whole = .ok (fragments, m))
    (group : Fragment.ofAlgebra 0 inner = .ok (groups, count)) {around : Fragment}
    (member : around ∈ fragments) {x : ScopedFilter} (filter : x ∈ around.filters)
    (number : x.number = first + count) :
    ∃ f ∈ groups, x = ⟨first + count, condition, f.keys⟩ ∧ f.Inside around := by
  have later : Fragment.ofAlgebra first inner =
      .ok (groups.map (Fragment.renumbered first), count + first) := by
    simpa using (Fragment.closed_renumbered first).ofAlgebra inner group
  obtain ⟨parts, last, made, lower, upper, inside⟩ := stands.hasPart folded
  obtain ⟨_, _, again, rfl, rfl⟩ := Fragment.folds_of_filter made
  obtain ⟨rfl, rfl⟩ := Prod.mk.inj (Except.ok.inj (later.symm.trans again))
  obtain ⟨g, listed, kept, within⟩ := inside around member x filter (by omega) (by omega)
  simp only [List.mem_map] at listed
  obtain ⟨_, ⟨f, here, rfl⟩, rfl⟩ := listed
  refine ⟨f, here, ?_, within.patterns, within.extensions⟩
  -- The filters below have smaller numbers, so that the filter is the last one.
  rcases List.mem_append.1 kept with before | last
  · have scopes := (scopes_of_folds later).2 _ (List.mem_map_of_mem here)
    have numbered := (scopes.numbered x before).2
    omega
  · rw [List.mem_singleton.1 last, Nat.add_comm first]
    rfl

end Parts

end Algebra

/-! ## Filters and the branches of their groups -/

def NumberedFilter.CompiledIn (s : Surroundings) (condition : Expr) (filter : NumberedFilter) :
    Prop :=
  ∃ before after c, s.condition condition before = .ok (c, after) ∧ filter.assertion = c.holds

theorem Branch.ofFragment_filters {e : Encoder} {projected : List String} {f : Fragment}
    {b : Branch} {before after : List Hint}
    (compiled : Branch.ofFragment e projected f before = .ok (b, after)) {filter : NumberedFilter}
    (member : filter ∈ b.filters) : ∃ x ∈ f.filters, ∃ t : Tracing, filter.number = x.number ∧
      filter.CompiledIn (t.surroundings e projected x.visible) x.condition ∧
        ∀ key, (t.sources.get? key).isSome = b.bound.contains key := by
  obtain ⟨t, linked, traces, filtered⟩ := Branch.ofFragment_traces compiled
  obtain ⟨i, inside, rfl⟩ := List.getElem_of_mem member
  have each := run_mapM_each filtered
  have short : i < f.filters.length := by rw [each.length_eq]; exact inside
  obtain ⟨first, last, made⟩ := each.get short inside
  obtain ⟨c, middle, ran, made⟩ := run_bind_ok_iff.1 made
  obtain ⟨same, rfl⟩ := run_pure_ok_iff.1 made
  refine ⟨f.filters[i], List.getElem_mem short, t, ?_, ⟨first, middle, c, ran, ?_⟩, fun key => ?_⟩
  · exact congrArg NumberedFilter.number same.symm
  · exact congrArg NumberedFilter.assertion same.symm
  · rw [traces.bound, KeySet.contains_ofKeys, List.contains_eq_mem, Bool.eq_iff_iff,
      decide_eq_true_iff, KeyMap.mem_keys_iff]

theorem Program.Compiles.applies {config : Config} {query : NormalQuery} {p : Program}
    {fragments : List Fragment} (compiles : p.Compiles config query fragments) {j : Nat}
    {f : Fragment} (fragment : fragments[j]? = some f) :
    ∃ b, p.branches[j]? = some b ∧ ∃ before after,
      Branch.ofFragment config.encoder query.projected f before = .ok (b, after) := by
  have each := run_mapM_each compiles.branches
  obtain ⟨short, rfl⟩ := List.getElem?_eq_some_iff.1 fragment
  have inside : j < p.branches.length := by rw [← each.length_eq]; exact short
  exact ⟨_, List.getElem?_eq_getElem inside, each.get short inside⟩

theorem Surroundings.isSome_keyWire (s : Surroundings) (key : String) :
    (s.keyWire? key).isSome =
      (s.visible.contains key && (s.sources.get? key).isSome) := by
  rw [keyWire?]
  cases s.visible.contains key <;> simp

/-- A filter of a branch reads what the branch of its group binds when compiled alone: not the far
ends of paths of length zero, and beside the others those that the group copies from an unbound
variable where the branch of the filter binds them. A key that the filter does not read is an
error, and a test that it is bound is false. -/
structure NumberedFilter.ReadsGroup (filter : NumberedFilter) (condition : Expr) (b c : Branch)
    (f : Fragment) (s : Surroundings) : Prop where
  inside : c.patterns <:+: b.patterns
  compiled : filter.CompiledIn s condition
  bound : ∀ key, (s.sources.get? key).isSome = b.bound.contains key
  tests : ∀ key hints, s.condition (.bound key) hints =
    .ok (.ofBool (s.keyWire? key).isSome, hints)
  unread : ∀ key hints, s.keyWire? key = none → s.value (.var key) hints = .ok (.error, hints)
  reads : ∀ key, (s.keyWire? key).isSome = true ↔
    (c.bound.contains key = true ∧ ¬ f.FarEnd key) ∨
      (c.bound.contains key = false ∧ f.Copies key ∧ b.bound.contains key = true)

/-- A filter, wherever it stands in a query, reads in every branch what the corresponding branch of
the group under it binds when the group is compiled alone, but for the two kinds of keys. -/
theorem filter_reads_keys_of_group (config : Config) (query group : NormalQuery) (p q : Program)
    (condition : Expr) (first count : Nat) (groups : List Fragment)
    (compiled : Program.ofNormal config query = .ok p)
    (alone : Program.ofNormal config group = .ok q)
    (folded : Fragment.ofAlgebra 0 (Program.bodyOf group.algebra) = .ok (groups, count))
    (stands : (Algebra.filter condition (Program.bodyOf group.algebra)).Stands first 0
      (Program.bodyOf query.algebra)) :
    ∀ b ∈ p.branches, ∀ filter ∈ b.filters, filter.number = first + count →
      ∃ (j : Nat) (f : Fragment) (c : Branch) (s : Surroundings), groups[j]? = some f ∧
        q.branches[j]? = some c ∧ s.encoder = config.encoder ∧ s.projected = query.projected ∧
        filter.ReadsGroup condition b c f s := by
  intro b member filter listed number
  obtain ⟨fragments, compiles⟩ := Program.ofNormal_ok compiled
  obtain ⟨others, compilesAlone⟩ := Program.ofNormal_ok alone
  obtain ⟨next, whole⟩ := compiles.folded
  obtain ⟨_, again⟩ := compilesAlone.folded
  obtain ⟨rfl, rfl⟩ := Prod.mk.inj (Except.ok.inj (folded.symm.trans again))
  obtain ⟨i, branch⟩ := List.mem_iff_getElem?.1 member
  obtain ⟨around, fragment⟩ : ∃ around, fragments[i]? = some around := by
    have long := (run_mapM_each compiles.branches).length_eq
    exact ⟨_, List.getElem?_eq_getElem (long ▸ (List.getElem?_eq_some_iff.1 branch).1)⟩
  obtain ⟨_, found, before, after, made⟩ := compiles.applies fragment
  obtain rfl := Option.some.inj (branch.symm.trans found)
  obtain ⟨x, filtered, t, numbered, ran, bound⟩ := Branch.ofFragment_filters made listed
  obtain ⟨f, inGroup, rfl, inside⟩ := stands.filter_inside whole folded
    (List.mem_of_getElem? fragment) filtered (numbered.symm.trans number)
  obtain ⟨j, place⟩ := List.mem_iff_getElem?.1 inGroup
  obtain ⟨c, here, _, _, madeAlone⟩ := compilesAlone.applies place
  obtain ⟨start, final, part⟩ := Branch.ofFragment_applies madeAlone
  obtain ⟨startWhole, finalWhole, applies⟩ := Branch.ofFragment_applies made
  refine ⟨j, f, c, _, place, here, rfl, rfl, ?_, ran, bound, fun _ _ => rfl, ?_, fun key => ?_⟩
  · rw [part.patterns, applies.patterns]
    exact inside.patterns
  · intro key hints absent
    rw [Surroundings.value, absent]
    rfl
  · have reads : (((t.surroundings config.encoder query.projected f.keys).keyWire? key).isSome =
        true) ↔ f.keys.contains key = true ∧ b.bound.contains key = true := by
      rw [Surroundings.isSome_keyWire, Bool.and_eq_true, ← bound]
      rfl
    have more : c.bound.contains key = true → b.bound.contains key = true :=
      inside.bound_mono part applies
    rw [Fragment.keys_iff_bound part] at reads
    refine reads.trans ⟨?_, ?_⟩
    · rintro ⟨own | copied, whole⟩
      · exact Or.inl own
      · exact Or.inr ⟨copied.1, copied.2, whole⟩
    · rintro (own | ⟨unbound, copied, whole⟩)
      · exact ⟨Or.inl own, more own.1⟩
      · exact ⟨Or.inr ⟨unbound, copied⟩, whole⟩

/-! ## The far end of a path -/

/-- A path of at most one step that ends at a subject of the pattern before it. -/
def linkedGroup : NormalQuery :=
  (Algebra.join (.bgp [⟨.var "c", .const (.iri "http://e/p"), .var "t", none⟩])
    (.union .plain [.bgp [⟨.var "x", .const (.iri "http://e/q"), .var "c", none⟩],
      .extend true "c" (.var "x") .empty])).query

def linkedQuery : NormalQuery :=
  (Algebra.filter (.bound "x") (Program.bodyOf linkedGroup.algebra)).query

set_option maxRecDepth 100000 in
theorem linked_compiles : (∃ p, Program.ofNormal sampleConfig linkedQuery = .ok p) ∧
    ∃ q, Program.ofNormal sampleConfig linkedGroup = .ok q :=
  ⟨exists_ok_of_isOk (by decide +kernel), exists_ok_of_isOk (by decide +kernel)⟩

theorem filter_reads_keys_of_group_sample : ∃ p q groups,
    Program.ofNormal sampleConfig linkedQuery = .ok p ∧
    Program.ofNormal sampleConfig linkedGroup = .ok q ∧
    Fragment.ofAlgebra 0 (Program.bodyOf linkedGroup.algebra) = .ok (groups, 0) ∧
    (Algebra.filter (.bound "x") (Program.bodyOf linkedGroup.algebra)).Stands 0 0
      (Program.bodyOf linkedQuery.algebra) ∧
    ∀ b ∈ p.branches, ∀ filter ∈ b.filters, filter.number = 0 →
      ∃ (j : Nat) (f : Fragment) (c : Branch) (s : Surroundings), groups[j]? = some f ∧
        q.branches[j]? = some c ∧ filter.ReadsGroup (.bound "x") b c f s := by
  obtain ⟨⟨p, compiled⟩, q, alone⟩ := linked_compiles
  have stands : (Algebra.filter (.bound "x") (Program.bodyOf linkedGroup.algebra)).Stands 0 0
      (Program.bodyOf linkedQuery.algebra) := .here
  refine ⟨p, q, _, compiled, alone, rfl, stands, fun b member filter listed number => ?_⟩
  obtain ⟨j, f, c, s, group, branch, _, _, reads⟩ := filter_reads_keys_of_group sampleConfig
    linkedQuery linkedGroup p q (.bound "x") 0 0 _ compiled alone rfl stands b member filter listed
    number
  exact ⟨j, f, c, s, group, branch, reads⟩

def linkedGroupText : String := "SELECT * WHERE \x7b ?c <http://e/p> ?t . ?x <http://e/q>? ?c \x7d"

def linkedText : String :=
  "SELECT * WHERE \x7b ?c <http://e/p> ?t . ?x <http://e/q>? ?c FILTER(BOUND(?x)) \x7d"

def linkedPattern : Pattern := ⟨.var "c", .const (.iri "http://e/p"), .var "t", none⟩

/-- The branch of the path of length zero, and the assertion of its filter. -/
def linkedTest (p : Program) : Bool :=
  p.branches[1]?.any fun b => decide (b.patterns = [linkedPattern]) && match b.filters with
    | [⟨number, .false⟩] => number == 0
    | _ => false

def linkedGroupTest (q : Program) : Bool :=
  q.branches[1]?.any fun c => decide (c.patterns = [linkedPattern]) && c.bound.contains "x"

set_option maxRecDepth 100000 in
theorem linked_tested :
    (Program.compile sampleConfig linkedText).toOption.any linkedTest = true ∧
    (Program.compile sampleConfig linkedGroupText).toOption.any linkedGroupTest = true := by
  decide +kernel

/-- The group of a filter binds the far end of a path of length zero, and the test that it is bound
is compiled to what never holds. -/
theorem far_end_reads_unbound : ∃ p q b c, Program.compile sampleConfig linkedText = .ok p ∧
    Program.compile sampleConfig linkedGroupText = .ok q ∧ p.branches[1]? = some b ∧
    q.branches[1]? = some c ∧ c.patterns = b.patterns ∧ c.bound.contains "x" = true ∧
    b.filters = [⟨0, .false⟩] := by
  obtain ⟨p, compiled, test⟩ := exists_ok_of_any linked_tested.1
  obtain ⟨q, alone, testGroup⟩ := exists_ok_of_any linked_tested.2
  simp only [linkedTest, Option.any_eq_true, Bool.and_eq_true, decide_eq_true_eq] at test
  simp only [linkedGroupTest, Option.any_eq_true, Bool.and_eq_true, decide_eq_true_eq] at testGroup
  obtain ⟨b, branch, patterns, tested⟩ := test
  obtain ⟨c, other, patternsGroup, bound⟩ := testGroup
  refine ⟨p, q, b, c, compiled, alone, branch, other, patternsGroup.trans patterns.symm, bound, ?_⟩
  split at tested
  next number same => rw [same, beq_iff_eq.1 tested]
  next => cases tested

end AttestedQuery
