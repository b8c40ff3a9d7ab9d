import AttestedQuery.Proofs.BoundRows

/-!
# Keys that an algebra certainly binds

The keys that every solution of an algebra binds are told from the algebra alone. The branches have
all of them at a place of binding, and bind them with one exception: the target of a BIND counts as
bound, and a BIND of a variable that is not bound when its turn comes does nothing. Where each BIND
copies a variable that its group certainly binds, every branch binds all these keys, and so does
every row of it.
-/

set_option autoImplicit false

namespace AttestedQuery

/-! ## Keys that no extension binds -/

namespace ScopedExtension

variable {bound : String → Prop} {x : ScopedExtension} {xs : List ScopedExtension} {key : String}

theorem name_mem_keys (x : ScopedExtension) : x.name ∈ x.keys := by
  rw [keys]
  split <;> simp

/-- Both ends of a path of length zero are bound after it. -/
theorem supplied_of_alias (linked : x.visible = none) : x.Supplied bound := by
  by_contra missing
  obtain ⟨_, _, _, shown⟩ := copies_of_not_supplied missing
  rw [linked] at shown
  cases shown

/-- The keys of an extension that has a value when its turn comes are bound in the end. -/
theorem afterAll_of_supplied {before after : List ScopedExtension}
    (supplied : x.Supplied (afterAll bound before)) (about : key ∈ x.keys) :
    afterAll bound (before ++ x :: after) key := by
  rw [afterAll_append, afterAll_cons]
  exact afterAll_keeps (Or.inr ⟨supplied, about⟩)

/-- A key stays unbound where it is no end of a path of length zero, and no extension that names it
has a value when its turn comes. -/
theorem not_afterAll (unbound : ¬ bound key)
    (unlinked : ∀ x ∈ xs, x.visible = none → key ∉ x.keys)
    (empty : ∀ before x after, xs = before ++ x :: after → x.name = key →
      ¬ x.Supplied (afterAll bound before)) : ¬ afterAll bound xs key := by
  induction xs generalizing bound with
  | nil => exact unbound
  | cons x rest induction =>
    rw [List.forall_mem_cons] at unlinked
    refine induction ?_ unlinked.2 fun before y after split named => ?_
    · rintro (here | ⟨supplied, about⟩)
      · exact unbound here
      by_cases named : x.name = key
      · exact empty [] x rest rfl named supplied
      -- Otherwise the key is the variable that the extension reads.
      obtain ⟨name, value, visible⟩ := x
      cases value with
      | var source =>
        obtain rfl : key = source := by simpa [keys, Ne.symm named] using about
        cases visible with
        | none => exact unlinked.1 rfl about
        | some visible => exact unbound supplied.1
      | _ => simp [keys, Ne.symm named] at about
    · exact empty (x :: before) y after (by rw [split]; rfl) named

end ScopedExtension

namespace Fragment

open ScopedExtension

variable {f : Fragment} {key : String}

/-- A key that a fragment has only as the target of copies of variables, none of which has a value
when its turn comes: the variable is not bound then, or not by the group that is extended. -/
structure EmptyTarget (f : Fragment) (key : String) : Prop where
  named : ∃ x ∈ f.extensions, x.name = key
  unmatched : ∀ p ∈ f.patterns, key ∉ p.keys
  unlinked : ∀ x ∈ f.extensions, x.visible = none → key ∉ x.keys
  empty : ∀ before x after, f.extensions = before ++ x :: after → x.name = key →
    ∃ source visible, x.value = .var source ∧ x.visible = some visible ∧
      ¬ (afterAll f.Matched before source ∧ visible.contains source = true)

/-- A key at a place of binding is bound unless it is the target of empty copies. -/
theorem not_binds_iff (placed : f.keys.contains key = true) :
    ¬ f.Binds key ↔ f.EmptyTarget key := by
  constructor
  · intro unbound
    have unmatched : ¬ f.Matched key := fun matched => unbound (afterAll_keeps matched)
    refine ⟨(contains_keys_iff_placed.1 placed).resolve_left unmatched,
      fun p member keyed => unmatched ⟨p, member, keyed⟩, fun x member linked about => ?_,
      fun before x after split named => ?_⟩
    · obtain ⟨before, after, split⟩ := List.append_of_mem member
      exact unbound (by
        rw [Binds, split]
        exact afterAll_of_supplied (supplied_of_alias linked) about)
    · have missing : ¬ x.Supplied (afterAll f.Matched before) := fun supplied => unbound (by
        rw [Binds, split]
        exact afterAll_of_supplied supplied (named ▸ x.name_mem_keys))
      obtain ⟨source, visible, value, shown⟩ := copies_of_not_supplied missing
      refine ⟨source, visible, value, shown, ?_⟩
      rwa [Supplied, value, shown] at missing
  · rintro ⟨_, unmatched, unlinked, empty⟩
    have free : ¬ f.Matched key := by
      rintro ⟨p, member, keyed⟩
      exact unmatched p member keyed
    refine not_afterAll free unlinked fun before x after split named => ?_
    obtain ⟨source, visible, value, shown, missing⟩ := empty before x after split named
    rwa [Supplied, value, shown]

theorem contains_bound_iff {e : Encoder} {b : Branch} {start final : Tracing}
    (applies : b.Applies e f start final) : b.bound.contains key = true ↔ f.Binds key := by
  rw [applies.bound, Binds, ← binds_of_ofPatterns applies.traced, ← applies.extensions.binds]
  exact Iff.rfl

end Fragment

/-! ## Copies of variables that are certainly bound -/

namespace Algebra

/-- Each BIND of a variable copies one that its group certainly binds. -/
inductive CopiesCertain : Algebra → Prop
  | bgp (patterns : List Pattern) : CopiesCertain (.bgp patterns)
  | join {left right : Algebra} (first : CopiesCertain left) (second : CopiesCertain right) :
      CopiesCertain (.join left right)
  | union (kind : UnionKind) {branches : List Algebra}
    (each : ∀ branch ∈ branches, CopiesCertain branch) : CopiesCertain (.union kind branches)
  | filter (condition : Expr) {inner : Algebra} (copies : CopiesCertain inner) :
      CopiesCertain (.filter condition inner)
  | extend {pathAlias : Bool} {name : String} {value : Expr} {inner : Algebra}
    (copies : CopiesCertain inner) (certain : ∀ source, pathAlias = false → value = .var source →
      inner.certainlyBound.contains source = true) :
      CopiesCertain (.extend pathAlias name value inner)

/-- What a projection certainly binds, the part below it does. -/
theorem certainlyBound_bodyOf {a : Algebra} {key : String}
    (certain : a.certainlyBound.contains key = true) :
    (Program.bodyOf a).certainlyBound.contains key = true := by
  cases a with
  | project names inner =>
    rw [certainlyBound, KeySet.contains_ofKeys, List.contains_iff_mem, List.mem_filter] at certain
    exact certain.2
  | _ => exact certain

end Algebra

namespace Fragment

open ScopedExtension

theorem matched_paired_left {width i j : Nat} {a b : Fragment} {key : String}
    (matched : a.Matched key) : (paired width i j a b).Matched key :=
  matched.imp fun _ => And.imp_left (List.mem_append_left _)

theorem matched_paired_right {width i j : Nat} {a b : Fragment} {key : String}
    (matched : b.Matched key) : (paired width i j a b).Matched key :=
  matched.imp fun _ => And.imp_left (List.mem_append_right _)

/-- Where copies copy what is certainly bound, a fragment binds what is certainly bound, whatever
else is bound before. -/
def BindsCertain (a : Algebra) (f : Fragment) : Prop :=
  ∀ key, a.certainlyBound.contains key = true → ∀ bound : String → Prop,
    (∀ key, f.Matched key → bound key) → afterAll bound f.extensions key

theorem closed_binds_certain : Closed fun n a fragments m =>
    ofAlgebra n a = .ok (fragments, m) ∧ (a.CopiesCertain → ∀ f ∈ fragments, f.BindsCertain a) where
  bgp n patterns := by
    refine ⟨closed_folds.bgp n patterns, fun _ f member key certain bound matched => ?_⟩
    obtain rfl := List.mem_singleton.1 member
    rw [Algebra.certainlyBound, KeySet.contains_ofKeys, List.contains_iff_mem,
      List.mem_flatMap] at certain
    exact matched key certain
  join := by
    rintro n m k left right lefts rights ⟨foldedLeft, first⟩ ⟨foldedRight, second⟩
    refine ⟨closed_folds.join foldedLeft foldedRight, fun copies f member key certain bound
      matched => ?_⟩
    cases copies with
    | join copiesLeft copiesRight =>
      obtain ⟨i, j, a, b, here, there, rfl⟩ := mem_product.1 member
      rw [Algebra.certainlyBound, KeySet.contains_addAll, Bool.or_eq_true, List.contains_iff_mem,
        KeyMap.mem_keys_iff] at certain
      change afterAll bound (a.extensions ++ b.extensions) key
      rw [afterAll_append]
      rcases certain.symm with certain | certain
      · exact afterAll_keeps (first copiesLeft a (List.mem_of_getElem? here) key certain bound
          fun key keyed => matched key (matched_paired_left keyed))
      · exact second copiesRight b (List.mem_of_getElem? there) key certain _
          fun key keyed => afterAll_keeps (matched key (matched_paired_right keyed))
  union kind each := by
    refine ⟨closed_folds.union kind (each.imp fun _ _ _ _ => And.left),
      fun copies f member key certain bound matched => ?_⟩
    cases copies with
    | union _ copies =>
      obtain ⟨list, inside, g, here, same⟩ := mem_united member
      obtain ⟨branch, branched, _, _, _, holds⟩ := each.exists_branch inside
      rw [same] at matched ⊢
      exact holds (copies branch branched) g here key
        (Algebra.certainlyBound_of_union certain branched) bound matched
  filter := by
    rintro n m inner fragments condition ⟨folded, induction⟩
    refine ⟨closed_folds.filter condition folded, fun copies f member key certain bound
      matched => ?_⟩
    cases copies with
    | filter _ copies =>
      obtain ⟨g, inside, rfl⟩ := List.mem_map.1 member
      exact induction copies g inside key certain bound matched
  extend := by
    rintro n m inner fragments pathAlias name value ⟨folded, induction⟩
    refine ⟨closed_folds.extend pathAlias name value folded, fun copies f member key certain bound
      matched => ?_⟩
    cases copies with
    | extend copies source =>
      obtain ⟨g, inside, rfl⟩ := List.mem_map.1 member
      rw [Algebra.certainlyBound, KeySet.contains_add, Bool.or_eq_true, beq_iff_eq] at certain
      rcases certain.symm with certain | rfl
      · change afterAll bound (g.extensions ++ _) key
        rw [afterAll_append]
        exact afterAll_keeps (induction copies g inside key certain bound matched)
      -- The source is bound by the group, and the group has it at a place of binding.
      · refine afterAll_of_supplied ?_ (name_mem_keys _)
        by_contra missing
        obtain ⟨key, visible, rfl, shown⟩ := copies_of_not_supplied missing
        cases pathAlias with
        | true => cases shown
        | false =>
          have certain := source key rfl rfl
          exact missing ⟨induction copies g inside key certain bound matched,
            closed_certain.ofAlgebra inner folded key certain g inside⟩

end Fragment

/-- A key that a compiled algebra certainly binds is bound in every branch, except where the branch
has it only as the target of BINDs of variables that have no value when their turn comes; there it
is not bound. No branch is excepted if each BIND copies a variable that its group certainly binds.
The rows over any dataset bind the key where the branch does. -/
theorem certain_key_bound_unless_empty (config : Config) (query : NormalQuery) (p : Program)
    (compiled : Program.ofNormal config query = .ok p) : ∃ fragments next,
    Fragment.ofAlgebra 0 (Program.bodyOf query.algebra) = .ok (fragments, next) ∧
    ∀ (i : Nat) (b : Branch), p.branches[i]? = some b → ∃ f, fragments[i]? = some f ∧
      ∀ key, query.algebra.certainlyBound.contains key = true ∨
          (Program.bodyOf query.algebra).certainlyBound.contains key = true →
        (b.bound.contains key = true ↔ ¬ f.EmptyTarget key) ∧
        ((Program.bodyOf query.algebra).CopiesCertain → b.bound.contains key = true) ∧
        ∀ index e candidates, Candidate.ofBranch index e b = .ok candidates →
          ∀ c ∈ candidates, (c.row.get? key).isSome = b.bound.contains key := by
  obtain ⟨fragments, compiles⟩ := Program.ofNormal_ok compiled
  obtain ⟨next, folded⟩ := compiles.folded
  refine ⟨fragments, next, folded, fun i b branch => ?_⟩
  obtain ⟨f, _, _, fragment, comes⟩ := compiles.of_branch branch
  obtain ⟨start, final, applies⟩ := comes.applies
  have member := List.mem_of_getElem? fragment
  refine ⟨_, fragment, fun key either => ?_⟩
  have certain : (Program.bodyOf query.algebra).certainlyBound.contains key = true :=
    either.elim Algebra.certainlyBound_bodyOf id
  have placed := Fragment.closed_certain.ofAlgebra _ folded key certain _ member
  refine ⟨?_, fun copies => ?_, fun index e candidates made c among =>
    Candidate.isSome_row applies made among key⟩
  · rw [Fragment.contains_bound_iff applies, ← Fragment.not_binds_iff placed, not_not]
  · rw [Fragment.contains_bound_iff applies]
    exact (Fragment.closed_binds_certain.ofAlgebra _ folded).2 copies _ member key certain _
      fun _ => id

def sampleCopied : NormalQuery :=
  ⟨.select, .project ["x"] (.extend false "x" (.var "s")
    (.bgp [⟨.var "s", .const (.iri "http://e/p"), .var "o", none⟩])), ["x"], .none⟩

set_option maxRecDepth 100000 in
theorem sampleCopied_compiles : ∃ p, Program.ofNormal sampleConfig sampleCopied = .ok p :=
  exists_ok_of_isOk (by decide +kernel)

theorem certain_key_bound_unless_empty_sample : ∃ p,
    Program.ofNormal sampleConfig sampleCopied = .ok p ∧
    ∀ b ∈ p.branches, b.bound.contains "x" = true := by
  obtain ⟨p, compiled⟩ := sampleCopied_compiles
  obtain ⟨fragments, next, _, each⟩ :=
    certain_key_bound_unless_empty sampleConfig sampleCopied p compiled
  refine ⟨p, compiled, fun b member => ?_⟩
  obtain ⟨i, branch⟩ := List.mem_iff_getElem?.1 member
  obtain ⟨f, _, certain⟩ := each i b branch
  have copies : (Program.bodyOf sampleCopied.algebra).CopiesCertain := by
    refine .extend (.bgp _) fun source _ same => ?_
    obtain rfl := Expr.var.inj same
    decide
  exact (certain "x" (Or.inl (by decide))).2.1 copies

/-! ## The target of an empty copy -/

def emptyCopyText : String := "SELECT ?x WHERE \x7b ?s ?p ?o BIND(?y AS ?x) \x7d"

def leavesUnbound (key : String) (normal : NormalQuery) (p : Program) : Bool :=
  normal.algebra.certainlyBound.contains key && p.branches.any fun b => !(b.bound.contains key)

def compiledText (text : String) : Result (Sparql.Query × NormalQuery × Program) := do
  let query ← Sparql.Query.parse text
  let normal ← NormalQuery.ofQuery sampleConfig.maxPathHops query
  return (query, normal, ← Program.ofNormal sampleConfig normal)

theorem compiledText_ok {text : String} {query : Sparql.Query} {normal : NormalQuery} {p : Program}
    (made : compiledText text = .ok (query, normal, p)) : Sparql.Query.parse text = .ok query ∧
      NormalQuery.ofQuery sampleConfig.maxPathHops query = .ok normal ∧
      Program.ofNormal sampleConfig normal = .ok p := by
  obtain ⟨_, parsed, made⟩ := bind_ok_iff.1 made
  obtain ⟨_, reduced, made⟩ := bind_ok_iff.1 made
  obtain ⟨_, compiled, made⟩ := bind_ok_iff.1 made
  obtain ⟨rfl, whole⟩ := Prod.mk.inj (pure_ok_iff.1 made)
  obtain ⟨rfl, rfl⟩ := Prod.mk.inj whole
  exact ⟨parsed, reduced, compiled⟩

set_option maxRecDepth 100000 in
theorem emptyCopy_leaves : (compiledText emptyCopyText).toOption.any (fun (_, normal, p) =>
    leavesUnbound "x" normal p) = true := by
  decide +kernel

/-- The target of a BIND of a variable that nothing binds counts as certainly bound, and no row binds
it. -/
theorem empty_copy_certain_and_unbound : ∃ query normal p,
    Sparql.Query.parse emptyCopyText = .ok query ∧
    NormalQuery.ofQuery sampleConfig.maxPathHops query = .ok normal ∧
    Program.ofNormal sampleConfig normal = .ok p ∧
    normal.algebra.certainlyBound.contains "x" = true ∧
    ∃ b ∈ p.branches, b.bound.contains "x" = false := by
  obtain ⟨⟨query, normal, p⟩, made, leaves⟩ := exists_ok_of_any emptyCopy_leaves
  obtain ⟨parsed, reduced, compiled⟩ := compiledText_ok made
  obtain ⟨certain, unbound⟩ := Bool.and_eq_true_iff.1 leaves
  obtain ⟨b, member, here⟩ := List.any_eq_true.1 unbound
  exact ⟨query, normal, p, parsed, reduced, compiled, certain, b, member, by simpa using here⟩

end AttestedQuery
