import AttestedQuery.Program.Json
import AttestedQuery.Proofs.BindingOrder

/-!
# The keys that rows bind

A branch lists the keys that it binds as the compiler finds them: it follows each key to a slot or
to the source of an extension. The resolver binds keys to the terms of quads and knows nothing of
that list. The two go together step by step. A draft has the keys of the patterns that it joins, an
extension finds its source bound when its turn comes, because the compiler found a wire for it at
the same turn, and so a row of a branch binds the keys of its list and no others. Filters read hints
about such keys only. Over a signed dataset with a quad nothing is left that could keep a candidate
from its witness.
-/

set_option autoImplicit false

namespace AttestedQuery

theorem Hint.keys_eq (h : Hint) : h.keys = h.operands.flatMap fun x => x.2.keys := by
  cases h <;> simp [keys, operands]

/-! ## Drafts -/

namespace Candidate

variable {index : Dataset.Index} {e : Encoder} {b : Branch}

theorem keys_extendBy {p : Pattern} {consts : QuadOf (Option Field)} {draft next : Draft}
    (extended : next ∈ extendBy index p consts draft) (key : String) :
    (next.row.get? key).isSome ↔ (draft.row.get? key).isSome ∨ key ∈ p.keys := by
  obtain ⟨i, quad, bound, _, binds, rfl⟩ := exists_of_mem_extendBy extended
  rw [binds.keys, mem_entriesOf_keys]

/-- A draft binds exactly the keys of the patterns that it joins, whatever the quads are. -/
theorem keys_joined {pairs : List (Pattern × QuadOf (Option Field))} {draft : Draft}
    (member : draft ∈ joined index pairs) (key : String) :
    (draft.row.get? key).isSome ↔ ∃ pair ∈ pairs, key ∈ pair.1.keys := by
  refine joined_induction (motive := fun pairs draft =>
    (draft.row.get? key).isSome ↔ ∃ pair ∈ pairs, key ∈ pair.1.keys) ?_ ?_ member
  · simp [Draft.start, KeyMap.get_empty]
  · intro pairs pair draft next before extended
    rw [keys_extendBy extended, before]
    simp [or_and_right, exists_or]

/-! ## Rows under way -/

/-- A row on the way to a candidate of a branch: that of a draft of all its patterns, after some of
its extensions. -/
def Underway (index : Dataset.Index) (e : Encoder) (b : Branch) (before : List Extension)
    (row : Row) : Prop :=
  ∃ pairs draft, (b.patterns.mapM fun p => (constants e p).map fun consts => (p, consts)) =
      .ok pairs ∧ draft ∈ joined index pairs ∧ before.foldlM applyExtension draft.row = some row

theorem underway_of_mem {candidates : List Candidate}
    (made : ofBranch index e b = .ok candidates) {c : Candidate} (member : c ∈ candidates) :
    Underway index e b b.extensions c.row := by
  obtain ⟨pairs, paired, whole⟩ := bind_ok_iff.1 made
  obtain rfl := pure_ok_iff.1 whole
  obtain ⟨draft, joins, finished⟩ := List.mem_filterMap.1 member
  obtain ⟨row, extended, rfl⟩ := Option.map_eq_some_iff.1 finished
  exact ⟨pairs, draft, paired, joins, extended⟩

end Candidate

/-! ## Extensions and their sources -/

namespace Tracing

/-- What is made up to an extension comes from the scoped extensions up to the one that it is made
from, whose wire is found over the sources of those before. -/
theorem Applies.split_made {e : Encoder} {t final : Tracing} {xs : List ScopedExtension}
    {made before after : List Extension} {x : Extension} (applies : Applies e t xs made final)
    (split : made = before ++ x :: after) : ∃ ys y middle wire, Applies e t ys before middle ∧
      middle.extension? e y = .ok (some (x, wire)) := by
  induction applies generalizing before with
  | done t => simp at split
  | skip found _ induction =>
    obtain ⟨ys, y, middle, wire, applies, traced⟩ := induction split
    exact ⟨_, y, middle, wire, .skip found applies, traced⟩
  | @make t final y rest extension wire made found later induction =>
    cases before with
    | nil =>
      obtain ⟨rfl, _⟩ := List.cons.inj split
      exact ⟨[], y, t, wire, .done t, found⟩
    | cons first before =>
      obtain ⟨rfl, later⟩ := List.cons.inj split
      obtain ⟨ys, z, middle, other, applies, traced⟩ := induction later
      exact ⟨y :: ys, z, middle, other, .make found applies, traced⟩

end Tracing

namespace Candidate

variable {index : Dataset.Index} {e used : Encoder} {f : Fragment} {b : Branch}
  {start final : Tracing}

theorem keys_underway (applies : b.Applies e f start final) {ys : List ScopedExtension}
    {before : List Extension} {middle : Tracing} (traced : Tracing.Applies e start ys before middle)
    {row : Row} (underway : Underway index used b before row) (key : String) :
    (row.get? key).isSome ↔ (middle.sources.get? key).isSome := by
  obtain ⟨pairs, draft, paired, joins, extended⟩ := underway
  refine ((foldlM_applyExtension traced fun key => ?_).1 extended).2.2 key
  rw [keys_joined joins, Tracing.isSome_ofPatterns applies.traced, ← applies.patterns,
    ← (paired_ok paired).1]
  simp

theorem exists_sourceOf_underway (applies : b.Applies e f start final)
    {before after : List Extension} {x : Extension} (split : b.extensions = before ++ x :: after)
    {row : Row} (underway : Underway index used b before row) :
    ∃ value, sourceOf row x.source = some value := by
  obtain ⟨ys, y, middle, wire, traced, found⟩ := applies.extensions.split_made split
  exact exists_sourceOf found (keys_underway applies traced underway)

/-- A candidate binds exactly the keys that its branch lists. -/
theorem isSome_row (applies : b.Applies e f start final) {candidates : List Candidate}
    (made : ofBranch index used b = .ok candidates) {c : Candidate} (member : c ∈ candidates)
    (key : String) : (c.row.get? key).isSome = b.bound.contains key := by
  rw [applies.bound, Bool.eq_iff_iff]
  exact keys_underway applies applies.extensions (underway_of_mem made member) key

end Candidate

/-! ## Hints and their operands -/

theorem Branch.Comes.exists_termOf {e : Encoder} {projected : List String} {all : List Hint}
    {f : Fragment} {b : Branch} {t : Tracing} {linked : List Tracing.Place}
    (comes : b.Comes e projected all f t linked) {row : Row}
    (bound : ∀ key, (row.get? key).isSome = b.bound.contains key) {i : Nat}
    (member : i ∈ b.hints) : ∃ h, all[i]? = some h ∧
      ∀ entry ∈ h.operands, ∃ term, Hint.termOf row entry.2 = .ok term := by
  obtain ⟨h, listed, _, about⟩ := comes.compiles.listed_hint member
  refine ⟨h, listed, fun (field, operand) among => ?_⟩
  cases operand with
  | term term => exact ⟨term, rfl⟩
  | key key =>
    obtain ⟨source, stored⟩ := about key (h.keys_eq ▸ List.mem_flatMap.2 ⟨_, among, by simp
      [Operand.keys]⟩)
    have held : (row.get? key).isSome = true := by
      rw [bound, comes.compiles.traces.bound, KeySet.contains_ofKeys, List.contains_iff_mem,
        KeyMap.mem_keys_iff, stored, Option.isSome_some]
    obtain ⟨term, held⟩ := Option.isSome_iff_exists.1 held
    exact ⟨term, by simp [Hint.termOf, held]⟩

/-! ## Candidates that are skipped -/

section Signed

variable {quads : List Quad} {config : Config} {signer : Signer} {d : Dataset}
  {tree : Commitment.Tree} {signature : Octets} {query : NormalQuery} {p : Program}
  {fragments : List Fragment}

theorem Program.Compiles.exists_comes (compiles : p.Compiles config query fragments) {b : Branch}
    (member : b ∈ p.branches) :
    ∃ f t linked, b.Comes config.encoder p.projected p.hints f t linked := by
  obtain ⟨i, branch⟩ := List.getElem?_of_mem member
  obtain ⟨f, t, linked, _, comes⟩ := compiles.of_branch branch
  exact ⟨f, t, linked, comes⟩

theorem Resolver.judge_ne_skipped (r : Resolver) (b : Branch) (w : Witness) (reason : Error) :
    r.judge b w ≠ .skipped reason := by
  unfold judge
  split
  · split <;> nofun
  · nofun

theorem Resolver.resolve_skips_none (s : d.SignedBy quads config signer tree signature)
    (nonempty : d.quads ≠ []) (compiles : p.Compiles config query fragments) :
    ∃ resolution, (d.resolver config).resolve p = .ok resolution ∧ resolution.skipped = [] := by
  have branches : ∀ b ∈ p.branches, ∃ cs,
      Candidate.ofBranch (d.resolver config).index (d.resolver config).encoder b = .ok cs :=
    fun b member => ⟨_, compiles.candidates member⟩
  have witnessed {b : Branch} (member : b ∈ p.branches) {c : Candidate}
      (among : c ∈ (d.resolver config).candidates b) (i : Nat) :
      ∃ w, (d.resolver config).witness p i b.hints c = .ok w := by
    obtain ⟨f, t, linked, comes⟩ := compiles.exists_comes member
    exact exists_witness s nonempty comes (compiles.candidates member) among
  refine ⟨_, resolve_separately branches ?_, List.filterMap_eq_nil_iff.2 fun a attempted => ?_⟩
  · rintro ⟨b, member, c, among, publishes⟩
    have filled := compiles.fills member s among (List.length_pos_iff.2 nonempty)
    obtain ⟨reason, failed, _⟩ := witness_of_publishes 0 publishes filled
    obtain ⟨w, built⟩ := witnessed member among 0
    rw [failed] at built
    cases built
  · obtain ⟨⟨b, i⟩, numbered, attempted⟩ := List.mem_flatMap.1 attempted
    obtain ⟨c, among, rfl⟩ := List.mem_map.1 attempted
    obtain ⟨w, built⟩ := witnessed (List.fst_mem_of_mem_zipIdx numbered) among i
    simp only [attempt, built]
    split
    next reason skipped => exact absurd skipped (judge_ne_skipped _ b w reason)
    next => rfl

end Signed

/-- Rows bind what the compiler says, over every dataset: the candidates of a branch bind the keys
that it lists and no others, each of its extensions finds its source when its turn comes, and the
hints that it reads find their operands. Under the configuration that a dataset was signed under,
the resolution skips no candidate unless there are no quads. -/
theorem rows_bind_listed_keys (config : Config) (query : NormalQuery) (p : Program)
    (compiled : Program.ofNormal config query = .ok p) :
    (∀ b ∈ p.branches, ∀ (index : Dataset.Index) (e : Encoder),
      (∀ candidates, Candidate.ofBranch index e b = .ok candidates → ∀ c ∈ candidates,
        (∀ key, (c.row.get? key).isSome = b.bound.contains key) ∧
          ∀ i ∈ b.hints, ∃ h, p.hints[i]? = some h ∧
            ∀ entry ∈ h.operands, ∃ term, Hint.termOf c.row entry.2 = .ok term) ∧
      ∀ before x after row, b.extensions = before ++ x :: after →
        Candidate.Underway index e b before row →
          ∃ value, Candidate.sourceOf row x.source = some value) ∧
    ∀ quads signer d, Dataset.sign quads config signer = .ok d → d.quads ≠ [] →
      ∃ r resolution, Resolver.ofDataset d config = .ok r ∧ r.resolve p = .ok resolution ∧
        resolution.skipped = [] := by
  obtain ⟨fragments, compiles⟩ := Program.ofNormal_ok compiled
  refine ⟨fun b member index e => ?_, fun quads signer d signed nonempty => ?_⟩
  · obtain ⟨f, t, linked, comes⟩ := compiles.exists_comes member
    obtain ⟨start, final, applies⟩ := comes.applies
    refine ⟨fun candidates made c among => ?_, fun before x after row split underway => ?_⟩
    · have bound := Candidate.isSome_row applies made among
      exact ⟨bound, fun i listed => comes.exists_termOf bound listed⟩
    · exact Candidate.exists_sourceOf_underway applies split underway
  · obtain ⟨tree, signature, s⟩ := Dataset.sign_ok signed
    obtain ⟨resolution, resolved, skipped⟩ := Resolver.resolve_skips_none s nonempty compiles
    exact ⟨_, resolution, bind_ok_iff.2 ⟨(), s.compatible, rfl⟩, resolved, skipped⟩

set_option maxRecDepth 100000 in
theorem sampleRenamed_candidates : (sampleOpened sampleRenamedText).toOption.any (fun (r, p) =>
    p.branches.any fun b => b.extensions.length == 1 && !b.hints.isEmpty &&
      (Candidate.ofBranch r.index r.encoder b).toOption.any fun candidates =>
        candidates.length == 1) = true := by
  simp only [sampleOpened, Resolver.ofDataset, Program.compile, Program.ofNormal,
    Config.encoder_eq]
  decide +kernel

/-- The candidate of a branch with an extension and a hint, over the sample quad. -/
theorem rows_bind_listed_keys_sample :
    Dataset.sign [sampleQuad] sampleConfig sampleSigner = .ok sampleDataset ∧
    ∃ query p r resolution b c x, Program.ofNormal sampleConfig query = .ok p ∧
      Resolver.ofDataset sampleDataset sampleConfig = .ok r ∧ r.resolve p = .ok resolution ∧
      resolution.skipped = [] ∧ b ∈ p.branches ∧
      Candidate.ofBranch r.index r.encoder b = .ok [c] ∧ b.extensions = [x] ∧ b.hints ≠ [] ∧
      (∀ key, (c.row.get? key).isSome = b.bound.contains key) ∧
      (∀ i ∈ b.hints, ∃ h, p.hints[i]? = some h ∧
        ∀ entry ∈ h.operands, ∃ term, Hint.termOf c.row entry.2 = .ok term) ∧
      ∃ row value, Candidate.Underway r.index r.encoder b [] row ∧
        Candidate.sourceOf row x.source = some value := by
  obtain ⟨⟨r, p⟩, made, found⟩ := exists_ok_of_any sampleRenamed_candidates
  obtain ⟨opened, compiled⟩ := sampleOpened_ok made
  obtain ⟨query, normal⟩ := Program.compile_ok compiled
  obtain ⟨b, member, shape⟩ := List.any_eq_true.1 found
  simp only [Bool.and_eq_true, Bool.not_eq_true', List.isEmpty_eq_false_iff] at shape
  obtain ⟨⟨one, hints⟩, single⟩ := shape
  obtain ⟨x, extension⟩ := List.length_eq_one_iff.1 (eq_of_beq one)
  obtain ⟨candidates, listed, single⟩ := exists_ok_of_any single
  obtain ⟨c, rfl⟩ := List.length_eq_one_iff.1 (eq_of_beq single)
  obtain ⟨binds, skips⟩ := rows_bind_listed_keys sampleConfig query p normal
  obtain ⟨r', resolution, opened', resolved, skipped⟩ :=
    skips [sampleQuad] sampleSigner sampleDataset sample_signs (List.cons_ne_nil _ _)
  obtain rfl := Except.ok.inj (opened.symm.trans opened')
  obtain ⟨keys, sources⟩ := binds b member r.index r.encoder
  obtain ⟨bound, operands⟩ := keys [c] listed c List.mem_cons_self
  obtain ⟨pairs, draft, paired, joins, _⟩ := Candidate.underway_of_mem listed List.mem_cons_self
  have start : Candidate.Underway r.index r.encoder b [] draft.row :=
    ⟨pairs, draft, paired, joins, rfl⟩
  obtain ⟨value, source⟩ := sources [] x [] draft.row extension start
  exact ⟨sample_signs, query, p, r, resolution, b, c, x, normal, opened, resolved, skipped, member,
    listed, extension, hints, bound, operands, draft.row, value, start, source⟩

end AttestedQuery
