import AttestedQuery.Proofs.Verdicts

/-!
# The rows that a resolution returns

Over a signed dataset with a quad a compiled program always resolves. What it returns, each
user-visible row once, are the rows that a branch admits, on which all filters of its fragment are
true, and that do not extend to a row of a fragment that its own one is exclusive of. Of such a row
only the filters count that are not written above both.
-/

set_option autoImplicit false

namespace AttestedQuery

theorem Row.visible_get (row : Row) (key : String) :
    row.visible.get? key = if isUserKey key then row.get? key else none :=
  KeyMap.get_restrict row isUserKey key

theorem Row.extendsTo_iff (row other : Row) :
    row.extendsTo other = true ↔ row.visible.Within other := by
  simp only [extendsTo, List.all_eq_true, Prod.forall, KeyMap.mem_entries_iff, beq_iff_eq, Within]

/-! ## Suppression -/

namespace Fragment

def PassesBeside (e : Encoder) (f own : Fragment) (row : Row) : Prop :=
  ∀ x ∈ f.filters, x.number ∉ own.filters.map (·.number) → x.isTrue e row = true

def Suppressed (e : Encoder) (fragments : List Fragment) (admits : Nat → Row → Prop)
    (f : Fragment) (row : Row) : Prop :=
  ∃ j ∈ f.exclusiveOf, ∃ g other, fragments[j]? = some g ∧ admits j other ∧
    g.PassesBeside e f other ∧ row.visible.Within other

def Keeps (e : Encoder) (fragments : List Fragment) (admits : Nat → Row → Prop) (i : Nat)
    (row : Row) : Prop :=
  ∃ f, fragments[i]? = some f ∧ admits i row ∧ f.Passes e row ∧
    ¬ f.Suppressed e fragments admits row

end Fragment

def Program.Admits (p : Program) (d : Dataset) (e : Encoder) (i : Nat) (row : Row) : Prop :=
  ∃ b, p.branches[i]? = some b ∧ b.Admits d e row

structure Program.ShowsAll (p : Program) : Prop where
  user : ∀ name ∈ p.projected, isUserKey name = true
  all : ∀ b ∈ p.branches, ∀ key, b.bound.contains key = true → isUserKey key = true →
    key ∈ p.projected

theorem Program.ShowsAll.bindings {p : Program} (shows : p.ShowsAll) {d : Dataset} {e : Encoder}
    {b : Branch} (member : b ∈ p.branches) {row : Row} (admits : b.Admits d e row) :
    row.restrict p.projected.contains = row.visible := by
  apply KeyMap.ext
  intro key
  rw [KeyMap.get_restrict, Row.visible_get]
  by_cases user : isUserKey key = true
  · rw [if_pos user]
    split
    next => rfl
    next hidden =>
      cases held : row.get? key with
      | none => rfl
      | some value =>
        have bound : b.bound.contains key = true := by rw [← admits.bound, held]; rfl
        exact absurd (List.contains_iff_mem.2 (shows.all b member key bound user)) hidden
  · rw [if_neg user, if_neg]
    exact fun projected => user (shows.user key (List.contains_iff_mem.1 projected))

namespace Resolver

/-! ## Each row once -/

theorem firstOfEach_nodup (entries : List (Row × Witness)) :
    ((firstOfEach entries).map (·.1)).Nodup := by
  suffices general : ∀ start : List (Row × Witness), (start.map (·.1)).Nodup →
      ((entries.foldl (fun kept entry =>
        if kept.any (·.1 == entry.1) then kept else kept ++ [entry]) start).map (·.1)).Nodup from
    general [] List.nodup_nil
  induction entries with
  | nil => exact fun _ nodup => nodup
  | cons entry rest induction =>
    intro start nodup
    refine induction _ ?_
    dsimp only
    split
    next => exact nodup
    next fresh =>
      rw [List.map_append, List.nodup_append']
      refine ⟨nodup, List.nodup_singleton _, ?_⟩
      rw [List.disjoint_right]
      intro row here before
      obtain rfl : row = entry.1 := by simpa using here
      obtain ⟨other, member, same⟩ := List.mem_map.1 before
      exact fresh (List.any_eq_true.2 ⟨other, member, by simpa using same⟩)

section Signed

variable {quads : List Quad} {config : Config} {signer : Signer} {d : Dataset}
  {tree : Commitment.Tree} {signature : Octets} {query : NormalQuery} {p : Program}
  {fragments : List Fragment}

theorem resolves (s : d.SignedBy quads config signer tree signature) (nonempty : d.quads ≠ [])
    (compiles : p.Compiles config query fragments) : ∃ resolution assessed,
      (d.resolver config).resolve p = .ok resolution ∧
      resolution.witnesses = (firstOfEach (surviving p assessed)).map (·.2) ∧
      (∀ i row, (∃ a ∈ assessed, a.branch = i ∧ a.row = row) ↔ p.Admits d config.encoder i row) ∧
      ∀ a ∈ assessed, ∀ f, fragments[a.branch]? = some f → a.Judged p config.encoder f := by
  have listed (i : Nat) (b : Branch) (branch : p.branches[i]? = some b) : ∃ candidates,
      Candidate.ofBranch (.ofDataset d) config.encoder b = .ok candidates := by
    obtain ⟨f, t, linked, _, comes⟩ := compiles.of_branch branch
    exact Candidate.ofBranch_ok (.ofDataset d)
      fun q inside position term => comes.compiles.traces.encodable_constant inside
  -- What a candidate binds are terms of the dataset, so all of it has encodings.
  have succeeds : ∃ resolution, (d.resolver config).resolve p = .ok resolution := by
    apply resolve_succeeds
    intro b member
    obtain ⟨i, branch⟩ := List.mem_iff_getElem?.1 member
    obtain ⟨candidates, made⟩ := listed i b branch
    obtain ⟨f, t, linked, _, comes⟩ := compiles.of_branch branch
    exact ⟨candidates, made, fun c inside =>
      Candidate.encodable s.encodedBy comes.compiles.traces made inside⟩
  obtain ⟨resolution, resolved⟩ := succeeds
  obtain ⟨assessed, all, witnesses⟩ := resolve_ok resolved
  have width {i : Nat} {b : Branch} (branch : p.branches[i]? = some b) :
      b.patterns.length ≤ p.width :=
    Program.slotCount_le_width (List.mem_of_getElem? branch)
  refine ⟨resolution, assessed, resolved, witnesses, fun i row => ⟨?_, ?_⟩, ?_⟩
  · rintro ⟨a, member, rfl, rfl⟩
    obtain ⟨b, candidates, c, branch, made, candidate, here⟩ := (all a).1 member
    obtain ⟨f, t, linked, _, comes⟩ := compiles.of_branch branch
    obtain ⟨start, final, applies⟩ := comes.applies
    refine ⟨b, branch, (Candidate.exists_iff_admits s.encodedBy applies made a.row).1 ?_⟩
    exact ⟨c, candidate, (assess_ok here).2.1.symm⟩
  · rintro ⟨b, branch, admits⟩
    obtain ⟨candidates, made⟩ := listed i b branch
    obtain ⟨f, t, linked, _, comes⟩ := compiles.of_branch branch
    obtain ⟨start, final, applies⟩ := comes.applies
    obtain ⟨c, candidate, rfl⟩ :=
      (Candidate.exists_iff_admits s.encodedBy applies made row).2 admits
    obtain ⟨a, here, rfl, same, _⟩ :=
      judged (i := i) s nonempty (width branch) comes made candidate
    exact ⟨a, (all a).2 ⟨b, candidates, c, branch, made, candidate, here⟩, rfl, same⟩
  · intro a member f fragment
    obtain ⟨b, candidates, c, branch, made, candidate, here⟩ := (all a).1 member
    obtain ⟨g, t, linked, found, comes⟩ := compiles.of_branch branch
    obtain rfl := Option.some.inj (fragment.symm.trans found)
    obtain ⟨other, again, _, _, judged⟩ :=
      judged (i := a.branch) s nonempty (width branch) comes made candidate
    obtain rfl := Except.ok.inj (here.symm.trans again)
    exact judged

theorem numbers_of_comes {e : Encoder} {projected : List String} {all : List Hint} {f : Fragment}
    {b : Branch} {t : Tracing} {linked : List Tracing.Place}
    (comes : b.Comes e projected all f t linked) :
    b.filters.map (·.number) = f.filters.map (·.number) := by
  have each := comes.filters
  generalize f.filters = written at each ⊢
  generalize b.filters = filters at each ⊢
  induction each with
  | nil => rfl
  | cons first _ induction => rw [List.map_cons, List.map_cons, first.number, induction]

/-- An assessed row counts against another fragment where the filters that are not shared with it
are true. -/
theorem judged_beside {e : Encoder} {f g : Fragment} {a : Assessed} (judged : a.Judged p e g)
    {theirs own : List Nat} (theirNumbers : theirs = g.filters.map (·.number))
    (ownNumbers : own = f.filters.map (·.number)) :
    a.verdict.failed?.any (fun failed => failed.all (theirs.filter own.contains).contains) = true ↔
      g.PassesBeside e f a.row := by
  obtain ⟨failed, verdict, failing⟩ := judged.failed
  subst theirNumbers ownNumbers
  rw [verdict, Option.any_some, List.all_eq_true]
  simp only [failing, List.contains_iff_mem, List.mem_filter, List.mem_map]
  constructor
  · intro shared x inside fresh
    by_contra fails
    obtain ⟨_, y, own, same⟩ := shared x.number ⟨x, inside, by simpa using fails, rfl⟩
    exact fresh (List.mem_map.2 ⟨y, own, same⟩)
  · rintro passes n ⟨x, inside, fails, rfl⟩
    refine ⟨⟨x, inside, rfl⟩, ?_⟩
    by_contra fresh
    rw [passes x inside (by simpa using fresh)] at fails
    exact Bool.noConfusion fails

/-- The resolver gives up a row exactly where its fragment is suppressed on it. -/
theorem extendedElsewhere_iff (compiles : p.Compiles config query fragments)
    {assessed : List Assessed}
    (admitted : ∀ i row, (∃ a ∈ assessed, a.branch = i ∧ a.row = row) ↔
      p.Admits d config.encoder i row)
    (judged : ∀ a ∈ assessed, ∀ f, fragments[a.branch]? = some f →
      a.Judged p config.encoder f)
    {i : Nat} {b : Branch} {f : Fragment} (branch : p.branches[i]? = some b)
    (fragment : fragments[i]? = some f) (row : Row) :
    extendedElsewhere p assessed b row = true ↔
      f.Suppressed config.encoder fragments (p.Admits d config.encoder) row := by
  obtain ⟨t, linked, comes⟩ := compiles.comes fragment branch
  simp only [extendedElsewhere, List.any_eq_true, Bool.and_eq_true, beq_iff_eq,
    comes.compiles.traces.exclusiveOf, Row.extendsTo_iff]
  refine exists_congr fun j => and_congr_right fun _ => ?_
  -- Both sides speak of the same fragment, and its branch has its filter numbers.
  have theirs {g : Fragment} (found : fragments[j]? = some g) :
      ((p.branches[j]?.map fun o => o.filters.map (·.number)).getD []) =
        g.filters.map (·.number) := by
    obtain ⟨o, _, _, branch, comes⟩ := compiles.of_fragment found
    simpa [branch] using numbers_of_comes comes
  constructor
  · rintro ⟨a, member, ⟨rfl, beside⟩, within⟩
    have admits := (admitted a.branch a.row).1 ⟨a, member, rfl, rfl⟩
    have ⟨o, other, _⟩ := admits
    obtain ⟨g, _, _, found, _⟩ := compiles.of_branch other
    refine ⟨g, a.row, found, admits, ?_, within⟩
    exact (judged_beside (judged a member _ found) (theirs found) (numbers_of_comes comes)).1 beside
  · rintro ⟨g, other, found, admits, passes, within⟩
    obtain ⟨a, member, rfl, rfl⟩ := (admitted j other).2 admits
    refine ⟨a, member, ⟨rfl, ?_⟩, within⟩
    exact (judged_beside (judged a member g found) (theirs found) (numbers_of_comes comes)).2 passes

/-- What a resolution returns: one entry for each user-visible row that is kept, beside a witness with
the projected bindings of a row that it is the visible part of. -/
theorem resolve_entries (s : d.SignedBy quads config signer tree signature)
    (nonempty : d.quads ≠ []) (compiles : p.Compiles config query fragments) :
    ∃ (resolution : Resolution) (entries : List (Row × Witness)),
      (d.resolver config).resolve p = .ok resolution ∧
      resolution.witnesses = entries.map Prod.snd ∧ (entries.map Prod.fst).Nodup ∧
      (∀ row, row ∈ entries.map Prod.fst ↔ ∃ i full, row = full.visible ∧
        Fragment.Keeps config.encoder fragments (p.Admits d config.encoder) i full) ∧
      ∀ entry ∈ entries, ∃ i full, p.Admits d config.encoder i full ∧ entry.1 = full.visible ∧
        entry.2.bindings = full.restrict p.projected.contains := by
  obtain ⟨resolution, assessed, resolved, witnesses, admitted, judged⟩ :=
    resolves s nonempty compiles
  -- An entry that survives has the bindings of its witness beside it.
  have kept (entry : Row × Witness) : entry ∈ surviving p assessed ↔ ∃ a ∈ assessed, ∃ f,
      fragments[a.branch]? = some f ∧ a.verdict = .accepted entry.2 ∧ entry.1 = a.row.visible ∧
        ¬ f.Suppressed config.encoder fragments (p.Admits d config.encoder) a.row := by
    rw [mem_surviving_iff]
    refine exists_congr fun a => and_congr_right fun member => ?_
    constructor
    · rintro ⟨b, branch, verdict, row, free⟩
      obtain ⟨f, _, _, fragment, _⟩ := compiles.of_branch branch
      refine ⟨f, fragment, verdict, row, fun suppressed => ?_⟩
      rw [(extendedElsewhere_iff compiles admitted judged branch fragment a.row).2
        suppressed] at free
      exact Bool.noConfusion free
    · rintro ⟨f, fragment, verdict, row, free⟩
      obtain ⟨b, _, _, branch, _⟩ := compiles.of_fragment fragment
      refine ⟨b, branch, verdict, row, ?_⟩
      rw [Bool.eq_false_iff]
      exact fun extended => free
        ((extendedElsewhere_iff compiles admitted judged branch fragment a.row).1 extended)
  refine ⟨resolution, firstOfEach (surviving p assessed), resolved, witnesses,
    firstOfEach_nodup _, fun row => ⟨?_, ?_⟩, fun entry member => ?_⟩
  · intro member
    obtain ⟨entry, inside, rfl⟩ := List.mem_map.1 member
    obtain ⟨a, here, f, fragment, verdict, row, free⟩ :=
      (kept entry).1 (mem_of_mem_firstOfEach inside)
    refine ⟨a.branch, a.row, row, f, fragment, (admitted _ _).1 ⟨a, here, rfl, rfl⟩, ?_, free⟩
    exact ((judged a here f fragment).witness entry.2 verdict).1
  · rintro ⟨i, full, rfl, f, fragment, admits, passes, free⟩
    obtain ⟨a, here, rfl, rfl⟩ := (admitted i full).2 admits
    obtain ⟨w, verdict⟩ := (judged a here f fragment).accepted passes
    have member : (a.row.visible, w) ∈ surviving p assessed :=
      (kept _).2 ⟨a, here, f, fragment, verdict, rfl, free⟩
    obtain ⟨entry, inside, same⟩ := exists_firstOfEach member
    exact List.mem_map.2 ⟨entry, inside, same⟩
  · obtain ⟨a, inside, f, fragment, verdict, row, _⟩ :=
      (kept entry).1 (mem_of_mem_firstOfEach member)
    exact ⟨a.branch, a.row, (admitted _ _).1 ⟨a, inside, rfl, rfl⟩, row,
      ((judged a inside f fragment).witness entry.2 verdict).2⟩

/-- Where the projected names are the user-visible keys, the bindings are these rows. -/
theorem resolve_rows (s : d.SignedBy quads config signer tree signature) (nonempty : d.quads ≠ [])
    (compiles : p.Compiles config query fragments) (shows : p.ShowsAll) : ∃ resolution,
      (d.resolver config).resolve p = .ok resolution ∧
      (resolution.witnesses.map (·.bindings)).Nodup ∧
      ∀ row, row ∈ resolution.witnesses.map (·.bindings) ↔ ∃ i full, row = full.visible ∧
        Fragment.Keeps config.encoder fragments (p.Admits d config.encoder) i full := by
  obtain ⟨resolution, entries, resolved, witnesses, nodup, rows, bindings⟩ :=
    resolve_entries s nonempty compiles
  have same : resolution.witnesses.map (·.bindings) = entries.map Prod.fst := by
    rw [witnesses, List.map_map]
    refine List.map_congr_left fun entry member => ?_
    obtain ⟨i, full, ⟨b, branch, admits⟩, row, bound⟩ := bindings entry member
    rw [Function.comp_apply, bound, row]
    exact shows.bindings (List.mem_of_getElem? branch) admits
  exact ⟨resolution, resolved, same ▸ nodup, fun row => by rw [same, rows]⟩

end Signed

end Resolver

end AttestedQuery
