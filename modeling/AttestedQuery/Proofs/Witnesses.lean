import AttestedQuery.Resolution
import AttestedQuery.Proofs.Evaluation
import AttestedQuery.Proofs.Matching

/-!
# The witnesses of a resolution

A witness is built from one candidate, and the only failures that building it can meet concern that
candidate alone. Every witness that a resolution returns satisfies the assertion of its branch, has
one slot for each pattern and more, each filled by a quad of the dataset, and one value for each
hint of the program.
-/

set_option autoImplicit false

namespace AttestedQuery

namespace Hint

variable {e : Encoder} {hints : List Hint} {row : Row} {used : List Nat}

theorem computeAll_error {fault : Error} (failed : computeAll e hints row used = .error fault) :
    fault.isRecoverable = true := by
  obtain ⟨values, index, _, step⟩ := foldlM_error failed
  split at step
  · obtain rfl := Except.error.inj step
    rfl
  · rw [map_error_iff, compute] at step
    split at step
    · simp at step
    · obtain rfl := Except.error.inj step
      rfl

theorem length_computeAll {values : List Field}
    (computed : computeAll e hints row used = .ok values) : values.length = hints.length := by
  refine foldlM_preserves (fun values => values.length = hints.length) computed (by simp) ?_
  intro values index next _ length step
  split at step
  · simp at step
  · obtain ⟨x, _, rfl⟩ := map_ok_iff.1 step
    simpa using length

theorem computeAll_ok
    (given : ∀ index ∈ used, ∃ h x, hints[index]? = some h ∧ h.value e row = .ok x) :
    ∃ values, computeAll e hints row used = .ok values ∧ ∀ index ∈ used, ∀ h x,
      hints[index]? = some h → h.value e row = .ok x → values[index]? = some x := by
  obtain ⟨step, folded, told⟩ : ∃ step : List Field → Nat → Result (List Field),
      computeAll e hints row used =
        used.foldlM step (List.replicate hints.length Field.zero) ∧
      ∀ values index h x, hints[index]? = some h → h.value e row = .ok x →
        step values index = .ok (values.set index x) := by
    refine ⟨_, rfl, ?_⟩
    intro values index h x found value
    simp only [found, compute, value]
    rfl
  suffices general : ∀ start : List Field, start.length = hints.length →
      ∃ values, used.foldlM step start = .ok values ∧
        ∀ index, (∀ h x, index ∈ used → hints[index]? = some h → h.value e row = .ok x →
            values[index]? = some x) ∧
          (index ∉ used → values[index]? = start[index]?) by
    obtain ⟨values, computed, each⟩ := general (List.replicate hints.length Field.zero) (by simp)
    exact ⟨values, folded.trans computed, fun index member h x => (each index).1 h x member⟩
  clear folded
  induction used with
  | nil =>
    intro start _
    exact ⟨start, rfl, fun index => ⟨by simp, fun _ => rfl⟩⟩
  | cons first rest induction =>
    intro start length
    obtain ⟨h, x, found, value⟩ := given first List.mem_cons_self
    obtain ⟨values, computed, each⟩ := induction
      (fun index member => given index (List.mem_cons_of_mem first member)) (start.set first x)
      (by simpa using length)
    have inside : first < start.length := by
      rw [length]
      exact (List.getElem?_eq_some_iff.1 found).1
    refine ⟨values, ?_, fun index => ⟨?_, ?_⟩⟩
    · rw [List.foldlM_cons, told start first h x found value]
      exact computed
    · intro h' x' member found' value'
      by_cases later : index ∈ rest
      · exact (each index).1 h' x' later found' value'
      · obtain rfl : index = first := by simpa [later] using member
        obtain rfl := Option.some.inj (found.symm.trans found')
        obtain rfl := Except.ok.inj (value.symm.trans value')
        rw [(each index).2 later, List.getElem?_set_self inside]
    · intro absent
      rw [List.mem_cons, not_or] at absent
      rw [(each index).2 absent.2, List.getElem?_set_ne (Ne.symm absent.1)]

end Hint

namespace Resolver

structure Builds (r : Resolver) (p : Program) (branch : Nat) (used : List Nat) (c : Candidate)
    (w : Witness) : Prop where
  branch : w.branch = branch
  hints : Hint.computeAll r.encoder p.hints c.row used = .ok w.hints
  slots : List.Forall₂ (fun i slot => r.slot? i = some slot) (padded p.width c.quads) w.slots
  values : ∃ values, List.Forall₂ (fun name entry => ∃ x, r.publicValue c.row name = .ok x ∧
    entry = (name, x)) p.projected values ∧ w.values = KeyMap.ofList values
  bindings : w.bindings = c.row.restrict fun key => p.projected.contains key
  root : w.root = r.index.dataset.root
  signature : w.signature = r.index.dataset.signature
  publicKey : w.publicKey = r.index.dataset.publicKey
  scheme : w.scheme = r.index.dataset.scheme

section Witness

variable {r : Resolver} {p : Program} {branch : Nat} {used : List Nat} {c : Candidate}

theorem witness_ok {w : Witness} (built : r.witness p branch used c = .ok w) :
    r.Builds p branch used c w := by
  obtain ⟨hints, computed, built⟩ := bind_ok_iff.1 built
  obtain ⟨slots, filled, built⟩ := bind_ok_iff.1 built
  obtain ⟨values, valued, built⟩ := bind_ok_iff.1 built
  obtain rfl := pure_ok_iff.1 built
  refine ⟨rfl, computed, ?_, ⟨values, ?_, rfl⟩, rfl, rfl, rfl, rfl, rfl⟩
  · refine ((mapM_ok_iff _ _ _).1 filled).imp ?_
    intro i slot found
    split at found
    next stored same => rw [same, Except.ok.inj found]
    next => simp at found
  · refine ((mapM_ok_iff _ _ _).1 valued).imp ?_
    intro name entry found
    obtain ⟨x, read, rfl⟩ := map_ok_iff.1 found
    exact ⟨x, read, rfl⟩

/-- A witness cannot be built where a hint has no value, where a slot has no quad, or where a term
that is to be published has no encoding. -/
theorem witness_error_cases {fault : Error}
    (failed : r.witness p branch used c = .error fault) :
    Hint.computeAll r.encoder p.hints c.row used = .error fault ∨
      (∃ i ∈ padded p.width c.quads, r.slot? i = none ∧ fault = .unmet .nothingToPad) ∨
      (∃ hints, Hint.computeAll r.encoder p.hints c.row used = .ok hints) ∧
        ∃ name ∈ p.projected, ∃ value, c.row.get? name = some value ∧
          r.encoder.encode value = .error fault := by
  rcases bind_error_iff.1 failed with computed | ⟨hints, computed, failed⟩
  · exact Or.inl computed
  rcases bind_error_iff.1 failed with filled | ⟨slots, _, failed⟩
  · obtain ⟨i, padding, missing⟩ := mapM_error filled
    split at missing
    next => simp at missing
    next absent => exact Or.inr (Or.inl ⟨i, padding, absent, (Except.error.inj missing).symm⟩)
  rcases bind_error_iff.1 failed with valued | ⟨values, _, failed⟩
  · obtain ⟨name, projected, refused⟩ := mapM_error valued
    rw [map_error_iff, publicValue] at refused
    split at refused
    next value held =>
      exact Or.inr (Or.inr ⟨⟨hints, computed⟩, name, projected, value, held, refused⟩)
    next => simp at refused
  · simp [pure, Except.pure] at failed

/-- Where every term of its row has an encoding, a candidate fails on its own only. -/
theorem witness_error {fault : Error}
    (encodable : ∀ key value, c.row.get? key = some value →
      ∃ code, r.encoder.encode value = .ok code)
    (failed : r.witness p branch used c = .error fault) : fault.isRecoverable = true := by
  rcases witness_error_cases failed with computed | ⟨_, _, _, rfl⟩ | ⟨_, name, _, value, held, refused⟩
  · exact Hint.computeAll_error computed
  · rfl
  · obtain ⟨code, coded⟩ := encodable name value held
    rw [coded] at refused
    cases refused

theorem length_slots {w : Witness} (builds : r.Builds p branch used c w) :
    w.slots.length = p.width := by
  rw [← builds.slots.length_eq, padded, List.length_map, List.length_range]

end Witness

/-! ## Assessments -/

def Assesses (r : Resolver) (p : Program) (a : Assessed) : Prop :=
  ∃ b candidates c, p.branches[a.branch]? = some b ∧
    Candidate.ofBranch r.index r.encoder b = .ok candidates ∧ c ∈ candidates ∧
      r.assess p a.branch b c = .ok a

variable {r : Resolver} {p : Program}

theorem assess_ok {branch : Nat} {b : Branch} {c : Candidate} {a : Assessed}
    (assessed : r.assess p branch b c = .ok a) :
    a.branch = branch ∧ a.row = c.row ∧
      ((∃ w, r.witness p branch b.hints c = .ok w ∧ a.verdict = r.judge b w) ∨
        ∃ fault, r.witness p branch b.hints c = .error fault ∧ a.verdict = .skipped fault) := by
  unfold assess at assessed
  split at assessed
  next w built =>
    obtain rfl := Except.ok.inj assessed
    exact ⟨rfl, rfl, Or.inl ⟨w, built, rfl⟩⟩
  next fault failed =>
    split at assessed
    · obtain rfl := Except.ok.inj assessed
      exact ⟨rfl, rfl, Or.inr ⟨fault, failed, rfl⟩⟩
    · simp at assessed

theorem resolve_ok {resolution : Resolution} (resolved : r.resolve p = .ok resolution) :
    ∃ assessed, (∀ a, a ∈ assessed ↔ r.Assesses p a) ∧
      resolution.witnesses = (firstOfEach (surviving p assessed)).map (·.2) := by
  obtain ⟨byBranch, each, whole⟩ := bind_ok_iff.1 resolved
  obtain rfl := pure_ok_iff.1 whole
  refine ⟨byBranch.flatten, ?_, rfl⟩
  intro a
  rw [List.mem_flatten]
  constructor
  · rintro ⟨list, member, inside⟩
    obtain ⟨⟨b, branch⟩, numbered, listed⟩ := (mem_mapM_iff each list).1 member
    obtain ⟨candidates, made, assessed⟩ := bind_ok_iff.1 listed
    obtain ⟨c, candidate, here⟩ := (mem_mapM_iff assessed a).1 inside
    obtain rfl := (assess_ok here).1
    exact ⟨b, candidates, c, List.mem_zipIdx_iff_getElem?.1 numbered, made, candidate, here⟩
  · rintro ⟨b, candidates, c, branch, made, candidate, here⟩
    have numbered : (b, a.branch) ∈ p.branches.zipIdx := List.mem_zipIdx_iff_getElem?.2 branch
    obtain ⟨list, listed, member⟩ := mapM_member each numbered
    obtain ⟨others, again, assessed⟩ := bind_ok_iff.1 listed
    obtain rfl := Except.ok.inj (made.symm.trans again)
    exact ⟨list, member, (mem_mapM_iff assessed a).2 ⟨c, candidate, here⟩⟩

/-- A resolution succeeds where every branch has its candidates and every candidate fails on its
own only. -/
theorem resolve_succeeds
    (branches : ∀ b ∈ p.branches, ∃ candidates,
      Candidate.ofBranch r.index r.encoder b = .ok candidates ∧
        ∀ c ∈ candidates, ∀ key value, c.row.get? key = some value →
          ∃ code, r.encoder.encode value = .ok code) :
    ∃ resolution, r.resolve p = .ok resolution := by
  have each : ∀ numbered ∈ p.branches.zipIdx, ∃ list,
      r.assessBranch p numbered.2 numbered.1 = .ok list := by
    rintro ⟨b, branch⟩ member
    have inside : b ∈ p.branches := List.fst_mem_of_mem_zipIdx member
    obtain ⟨candidates, made, encodable⟩ := branches b inside
    have assessed : ∀ c ∈ candidates, ∃ a, r.assess p branch b c = .ok a := by
      intro c candidate
      unfold assess
      split
      next w built => exact ⟨_, rfl⟩
      next fault failed =>
        rw [if_pos (witness_error (encodable c candidate) failed)]
        exact ⟨_, rfl⟩
    obtain ⟨list, whole⟩ := mapM_succeeds assessed
    exact ⟨list, bind_ok_iff.2 ⟨candidates, made, whole⟩⟩
  obtain ⟨byBranch, found⟩ := mapM_succeeds each
  exact ⟨_, bind_ok_iff.2 ⟨byBranch, found, rfl⟩⟩

/-! ## Kept rows -/

theorem mem_of_mem_firstOfEach {entries : List (Row × Witness)} {entry : Row × Witness}
    (kept : entry ∈ firstOfEach entries) : entry ∈ entries := by
  have general (start : List (Row × Witness)) (inside : entry ∈ entries.foldl
      (fun kept entry => if kept.any (·.1 == entry.1) then kept else kept ++ [entry]) start) :
      entry ∈ start ∨ entry ∈ entries := by
    clear kept
    induction entries generalizing start with
    | nil => exact Or.inl inside
    | cons first rest induction =>
      rcases induction _ inside with before | later
      · dsimp only at before
        split at before
        · exact Or.inl before
        · rcases List.mem_append.1 before with before | here
          · exact Or.inl before
          · exact Or.inr (by simp_all)
      · exact Or.inr (List.mem_cons_of_mem first later)
  rcases general [] kept with impossible | inside
  · simp at impossible
  · exact inside

theorem exists_firstOfEach {entries : List (Row × Witness)} {entry : Row × Witness}
    (member : entry ∈ entries) : ∃ kept ∈ firstOfEach entries, kept.1 = entry.1 := by
  have general (start : List (Row × Witness))
      (either : entry ∈ entries ∨ ∃ kept ∈ start, kept.1 = entry.1) :
      ∃ kept ∈ entries.foldl
        (fun kept entry => if kept.any (·.1 == entry.1) then kept else kept ++ [entry]) start,
        kept.1 = entry.1 := by
    clear member
    induction entries generalizing start with
    | nil => simpa using either
    | cons first rest induction =>
      refine induction _ ?_
      rcases either with member | ⟨kept, before, same⟩
      · rcases List.mem_cons.1 member with rfl | later
        · refine Or.inr ?_
          dsimp only
          split
          next repeated =>
            obtain ⟨kept, before, same⟩ := List.any_eq_true.1 repeated
            exact ⟨kept, before, by simpa using same⟩
          next => exact ⟨entry, by simp, rfl⟩
        · exact Or.inl later
      · refine Or.inr ⟨kept, ?_, same⟩
        dsimp only
        split
        · exact before
        · exact List.mem_append_left _ before
  exact general [] (Or.inl member)

def survivor (p : Program) (assessed : List Assessed) (a : Assessed) : Option (Row × Witness) := do
  let w ← a.verdict.witness?
  let b ← p.branches[a.branch]?
  if extendedElsewhere p assessed b a.row then none else some (a.row.visible, w)

theorem survivor_iff {assessed : List Assessed} {a : Assessed} {entry : Row × Witness} :
    survivor p assessed a = some entry ↔ ∃ b, p.branches[a.branch]? = some b ∧
      a.verdict = .accepted entry.2 ∧ entry.1 = a.row.visible ∧
        extendedElsewhere p assessed b a.row = false := by
  constructor
  · intro made
    obtain ⟨w, verdict, chosen⟩ := Option.bind_eq_some_iff.1 made
    obtain ⟨b, branch, kept⟩ := Option.bind_eq_some_iff.1 chosen
    split at kept
    next => simp at kept
    next free =>
      obtain rfl := Option.some.inj kept
      refine ⟨b, branch, ?_, rfl, by simpa using free⟩
      unfold Verdict.witness? at verdict
      split at verdict
      next w' same => rw [same, Option.some.inj verdict]
      next => simp at verdict
  · rintro ⟨b, branch, verdict, row, free⟩
    simp [survivor, verdict, Verdict.witness?, branch, free, ← row]

theorem mem_surviving_iff {assessed : List Assessed} {entry : Row × Witness} :
    entry ∈ surviving p assessed ↔ ∃ a ∈ assessed, ∃ b, p.branches[a.branch]? = some b ∧
      a.verdict = .accepted entry.2 ∧ entry.1 = a.row.visible ∧
        extendedElsewhere p assessed b a.row = false :=
  List.mem_filterMap.trans (exists_congr fun _ => and_congr_right fun _ => survivor_iff)

theorem judge_accepted {b : Branch} {w kept : Witness} (verdict : r.judge b w = .accepted kept) :
    kept = w ∧ w.view.holds r.encoder.hasher b.assertion = .ok true := by
  unfold judge at verdict
  split at verdict
  next consistent =>
    split at verdict
    next none =>
      obtain rfl := Verdict.accepted.inj verdict
      refine ⟨rfl, ?_⟩
      have equalities := (View.holds_all_iff _).1 ((View.check_toBool _).1 consistent)
      have filters : ∀ f ∈ b.filters, w.view.holds r.encoder.hasher f.assertion = .ok true := by
        intro f member
        have passes := List.filter_eq_nil_iff.1 none f member
        exact (View.check_toBool _).1 (by simpa [accepts] using passes)
      rw [Branch.assertion, View.holds_all_iff, List.forall_mem_append]
      refine ⟨equalities, ?_⟩
      simp only [List.mem_singleton, forall_eq, Branch.filterAssertion, View.holds_all_iff,
        List.forall_mem_map]
      exact filters
    next => simp at verdict
  next => simp at verdict

theorem mem_witnesses {resolution : Resolution} (resolved : r.resolve p = .ok resolution)
    {w : Witness} (member : w ∈ resolution.witnesses) :
    ∃ b candidates c, p.branches[w.branch]? = some b ∧
      Candidate.ofBranch r.index r.encoder b = .ok candidates ∧ c ∈ candidates ∧
        r.Builds p w.branch b.hints c w ∧
          w.view.holds r.encoder.hasher b.assertion = .ok true := by
  obtain ⟨assessed, all, witnesses⟩ := resolve_ok resolved
  rw [witnesses] at member
  obtain ⟨entry, kept, rfl⟩ := List.mem_map.1 member
  obtain ⟨a, inside, b, branch, verdict, _, _⟩ := mem_surviving_iff.1 (mem_of_mem_firstOfEach kept)
  obtain ⟨b', candidates, c, found, made, candidate, here⟩ := (all a).1 inside
  obtain rfl := Option.some.inj (branch.symm.trans found)
  rcases (assess_ok here).2.2 with ⟨w, built, judged⟩ | ⟨fault, _, skipped⟩
  · obtain ⟨rfl, holds⟩ := judge_accepted (judged.symm.trans verdict)
    have builds := witness_ok built
    exact ⟨b, candidates, c, by rw [builds.branch]; exact branch, made, candidate,
      by rw [builds.branch]; exact builds, holds⟩
  · rw [skipped] at verdict
    cases verdict

end Resolver

end AttestedQuery
