import AttestedQuery.Proofs.Returned
import AttestedQuery.Proofs.Skipping

/-!
# The rows that surface

A resolution goes through all candidates in one queue, by branch and then in the order of the join.
A candidate survives where its structural constraints and its filters hold over its witness and no
row of a branch that its own one is exclusive of extends its row. The witnesses of a resolution are
those of the first survivor with each user-visible row. A candidate that does not survive takes
nothing from the others, whichever branch they come from.
-/

set_option autoImplicit false

namespace AttestedQuery

/-! ## Related lists, place by place -/

section Places

variable {α β : Type} {related : α → β → Prop} {xs : List α} {ys : List β} {place : Nat}

theorem exists_related_left (each : List.Forall₂ related xs ys) {x : α}
    (here : xs[place]? = some x) : ∃ y, ys[place]? = some y ∧ related x y := by
  obtain ⟨inside, rfl⟩ := List.getElem?_eq_some_iff.1 here
  exact ⟨_, List.getElem?_eq_getElem (each.length_eq ▸ inside), each.get inside _⟩

theorem exists_related_right (each : List.Forall₂ related xs ys) {y : β}
    (here : ys[place]? = some y) : ∃ x, xs[place]? = some x ∧ related x y :=
  exists_related_left each.flip here

end Places

namespace Resolver

/-! ## Survivors -/

def queue (r : Resolver) (p : Program) : List (Nat × Branch × Candidate) :=
  p.branches.zipIdx.flatMap fun (b, i) => (r.candidates b).map fun c => (i, b, c)

/-- A witness of a candidate of a branch, over which the bindings and the equalities of the branch
hold. -/
structure Consistent (r : Resolver) (p : Program) (i : Nat) (b : Branch) (c : Candidate)
    (w : Witness) : Prop where
  built : r.witness p i b.hints c = .ok w
  structural : ∀ a ∈ b.bindings ++ b.equalities, w.view.holds r.encoder.hasher a = .ok true

/-- A branch that another is exclusive of has a candidate whose row agrees with every user-visible
binding of a row. Filters that both branches share do not count against the candidate. -/
def Extended (r : Resolver) (p : Program) (b : Branch) (row : Row) : Prop :=
  ∃ j ∈ b.exclusiveOf, ∃ o c w, (j, o, c) ∈ r.queue p ∧ r.Consistent p j o c w ∧
    (∀ f ∈ o.filters, f.number ∉ b.filters.map (·.number) →
      w.view.holds r.encoder.hasher f.assertion = .ok true) ∧ row.visible.Within c.row

/-- A candidate that satisfies the structural constraints and all filters of its branch, and whose
row has no extension in a branch that its own one is exclusive of. -/
structure Survives (r : Resolver) (p : Program) (i : Nat) (b : Branch) (c : Candidate)
    (w : Witness) : Prop where
  consistent : r.Consistent p i b c w
  filters : ∀ f ∈ b.filters, w.view.holds r.encoder.hasher f.assertion = .ok true
  free : ¬r.Extended p b c.row

def Surfaces (r : Resolver) (p : Program) (place : Nat) (w : Witness) : Prop :=
  ∃ i b c, (r.queue p)[place]? = some (i, b, c) ∧ r.Survives p i b c w ∧
    ∀ before < place, ∀ j o other v, (r.queue p)[before]? = some (j, o, other) →
      r.Survives p j o other v → other.row.visible ≠ c.row.visible

/-- Witnesses of the places of the queue that surface, one for each in its order. Every survivor has
the row of exactly one of these places. -/
structure SurfaceOnce (r : Resolver) (p : Program) (witnesses : List Witness) : Prop where
  places : ∃ places : List Nat, places.Pairwise (· < ·) ∧
    List.Forall₂ (r.Surfaces p) places witnesses ∧ ∀ place w, r.Surfaces p place w → place ∈ places
  once : ∀ place i b c w, (r.queue p)[place]? = some (i, b, c) → r.Survives p i b c w →
    ∃! first, first ≤ place ∧ ∃ j o other v, (r.queue p)[first]? = some (j, o, other) ∧
      other.row.visible = c.row.visible ∧ r.Surfaces p first v

/-! ## The first entry of each row -/

section Firsts

variable {α : Type} {keep : α → Option (Row × Witness)} {elements : List α} {place : Nat}
  {entry : Row × Witness}

structure FirstAt (keep : α → Option (Row × Witness)) (elements : List α) (place : Nat)
    (entry : Row × Witness) : Prop where
  kept : elements[place]?.bind keep = some entry
  fresh : ∀ before < place, ∀ other, elements[before]?.bind keep = some other → other.1 ≠ entry.1

theorem FirstAt.inside (first : FirstAt keep elements place entry) : place < elements.length := by
  obtain ⟨element, found, _⟩ := Option.bind_eq_some_iff.1 first.kept
  exact (List.getElem?_eq_some_iff.1 found).1

/-- What is first in a list is first in any list that starts with it, and the other way round. -/
theorem firstAt_append_iff (last : α) (inside : place < elements.length) :
    FirstAt keep (elements ++ [last]) place entry ↔ FirstAt keep elements place entry := by
  have same {before : Nat} (earlier : before ≤ place) :
      (elements ++ [last])[before]? = elements[before]? :=
    List.getElem?_append_left (Nat.lt_of_le_of_lt earlier inside)
  constructor
  · rintro ⟨kept, fresh⟩
    exact ⟨same le_rfl ▸ kept, fun before earlier other held =>
      fresh before earlier other (same earlier.le ▸ held)⟩
  · rintro ⟨kept, fresh⟩
    exact ⟨same le_rfl ▸ kept, fun before earlier other held =>
      fresh before earlier other (same earlier.le ▸ held)⟩

/-- One more entry is kept exactly where its row is new. -/
theorem firstOfEach_append_singleton (entries : List (Row × Witness)) (entry : Row × Witness) :
    firstOfEach (entries ++ [entry]) = if (firstOfEach entries).any (·.1 == entry.1) then
      firstOfEach entries else firstOfEach entries ++ [entry] := by
  rw [firstOfEach, List.foldl_append]
  rfl

structure FirstPlaces (keep : α → Option (Row × Witness)) (elements : List α) (places : List Nat)
    (entries : List (Row × Witness)) : Prop where
  ascending : places.Pairwise (· < ·)
  each : List.Forall₂ (FirstAt keep elements) places entries
  all : ∀ place entry, FirstAt keep elements place entry → place ∈ places

namespace FirstPlaces

variable {places : List Nat} {entries : List (Row × Witness)} {last : α}

theorem inside (firsts : FirstPlaces keep elements places entries) :
    ∀ place ∈ places, place < elements.length := by
  intro place member
  obtain ⟨k, here⟩ := List.getElem?_of_mem member
  obtain ⟨entry, _, first⟩ := exists_related_left firsts.each here
  exact first.inside

theorem before (firsts : FirstPlaces keep elements places entries) :
    List.Forall₂ (FirstAt keep (elements ++ [last])) places entries :=
  firsts.each.imp fun _ _ first => (firstAt_append_iff last first.inside).2 first

theorem mem_or_last (firsts : FirstPlaces keep elements places entries)
    (first : FirstAt keep (elements ++ [last]) place entry) :
    place ∈ places ∨ place = elements.length := by
  have short := first.inside
  rw [List.length_append, List.length_singleton] at short
  exact (Nat.lt_succ_iff_lt_or_eq.1 short).imp_left fun less =>
    firsts.all place entry ((firstAt_append_iff last less).1 first)

theorem unchanged (firsts : FirstPlaces keep elements places entries)
    (repeats : ∀ entry, ¬FirstAt keep (elements ++ [last]) elements.length entry) :
    FirstPlaces keep (elements ++ [last]) places entries where
  ascending := firsts.ascending
  each := firsts.before
  all _ entry first := (firsts.mem_or_last first).resolve_right fun here =>
    repeats entry (here ▸ first)

theorem extended (firsts : FirstPlaces keep elements places entries)
    (first : FirstAt keep (elements ++ [last]) elements.length entry) :
    FirstPlaces keep (elements ++ [last]) (places ++ [elements.length]) (entries ++ [entry]) where
  ascending := List.pairwise_append.2
    ⟨firsts.ascending, List.pairwise_singleton _ _, by simpa using firsts.inside⟩
  each := List.rel_append firsts.before (.cons first .nil)
  all place other here := List.mem_append.2 <|
    (firsts.mem_or_last here).imp_right List.mem_singleton.2

end FirstPlaces

theorem exists_firstPlaces (keep : α → Option (Row × Witness)) (elements : List α) :
    ∃ places, FirstPlaces keep elements places (firstOfEach (elements.filterMap keep)) := by
  induction elements using List.reverseRecOn with
  | nil =>
    refine ⟨[], List.Pairwise.nil, .nil, fun place entry first => ?_⟩
    exact absurd first.inside (Nat.not_lt_zero place)
  | append_singleton elements last induction =>
    obtain ⟨places, firsts⟩ := induction
    have here : (elements ++ [last])[elements.length]?.bind keep = keep last := by simp
    rw [List.filterMap_append]
    cases kept : keep last with
    | none =>
      rw [List.filterMap_cons_none kept, List.filterMap_nil, List.append_nil]
      refine ⟨places, firsts.unchanged fun entry first => ?_⟩
      cases (here.trans kept).symm.trans first.kept
    | some entry =>
      rw [List.filterMap_cons_some kept, List.filterMap_nil, firstOfEach_append_singleton]
      split
      next repeated =>
        refine ⟨places, firsts.unchanged fun other first => ?_⟩
        obtain rfl := Option.some.inj ((here.trans kept).symm.trans first.kept)
        obtain ⟨earlier, among, row⟩ := List.any_eq_true.1 repeated
        obtain ⟨k, held⟩ := List.getElem?_of_mem among
        obtain ⟨place, listed, earliest⟩ := exists_related_right firsts.before held
        exact first.fresh place (firsts.inside place (List.mem_of_getElem? listed)) earlier
          earliest.kept (eq_of_beq row)
      next new =>
        refine ⟨_, firsts.extended ⟨here.trans kept, fun place earlier other held same => ?_⟩⟩
        rw [List.getElem?_append_left earlier] at held
        obtain ⟨element, found, made⟩ := Option.bind_eq_some_iff.1 held
        obtain ⟨first, among, row⟩ := exists_firstOfEach
          (List.mem_filterMap.2 ⟨element, List.mem_of_getElem? found, made⟩)
        exact new (List.any_eq_true.2 ⟨first, among, beq_iff_eq.2 (row.trans same)⟩)

end Firsts

/-! ## Verdicts -/

section Verdicts

variable {r : Resolver} {p : Program} {i : Nat} {b : Branch} {c : Candidate} {w : Witness}

/-- The filters that a judged row does not pass are listed where the structural constraints hold. -/
theorem failed_judge (r : Resolver) (b : Branch) (w : Witness) : (r.judge b w).failed? =
    if r.accepts w (.all (b.bindings ++ b.equalities)) then
      some ((b.filters.filter fun f => !(r.accepts w f.assertion)).map (·.number))
    else none := by
  unfold judge
  split
  next =>
    split
    next none => rw [none]; rfl
    next => rfl
  next => rfl

theorem holds_assertion_iff {v : View} {h : Hasher} : v.holds h b.assertion = .ok true ↔
    (∀ a ∈ b.bindings ++ b.equalities, v.holds h a = .ok true) ∧
      ∀ f ∈ b.filters, v.holds h f.assertion = .ok true := by
  simp only [Branch.assertion, Branch.filterAssertion, View.holds_all_iff, List.forall_mem_append,
    List.mem_singleton, forall_eq, List.forall_mem_map]

/-- A candidate is accepted with a witness over which everything holds that its branch asserts. -/
theorem attempt_accepted_iff : (r.attempt p i b c).verdict = .accepted w ↔
    r.Consistent p i b c w ∧
      ∀ f ∈ b.filters, w.view.holds r.encoder.hasher f.assertion = .ok true := by
  unfold attempt
  constructor
  · intro verdict
    split at verdict
    next other built =>
      obtain ⟨rfl, holds⟩ := judge_accepted verdict
      obtain ⟨structural, filters⟩ := holds_assertion_iff.1 holds
      exact ⟨⟨built, structural⟩, filters⟩
    next => cases verdict
  · rintro ⟨⟨built, structural⟩, filters⟩
    have none : b.filters.filter (fun f => !(r.accepts w f.assertion)) = [] := by
      refine List.filter_eq_nil_iff.2 fun f member => ?_
      simpa using accepts_iff.2 (filters f member)
    simp only [built, judge, accepts_iff.2 ((View.holds_all_iff _).2 structural), if_true, none]

/-- A candidate counts against another branch where its structural constraints hold and every
filter that the branch does not share. -/
theorem attempt_beside (shared : List Nat) :
    (r.attempt p i b c).verdict.failed?.any (fun failed => failed.all shared.contains) = true ↔
      ∃ w, r.Consistent p i b c w ∧ ∀ f ∈ b.filters, f.number ∉ shared →
        w.view.holds r.encoder.hasher f.assertion = .ok true := by
  unfold attempt
  split
  next w built =>
    have only : (∃ v, r.Consistent p i b c v ∧ ∀ f ∈ b.filters, f.number ∉ shared →
          v.view.holds r.encoder.hasher f.assertion = .ok true) ↔
        (∀ a ∈ b.bindings ++ b.equalities, w.view.holds r.encoder.hasher a = .ok true) ∧
          ∀ f ∈ b.filters, f.number ∉ shared →
            w.view.holds r.encoder.hasher f.assertion = .ok true := by
      constructor
      · rintro ⟨v, ⟨again, structural⟩, filters⟩
        obtain rfl := Except.ok.inj (built.symm.trans again)
        exact ⟨structural, filters⟩
      · rintro ⟨structural, filters⟩
        exact ⟨w, ⟨built, structural⟩, filters⟩
    rw [only, failed_judge, ← View.holds_all_iff, ← accepts_iff]
    split
    next consistent =>
      simp only [Option.any_some, List.all_map, List.all_filter, List.all_eq_true, consistent,
        true_and, Function.comp_apply, List.contains_iff_mem, Bool.not_not, Bool.or_eq_true,
        ← accepts_iff]
      exact forall₂_congr fun f _ => or_iff_not_imp_right
    next inconsistent => simp [inconsistent]
  next fault failed =>
    simp only [Verdict.failed?, Option.any_none, Bool.false_eq_true, false_iff]
    rintro ⟨w, ⟨built, _⟩, _⟩
    rw [failed] at built
    cases built

end Verdicts

/-! ## The queue, attempted -/

section Queue

variable {r : Resolver} {p : Program}

theorem mem_queue_iff {i : Nat} {b : Branch} {c : Candidate} :
    (i, b, c) ∈ r.queue p ↔ p.branches[i]? = some b ∧ c ∈ r.candidates b := by
  simp only [queue, List.mem_flatMap, List.mem_map, Prod.exists, Prod.mk.injEq,
    List.mem_zipIdx_iff_getElem?]
  constructor
  · rintro ⟨_, _, branch, _, among, rfl, rfl, rfl⟩
    exact ⟨branch, among⟩
  · rintro ⟨branch, among⟩
    exact ⟨b, i, branch, c, among, rfl, rfl, rfl⟩

theorem attempts_eq (r : Resolver) (p : Program) :
    r.attempts p = (r.queue p).map fun (i, b, c) => r.attempt p i b c := by
  simp only [attempts, queue, List.map_flatMap, List.map_map]
  rfl

theorem assess_eq {i : Nat} {b : Branch} {c : Candidate} {a : Assessed}
    (assessed : r.assess p i b c = .ok a) : a = r.attempt p i b c := by
  obtain ⟨branch, row, verdict⟩ := a
  obtain ⟨rfl, rfl, ⟨w, built, rfl⟩ | ⟨fault, failed, rfl⟩⟩ := assess_ok assessed
  · simp only [attempt, built]
  · simp only [attempt, failed]

theorem resolve_eq {resolution : Resolution} (resolved : r.resolve p = .ok resolution) :
    resolution = r.separately p := by
  obtain ⟨byBranch, each, whole⟩ := bind_ok_iff.1 resolved
  obtain rfl := pure_ok_iff.1 whole
  have branches : byBranch = p.branches.zipIdx.map fun (b, i) =>
      (r.candidates b).map (r.attempt p i b) := by
    rw [← List.forall₂_eq_eq_eq, List.forall₂_map_right_iff]
    refine ((mapM_ok_iff _ _ _).1 each).flip.imp ?_
    rintro list ⟨b, i⟩ made
    obtain ⟨cs, joined, assessed⟩ := bind_ok_iff.1 made
    have same : r.candidates b = cs := by rw [candidates, joined]; rfl
    change list = (r.candidates b).map (r.attempt p i b)
    rw [same, ← List.forall₂_eq_eq_eq, List.forall₂_map_right_iff]
    exact ((mapM_ok_iff _ _ _).1 assessed).flip.imp fun a c here => assess_eq here
  have all : byBranch.flatten = r.attempts p := by rw [branches, attempts, List.flatMap_def]
  rw [all]
  rfl

/-- The resolver finds an extension of a row exactly where there is one. -/
theorem extendedElsewhere_iff_extended (r : Resolver) (p : Program) (b : Branch) (row : Row) :
    extendedElsewhere p (r.attempts p) b row = true ↔ r.Extended p b row := by
  simp only [extendedElsewhere, attempts_eq, List.any_map, List.any_eq_true, Prod.exists,
    Function.comp_apply, Bool.and_eq_true, beq_iff_eq, Row.extendsTo_iff, attempt_beside]
  refine exists_congr fun j => and_congr_right fun _ => ?_
  -- The filters of the other branch that do not count are those that both branches have.
  have shared {o : Branch} (branch : p.branches[j]? = some o) {f : NumberedFilter}
      (member : f ∈ o.filters) :
      f.number ∈ ((p.branches[j]?.map fun o => o.filters.map (·.number)).getD []).filter
        (b.filters.map (·.number)).contains ↔ f.number ∈ b.filters.map (·.number) := by
    rw [branch, Option.map_some, Option.getD_some, List.mem_filter, List.contains_iff_mem]
    exact and_iff_right (List.mem_map_of_mem member)
  constructor
  · rintro ⟨i, o, c, queued, ⟨rfl, w, consistent, passes⟩, within⟩
    refine ⟨o, c, w, queued, consistent, fun f inside own => ?_, within⟩
    exact passes f inside ((shared (mem_queue_iff.1 queued).1 inside).not.2 own)
  · rintro ⟨o, c, w, queued, consistent, passes, within⟩
    refine ⟨j, o, c, queued, ⟨rfl, w, consistent, fun f inside own => ?_⟩, within⟩
    exact passes f inside ((shared (mem_queue_iff.1 queued).1 inside).not.1 own)

def entry? (r : Resolver) (p : Program) (queued : Nat × Branch × Candidate) :
    Option (Row × Witness) :=
  survivor p (r.attempts p) (r.attempt p queued.1 queued.2.1 queued.2.2)

theorem separately_witnesses (r : Resolver) (p : Program) :
    (r.separately p).witnesses = (firstOfEach ((r.queue p).filterMap (r.entry? p))).map (·.2) := by
  have kept (keep : Assessed → Option (Row × Witness)) : (r.attempts p).filterMap keep =
      (r.queue p).filterMap fun queued => keep (r.attempt p queued.1 queued.2.1 queued.2.2) := by
    rw [attempts_eq, List.filterMap_map]
    rfl
  exact congrArg (fun entries => (firstOfEach entries).map (·.2)) (kept _)

theorem entry_iff {place : Nat} {entry : Row × Witness} :
    (r.queue p)[place]?.bind (r.entry? p) = some entry ↔
      ∃ i b c, (r.queue p)[place]? = some (i, b, c) ∧ r.Survives p i b c entry.2 ∧
        entry.1 = c.row.visible := by
  simp only [Option.bind_eq_some_iff, entry?, survivor_iff, attempt_accepted_iff,
    Bool.eq_false_iff, ne_eq, extendedElsewhere_iff_extended, Prod.exists]
  refine exists_congr fun i => exists_congr fun b => exists_congr fun c =>
    and_congr_right fun here => ?_
  have branch := (mem_queue_iff.1 (List.mem_of_getElem? here)).1
  constructor
  · rintro ⟨o, numbered, ⟨consistent, filters⟩, row, free⟩
    obtain rfl := Option.some.inj (branch.symm.trans numbered)
    exact ⟨⟨consistent, filters, free⟩, row⟩
  · rintro ⟨⟨consistent, filters, free⟩, row⟩
    exact ⟨b, branch, ⟨consistent, filters⟩, row, free⟩

theorem surfaces_iff {place : Nat} {w : Witness} :
    r.Surfaces p place w ↔ ∃ row, FirstAt (r.entry? p) (r.queue p) place (row, w) := by
  constructor
  · rintro ⟨i, b, c, here, survives, first⟩
    refine ⟨c.row.visible, entry_iff.2 ⟨i, b, c, here, survives, rfl⟩, ?_⟩
    intro before earlier other kept
    obtain ⟨j, o, d, found, survived, row⟩ := entry_iff.1 kept
    exact row ▸ first before earlier j o d other.2 found survived
  · rintro ⟨row, kept, fresh⟩
    obtain ⟨i, b, c, here, survives, rfl⟩ := entry_iff.1 kept
    refine ⟨i, b, c, here, survives, fun before earlier j o other v found survived => ?_⟩
    exact fresh before earlier (other.row.visible, v)
      (entry_iff.2 ⟨j, o, other, found, survived, rfl⟩)

end Queue

theorem existsUnique_surfaces {r : Resolver} {p : Program} {place i : Nat} {b : Branch}
    {c : Candidate} {w : Witness} (here : (r.queue p)[place]? = some (i, b, c))
    (survives : r.Survives p i b c w) :
    ∃! first, first ≤ place ∧ ∃ j o other v, (r.queue p)[first]? = some (j, o, other) ∧
      other.row.visible = c.row.visible ∧ r.Surfaces p first v := by
  classical
  let Repeats (first : Nat) : Prop := ∃ j o other v, (r.queue p)[first]? = some (j, o, other) ∧
    r.Survives p j o other v ∧ other.row.visible = c.row.visible
  have some : ∃ first, Repeats first := ⟨place, i, b, c, w, here, survives, rfl⟩
  refine ⟨Nat.find some, ⟨Nat.find_min' some ⟨i, b, c, w, here, survives, rfl⟩, ?_⟩, ?_⟩
  · obtain ⟨j, o, other, v, found, survived, row⟩ := Nat.find_spec some
    refine ⟨j, o, other, v, found, row, j, o, other, found, survived, ?_⟩
    intro before earlier k q third u there again same
    exact Nat.find_min some earlier ⟨k, q, third, u, there, again, same.trans row⟩
  · rintro first ⟨_, j, o, other, v, found, row, surfaces⟩
    obtain ⟨j', o', other', found', survived, fresh⟩ := surfaces
    obtain ⟨rfl, rfl, rfl⟩ : j = j' ∧ o = o' ∧ other = other' := by
      simpa using found.symm.trans found'
    have least := Nat.find_min' some (m := first) ⟨j, o, other, v, found, survived, row⟩
    refine (Nat.lt_or_ge (Nat.find some) first).elim (fun earlier => ?_) fun later =>
      Nat.le_antisymm later least
    obtain ⟨k, q, third, u, there, again, same⟩ := Nat.find_spec some
    exact absurd (same.trans row.symm) (fresh _ earlier k q third u there again)

theorem separately_surfaces (r : Resolver) (p : Program) :
    r.SurfaceOnce p (r.separately p).witnesses := by
  obtain ⟨places, firsts⟩ := exists_firstPlaces (r.entry? p) (r.queue p)
  refine ⟨⟨places, firsts.ascending, ?_, fun place w surfaces => ?_⟩,
    fun place i b c w here survives => existsUnique_surfaces here survives⟩
  · rw [separately_witnesses, List.forall₂_map_right_iff]
    exact firsts.each.imp fun place entry first => surfaces_iff.2 ⟨entry.1, first⟩
  · obtain ⟨row, first⟩ := surfaces_iff.1 surfaces
    exact firsts.all place _ first

end Resolver

/-- A resolution returns one witness for each user-visible row of a survivor, that of the first
survivor with this row, in the order of the queue, and no other. There is a resolution unless a
candidate is to publish a literal over the limit. -/
theorem surviving_rows_surface_once (config : Config) (d : Dataset) (r : Resolver)
    (query : NormalQuery) (p : Program) (opened : Resolver.ofDataset d config = .ok r)
    (compiled : Program.ofNormal config query = .ok p) :
    (¬r.PublishesOverlong p → ∃ resolution, r.resolve p = .ok resolution) ∧
      ∀ resolution, r.resolve p = .ok resolution → r.SurfaceOnce p resolution.witnesses := by
  obtain ⟨fragments, compiles⟩ := Program.ofNormal_ok compiled
  obtain rfl := Resolver.ofDataset_ok opened
  refine ⟨fun fits => ⟨(d.resolver config).separately p, ?_⟩,
    fun resolution resolved => Resolver.resolve_eq resolved ▸ Resolver.separately_surfaces _ p⟩
  exact Resolver.resolve_separately (fun b member => ⟨_, compiles.candidates member⟩) fits

def sampleTwiceText : String :=
  "SELECT ?s WHERE \x7b \x7b ?s ?p ?o \x7d UNION \x7b ?s ?p ?o \x7d \x7d"

set_option maxRecDepth 100000 in
theorem sampleTwice_resolves : (sampleOpened sampleTwiceText).toOption.any (fun (r, p) =>
    (r.queue p).length == 2 &&
      (r.resolve p).toOption.any fun resolution => resolution.witnesses.length == 1) = true := by
  simp only [sampleOpened, Resolver.ofDataset, Program.compile, Program.ofNormal, Config.encoder_eq]
  decide +kernel

/-- Both branches find the row of the sample quad, and it surfaces once. -/
theorem surviving_rows_surface_once_twice : ∃ r query p resolution,
    Resolver.ofDataset sampleDataset sampleConfig = .ok r ∧
    Program.ofNormal sampleConfig query = .ok p ∧ (r.queue p).length = 2 ∧
    r.resolve p = .ok resolution ∧ resolution.witnesses.length = 1 ∧
    r.SurfaceOnce p resolution.witnesses := by
  obtain ⟨⟨r, p⟩, made, outcome⟩ := exists_ok_of_any sampleTwice_resolves
  obtain ⟨opened, compiled⟩ := sampleOpened_ok made
  obtain ⟨query, compiled⟩ := Program.compile_ok compiled
  obtain ⟨two, found⟩ := Bool.and_eq_true_iff.1 outcome
  obtain ⟨resolution, resolved, single⟩ := exists_ok_of_any found
  have surfaces := (surviving_rows_surface_once sampleConfig sampleDataset _ query _ opened
    compiled).2 resolution resolved
  exact ⟨_, query, _, resolution, opened, compiled, eq_of_beq two, resolved, eq_of_beq single,
    surfaces⟩

end AttestedQuery
