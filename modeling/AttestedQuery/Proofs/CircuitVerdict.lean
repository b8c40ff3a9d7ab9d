import AttestedQuery.Proofs.CircuitValues

/-!
# The verdict of a printed binding check

The conjuncts of a single branch are required one by one; several branches are named first, and one
of the names is required; no branch at all is a required falsehood. In each case the requirements
are met exactly where some branch holds.
-/

set_option autoImplicit false

namespace AttestedQuery.Circuit

def branchName (index : Nat) : String := "branch_" ++ shownNat index

theorem branchName_injective {i j : Nat} (same : branchName i = branchName j) : i = j := by
  have letters := congrArg String.toList same
  simp only [branchName, String.toList_append] at letters
  have digits := List.append_cancel_left letters
  rw [shownNat_toList, shownNat_toList] at digits
  exact Decimal.ofNat_injective digits

/-- The names of branches are none of the names of arguments. -/
theorem branchName_ne {name : String} (short : name.toList.take 7 ≠ "branch_".toList) (i : Nat) :
    name ≠ branchName i := by
  rintro rfl
  rw [branchName, String.toList_append] at short
  exact short rfl

section Verdict

variable {calls : Calls} {scope : Scope} {h : Hasher} {v : View}

theorem Scope.with_self (x : String) (d : Datum) : scope.with x d x = some d := if_pos rfl

theorem Scope.with_other {x y : String} (other : y ≠ x) (d : Datum) :
    scope.with x d y = scope y :=
  if_neg other

theorem Scope.Shows.withBranch (shows : scope.Shows v) (i : Nat) (d : Datum) :
    (scope.with (branchName i) d).Shows v where
  slots := (with_other (branchName_ne (by decide) i) d).trans shows.slots
  values := by
    obtain ⟨members, record, each⟩ := shows.values
    exact ⟨members, (with_other (branchName_ne (by decide) i) d).trans record, each⟩
  hints some := (with_other (branchName_ne (by decide) i) d).trans (shows.hints some)

/-! ## One branch -/

theorem run_require {condition : Phrase} {b : Bool} {later : List Clause}
    (worth : condition.value calls scope = some (.truth b)) :
    Clause.run calls scope (.require condition :: later) =
      (Clause.run calls scope later).map fun run => (run.1, b && run.2) := by
  rw [Clause.run, worth]
  cases Clause.run calls scope later <;> rfl

theorem run_requirements {phrases : List Phrase} {truths : List Bool}
    (worth : AreWorth calls scope phrases truths) :
    Clause.run calls scope (phrases.map .require) = some (scope, truths.all id) := by
  induction worth with
  | nil => rfl
  | cons here _ induction =>
    rw [List.map_cons, run_require here, induction]
    rfl

theorem truth_conjunctsOf (a : Assertion) : (conjunctsOf a).all (v.truth h) = v.truth h a := by
  cases a with
  | and parts => exact (truth_and parts).symm
  | true => rfl
  | false | eq | compare | not | or => simp [conjunctsOf]

/-! ## Several branches -/

theorem run_define {x : String} {value : Phrase} {d : Datum} {later : List Clause}
    (worth : value.value calls scope = some d) :
    Clause.run calls scope (.define x value :: later) = Clause.run calls (scope.with x d) later := by
  rw [Clause.run, worth]
  rfl

def naming (entry : Branch × Nat) : Clause :=
  .define (branchName entry.2) (TruthCode.ofAssertion entry.1.assertion).phrase

structure Served (calls : Calls) (h : Hasher) (v : View) (a : Assertion) : Prop where
  reads : a.Reads (v.Readable h)
  filled : (TruthCode.ofAssertion a).Filled
  orders : calls.Serve (TruthCode.ofAssertion a).hasOrder

theorem run_namings (hashes : calls.Hashes h) {branches : List Branch}
    (served : ∀ b ∈ branches, Served calls h v b.assertion) (later : List Clause) :
    ∀ (first : Nat) (scope : Scope), scope.Shows v → ∃ named : Scope,
      Clause.run calls scope ((branches.zipIdx first).map naming ++ later) =
          Clause.run calls named later ∧
        (∀ i < first, named (branchName i) = scope (branchName i)) ∧
        ∀ i b, branches[i]? = some b →
          named (branchName (first + i)) = some (.truth (v.truth h b.assertion)) := by
  induction branches with
  | nil => exact fun first scope _ => ⟨scope, rfl, fun _ _ => rfl, by simp⟩
  | cons branch rest induction =>
    intro first scope shows
    obtain ⟨here, others⟩ := List.forall_mem_cons.1 served
    have worth := value_ofAssertion shows hashes _ here.reads here.filled here.orders
    obtain ⟨named, ran, kept, given⟩ := induction others (first + 1) _
      (shows.withBranch first (.truth (v.truth h branch.assertion)))
    refine ⟨named, ?_, fun i below => ?_, fun i b found => ?_⟩
    · rw [List.zipIdx_cons, List.map_cons, List.cons_append, naming, run_define worth, ran]
    · rw [kept i (by omega)]
      exact Scope.with_other (fun same => by have := branchName_injective same; omega) _
    · cases i with
      | zero =>
        obtain rfl := Option.some.inj found
        rw [Nat.add_zero, kept first (by omega), Scope.with_self]
      | succ i =>
        have next := given i b found
        rwa [show first + 1 + i = first + (i + 1) by omega] at next

theorem phrases_eq_map (parts : List TruthCode) :
    TruthCode.phrases parts = parts.map TruthCode.phrase := by
  induction parts with
  | nil => rfl
  | cons part rest induction => rw [TruthCode.phrases, induction, List.map_cons]

theorem ofAssertions_eq_map (parts : List Assertion) :
    TruthCode.ofAssertions parts = parts.map TruthCode.ofAssertion := by
  induction parts with
  | nil => rfl
  | cons part rest induction => rw [TruthCode.ofAssertions, induction, List.map_cons]

/-- One of several names is required, and a falsehood where there is none. -/
theorem run_someBranch {branches : List Branch} {verdict : Branch → Bool}
    (given : ∀ i b, branches[i]? = some b → scope (branchName i) = some (.truth (verdict b))) :
    Clause.run calls scope [(someBranch branches.length).clause] =
      some (scope, branches.any verdict) := by
  cases branches with
  | nil => rfl
  | cons first rest =>
    have worth : AreWorth calls scope (TruthCode.phrases ((List.range (rest.length + 1)).map .branch))
        ((first :: rest).map verdict) := by
      rw [AreWorth, phrases_eq_map, List.map_map, List.forall₂_map_left_iff,
        List.forall₂_map_right_iff, List.forall₂_iff_get]
      refine ⟨by simp, fun i inside short => ?_⟩
      simp only [List.get_eq_getElem, List.getElem_range]
      exact given i _ (List.getElem?_eq_getElem short)
    have nonempty : TruthCode.phrases ((List.range (rest.length + 1)).map .branch) ≠ [] :=
      phrases_ne_nil (by simp [List.range_succ])
    have chosen : (someBranch (first :: rest).length).clause =
        .require (.chain .or (TruthCode.phrases ((List.range (rest.length + 1)).map .branch))) := by
      unfold someBranch
      split
      next none => simp [List.range_succ] at none
      next => rfl
    rw [chosen, run_require (value_chain_or worth nonempty)]
    simp [Clause.run, List.any_map]

/-! ## All branches -/

theorem worth_conjunctsOf (shows : scope.Shows v) (hashes : calls.Hashes h) {a : Assertion}
    (served : Served calls h v a) :
    AreWorth calls scope (TruthCode.phrases (TruthCode.ofAssertions (conjunctsOf a)))
      ((conjunctsOf a).map (v.truth h)) := by
  have whole := value_ofAssertion shows hashes a served.reads served.filled served.orders
  cases a with
  | true => exact List.Forall₂.nil
  | and parts =>
    have reads := served.reads
    rw [Assertion.Reads, Assertion.leaves] at reads
    exact worth_ofAssertions shows hashes parts reads served.filled.2 served.orders
  | false | eq | compare | not | or => exact List.Forall₂.cons whole List.Forall₂.nil

/-- The requirements of a binding check are met where some branch holds. -/
theorem run_statements (shows : scope.Shows v) (hashes : calls.Hashes h) (p : Program)
    (served : ∀ b ∈ p.branches, Served calls h v b.assertion) :
    ∃ last, Clause.run calls scope ((statements p).map Statement.clause) =
      some (last, p.branches.any fun b => v.truth h b.assertion) := by
  unfold statements
  split
  next only single =>
    rw [single, List.forall_mem_singleton] at served
    have worth := worth_conjunctsOf shows hashes served
    rw [ofAssertions_eq_map, phrases_eq_map, List.map_map] at worth
    refine ⟨scope, ?_⟩
    have ran := run_requirements worth
    rw [List.map_map, List.all_map] at ran
    rw [single, List.any_cons, List.any_nil, Bool.or_false, ← truth_conjunctsOf, List.map_map]
    exact ran
  next =>
    obtain ⟨named, ran, _, given⟩ := run_namings hashes served
      [(someBranch p.branches.length).clause] 0 scope shows
    have last : Clause.run calls named [(someBranch p.branches.length).clause] =
        some (named, p.branches.any fun b => v.truth h b.assertion) :=
      run_someBranch fun i b found => by simpa using given i b found
    refine ⟨named, ?_⟩
    rw [← last, ← ran, List.map_append, List.map_map]
    rfl

end Verdict

/-! ## Sources -/

/-- The arguments of a binding check whose record of public values has these members. -/
def argumentsWith (p : Program) (slots : List (QuadOf Field)) (members : List (String × Datum))
    (hints : List Field) : List Datum :=
  [.list (slots.map Datum.ofQuad), .record members]
    ++ if p.takesHints then [.list (hints.map .field)] else []

def bindingArguments (p : Program) (slots : List (QuadOf Field)) (values : String → Field)
    (hints : List Field) : List Datum :=
  [.list (slots.map Datum.ofQuad),
    .record (p.projected.map fun name => (identifier name, .field (values name)))]
    ++ if p.takesHints then [.list (hints.map .field)] else []

def Records (names : List String) (values : String → Field) (members : List (String × Datum)) :
    Prop :=
  ∀ name ∈ names, members.lookup (identifier name) = some (.field (values name))

/-- The same values as the evaluator takes them. -/
def bindingView (p : Program) (slots : List (QuadOf Field)) (values : String → Field)
    (hints : List Field) : View :=
  ⟨slots, KeyMap.ofList (p.projected.map fun name => (name, values name)), hints⟩

section Sources

variable {p : Program} {slots : List (QuadOf Field)} {values : String → Field} {hints : List Field}

/-- An association list with different keys finds what it holds. -/
theorem lookup_of_mem {members : List (String × Datum)} (distinct : (members.map (·.1)).Nodup)
    {x : String} {d : Datum} (member : (x, d) ∈ members) : members.lookup x = some d := by
  induction members with
  | nil => simp at member
  | cons first rest induction =>
    rw [List.map_cons, List.nodup_cons] at distinct
    rw [List.lookup_cons]
    cases List.mem_cons.1 member with
    | inl same =>
      subst same
      simp
    | inr later =>
      have other : x ≠ first.1 := by
        intro same
        exact distinct.1 (same ▸ List.mem_map_of_mem later)
      rw [beq_false_of_ne other]
      exact induction distinct.2 later

/-- Entries in any order, one for each variable, record the values of the variables. -/
theorem records_of_perm {names : List String} {members : List (String × Datum)}
    (distinct : (names.map identifier).Nodup)
    (same : members.Perm (names.map fun name => (identifier name, .field (values name)))) :
    Records names values members := by
  intro name inside
  have keys : (members.map (·.1)).Perm (names.map identifier) := by
    simpa [Function.comp_def] using same.map (·.1)
  apply lookup_of_mem (keys.nodup_iff.2 distinct)
  rw [same.mem_iff]
  exact List.mem_map.2 ⟨name, inside, rfl⟩

theorem exists_scope (slots : List (QuadOf Field)) {members : List (String × Datum)}
    (records : Records p.projected values members) (length : hints.length = p.hints.length) :
    ∃ scope, Scope.ofArguments (checkedNames p.takesHints)
        (argumentsWith p slots members hints) = some scope ∧
      scope.Shows (bindingView p slots values hints) := by
  have publics : ∀ name x, (bindingView p slots values hints).values.get? name = some x →
      members.lookup (identifier name) = some (.field x) := by
    intro name x found
    rw [bindingView, KeyMap.get_ofList_map] at found
    split at found
    next member =>
      rw [← Option.some.inj found]
      exact records name member
    next => cases found
  unfold argumentsWith checkedNames
  cases takes : p.takesHints with
  | true => exact ⟨_, rfl, rfl, ⟨_, rfl, publics⟩, fun _ => rfl⟩
  | false =>
    have none : hints = [] := by
      rw [Program.takesHints, Bool.not_eq_false', List.isEmpty_iff] at takes
      rw [takes] at length
      exact List.eq_nil_of_length_eq_zero length
    exact ⟨_, rfl, rfl, ⟨_, rfl, publics⟩, fun some => absurd none some⟩

theorem verdict_append {before : List Routine} {r : Routine} (calls : Calls)
    (arguments : List Datum) (others : ∀ other ∈ before, other.name ≠ r.name) :
    Routine.verdict? calls r.name arguments (before ++ [r]) =
      (r.run (before.foldl Routine.calls calls) arguments).map (·.2) := by
  induction before generalizing calls with
  | nil => exact if_pos rfl
  | cons first rest induction =>
    obtain ⟨here, later⟩ := List.forall_mem_cons.1 others
    rw [List.cons_append, Routine.verdict?, if_neg here]
    exact induction (first.calls calls) later

theorem Calls.Hashes.after {calls : Calls} {h : Hasher} (hashes : calls.Hashes h) {rs : List Routine}
    (noPair : ∀ r ∈ rs, "consts::hash2" ≠ r.name) (noQuadruple : ∀ r ∈ rs, "consts::hash4" ≠ r.name) :
    Calls.Hashes (rs.foldl Routine.calls calls) h := by
  induction rs generalizing calls with
  | nil => exact hashes
  | cons r rest induction =>
    obtain ⟨pair, pairs⟩ := List.forall_mem_cons.1 noPair
    obtain ⟨quadruple, quadruples⟩ := List.forall_mem_cons.1 noQuadruple
    refine induction ⟨fun a b => ?_, fun a b c d => ?_⟩ pairs quadruples
    · exact (calls_other pair _).trans (hashes.pair a b)
    · exact (calls_other quadruple _).trans (hashes.quadruple a b c d)

theorem hashes_libraryCalls (h : Hasher) : Calls.Hashes (libraryCalls h) h :=
  ⟨fun _ _ => rfl, fun _ _ _ _ => rfl⟩

theorem anyHasOrder_eq_any (parts : List TruthCode) :
    TruthCode.anyHasOrder parts = parts.any TruthCode.hasOrder := by
  induction parts with
  | nil => rfl
  | cons part rest induction => rw [TruthCode.anyHasOrder, induction, List.any_cons]

theorem any_conjunctsOf (a : Assertion) :
    ((conjunctsOf a).any fun part => (TruthCode.ofAssertion part).hasOrder) =
      (TruthCode.ofAssertion a).hasOrder := by
  cases a with
  | and parts =>
    rw [TruthCode.ofAssertion, TruthCode.hasOrder, anyHasOrder_eq_any, ofAssertions_eq_map,
      List.any_map]
    rfl
  | true => rfl
  | false | eq | compare | not | or => simp [conjunctsOf]

theorem hasOrder_of_branch {b : Branch} (member : b ∈ p.branches)
    (ordered : (TruthCode.ofAssertion b.assertion).hasOrder = true) :
    (statements p).any Statement.hasOrder = true := by
  unfold statements
  split
  next only single =>
    rw [single, List.mem_singleton] at member
    rw [List.any_map, ← ordered, member, ← any_conjunctsOf]
    rfl
  next =>
    obtain ⟨i, inside, found⟩ := List.getElem_of_mem member
    rw [List.any_append, Bool.or_eq_true, List.any_map, List.any_eq_true]
    refine Or.inl ⟨(b, i), ?_, ordered⟩
    rw [List.mk_mem_zipIdx_iff_getElem?, List.getElem?_eq_getElem inside, found]

theorem helperRoutines_names {other : Routine} (member : other ∈ helperRoutines p) :
    other.name ≠ "checkBinding" ∧ "consts::hash2" ≠ other.name ∧ "consts::hash4" ≠ other.name := by
  have ordered : other.name ∈ orderRoutines.map Routine.name := by
    unfold helperRoutines at member
    split at member
    · exact List.mem_map_of_mem member
    · cases member
  have each : ∀ name ∈ orderRoutines.map Routine.name,
      name ≠ "checkBinding" ∧ "consts::hash2" ≠ name ∧ "consts::hash4" ≠ name := by decide
  exact each other.name ordered

theorem verdict_routines (calls : Calls) (arguments : List Datum) :
    Routine.verdict? calls "checkBinding" arguments (routines p) =
      ((bindingRoutine p).run ((helperRoutines p).foldl Routine.calls calls) arguments).map (·.2) :=
  verdict_append (r := bindingRoutine p) calls arguments fun _ member =>
    (helperRoutines_names (p := p) member).1

theorem accepts_of_routines {h : Hasher} {source : String} {members : List (String × Datum)}
    (read : Routine.ofSource? source = some (routines p))
    (records : Records p.projected values members) (length : hints.length = p.hints.length)
    (reads : ∀ b ∈ p.branches, b.assertion.Reads ((bindingView p slots values hints).Readable h))
    (filled : ∀ b ∈ p.branches, (TruthCode.ofAssertion b.assertion).Filled) :
    accepts? h source "checkBinding" (argumentsWith p slots members hints) =
      some (p.branches.any fun b => (bindingView p slots values hints).truth h b.assertion) := by
  obtain ⟨scope, named, shows⟩ := exists_scope slots records length
  let calls := (helperRoutines p).foldl Routine.calls (libraryCalls h)
  have hashes : calls.Hashes h := (hashes_libraryCalls h).after
    (fun _ member => (helperRoutines_names member).2.1)
    fun _ member => (helperRoutines_names member).2.2
  have served : ∀ b ∈ p.branches, Served calls h (bindingView p slots values hints) b.assertion := by
    refine fun b member => ⟨reads b member, filled b member, fun ordered => ?_⟩
    have after : helperRoutines p = orderRoutines := if_pos (hasOrder_of_branch member ordered)
    change Calls.Orders ((helperRoutines p).foldl Routine.calls (libraryCalls h))
    rw [after]
    exact orders_after (libraryCalls h)
  obtain ⟨last, ran⟩ := run_statements shows hashes p served
  have verdict : (bindingRoutine p).run calls (argumentsWith p slots members hints) = some
      (none, p.branches.any fun b => (bindingView p slots values hints).truth h b.assertion) := by
    rw [Routine.run, bindingRoutine, named]
    simp [ran]
  rw [accepts?, read, Option.bind_some]
  rw [verdict_routines, verdict]
  rfl

end Sources

end AttestedQuery.Circuit
