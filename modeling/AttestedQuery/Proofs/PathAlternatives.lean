import AttestedQuery.Proofs.CertainKeys
import AttestedQuery.Proofs.JoinOrder
import AttestedQuery.Proofs.Links
import AttestedQuery.Proofs.OpenedUnions

/-!
# What the alternatives of a path bind

A path becomes an algebra of several fragments, one for each way to take it. Each of them binds both
ends of the path wherever it stands, by a pattern or by a path of length zero that binds either end
to the other. Only one kind binds nothing: the path of length zero from a key to that same key, or
from a constant to itself, which has neither a pattern nor an extension. The inner nodes of a path
are new keys, so that such a path cannot be one of the steps of a longer one.
-/

set_option autoImplicit false

namespace AttestedQuery

open AttestedQuery.Normal (chain chains pathBetween zeroSteps Naming Names)

namespace Fragment

variable {f g : Fragment} {key : String} {s o : PatternTerm}

/-- A fragment binds a key wherever it stands: in a pattern, or at an end of a path of length
zero. -/
def Secures (f : Fragment) (key : String) : Prop :=
  f.Matched key ∨ ∃ x ∈ f.extensions, x.visible = none ∧ key ∈ x.keys

theorem Secures.binds (secures : g.Secures key) (inside : g.Inside f) : f.Binds key := by
  rcases secures with ⟨p, member, keyed⟩ | ⟨x, member, linked, about⟩
  · exact ScopedExtension.afterAll_keeps ⟨p, inside.patterns.subset member, keyed⟩
  · obtain ⟨before, after, split⟩ := List.append_of_mem (inside.extensions.subset member)
    rw [Binds, split]
    exact ScopedExtension.afterAll_of_supplied (ScopedExtension.supplied_of_alias linked) about

def IsEmpty (f : Fragment) : Prop := f.patterns = [] ∧ f.extensions = []

/-- A fragment binds the keys of two ends, or is empty and the ends have one key or none. -/
def Spans (s o : PatternTerm) (f : Fragment) : Prop :=
  (f.IsEmpty ∧ s.key? = o.key?) ∨ ∀ key, s.key? = some key ∨ o.key? = some key → f.Secures key

theorem Spans.swap (spans : f.Spans s o) : f.Spans o s :=
  spans.imp (And.imp_right Eq.symm) fun secures key either => secures key either.symm

/-- What a fragment excludes has no part in what it binds. -/
theorem spans_congr (patterns : f.patterns = g.patterns) (extensions : f.extensions = g.extensions) :
    f.Spans s o ↔ g.Spans s o := by
  simp only [Spans, IsEmpty, Secures, Matched, patterns, extensions]

end Fragment

namespace Algebra

def Secures (t : PatternTerm) (a : Algebra) : Prop :=
  ∀ n fragments m, Fragment.ofAlgebra n a = .ok (fragments, m) → ∀ f ∈ fragments, ∀ key,
    t.key? = some key → f.Secures key

/-- Every fragment of an algebra binds two ends, or is empty between ends that are one. -/
def Spans (s o : PatternTerm) (a : Algebra) : Prop :=
  ∀ n fragments m, Fragment.ofAlgebra n a = .ok (fragments, m) → ∀ f ∈ fragments, f.Spans s o

variable {a left right : Algebra} {t s o : PatternTerm}

theorem Spans.swap (spans : a.Spans s o) : a.Spans o s :=
  fun n fragments m folded f member => (spans n fragments m folded f member).swap

theorem spans_of_secures (first : a.Secures s) (second : a.Secures o) : a.Spans s o := by
  refine fun n fragments m folded f member => Or.inr fun key either => ?_
  exact either.elim (first n fragments m folded f member key)
    (second n fragments m folded f member key)

/-- Between ends that are not one key no fragment is empty. -/
theorem Spans.secures (spans : a.Spans s o) (apart : s.Apart o) : a.Secures s ∧ a.Secures o := by
  constructor
  · intro n fragments m folded f member key named
    rcases spans n fragments m folded f member with ⟨_, same⟩ | secures
    · exact absurd (same ▸ named) (apart key named)
    · exact secures key (Or.inl named)
  · intro n fragments m folded f member key named
    rcases spans n fragments m folded f member with ⟨_, same⟩ | secures
    · exact absurd named (apart key (same.trans named))
    · exact secures key (Or.inr named)

theorem Secures.joined (either : left.Secures t ∨ right.Secures t) :
    (left.joined right).Secures t := by
  intro n fragments m folded f member key named
  obtain ⟨lefts, _, rights, first, second, rfl⟩ := Fragment.folds_of_joined folded
  obtain ⟨i, j, a, b, here, there, rfl⟩ := Fragment.mem_product.1 member
  rcases either with secures | secures
  · refine (secures _ _ _ first a (List.mem_of_getElem? here) key named).imp
      Fragment.matched_paired_left fun ⟨x, extension, about⟩ => ?_
    exact ⟨x, List.mem_append_left _ extension, about⟩
  · refine (secures _ _ _ second b (List.mem_of_getElem? there) key named).imp
      Fragment.matched_paired_right fun ⟨x, extension, about⟩ => ?_
    exact ⟨x, List.mem_append_right _ extension, about⟩

theorem Spans.united {parts : List Algebra} (each : ∀ part ∈ parts, part.Spans s o) :
    (united parts).Spans s o := by
  intro n fragments m folded f member
  rw [Fragment.ofAlgebra_united] at folded
  obtain ⟨lists, made, rfl⟩ := Fragment.folds_of_union folded
  obtain ⟨list, inside, g, here, same⟩ := Fragment.mem_united member
  obtain ⟨part, among, _, _, holds⟩ :=
    (Fragment.closed_folds.ofBranches parts made).exists_branch inside
  rw [same]
  exact (Fragment.spans_congr rfl rfl).2 (each part among _ _ _ holds g here)

theorem spans_pattern (predicate : Term) (graph : Option PatternTerm) :
    (bgp [⟨s, .const predicate, o, graph⟩]).Spans s o := by
  intro n fragments m folded f member
  obtain ⟨rfl, rfl⟩ := Prod.mk.inj (Except.ok.inj folded)
  obtain rfl := List.mem_singleton.1 member
  refine Or.inr fun key either => Or.inl ⟨_, List.mem_singleton_self _, ?_⟩
  rw [Pattern.mem_keys_iff]
  exact either.elim (fun named => ⟨0, s, rfl, named⟩) fun named => ⟨2, o, rfl, named⟩

theorem spans_linked {target : String} (named : o.key? = some target) :
    (zeroSteps.linked target s).Spans s o := by
  intro n fragments m folded f member
  obtain ⟨rfl, rfl⟩ := Prod.mk.inj (Except.ok.inj folded)
  obtain rfl := List.mem_singleton.1 member
  refine Or.inr fun key either => Or.inr ⟨_, List.mem_singleton_self _, rfl, ?_⟩
  rcases either with near | far
  · cases s with
    | const term => cases near
    | var name | blank label =>
      obtain rfl := Option.some.inj near
      exact List.mem_cons_of_mem _ (List.mem_singleton_self _)
  · obtain rfl := Option.some.inj (named.symm.trans far)
    exact ScopedExtension.name_mem_keys _

/-- A path of length zero binds its ends unless they are one. -/
theorem spans_zero (zero : zeroSteps s o = some a) : a.Spans s o := by
  have empty (same : s.key? = o.key?) : Algebra.empty.Spans s o := by
    intro n fragments m folded f member
    obtain ⟨rfl, rfl⟩ := Prod.mk.inj (Except.ok.inj folded)
    obtain rfl := List.mem_singleton.1 member
    exact Or.inl ⟨⟨rfl, rfl⟩, same⟩
  unfold zeroSteps at zero
  split at zero
  next unnamedS unnamedO =>
    obtain ⟨_, whole⟩ := Option.ite_none_right_eq_some.1 zero
    exact Option.some.inj whole ▸ empty (unnamedS.trans unnamedO.symm)
  next target unnamedS named => exact Option.some.inj zero ▸ spans_linked named
  next target named unnamedO => exact Option.some.inj zero ▸ (spans_linked named).swap
  next source target namedS namedO =>
    split at zero
    next same =>
      exact Option.some.inj zero ▸ empty (namedS.trans ((congrArg some same).trans namedO.symm))
    next => exact Option.some.inj zero ▸ spans_linked namedO

/-! ## Chains -/

def Spanning (link : PatternTerm → PatternTerm → Naming Algebra) : Prop :=
  ∀ {s o : PatternTerm} {names after : Names} {a : Algebra}, link s o names = .ok (a, after) →
    s.Before names.paths → o.Before names.paths → names.paths ≤ after.paths ∧ a.Spans s o

section Chains

variable {link : PatternTerm → PatternTerm → Naming Algebra} {names after : Names}

/-- A chain that goes on from an inner node binds its last end, and keeps the first one bound. -/
theorem chain_secures (spanning : Spanning link) {steps j : Nat} {before : Algebra}
    (made : chain pathKey link o (steps + 1) (.middle j) (some before) names = .ok (a, after))
    (leads : before.Secures s) (upper : j < names.paths) (oBefore : o.Before j) :
    names.paths ≤ after.paths ∧ a.Secures s ∧ a.Secures o := by
  induction steps generalizing j names before with
  | zero =>
    obtain ⟨last, _, linked, made⟩ := run_bind_ok_iff.1 made
    obtain ⟨rfl, rfl⟩ := run_pure_ok_iff.1 made
    have apart := (oBefore.apart le_rfl).symm
    obtain ⟨grows, spans⟩ :=
      spanning linked (PatternTerm.middle_before upper) (oBefore.mono upper.le)
    exact ⟨grows, .joined (Or.inl leads), .joined (Or.inr (spans.secures apart).2)⟩
  | succ steps induction =>
    obtain ⟨middle, named, new, made⟩ := run_bind_ok_iff.1 made
    obtain ⟨rfl, rfl⟩ := pathVariable_ok new
    obtain ⟨next, later, linked, made⟩ := run_bind_ok_iff.1 made
    obtain ⟨grows, _⟩ := spanning linked
      (PatternTerm.middle_before (upper.trans (Nat.lt_succ_self _)))
      (PatternTerm.middle_before (Nat.lt_succ_self _))
    obtain ⟨whole, secures⟩ :=
      induction made (.joined (Or.inl leads)) grows (oBefore.mono upper.le)
    exact ⟨((Nat.le_succ _).trans grows).trans whole, secures⟩

theorem spanning_chain (spanning : Spanning link) (steps : Nat) :
    Spanning fun s o => chain pathKey link o (steps + 1) s none := by
  intro s o names after a made sBefore oBefore
  cases steps with
  | zero =>
    obtain ⟨last, _, linked, made⟩ := run_bind_ok_iff.1 made
    obtain ⟨rfl, rfl⟩ := run_pure_ok_iff.1 made
    exact spanning linked sBefore oBefore
  | succ steps =>
    obtain ⟨middle, named, new, made⟩ := run_bind_ok_iff.1 made
    obtain ⟨rfl, rfl⟩ := pathVariable_ok new
    obtain ⟨next, later, linked, made⟩ := run_bind_ok_iff.1 made
    have apart := sBefore.apart le_rfl
    obtain ⟨grows, spans⟩ := spanning linked (sBefore.mono (Nat.le_succ _))
      (PatternTerm.middle_before (Nat.lt_succ_self _))
    obtain ⟨whole, first, second⟩ :=
      chain_secures spanning made (spans.secures apart).1 grows oBefore
    exact ⟨((Nat.le_succ _).trans grows).trans whole, spans_of_secures first second⟩

theorem spans_lengths (spanning : Spanning link) {lengths : List Nat} {parts : List Algebra}
    (made : lengths.mapM (fun hops => chain pathKey link o (hops + 1) s none) names =
      .ok (parts, after))
    (sBefore : s.Before names.paths) (oBefore : o.Before names.paths) :
    names.paths ≤ after.paths ∧ ∀ part ∈ parts, part.Spans s o := by
  induction lengths generalizing names parts with
  | nil =>
    obtain ⟨rfl, rfl⟩ := run_pure_ok_iff.1 made
    exact ⟨le_rfl, nofun⟩
  | cons hops rest induction =>
    rw [List.mapM_cons] at made
    obtain ⟨first, middle, here, made⟩ := run_bind_ok_iff.1 made
    obtain ⟨others, last, later, made⟩ := run_bind_ok_iff.1 made
    obtain ⟨rfl, rfl⟩ := run_pure_ok_iff.1 made
    obtain ⟨grows, spans⟩ := spanning_chain spanning hops here sBefore oBefore
    obtain ⟨whole, each⟩ := induction later (sBefore.mono grows) (oBefore.mono grows)
    exact ⟨grows.trans whole, List.forall_mem_cons.2 ⟨spans, each⟩⟩

end Chains

theorem spanning_pathBetween (maxHops : Nat) (graph : Option PatternTerm) (path : Sparql.Path) :
    Spanning (pathBetween pathKey maxHops graph path) := by
  induction path with
  | iri text =>
    intro s o names after a made _ _
    obtain ⟨rfl, rfl⟩ := run_pure_ok_iff.1 made
    exact ⟨le_rfl, spans_pattern _ _⟩
  | reverse inner induction =>
    intro s o names after a made sBefore oBefore
    obtain ⟨grows, spans⟩ := induction made oBefore sBefore
    exact ⟨grows, spans.swap⟩
  | sequence first second left right =>
    intro s o names after a made sBefore oBefore
    obtain ⟨middle, named, new, made⟩ := run_bind_ok_iff.1 made
    obtain ⟨rfl, rfl⟩ := pathVariable_ok new
    obtain ⟨a, between, here, made⟩ := run_bind_ok_iff.1 made
    obtain ⟨b, last, there, made⟩ := run_bind_ok_iff.1 made
    obtain ⟨rfl, rfl⟩ := run_pure_ok_iff.1 made
    -- The node between is new, so each part secures the end on its own side.
    have apartLeft := sBefore.apart le_rfl
    have apartRight := (oBefore.apart le_rfl).symm
    obtain ⟨grows, spansA⟩ := left here (sBefore.mono (Nat.le_succ _))
      (PatternTerm.middle_before (Nat.lt_succ_self _))
    have fresh : names.paths ≤ between.paths := (Nat.le_succ _).trans grows
    obtain ⟨grows', spansB⟩ := right there (PatternTerm.middle_before grows) (oBefore.mono fresh)
    exact ⟨fresh.trans grows', spans_of_secures (.joined (Or.inl (spansA.secures apartLeft).1))
      (.joined (Or.inr (spansB.secures apartRight).2))⟩
  | alternative first second left right =>
    intro s o names after a made sBefore oBefore
    obtain ⟨a, between, here, made⟩ := run_bind_ok_iff.1 made
    obtain ⟨b, last, there, made⟩ := run_bind_ok_iff.1 made
    obtain ⟨rfl, rfl⟩ := run_pure_ok_iff.1 made
    obtain ⟨grows, spansA⟩ := left here sBefore oBefore
    obtain ⟨grows', spansB⟩ := right there (sBefore.mono grows) (oBefore.mono grows)
    refine ⟨grows.trans grows', .united fun part member => ?_⟩
    rcases List.mem_pair.1 member with rfl | rfl
    · exact spansA
    · exact spansB
  | zeroOrOne inner induction =>
    intro s o names after a made sBefore oBefore
    obtain ⟨one, last, here, made⟩ := run_bind_ok_iff.1 made
    obtain ⟨rfl, rfl⟩ := run_pure_ok_iff.1 made
    obtain ⟨grows, spans⟩ := induction here sBefore oBefore
    refine ⟨grows, .united fun part member => ?_⟩
    rcases List.mem_cons.1 member with rfl | member
    · exact spans
    · exact spans_zero (Option.mem_toList.1 member)
  | oneOrMore inner induction =>
    intro s o names after a made sBefore oBefore
    obtain ⟨parts, last, here, made⟩ := run_bind_ok_iff.1 made
    obtain ⟨rfl, rfl⟩ := run_pure_ok_iff.1 made
    obtain ⟨grows, each⟩ := spans_lengths induction here sBefore oBefore
    exact ⟨grows, .united each⟩
  | zeroOrMore inner induction =>
    intro s o names after a made sBefore oBefore
    obtain ⟨parts, last, here, made⟩ := run_bind_ok_iff.1 made
    obtain ⟨rfl, rfl⟩ := run_pure_ok_iff.1 made
    obtain ⟨grows, each⟩ := spans_lengths induction here sBefore oBefore
    refine ⟨grows, .united fun part member => ?_⟩
    rcases List.mem_append.1 member with member | member
    · exact spans_zero (Option.mem_toList.1 member)
    · exact each part member
  | outside iris =>
    intro s o names after a made
    cases made

end Algebra

end AttestedQuery
