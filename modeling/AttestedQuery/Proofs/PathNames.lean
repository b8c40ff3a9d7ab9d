import AttestedQuery.Proofs.Links
import AttestedQuery.Proofs.ProjectedNames
import Mathlib.Logic.Equiv.Basic

/-!
# The names of path variables

The normal form draws the inner nodes of paths from a supply of names. Drawn from another supply, a
query has the same normal form but for the names drawn: user-written names at a place of binding are
checked not to be reserved, so that a permutation of reserved names takes one normal form into the
other. Names in expressions are not checked, and stay as they are.
-/

set_option autoImplicit false

namespace AttestedQuery

/-! ## Reserved names -/

namespace Normal

/-- A name with the leading part of path variables. -/
def Reserved (name : String) : Prop :=
  (Text.afterPart pathVariableLead.toList name.toList).isSome = true

theorem checkName_ok_iff {name : String} : checkName name = .ok () ↔ ¬ Reserved name := by
  unfold checkName Reserved
  split
  next reserved => simp [reserved, refuse]
  next free => simp [free]

theorem reserved_pathKey (n : Nat) : Reserved (pathKey n) := by
  simp [Reserved, pathKey, pathVariableLead, Text.afterPart]

theorem not_reserved_blank (label : String) : ¬ Reserved ("_:" ++ label) := by
  simp [Reserved, pathVariableLead, Text.afterPart]

theorem not_reserved_of_user {key : String} (user : isUserKey key = true) : ¬ Reserved key := by
  simp only [isUserKey, Bool.and_eq_true, Option.isNone_iff_eq_none] at user
  simp [Reserved, user.2]

end Normal

open AttestedQuery.Normal (Reserved Names Naming)

/-! ## Renaming -/

section Renaming

variable (σ : Equiv.Perm String)

def PatternTerm.renamed : PatternTerm → PatternTerm
  | .var name => .var (σ name)
  | other => other

def Pattern.renamed (p : Pattern) : Pattern :=
  ⟨p.subject.renamed σ, p.predicate.renamed σ, p.object.renamed σ, p.graph.map (.renamed σ)⟩

def Expr.renamed : Expr → Expr
  | .var key => .var (σ key)
  | other => other

namespace Algebra

mutual

/-- An algebra with the keys at its places of binding renamed, and both ends of the aliases of
paths. Conditions and the values of other extensions stay as they are. -/
def renamed : Algebra → Algebra
  | .bgp patterns => .bgp (patterns.map (.renamed σ))
  | .join left right => .join left.renamed right.renamed
  | .union kind branches => .union kind (renamedAll branches)
  | .filter condition inner => .filter condition inner.renamed
  | .extend pathAlias name value inner =>
    .extend pathAlias (σ name) (if pathAlias then value.renamed σ else value) inner.renamed
  | .project names inner => .project names inner.renamed

def renamedAll : List Algebra → List Algebra
  | [] => []
  | branch :: rest => branch.renamed :: renamedAll rest

end

theorem renamedAll_eq_map (branches : List Algebra) :
    renamedAll σ branches = branches.map (renamed σ) := by
  induction branches with
  | nil => rfl
  | cons branch rest induction => rw [renamedAll, induction, List.map_cons]

theorem renamed_joined (left right : Algebra) :
    (left.joined right).renamed σ = (left.renamed σ).joined (right.renamed σ) := by
  cases left <;> cases right <;> simp [joined, renamed]

theorem renamed_plainBranches (a : Algebra) :
    (a.renamed σ).plainBranches = a.plainBranches.map (renamed σ) := by
  cases a with
  | union kind branches => cases kind <;> simp [renamed, plainBranches, renamedAll_eq_map]
  | _ => simp [renamed, plainBranches]

theorem renamed_united (parts : List Algebra) :
    (united parts).renamed σ = united (parts.map (renamed σ)) := by
  have opened : (parts.map (renamed σ)).flatMap plainBranches =
      (parts.flatMap plainBranches).map (renamed σ) := by
    simp only [List.flatMap_map, List.map_flatMap, renamed_plainBranches]
  unfold united
  rw [opened]
  generalize parts.flatMap plainBranches = branches
  match branches with
  | [] => simp [renamed, renamedAll]
  | [single] => rfl
  | first :: second :: rest => simp [renamed, renamedAll_eq_map]

end Algebra

def NormalQuery.renamed (query : NormalQuery) : NormalQuery :=
  { query with algebra := query.algebra.renamed σ }

end Renaming

/-- Blank nodes have no reserved keys, so that renaming a term renames its key. -/
theorem PatternTerm.key_renamed {σ : Equiv.Perm String}
    (fixes : ∀ key, ¬ Reserved key → σ key = key) (t : PatternTerm) :
    (t.renamed σ).key? = t.key?.map σ := by
  cases t with
  | const term => rfl
  | var name => rfl
  | blank label =>
    simp [PatternTerm.renamed, PatternTerm.key?, fixes _ (Normal.not_reserved_blank label)]

structure Redraws (σ : Equiv.Perm String) (supply other : Nat → String) (count : Nat) : Prop where
  drawn : ∀ n < count, σ (supply n) = other n
  fixes : ∀ key, ¬ Reserved key → σ key = key

namespace Redraws

variable {σ : Equiv.Perm String} {supply other : Nat → String} {count : Nat}

theorem symm (redraws : Redraws σ supply other count) : Redraws σ.symm other supply count where
  drawn n below := by rw [← redraws.drawn n below, Equiv.symm_apply_apply]
  fixes key free := by rw [Equiv.symm_apply_eq, redraws.fixes key free]

end Redraws

theorem exists_redraws {supply other : Nat → String} (distinct : Function.Injective supply)
    (distinct' : Function.Injective other) (reserved : ∀ n, Reserved (supply n))
    (reserved' : ∀ n, Reserved (other n)) (count : Nat) :
    ∃ σ, Redraws σ supply other count ∧
      ∀ key, (∀ n < count, key ≠ supply n ∧ key ≠ other n) → σ key = key := by
  suffices moves : ∃ σ : Equiv.Perm String, (∀ n < count, σ (supply n) = other n) ∧
      ∀ key, (∀ n < count, key ≠ supply n ∧ key ≠ other n) → σ key = key by
    obtain ⟨σ, drawn, kept⟩ := moves
    refine ⟨σ, ⟨drawn, fun key free => kept key fun n _ => ⟨?_, ?_⟩⟩, kept⟩
    · rintro rfl
      exact free (reserved n)
    · rintro rfl
      exact free (reserved' n)
  induction count with
  | zero => exact ⟨Equiv.refl String, by simp, fun _ _ => rfl⟩
  | succ count induction =>
    obtain ⟨σ, drawn, kept⟩ := induction
    refine ⟨σ.trans (Equiv.swap (σ (supply count)) (other count)), fun n below => ?_,
      fun key unused => ?_⟩
    · rw [Equiv.trans_apply]
      rcases Nat.lt_succ_iff_lt_or_eq.1 below with before | rfl
      · rw [drawn n before]
        refine Equiv.swap_apply_of_ne_of_ne (fun same => ?_) (distinct'.ne (Nat.ne_of_lt before))
        rw [← drawn n before] at same
        exact Nat.ne_of_lt before (distinct (σ.injective same))
      · exact Equiv.swap_apply_left _ _
    · have here := kept key fun n below => unused n (Nat.lt_succ_of_lt below)
      rw [Equiv.trans_apply, here]
      refine Equiv.swap_apply_of_ne_of_ne (fun same => ?_) (unused count (Nat.lt_succ_self _)).2
      rw [← here] at same
      exact (unused count (Nat.lt_succ_self _)).1 (σ.injective same)

/-! ## Drawing from another supply -/

namespace Normal

/-- What one computation gives, the other gives changed, and both draw the same number of
variables, if these are not too many. -/
def Follows {α : Type} (count : Nat) (change : α → α) (x y : Naming α) : Prop :=
  ∀ names a after, x names = .ok (a, after) → after.paths ≤ count →
    names.paths ≤ after.paths ∧ y names = .ok (change a, after)

section Follows

variable {α β : Type} {count : Nat} {σ : Equiv.Perm String} {supply other : Nat → String}

theorem follows_pure (change : α → α) (a : α) :
    Follows count change (pure a) (pure (change a)) := by
  intro names b after made _
  obtain ⟨rfl, rfl⟩ := run_pure_ok_iff.1 made
  exact ⟨le_rfl, rfl⟩

theorem follows_lift (x : Except Error α) : Follows count id (liftM x) (liftM x) := by
  intro names a after made _
  obtain ⟨found, rfl⟩ := run_lift_ok_iff.1 made
  exact ⟨le_rfl, made⟩

theorem follows_refuse {change : α → α} {construct : Construct} {y : Naming α} :
    Follows count change (liftM (refuse construct : Except Error α)) y := by
  intro names a after made
  cases made

theorem follows_bind {x y : Naming β} {f g : β → Naming α} {first : β → β} {change : α → α}
    (here : Follows count first x y) (later : ∀ b, Follows count change (f b) (g (first b))) :
    Follows count change (x >>= f) (y >>= g) := by
  intro names a after made few
  obtain ⟨b, middle, made, continued⟩ := run_bind_ok_iff.1 made
  obtain ⟨grows, same⟩ := later b middle a after continued few
  obtain ⟨grown, run⟩ := here names b middle made (grows.trans few)
  exact ⟨grown.trans grows, run_bind_ok_iff.2 ⟨_, middle, run, same⟩⟩

theorem follows_mapM {γ : Type} {f g : γ → Naming α} {change : α → α} (xs : List γ)
    (each : ∀ x, Follows count change (f x) (g x)) :
    Follows count (List.map change) (xs.mapM f) (xs.mapM g) := by
  induction xs with
  | nil => exact follows_pure (List.map change) []
  | cons x rest induction =>
    rw [List.mapM_cons, List.mapM_cons]
    exact follows_bind (each x) fun a => follows_bind induction fun others =>
      follows_pure (List.map change) (a :: others)

end Follows

section Redrawn

variable {count : Nat} {σ : Equiv.Perm String} {supply other : Nat → String}

theorem follows_blank (label : String) :
    Follows count (PatternTerm.renamed σ) (blank label) (blank label) := by
  intro names t after made _
  obtain ⟨_, _, read, rest⟩ := run_bind_ok_iff.1 made
  obtain ⟨rfl, rfl⟩ := run_get_ok_iff.1 read
  split at rest
  next =>
    obtain ⟨rfl, rfl⟩ := run_pure_ok_iff.1 rest
    exact ⟨le_rfl, made⟩
  next =>
    obtain ⟨_, _, wrote, rest⟩ := run_bind_ok_iff.1 rest
    obtain rfl := run_set_ok_iff.1 wrote
    obtain ⟨rfl, rfl⟩ := run_pure_ok_iff.1 rest
    exact ⟨le_rfl, made⟩

theorem follows_united (parts : List Algebra) :
    Follows count (Algebra.renamed σ) (pure (Algebra.united parts))
      (pure (Algebra.united (parts.map (Algebra.renamed σ)))) := by
  rw [← Algebra.renamed_united]
  exact follows_pure (Algebra.renamed σ) _

theorem follows_joined {left right : Algebra} :
    Follows count (Algebra.renamed σ) (pure (left.joined right))
      (pure ((left.renamed σ).joined (right.renamed σ))) := by
  rw [← Algebra.renamed_joined]
  exact follows_pure (Algebra.renamed σ) _

variable (redraws : Redraws σ supply other count)
include redraws

theorem follows_pathVariable :
    Follows count (PatternTerm.renamed σ) (pathVariable supply) (pathVariable other) := by
  intro names t after made few
  obtain ⟨rfl, rfl⟩ := Prod.mk.inj (Except.ok.inj made)
  refine ⟨Nat.le_succ _, ?_⟩
  rw [PatternTerm.renamed, redraws.drawn names.paths few]
  rfl

theorem follows_node : (t : PatternTerm) →
    Follows count (PatternTerm.renamed σ) (node t) (node t)
  | .const term => follows_pure (PatternTerm.renamed σ) (.const term)
  | .blank label => follows_blank label
  | .var name => by
    intro names found after made _
    obtain ⟨named, rfl⟩ := run_lift_ok_iff.1 made
    obtain ⟨⟨⟩, checked, named⟩ := bind_ok_iff.1 named
    obtain rfl := pure_ok_iff.1 named
    refine ⟨le_rfl, ?_⟩
    rw [PatternTerm.renamed, redraws.fixes name (checkName_ok_iff.1 checked)]
    exact made

theorem follows_triple (graph : Option PatternTerm) (t : Sparql.Triple) :
    Follows count (Pattern.renamed σ) (triple graph t) (triple (graph.map (.renamed σ)) t) :=
  follows_bind (follows_node redraws t.subject) fun subject =>
    follows_bind (follows_node redraws t.predicate) fun predicate =>
      follows_bind (follows_node redraws t.object) fun object =>
        follows_pure (Pattern.renamed σ) ⟨subject, predicate, object, graph⟩

theorem zeroSteps_renamed (subject object : PatternTerm) :
    zeroSteps (subject.renamed σ) (object.renamed σ) =
      (zeroSteps subject object).map (Algebra.renamed σ) := by
  have linked (key : String) (source : PatternTerm) :
      zeroSteps.linked (σ key) (source.renamed σ) = (zeroSteps.linked key source).renamed σ := by
    cases source with
    | const term => rfl
    | var name => rfl
    | blank label =>
      simp [zeroSteps.linked, Algebra.renamed, PatternTerm.renamed, Expr.renamed, Algebra.empty,
        redraws.fixes _ (not_reserved_blank label)]
  have empty : Algebra.empty.renamed σ = Algebra.empty := rfl
  unfold zeroSteps
  rw [PatternTerm.key_renamed redraws.fixes, PatternTerm.key_renamed redraws.fixes]
  cases here : subject.key? with
  | none =>
    cases there : object.key? with
    | none =>
      obtain ⟨term, rfl⟩ := PatternTerm.exists_const here
      obtain ⟨other, rfl⟩ := PatternTerm.exists_const there
      by_cases same : term = other <;> simp [PatternTerm.renamed, same, empty]
    | some key => simp [linked]
  | some source =>
    cases there : object.key? with
    | none => simp [linked]
    | some target =>
      simp only [Option.map_some, σ.injective.eq_iff]
      split <;> simp [empty, linked]

theorem follows_chain {link linked : PatternTerm → PatternTerm → Naming Algebra}
    (each : ∀ s o,
      Follows count (Algebra.renamed σ) (link s o) (linked (s.renamed σ) (o.renamed σ)))
    (target : PatternTerm) : (steps : Nat) → (source : PatternTerm) → (done : Option Algebra) →
      Follows count (Algebra.renamed σ) (chain supply link target steps source done)
        (chain other linked (target.renamed σ) steps (source.renamed σ)
          (done.map (Algebra.renamed σ)))
  | 0, source, done => by
    cases done with
    | none => exact follows_pure (Algebra.renamed σ) .empty
    | some before => exact follows_pure (Algebra.renamed σ) before
  | 1, source, done => by
    refine follows_bind (each source target) fun last => ?_
    cases done with
    | none => exact follows_pure (Algebra.renamed σ) last
    | some before =>
      have joined : Follows count (Algebra.renamed σ) _ _ := follows_pure _ (before.joined last)
      rw [Algebra.renamed_joined] at joined
      exact joined
  | steps + 2, source, done => by
    cases done with
    | none =>
      refine follows_bind (follows_pathVariable redraws) fun middle => ?_
      refine follows_bind (each source middle) fun next => ?_
      exact follows_chain each target (steps + 1) middle (some next)
    | some before =>
      refine follows_bind (follows_pathVariable redraws) fun middle => ?_
      refine follows_bind (each source middle) fun next => ?_
      have rest := follows_chain each target (steps + 1) middle (some (before.joined next))
      rw [Option.map_some, Algebra.renamed_joined] at rest
      exact rest

theorem follows_chains {link linked : PatternTerm → PatternTerm → Naming Algebra}
    (each : ∀ s o,
      Follows count (Algebra.renamed σ) (link s o) (linked (s.renamed σ) (o.renamed σ)))
    (maxHops : Nat) (source target : PatternTerm) :
    Follows count (List.map (Algebra.renamed σ)) (chains supply link maxHops source target)
      (chains other linked maxHops (source.renamed σ) (target.renamed σ)) :=
  follows_mapM _ fun hops => follows_chain redraws each target (hops + 1) source none

theorem follows_pathBetween (maxHops : Nat) (graph : Option PatternTerm) : (path : Sparql.Path) →
    (subject object : PatternTerm) → Follows count (Algebra.renamed σ)
      (pathBetween supply maxHops graph path subject object)
      (pathBetween other maxHops (graph.map (.renamed σ)) path (subject.renamed σ) (object.renamed σ))
  | .iri text, subject, object => follows_pure (Algebra.renamed σ)
      (.bgp [⟨subject, .const (.iri text), object, graph⟩])
  | .reverse inner, subject, object => follows_pathBetween maxHops graph inner object subject
  | .sequence first second, subject, object =>
    follows_bind (follows_pathVariable redraws) fun middle =>
      follows_bind (follows_pathBetween maxHops graph first subject middle) fun left =>
        follows_bind (follows_pathBetween maxHops graph second middle object) fun right =>
          follows_joined
  | .alternative first second, subject, object =>
    follows_bind (follows_pathBetween maxHops graph first subject object) fun left =>
      follows_bind (follows_pathBetween maxHops graph second subject object) fun right =>
        follows_united [left, right]
  | .zeroOrOne inner, subject, object =>
    follows_bind (follows_pathBetween maxHops graph inner subject object) fun one => by
      rw [zeroSteps_renamed redraws, Option.toList_map, ← List.map_cons]
      exact follows_united _
  | .oneOrMore inner, subject, object =>
    follows_bind (follows_chains redraws (follows_pathBetween maxHops graph inner) maxHops
      subject object) fun some => follows_united some
  | .zeroOrMore inner, subject, object =>
    follows_bind (follows_chains redraws (follows_pathBetween maxHops graph inner) maxHops
      subject object) fun some => by
      rw [zeroSteps_renamed redraws, Option.toList_map, ← List.map_append]
      exact follows_united _
  | .outside _, _, _ => follows_refuse

theorem follows_pattern (maxHops : Nat) : (p : Sparql.GraphPattern) →
    (graph : Option PatternTerm) → Follows count (Algebra.renamed σ)
      (pattern supply maxHops graph p)
      (pattern other maxHops (graph.map (.renamed σ)) p)
  | .bgp triples, graph =>
    follows_bind (follows_mapM triples (follows_triple redraws graph)) fun patterns =>
      follows_pure (Algebra.renamed σ) (.bgp patterns)
  | .path subject path object, graph =>
    follows_bind (follows_node redraws subject) fun s =>
      follows_bind (follows_node redraws object) fun o =>
        follows_pathBetween redraws maxHops graph path s o
  | .join left right, graph =>
    follows_bind (follows_pattern maxHops left graph) fun l =>
      follows_bind (follows_pattern maxHops right graph) fun r => follows_joined
  | .leftJoin left right, graph =>
    follows_bind (follows_pattern maxHops left graph) fun l =>
      follows_bind (follows_pattern maxHops right graph) fun r => by
        have optional : Follows count (Algebra.renamed σ) _ _ :=
          follows_pure _ (optionalOf l (l.joined r))
        rw [optionalOf, Algebra.renamed, Algebra.renamedAll_eq_map, List.map_cons, List.map_cons,
          Algebra.renamed_joined] at optional
        exact optional
  | .leftJoinIf left right condition, graph =>
    follows_bind (follows_pattern maxHops left graph) fun l =>
      follows_bind (follows_pattern maxHops right graph) fun r =>
        follows_bind (follows_lift (expression condition)) fun c => by
          have optional : Follows count (Algebra.renamed σ) _ _ :=
            follows_pure _ (optionalOf l (.filter c (l.joined r)))
          rw [optionalOf, Algebra.renamed, Algebra.renamedAll_eq_map, List.map_cons, List.map_cons,
            Algebra.renamed, Algebra.renamed_joined] at optional
          exact optional
  | .filter condition inner, graph =>
    follows_bind (follows_lift (expression condition)) fun c =>
      follows_bind (follows_pattern maxHops inner graph) fun a =>
        follows_pure (Algebra.renamed σ) (.filter c a)
  | .union left right, graph =>
    follows_bind (follows_pattern maxHops left graph) fun l =>
      follows_bind (follows_pattern maxHops right graph) fun r =>
        follows_united [l, r]
  | .graph name inner, graph =>
    follows_bind (follows_node redraws name) fun t => follows_pattern maxHops inner (some t)
  | .extend inner name value, graph => by
    intro names a after made few
    obtain ⟨⟨⟩, _, checked, made⟩ := run_bind_ok_iff.1 made
    obtain ⟨free, rfl⟩ := run_lift_ok_iff.1 checked
    have kept := redraws.fixes name (checkName_ok_iff.1 free)
    have extended (b : Algebra) : Follows count (Algebra.renamed σ)
        (do return .extend false name (← expression value) b)
        (do return .extend false name (← expression value) (b.renamed σ)) := by
      refine follows_bind (follows_lift (expression value)) fun v => ?_
      have last : Follows count (Algebra.renamed σ) _ _ :=
        follows_pure _ (.extend false name v b)
      rw [Algebra.renamed, kept] at last
      exact last
    have rest : Follows count (Algebra.renamed σ) _ _ :=
      follows_bind (follows_pattern maxHops inner graph) (g := fun b => do
        return .extend false name (← expression value) b) extended
    obtain ⟨grows, run⟩ := rest names a after made few
    exact ⟨grows, run_bind_ok_iff.2 ⟨(), names, checked, run⟩⟩
  | .minus .., _ | .values .., _ | .group .., _ | .service .., _ | .project .., _
  | .orderBy .., _ | .distinct _, _ | .reduced _, _ | .slice .., _ => follows_refuse

end Redrawn

end Normal

theorem NormalQuery.drawn_renamed {σ : Equiv.Perm String} {supply other : Nat → String}
    {count maxHops : Nat} {query : Sparql.Query} {normal : NormalQuery}
    (redraws : Redraws σ supply other count)
    (reduced : drawn supply maxHops query = .ok (normal, count)) :
    drawn other maxHops query = .ok (normal.renamed σ, count) := by
  obtain ⟨form, projected, rest, body, names, formed, selected, checked, made, rfl, rfl⟩ :=
    drawn_ok_iff.1 reduced
  obtain ⟨_, run⟩ := Normal.follows_pattern redraws maxHops _ none _ _ _ made le_rfl
  exact drawn_ok_iff.2
    ⟨form, projected, rest, _, names, formed, selected, checked, run, rfl, rfl⟩

/-! ## Names at places of binding -/

/-- What is below the modifiers, the projection and the order of a query. -/
def Sparql.GraphPattern.body : Sparql.GraphPattern → Sparql.GraphPattern
  | .slice inner _ _ | .distinct inner | .reduced inner | .project inner _ | .orderBy inner _ =>
    inner.body
  | other => other

namespace Normal

open Sparql (GraphPattern)
open Sparql.GraphPattern (namesOf)

theorem node_free {t term : PatternTerm} {names after : Names}
    (made : node t names = .ok (term, after)) : ∀ name ∈ namesOf t, ¬ Reserved name := by
  cases t with
  | var name =>
    obtain ⟨named, rfl⟩ := run_lift_ok_iff.1 made
    obtain ⟨⟨⟩, checked, _⟩ := bind_ok_iff.1 named
    simpa [namesOf] using checkName_ok_iff.1 checked
  | _ => simp [namesOf]

theorem triple_free {graph : Option PatternTerm} {t : Sparql.Triple} {p : Pattern}
    {names after : Names} (made : triple graph t names = .ok (p, after)) :
    ∀ name ∈ namesOf t.subject ++ namesOf t.predicate ++ namesOf t.object, ¬ Reserved name := by
  obtain ⟨_, _, subject, made⟩ := run_bind_ok_iff.1 made
  obtain ⟨_, _, predicate, made⟩ := run_bind_ok_iff.1 made
  obtain ⟨_, _, object, _⟩ := run_bind_ok_iff.1 made
  rw [List.forall_mem_append, List.forall_mem_append]
  exact ⟨⟨node_free subject, node_free predicate⟩, node_free object⟩

theorem inScope_free {supply : Nat → String} {maxHops : Nat} {graph : Option PatternTerm}
    {p : GraphPattern} {a : Algebra} {names after : Names} (forms : Forms supply maxHops graph p names a after) :
    ∀ name ∈ p.inScope, ¬ Reserved name := by
  induction forms with
  | bgp each =>
    intro name written
    obtain ⟨t, member, named⟩ := List.mem_flatMap.1 written
    obtain ⟨i, inside, rfl⟩ := List.getElem_of_mem member
    have each := run_mapM_each each
    obtain ⟨before, after, made⟩ := each.get inside (by rw [← each.length_eq]; exact inside)
    exact triple_free made name named
  | path first second => exact List.forall_mem_append.2 ⟨node_free first, node_free second⟩
  | join _ _ first second | leftJoin _ _ first second | union _ _ first second
  | leftJoinIf _ _ _ first second => exact List.forall_mem_append.2 ⟨first, second⟩
  | filter _ _ inside => exact inside
  | graph named _ inside => exact List.forall_mem_append.2 ⟨node_free named, inside⟩
  | extend free _ _ inside =>
    exact List.forall_mem_append.2 ⟨inside, List.forall_mem_singleton.2 (checkName_ok_iff.1 free)⟩

theorem body_outerModifiers (modifiers : Modifiers) (p : GraphPattern) :
    (outerModifiers modifiers p).2.body = p.body := by
  fun_induction outerModifiers modifiers p with
  | case1 _ _ _ _ induction => rw [induction, GraphPattern.body]
  | case2 _ _ induction => rw [induction, GraphPattern.body]
  | case3 _ _ induction => rw [induction, GraphPattern.body]
  | case4 => rfl

theorem body_projection {form : QueryForm} {p inner : GraphPattern} {names : List String}
    (selected : projection form p = .ok (names, inner)) : inner.body = p.body := by
  unfold projection at selected
  split at selected
  next =>
    obtain ⟨rfl, rfl⟩ := Prod.mk.inj (Except.ok.inj selected)
    rfl
  next =>
    split at selected
    · obtain ⟨rfl, rfl⟩ := Prod.mk.inj (Except.ok.inj selected)
      rfl
    · cases selected

theorem body_ordering (p : GraphPattern) : (ordering p).2.body = p.body := by
  unfold ordering
  split <;> rfl

/-- A pattern that has a normal form has no modifiers around it. -/
theorem body_of_pattern {supply : Nat → String} {maxHops : Nat} {graph : Option PatternTerm}
    {p : GraphPattern} {a : Algebra} {names after : Names}
    (made : pattern supply maxHops graph p names = .ok (a, after)) : p.body = p := by
  cases pattern_ok_iff.1 made <;> rfl

end Normal

theorem NormalQuery.ofQuery_ok {maxHops : Nat} {query : Sparql.Query} {normal : NormalQuery}
    (reduced : ofQuery maxHops query = .ok normal) : ∃ body names,
      Normal.pattern pathKey maxHops none query.pattern.body ⟨0, []⟩ = .ok (body, names) ∧
      normal.algebra = .project normal.projected body ∧
      ∀ name ∈ normal.projected, ¬ Reserved name := by
  obtain ⟨count, drawn⟩ := ofQuery_ok_iff.1 reduced
  obtain ⟨form, projected, rest, body, names, _, selected, checked, made, rfl, _⟩ :=
    drawn_ok_iff.1 drawn
  have below : query.pattern.body = (Normal.ordering rest).2 := calc
    query.pattern.body = (Normal.outerModifiers .none query.pattern).2.body :=
      (Normal.body_outerModifiers _ _).symm
    _ = rest.body := (Normal.body_projection selected).symm
    _ = (Normal.ordering rest).2.body := (Normal.body_ordering rest).symm
    _ = (Normal.ordering rest).2 := Normal.body_of_pattern made
  refine ⟨body, names, ?_, rfl, fun name member => ?_⟩
  · rw [below]
    exact made
  · exact Normal.checkName_ok_iff.1 (forM_member checked member)

/-- The variables that a query in normal form projects, and those in the scope of its pattern: at
the places of triples and paths, of graphs and of BIND. -/
theorem NormalQuery.free_of_ofQuery {maxHops : Nat} {query : Sparql.Query} {normal : NormalQuery}
    (reduced : ofQuery maxHops query = .ok normal) :
    ∀ name ∈ normal.projected ++ query.pattern.body.inScope, ¬ Reserved name := by
  obtain ⟨body, names, made, _, free⟩ := ofQuery_ok reduced
  exact List.forall_mem_append.2 ⟨free, Normal.inScope_free (Normal.pattern_ok_iff.1 made)⟩

end AttestedQuery
