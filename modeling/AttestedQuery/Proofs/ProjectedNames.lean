import AttestedQuery.Proofs.Compilation
import AttestedQuery.Proofs.VariableNames

/-!
# The names that a query projects

What stands between the braces of a query and around them keeps to written variables. A selection
lists written variables, or takes all that are in scope; those are written ones wherever the query
has a normal form.
-/

set_option autoImplicit false

namespace AttestedQuery

namespace Sparql

namespace Grammar

open Reader

/-! ## Groups -/

def Part.Written : Part → Prop
  | .pattern inner => inner.Written
  | .optional group => group.body.Written
  | .bind _ name => IsVariableName name
  | .minus _ | .filter _ => True

theorem Group.pattern_written {group : Group} (written : group.body.Written) :
    group.pattern.Written := by
  unfold pattern
  split <;> exact written

theorem withPart_written {sofar next : GraphPattern} {part : Part} (before : sofar.Written)
    (written : part.Written) (added : withPart sofar part = some next) : next.Written := by
  cases part with
  | pattern pattern =>
    obtain rfl := Option.some.inj added
    exact GraphPattern.written_joined before written
  | optional group =>
    obtain rfl := Option.some.inj added
    unfold leftJoined
    split <;> exact ⟨before, written⟩
  | minus pattern =>
    obtain rfl := Option.some.inj added
    trivial
  | bind value name =>
    change (if sofar.inScope.contains name then none else some (sofar.extend name value)) = _ at added
    split at added
    next => cases added
    next =>
      obtain rfl := Option.some.inj added
      exact ⟨before, written⟩
  | filter condition =>
    obtain rfl := Option.some.inj added
    exact before

theorem groupOf_written {first : GraphPattern} {parts : List Part} {group : Group}
    (start : first.Written) (each : ∀ part ∈ parts, part.Written)
    (made : groupOf first parts = some group) : group.body.Written := by
  obtain ⟨body, folded, whole⟩ := Option.bind_eq_some_iff.1 made
  obtain rfl := Option.some.inj whole
  clear made whole
  induction parts generalizing first with
  | nil =>
    obtain rfl := Option.some.inj folded
    exact start
  | cons part rest induction =>
    obtain ⟨here, later⟩ := List.forall_mem_cons.1 each
    rw [List.foldlM_cons] at folded
    obtain ⟨next, added, folded⟩ := Option.bind_eq_some_iff.1 folded
    exact induction (withPart_written start here added) later folded

theorem gives_inlineData : Gives inlineData GraphPattern.Written := by
  refine gives_after _ fun _ => gives_orElse ?_ ?_
  · refine gives_after _ fun name => gives_after _ fun _ => gives_after _ fun values => ?_
    exact gives_after _ fun _ => gives_pure trivial
  · refine gives_after _ fun _ => gives_after _ fun names => gives_after _ fun _ => ?_
    refine gives_after _ fun _ => gives_after _ fun _ => gives_after _ fun rows => ?_
    exact gives_after _ fun _ => gives_pure trivial

theorem gives_inBraces {α : Type} {inner : Grammar α} {wanted : α → Prop}
    (gives : Gives inner wanted) : Gives (inBraces inner) wanted := by
  refine gives_after _ fun _ => gives_after _ fun _ => ?_
  refine gives_bind gives fun a holds => ?_
  refine gives_after _ fun _ => gives_after _ fun _ => gives_after _ fun _ => ?_
  exact gives_pure holds

theorem gives_foldedLeft {patterns : List GraphPattern} (each : ∀ p ∈ patterns, p.Written) :
    Gives (foldedLeft .union patterns) GraphPattern.Written := by
  cases patterns with
  | nil => exact gives_fail
  | cons first rest =>
    obtain ⟨here, later⟩ := List.forall_mem_cons.1 each
    refine gives_pure (List.foldlRecOn (motive := GraphPattern.Written) rest _ here ?_)
    exact fun left before right member => ⟨before, later right member⟩

section Groups

variable {nested : Nested} (groups : Gives nested.group fun group => group.body.Written)
include groups

theorem gives_pattern : Gives nested.pattern GraphPattern.Written :=
  gives_bind groups fun _ written => gives_pure (Group.pattern_written written)

theorem gives_part : Gives (part nested) Part.Written := by
  have patterns := gives_pattern groups
  refine gives_orElse ?_ (gives_orElse ?_ (gives_orElse ?_ (gives_orElse ?_ (gives_orElse ?_
    (gives_orElse ?_ (gives_orElse ?_ ?_))))))
  · refine gives_bind (gives_sepBy patterns _) fun alternatives each => ?_
    exact gives_bind (gives_foldedLeft each) fun pattern written => gives_pure written
  · exact gives_after _ fun _ => gives_bind groups fun group written => gives_pure written
  · exact gives_after _ fun _ => gives_after _ fun pattern => gives_pure trivial
  · refine gives_after _ fun _ => ?_
    refine gives_bind (gives_spaced gives_varOrIri) fun name written => ?_
    exact gives_bind patterns fun pattern below => gives_pure ⟨written, below⟩
  · refine gives_after _ fun _ => gives_after _ fun silent => gives_after _ fun name => ?_
    exact gives_after _ fun pattern => gives_pure trivial
  · exact gives_after _ fun _ => gives_after _ fun condition => gives_pure trivial
  · refine gives_after _ fun _ => gives_after _ fun _ => gives_after _ fun value => ?_
    refine gives_after _ fun _ => gives_bind (gives_spaced gives_var) fun name written => ?_
    exact gives_after _ fun _ => gives_pure written
  · exact gives_bind gives_inlineData fun pattern written => gives_pure written

theorem gives_groupParts : Gives (groupParts nested) fun group => group.body.Written := by
  have blocks := gives_spaced (gives_maybe gives_block)
  refine gives_bind blocks fun first start => ?_
  refine gives_bind
    (gives_many (?_ : Gives _ fun entry : List Part => ∀ own ∈ entry, own.Written))
    fun parts each => gives_ofOption fun group made => ?_
  · refine gives_bind (gives_spaced (gives_part groups)) fun own written => gives_after _ fun _ => ?_
    refine gives_bind blocks fun found optional => ?_
    cases found with
    | none => exact gives_pure (List.forall_mem_singleton.2 written)
    | some pattern =>
      refine gives_pure (List.forall_mem_cons.2 ⟨written, List.forall_mem_singleton.2 ?_⟩)
      exact optional pattern rfl
  · refine groupOf_written ?_ (List.forall_mem_flatten.2 each) made
    cases first with
    | none => exact List.forall_mem_nil _
    | some pattern => exact start pattern rfl

end Groups

/-! ## Selections -/

def Selected.name : Selected → String
  | .var name | .computed _ name => name

/-- Every member of a selection has a written name. -/
def Selection.Written (selection : Selection) : Prop :=
  ∀ members, selection.members = some members → ∀ member ∈ members, IsVariableName member.name

theorem written_everything : Selection.everything.Written := fun _ none => nomatch none

theorem gives_selectClause (nested : Nested) : Gives (selectClause nested) Selection.Written := by
  refine gives_after _ fun _ => gives_after _ fun _ => gives_after _ fun reduction => ?_
  refine gives_bind (?_ : Gives _ fun found : Option (List Selected) => ∀ members,
    found = some members → ∀ member ∈ members, IsVariableName member.name) fun _ written =>
      gives_pure written
  apply gives_orElse
  · exact gives_after _ fun _ => gives_pure (by simp)
  · refine gives_bind (gives_atLeastOne (gives_spaced (?_ : Gives _ fun member : Selected =>
      IsVariableName member.name))) fun members each => gives_pure ?_
    · apply gives_orElse
      · exact gives_bind gives_var fun name written => gives_pure written
      · refine gives_after _ fun _ => gives_after _ fun value => gives_after _ fun _ => ?_
        refine gives_bind (gives_spaced gives_var) fun name written => ?_
        exact gives_after _ fun _ => gives_pure written
    · rintro _ ⟨⟩
      exact each

theorem groupedPattern_written {pattern : GraphPattern} {modifying : Modifying}
    (written : pattern.Written) (values : ∀ p, modifying.values = some p → p.Written)
    (aggregates : List String) : (groupedPattern pattern modifying aggregates).1.Written := by
  unfold groupedPattern
  dsimp only
  generalize (modifying.grouping <|> (if aggregates.isEmpty then none else some ⟨[], []⟩)) = grouping
  cases found : modifying.values with
  | none => cases modifying.having <;> cases grouping <;> first | exact written | trivial
  | some p =>
    refine GraphPattern.written_joined ?_ (values p found)
    cases modifying.having <;> cases grouping <;> first | exact written | trivial

theorem selectedPattern_written {grouped : Bool} {visible : List String} {members : List Selected}
    {before after : GraphPattern} {names : List String}
    (each : ∀ member ∈ members, IsVariableName member.name) (start : before.Written)
    (selected : selectedPattern grouped visible before members = some (after, names)) :
    after.Written ∧ ∀ name ∈ names, IsVariableName name := by
  induction members generalizing before names with
  | nil =>
    obtain ⟨rfl, rfl⟩ := Prod.mk.inj (Option.some.inj selected)
    exact ⟨start, List.forall_mem_nil _⟩
  | cons member rest induction =>
    obtain ⟨here, later⟩ := List.forall_mem_cons.1 each
    cases member with
    | var name =>
      rw [selectedPattern] at selected
      split at selected
      next => cases selected
      next =>
        obtain ⟨⟨pattern, others⟩, chosen, whole⟩ := Option.bind_eq_some_iff.1 selected
        obtain ⟨rfl, rfl⟩ := Prod.mk.inj (Option.some.inj whole)
        obtain ⟨written, more⟩ := induction later start chosen
        exact ⟨written, List.forall_mem_cons.2 ⟨here, more⟩⟩
    | computed value name =>
      rw [selectedPattern] at selected
      split at selected
      next => cases selected
      next =>
        split at selected
        next => cases selected
        next =>
          obtain ⟨⟨pattern, others⟩, chosen, whole⟩ := Option.bind_eq_some_iff.1 selected
          obtain ⟨rfl, rfl⟩ := Prod.mk.inj (Option.some.inj whole)
          have extended : (before.extend name value).Written := ⟨start, here⟩
          obtain ⟨written, more⟩ := induction later extended chosen
          exact ⟨written, List.forall_mem_cons.2 ⟨here, more⟩⟩

end Grammar

def GraphPattern.Selects : GraphPattern → Prop
  | .project inner names =>
    inner.Written ∧ ∀ name ∈ names, IsVariableName name ∨ name ∈ inner.inScope
  | .distinct inner | .reduced inner | .slice inner _ _ => inner.Selects
  | _ => False

theorem GraphPattern.Selects.written {g : GraphPattern} (selects : g.Selects) : g.Written := by
  cases g with
  | project | distinct | reduced | slice => trivial
  | _ => exact selects.elim

namespace Grammar

open Reader

theorem mem_sortedNames {names : List String} {name : String} :
    name ∈ sortedNames names ↔ name ∈ names := by
  rw [sortedNames, KeyMap.mem_keys_iff, ← KeyMap.contains_eq_isSome]
  exact (Bool.eq_iff_iff.1 (KeySet.contains_ofKeys names name)).trans List.contains_iff_mem

theorem selects_around {inner : GraphPattern} {names : List String}
    (projects : (GraphPattern.project inner names).Selects)
    (orderBy : Option (List (Bool × Expression))) (reduction : Reduction)
    (slice : Option (Nat × Option Nat)) :
    (let ordered := GraphPattern.project (match orderBy with
      | some keys => .orderBy inner keys
      | none => inner) names
    let reduced := match reduction with
      | .all => ordered
      | .distinct => .distinct ordered
      | .reduced => .reduced ordered
    match slice with
    | some (start, length) => GraphPattern.slice reduced start length
    | none => reduced).Selects := by
  cases orderBy <;> cases reduction <;> cases slice <;> exact projects

theorem selectPattern_selects {selection : Selection} {pattern made : GraphPattern}
    {modifying : Modifying} {aggregates : List String} (selected : selection.Written)
    (written : pattern.Written) (values : ∀ p, modifying.values = some p → p.Written)
    (found : selectPattern selection pattern modifying aggregates = some made) : made.Selects := by
  unfold selectPattern at found
  have around := groupedPattern_written written values aggregates
  generalize groupedPattern pattern modifying aggregates = state at found around
  obtain ⟨below, grouped⟩ := state
  dsimp only at found
  split at found
  next members listed =>
    obtain ⟨⟨inner, names⟩, chosen, found⟩ := Option.bind_eq_some_iff.1 found
    obtain ⟨holds, each⟩ := selectedPattern_written (selected members listed) around chosen
    split at found
    next => cases found
    next =>
      obtain rfl := Option.some.inj found
      exact selects_around ⟨holds, fun name member => Or.inl (each name member)⟩ _ _ _
  next =>
    split at found
    next => cases found
    next =>
      obtain ⟨⟨inner, names⟩, chosen, found⟩ := Option.bind_eq_some_iff.1 found
      obtain ⟨rfl, rfl⟩ := Prod.mk.inj (Option.some.inj chosen)
      split at found
      next => cases found
      next =>
        obtain rfl := Option.some.inj found
        exact selects_around ⟨around, fun name member => Or.inr (mem_sortedNames.1 member)⟩ _ _ _

/-! ## Queries -/

section Queries

variable {nested : Nested} (groups : Gives nested.group fun group => group.body.Written)
include groups

omit groups in
theorem gives_modifyingClauses : Gives (modifyingClauses nested) fun modifying =>
    ∀ p, modifying.values = some p → p.Written := by
  refine gives_after _ fun grouping => gives_after _ fun having => gives_after _ fun orderBy => ?_
  refine gives_after _ fun slice => ?_
  exact gives_bind (gives_maybe gives_inlineData) fun values written => gives_pure written

omit groups in
theorem gives_selecting {selection : Selection} {pattern : GraphPattern}
    (selected : selection.Written) (written : pattern.Written) :
    Gives (selecting selection pattern nested) GraphPattern.Selects := by
  refine gives_bind gives_modifyingClauses fun modifying values => gives_after _ fun aggregates => ?_
  exact gives_ofOption fun made found => selectPattern_selects selected written values found

theorem gives_whereClause : Gives (whereClause nested) GraphPattern.Written :=
  gives_after _ fun _ => gives_pattern groups

theorem gives_groupWith : Gives (groupWith nested) fun group => group.body.Written := by
  apply gives_orElse
  · exact gives_inBraces (gives_groupParts groups)
  · have below : Gives (subquery nested) GraphPattern.Written := by
      refine gives_bind (gives_spaced (gives_selectClause nested)) fun selection selected => ?_
      refine gives_bind (gives_spaced (gives_whereClause groups)) fun pattern written => ?_
      exact (gives_selecting selected written).imp fun _ => GraphPattern.Selects.written
    exact gives_bind (gives_inBraces below) fun pattern written => gives_pure written

end Queries

theorem gives_nestedOfDepth (depth : Nat) :
    Gives (nestedOfDepth depth).group fun group => group.body.Written := by
  induction depth with
  | zero => exact gives_fail
  | succ depth induction => exact gives_groupWith induction

end Grammar

/-- A query selects written variables or variables in scope, unless it is of a form that is not
compiled. -/
def Query.Written (query : Query) : Prop :=
  query.form = .construct ∨ query.form = .describe ∨ query.pattern.Selects

namespace Grammar

open Reader

theorem gives_query {nested : Nested} (groups : Gives nested.group fun group => group.body.Written) :
    Gives (query nested) Query.Written := by
  have wheres := gives_spaced (gives_whereClause groups)
  refine gives_after _ fun _ => gives_after _ fun _ => ?_
  refine gives_bind (?_ : Gives _ Query.Written) fun query written =>
    gives_after _ fun _ => gives_pure written
  refine gives_orElse ?_ (gives_orElse ?_ (gives_orElse ?_ ?_))
  · refine gives_bind (gives_spaced (gives_selectClause nested)) fun selection selected => ?_
    refine gives_after _ fun _ => gives_bind wheres fun pattern written => ?_
    refine gives_bind (gives_selecting selected written) fun made selects => ?_
    exact gives_pure (Or.inr (Or.inr selects))
  · apply gives_orElse
    · refine gives_after _ fun _ => gives_after _ fun _ => gives_after _ fun _ => ?_
      refine gives_after _ fun _ => gives_after _ fun _ => gives_after _ fun pattern => ?_
      exact gives_after _ fun made => gives_pure (Or.inl rfl)
    · refine gives_after _ fun _ => gives_after _ fun _ => gives_after _ fun _ => ?_
      refine gives_after _ fun _ => gives_after _ fun _ => gives_after _ fun _ => ?_
      exact gives_after _ fun made => gives_pure (Or.inl rfl)
  · refine gives_after _ fun _ => gives_after _ fun _ => gives_after _ fun _ => ?_
    refine gives_after _ fun _ => gives_after _ fun made => ?_
    exact gives_pure (Or.inr (Or.inl rfl))
  · refine gives_after _ fun _ => gives_after _ fun _ => gives_bind wheres fun pattern written => ?_
    refine gives_bind (gives_selecting written_everything written) fun made selects => ?_
    exact gives_pure (Or.inr (Or.inr selects))

end Grammar

theorem Query.parse_written {text : String} {query : Query} (parsed : parse text = .ok query) :
    query.Written := by
  unfold parse at parsed
  dsimp only at parsed
  split at parsed
  next found =>
    obtain rfl := Except.ok.inj parsed
    exact (Grammar.gives_query (Grammar.gives_nestedOfDepth _)).readAll found
  next => cases parsed

/-! ## Compiled queries -/

theorem GraphPattern.Selects.outer {g : GraphPattern} (selects : g.Selects) (modifiers : Modifiers) :
    ∃ inner names, (Normal.outerModifiers modifiers g).2 = .project inner names ∧
      (GraphPattern.project inner names).Selects := by
  fun_induction Normal.outerModifiers modifiers g with
  | case1 _ _ _ _ induction | case2 _ _ induction | case3 _ _ induction => exact induction selects
  | case4 modifiers other =>
    cases other with
    | project inner names => exact ⟨inner, names, rfl, selects⟩
    | distinct | reduced | slice => simp_all
    | _ => exact selects.elim

theorem ordering_written {g : GraphPattern} (written : g.Written) :
    (Normal.ordering g).2.Written ∧ (Normal.ordering g).2.inScope = g.inScope := by
  unfold Normal.ordering
  split
  next => exact ⟨written, rfl⟩
  next => exact ⟨written, rfl⟩

end Sparql

open Sparql

theorem NormalQuery.ofQuery_written {hops : Nat} {query : Query} {normal : NormalQuery}
    (written : query.Written) (reduced : ofQuery hops query = .ok normal) :
    ∀ name ∈ normal.projected, IsVariableName name := by
  obtain ⟨_, drawn⟩ := ofQuery_ok_iff.1 reduced
  obtain ⟨form, projected, rest, body, after, accepted, chosen, _, ran, rfl, _⟩ :=
    drawn_ok_iff.1 drawn
  have selects : query.pattern.Selects := by
    rcases written with construct | describe | selects
    · rw [construct] at accepted
      cases accepted
    · rw [describe] at accepted
      cases accepted
    · exact selects
  obtain ⟨inner, names, outer, below, each⟩ := selects.outer .none
  rw [outer] at chosen
  obtain ⟨rfl, rfl⟩ := Prod.mk.inj (Except.ok.inj chosen)
  obtain ⟨orderedWritten, same⟩ := ordering_written below
  intro name member
  rcases each name member with written | inside
  · exact written
  · exact GraphPattern.inScope_written (Normal.pattern_ok_iff.1 ran) orderedWritten name
      (same ▸ inside)

theorem Program.projected_written {config : Config} {text : String} {p : Program}
    (compiled : compile config text = .ok p) : ∀ name ∈ p.projected, IsVariableName name := by
  obtain ⟨_, _, compiled⟩ := bind_ok_iff.1 compiled
  obtain ⟨query, parsed, compiled⟩ := bind_ok_iff.1 compiled
  obtain ⟨normal, reduced, compiled⟩ := bind_ok_iff.1 compiled
  obtain ⟨fragments, compiles⟩ := ofNormal_ok compiled
  rw [compiles.projected]
  exact NormalQuery.ofQuery_written (Query.parse_written parsed) reduced

end AttestedQuery
