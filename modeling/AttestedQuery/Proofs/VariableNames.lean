import AttestedQuery.Proofs.NormalForms
import AttestedQuery.Proofs.Readers
import AttestedQuery.Program.OfQuery

/-!
# The names of variables

Every variable that a compiled query projects was written in its text: names that the grammar makes
up are those of grouping and of DESCRIBE, which have no normal form.
-/

set_option autoImplicit false

namespace AttestedQuery

namespace Sparql

def IsVariableName (name : String) : Prop :=
  name.toList ≠ [] ∧ ∀ c ∈ name.toList, Rdf.isVariableChar c = true

end Sparql

open Sparql

def PatternTerm.Written : PatternTerm → Prop
  | .var name => IsVariableName name
  | _ => True

namespace Sparql

structure Triple.Written (t : Triple) : Prop where
  subject : t.subject.Written
  predicate : t.predicate.Written
  object : t.object.Written

/-- The variables in scope were written, as far as the pattern has a normal form. -/
def GraphPattern.Written : GraphPattern → Prop
  | .bgp triples => ∀ t ∈ triples, t.Written
  | .path subject _ object => subject.Written ∧ object.Written
  | .join left right | .leftJoin left right | .leftJoinIf left right _ | .union left right =>
    left.Written ∧ right.Written
  | .filter _ inner | .orderBy inner _ => inner.Written
  | .graph name inner => name.Written ∧ inner.Written
  | .extend inner name _ => inner.Written ∧ IsVariableName name
  | .minus .. | .service .. | .values .. | .group .. | .project .. | .distinct _ | .reduced _
  | .slice .. => True

namespace GraphPattern

theorem namesOf_written {t : PatternTerm} (written : t.Written) :
    ∀ name ∈ namesOf t, IsVariableName name := by
  cases t with
  | var name => exact List.forall_mem_singleton.2 written
  | const | blank => simp [namesOf]

theorem inScope_written {supply : Nat → String} {hops : Nat} {graph : Option PatternTerm}
    {g : GraphPattern} {before after : Normal.Names} {a : Algebra}
    (forms : Normal.Forms supply hops graph g before a after) (written : g.Written) :
    ∀ name ∈ g.inScope, IsVariableName name := by
  induction forms with
  | bgp =>
    simp only [inScope, List.forall_mem_flatMap, List.forall_mem_append]
    intro t member
    have each := written t member
    exact ⟨⟨namesOf_written each.subject, namesOf_written each.predicate⟩,
      namesOf_written each.object⟩
  | path => exact List.forall_mem_append.2 ⟨namesOf_written written.1, namesOf_written written.2⟩
  | join _ _ first second | leftJoin _ _ first second | union _ _ first second
  | leftJoinIf _ _ _ first second =>
    exact List.forall_mem_append.2 ⟨first written.1, second written.2⟩
  | filter _ _ inside => exact inside written
  | graph _ _ inside =>
    exact List.forall_mem_append.2 ⟨namesOf_written written.1, inside written.2⟩
  | extend _ _ _ inside =>
    exact List.forall_mem_append.2 ⟨inside written.1, List.forall_mem_singleton.2 written.2⟩

theorem written_joined {left right : GraphPattern} (first : left.Written) (second : right.Written) :
    (left.joined right).Written := by
  fun_induction joined left right with
  | case1 => exact second
  | case2 => exact first
  | case3 left right => exact List.forall_mem_append.2 ⟨first, second⟩
  | case4 left name right induction => exact ⟨first.1, induction first.2 second.2⟩
  | case5 | case6 => exact ⟨first, second⟩

end GraphPattern

namespace Grammar

open Reader

/-! ## Words -/

section Words

variable {α : Type} {reader : Grammar α} {wanted : α → Prop}

theorem gives_spaced (gives : Gives reader wanted) : Gives (spaced reader) wanted := by
  refine gives_bind gives fun a holds => ?_
  exact gives_after _ fun _ => gives_pure holds

theorem gives_bracketed (gives : Gives reader wanted) : Gives (bracketed reader) wanted := by
  refine gives_after _ fun _ => ?_
  refine gives_bind (gives_spaced gives) fun a holds => ?_
  exact gives_after _ fun _ => gives_pure holds

end Words

theorem gives_var : Gives var IsVariableName := by
  refine gives_after _ fun _ => ?_
  refine gives_bind (gives_charIf _) fun first admitted => ?_
  refine gives_bind (gives_run _) fun rest others => gives_pure ?_
  refine ⟨by simp, ?_⟩
  rw [String.toList_ofList, List.forall_mem_cons]
  refine ⟨?_, others⟩
  rw [Bool.or_eq_true] at admitted
  rcases admitted with start | digit
  · simp [Rdf.isVariableChar, start]
  · simp [Rdf.isVariableChar, digit]

theorem gives_varOrIri : Gives varOrIri PatternTerm.Written := by
  apply gives_orElse
  · exact gives_bind gives_var fun name written => gives_pure written
  · exact gives_after _ fun text => gives_pure trivial

theorem gives_varOrTerm : Gives varOrTerm PatternTerm.Written := by
  unfold varOrTerm
  refine gives_orElse (gives_bind gives_var fun name written => gives_pure written) ?_
  refine gives_orElse (gives_after _ fun text => gives_pure trivial) ?_
  refine gives_orElse (gives_after _ fun term => gives_pure trivial) ?_
  refine gives_orElse (gives_after _ fun label => gives_pure trivial) ?_
  exact gives_after _ fun _ => gives_pure trivial

/-! ## Triples -/

/-- The terms of an element were written. -/
def Element.Written : Element → Prop
  | .triple t => t.Written
  | .path subject _ object => subject.Written ∧ object.Written

def VerbWritten : Verb → Prop
  | .var name => IsVariableName name
  | .path _ => True

theorem gives_pathElements (path : Path) {subject object : PatternTerm} (start : subject.Written)
    (finish : object.Written) :
    Gives (pathElements subject object path) fun elements => ∀ e ∈ elements, e.Written := by
  induction path generalizing subject object with
  | iri text => exact gives_pure (List.forall_mem_singleton.2 ⟨start, trivial, finish⟩)
  | reverse inner induction => exact induction finish start
  | sequence first second before after =>
    refine gives_after _ fun label => ?_
    refine gives_bind (before start trivial) fun left one => ?_
    refine gives_bind (after trivial finish) fun right other => ?_
    exact gives_pure (List.forall_mem_append.2 ⟨one, other⟩)
  | alternative | zeroOrMore | oneOrMore | zeroOrOne | outside =>
    exact gives_pure (List.forall_mem_singleton.2 ⟨start, finish⟩)

theorem gives_verbElements {subject object : PatternTerm} {verb : Verb} (start : subject.Written)
    (between : VerbWritten verb) (finish : object.Written) :
    Gives (verbElements subject verb object) fun elements => ∀ e ∈ elements, e.Written := by
  cases verb with
  | var name => exact gives_pure (List.forall_mem_singleton.2 ⟨start, between, finish⟩)
  | path path => exact gives_pathElements path start finish

structure Node.Written (node : Node) : Prop where
  term : node.term.Written
  elements : ∀ e ∈ node.elements, e.Written

structure Properties.Written (properties : Properties) : Prop where
  verbs : ∀ entry ∈ properties.verbs, VerbWritten entry.1 ∧ ∀ object ∈ entry.2, object.Written
  elements : ∀ e ∈ properties.elements, e.Written

theorem Properties.Written.gives_elementsOf {properties : Properties} (written : properties.Written)
    {subject : PatternTerm} (start : subject.Written) :
    Gives (properties.elementsOf subject) fun elements => ∀ e ∈ elements, e.Written := by
  have own : ∀ entry ∈ properties.verbs, Gives (do
      return (← entry.2.mapM fun object => verbElements subject entry.1 object).flatten)
      fun elements => ∀ e ∈ elements, e.Written := by
    intro entry member
    obtain ⟨between, each⟩ := written.verbs entry member
    refine gives_bind (gives_mapM fun object inside =>
      gives_verbElements start between (each object inside)) fun parts all => ?_
    exact gives_pure (List.forall_mem_flatten.2 all)
  refine gives_bind (gives_mapM own) fun parts all => ?_
  exact gives_pure (List.forall_mem_flatten.2 all)

section Nodes

variable {verb : Grammar Verb} {node : Grammar Node} (verbs : Gives verb VerbWritten)
  (nodes : Gives node Node.Written)
include verbs nodes

theorem gives_propertyList : Gives (propertyList verb node) Properties.Written := by
  let wanted (entry : Verb × List Node) : Prop :=
    VerbWritten entry.1 ∧ ∀ object ∈ entry.2, object.Written
  have entry : Gives (do
      let verb ← spaced verb
      return (verb, ← spaced (objectList node))) wanted := by
    refine gives_bind (gives_spaced verbs) fun verb between => ?_
    refine gives_bind (gives_spaced (gives_sepBy (gives_spaced nodes) _)) fun objects each => ?_
    exact gives_pure ⟨between, each⟩
  refine gives_bind entry fun first here => ?_
  refine gives_bind (gives_many (gives_after _ fun _ => gives_maybe entry)) fun more later => ?_
  have each : ∀ entry ∈ first :: more.filterMap id, wanted entry := by
    rw [List.forall_mem_cons]
    refine ⟨here, fun entry member => ?_⟩
    obtain ⟨_, inside, rfl⟩ := List.mem_filterMap.1 member
    exact later _ inside entry rfl
  refine gives_pure ⟨?_, ?_⟩
  · rw [List.forall_mem_map]
    intro entry member
    exact ⟨(each entry member).1, List.forall_mem_map.2 fun node inside =>
      ((each entry member).2 node inside).term⟩
  · simp only [List.forall_mem_flatMap]
    exact fun entry member node inside => ((each entry member).2 node inside).elements

omit verbs nodes in
theorem gives_collection {items : List Node} (each : ∀ item ∈ items, item.Written) :
    Gives (collection items) Node.Written := by
  refine gives_foldlM ⟨trivial, List.forall_mem_nil _⟩ fun tail item member after => ?_
  have written := each item (List.mem_reverse.1 member)
  refine gives_after _ fun label => gives_pure ⟨trivial, ?_⟩
  simp only [List.forall_mem_append, List.forall_mem_cons]
  exact ⟨⟨after.elements, ⟨trivial, trivial, written.term⟩, ⟨trivial, trivial, after.term⟩,
    List.forall_mem_nil _⟩, written.elements⟩

theorem gives_bracketNode : Gives (bracketNode verb node) Node.Written := by
  apply gives_orElse
  · refine gives_bind (gives_bracketed (gives_atLeastOne (gives_spaced nodes))) fun items each => ?_
    exact gives_collection each
  · refine gives_after _ fun _ => ?_
    refine gives_bind (gives_spaced (gives_propertyList verbs nodes)) fun properties written => ?_
    refine gives_after _ fun _ => gives_after _ fun label => ?_
    refine gives_bind (written.gives_elementsOf trivial) fun own each => ?_
    exact gives_pure ⟨trivial, List.forall_mem_append.2 ⟨written.elements, each⟩⟩

end Nodes

section Subjects

variable {verb : Grammar Verb} (verbs : Gives verb VerbWritten)
include verbs

theorem gives_node : Gives (node verb) Node.Written := by
  have each (depth : Nat) : Gives (nodeOfDepth verb depth) Node.Written := by
    induction depth with
    | zero => exact gives_fail
    | succ depth induction =>
      apply gives_orElse
      · refine gives_bind gives_varOrTerm fun term written => ?_
        exact gives_pure ⟨written, List.forall_mem_nil _⟩
      · exact gives_bracketNode verbs induction
  exact fun text => each (text.length + 1) text

theorem gives_sameSubject :
    Gives (sameSubject verb) fun elements => ∀ e ∈ elements, e.Written := by
  have properties := gives_propertyList verbs (gives_node verbs)
  apply gives_orElse
  · refine gives_bind (gives_spaced gives_varOrTerm) fun subject start => ?_
    refine gives_bind properties fun properties written => ?_
    refine gives_bind (written.gives_elementsOf start) fun own each => ?_
    exact gives_pure (List.forall_mem_append.2 ⟨written.elements, each⟩)
  · refine gives_bind (gives_spaced (gives_bracketNode verbs (gives_node verbs)))
      fun subject start => ?_
    refine gives_bind (gives_maybe properties) fun found optional => ?_
    have written : (found.getD ⟨[], []⟩).Written := by
      cases found with
      | none => exact ⟨List.forall_mem_nil _, List.forall_mem_nil _⟩
      | some properties => exact optional properties rfl
    refine gives_bind (written.gives_elementsOf start.term) fun own each => ?_
    refine gives_pure ?_
    simp only [List.forall_mem_append]
    exact ⟨⟨start.elements, written.elements⟩, each⟩

theorem gives_triples : Gives (triples verb) fun elements => ∀ e ∈ elements, e.Written := by
  refine gives_bind (gives_sepBy (gives_spaced (gives_sameSubject verbs)) _) fun parts each => ?_
  exact gives_after _ fun _ => gives_pure (List.forall_mem_flatten.2 each)

end Subjects

theorem closeRun_written {run : List Triple} {later : List GraphPattern}
    (triples : ∀ t ∈ run, t.Written) (each : ∀ part ∈ later, part.Written) :
    ∀ part ∈ parts.closeRun run later, part.Written := by
  unfold parts.closeRun
  split
  · exact each
  · exact List.forall_mem_cons.2 ⟨triples, each⟩

theorem parts_written {elements : List Element} (each : ∀ e ∈ elements, e.Written) :
    ∀ part ∈ parts elements, part.Written := by
  let kept (state : List Triple × List GraphPattern) : Prop :=
    (∀ t ∈ state.1, t.Written) ∧ ∀ part ∈ state.2, part.Written
  unfold parts
  generalize made : elements.foldr _ _ = state
  have folded : kept state := by
    rw [← made]
    refine List.foldrRecOn (motive := kept) elements _ ?_ fun state holds element member => ?_
    · exact ⟨List.forall_mem_nil _, List.forall_mem_nil _⟩
    · have written := each element member
      cases element with
      | triple t => exact ⟨List.forall_mem_cons.2 ⟨written, holds.1⟩, holds.2⟩
      | path subject path object =>
        exact ⟨List.forall_mem_nil _,
          List.forall_mem_cons.2 ⟨written, closeRun_written holds.1 holds.2⟩⟩
  exact closeRun_written folded.1 folded.2

theorem blockPattern_written {elements : List Element} (each : ∀ e ∈ elements, e.Written) :
    (blockPattern elements).Written := by
  unfold blockPattern
  split
  next => exact List.forall_mem_nil _
  next first rest made =>
    have written := parts_written each
    rw [made, List.forall_mem_cons] at written
    refine List.foldlRecOn (motive := GraphPattern.Written) rest _ written.1 ?_
    exact fun left before right member => GraphPattern.written_joined before (written.2 right member)

theorem gives_pathVerb : Gives pathVerb VerbWritten := by
  apply gives_orElse
  · exact gives_after _ fun path => gives_pure trivial
  · exact gives_bind gives_var fun name written => gives_pure written

theorem gives_block : Gives block GraphPattern.Written :=
  gives_bind (gives_triples gives_pathVerb) fun _ each => gives_pure (blockPattern_written each)

end Grammar

end Sparql

end AttestedQuery
