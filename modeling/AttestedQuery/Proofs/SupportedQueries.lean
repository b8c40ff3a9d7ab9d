import AttestedQuery.Proofs.SupportedPatterns

/-!
# The queries that have a normal form

A query has a normal form exactly where it is a SELECT or ASK of a supported pattern; what it says
of the order, the number and the repetition of solutions does not matter. A parsed query always
comes in these parts.
-/

set_option autoImplicit false

namespace AttestedQuery

/-! ## Queries -/

namespace Sparql

open Grammar (Reduction Selection Modifying sortedNames)

/-- A query in parts: the pattern that it asks for, and what it says of the solutions. -/
structure Outline where
  slice : Option (Nat × Option Nat)
  reduction : Reduction
  names : List String
  orderBy : Option (List (Bool × Expression))
  body : GraphPattern

namespace Outline

def ordered (o : Outline) : GraphPattern :=
  match o.orderBy with
  | some keys => .orderBy o.body keys
  | none => o.body

def selected (o : Outline) : GraphPattern :=
  match o.reduction with
  | .all => .project o.ordered o.names
  | .distinct => .distinct (.project o.ordered o.names)
  | .reduced => .reduced (.project o.ordered o.names)

def pattern (o : Outline) : GraphPattern :=
  match o.slice with
  | some (start, length) => .slice o.selected start length
  | none => o.selected

def modifiers (o : Outline) : Modifiers where
  distinct := match o.reduction with
    | .distinct => true
    | .all | .reduced => false
  reduced := match o.reduction with
    | .reduced => true
    | .all | .distinct => false
  orderBy := (o.orderBy.getD []).map fun (descending, key) => ⟨key.text, descending⟩
  offset := (o.slice.map (·.1)).getD 0
  limit := o.slice.bind (·.2)

/-- The names are free, and the body is of supported constructs only. -/
def Supported (paths : Path → Prop) (o : Outline) : Prop :=
  Unreserved o.names ∧ o.body.Supported paths

def Settled (o : Outline) : Prop := o.orderBy = none → ∀ inner keys, o.body ≠ .orderBy inner keys

theorem Supported.settled {paths : Path → Prop} {o : Outline} (supported : o.Supported paths) :
    o.Settled := by
  intro _ inner keys same
  have inside := supported.2
  rw [same] at inside
  exact inside

/-- An order at the top of a body belongs to the query. -/
theorem exists_settled (o : Outline) : ∃ other : Outline, other.Settled ∧
    other.pattern = o.pattern ∧ other.names = o.names ∧ other.body.inScope = o.body.inScope := by
  by_cases settled : o.Settled
  · exact ⟨o, settled, rfl, rfl, rfl⟩
  · unfold Settled at settled
    push Not at settled
    obtain ⟨none, inner, keys, same⟩ := settled
    refine ⟨⟨o.slice, o.reduction, o.names, some keys, inner⟩, ?_, ?_, rfl, ?_⟩
    · intro impossible
      cases impossible
    · simp only [pattern, selected, ordered, none, same]
    · rw [same, GraphPattern.inScope]

open AttestedQuery.Normal in
theorem outerModifiers_pattern (o : Outline) : outerModifiers .none o.pattern =
    ({ o.modifiers with orderBy := [] }, .project o.ordered o.names) := by
  unfold pattern selected modifiers
  cases o.slice <;> cases o.reduction <;> rfl

open AttestedQuery.Normal in
theorem Settled.ordering {o : Outline} (settled : o.Settled) :
    ordering o.ordered = (o.modifiers.orderBy, o.body) := by
  unfold ordered modifiers
  cases order : o.orderBy with
  | some keys => rfl
  | none =>
    simp only [Normal.ordering]
    split
    next inner keys same => exact absurd same (settled order inner keys)
    next => rfl

end Outline

end Sparql

namespace Normal

theorem accepts_formOf (form : Sparql.Form) :
    Accepts (formOf form) (form = .select ∨ form = .ask) := by
  cases form <;> simp [Accepts, formOf, refuse]

theorem accepts_names (names : List String) :
    Accepts (names.forM checkName) (Sparql.Unreserved names) := by
  induction names with
  | nil => exact (accepts_pure _).trans (by simp [Sparql.Unreserved])
  | cons first rest induction =>
    rw [Sparql.Unreserved, List.forall_mem_cons]
    exact accepts_bind (accepts_checkName first) fun _ => induction

end Normal

namespace NormalQuery

open Sparql AttestedQuery.Normal

variable {supply : Nat → String}

theorem drawn_outline (maxHops : Nat) {o : Outline} (settled : o.Settled) (form : Form)
    (dataset : List DatasetClause) : drawn supply maxHops ⟨form, o.pattern, dataset⟩ = (do
      let form ← formOf form
      o.names.forM checkName
      let (body, names) ← (pattern supply maxHops none o.body).run ⟨0, []⟩
      return (⟨form, .project o.names body, o.names, o.modifiers⟩, names.paths)) := by
  unfold drawn
  rw [o.outerModifiers_pattern]
  apply bind_congr
  intro form
  change (do
    o.names.forM checkName
    let (body, names) ← (pattern supply maxHops none (ordering o.ordered).2).run ⟨0, []⟩
    return (NormalQuery.mk form (.project o.names body) o.names
      { o.modifiers with orderBy := (ordering o.ordered).1 }, names.paths)) = _
  rw [settled.ordering]

theorem accepts_outline (maxHops : Nat) {query : Query} {o : Outline} (settled : o.Settled)
    (same : query.pattern = o.pattern) : Accepts (ofQuery maxHops query)
      ((query.form = .select ∨ query.form = .ask) ∧ o.Supported (Path.Unrolls maxHops)) := by
  obtain ⟨form, p, dataset⟩ := query
  obtain rfl : p = o.pattern := same
  refine accepts_map ?_ Prod.fst
  rw [drawn_outline maxHops settled form dataset]
  exact accepts_bind (accepts_formOf form) fun _ => accepts_bind (accepts_names o.names) fun _ =>
    accepts_map (asks_pattern pathKey maxHops o.body none ⟨0, []⟩) _

theorem keeps_outline {maxHops : Nat} {query : Query} {o : Outline} (settled : o.Settled)
    (same : query.pattern = o.pattern) {normal : NormalQuery}
    (reduced : ofQuery maxHops query = .ok normal) :
    normal.projected = o.names ∧ normal.modifiers = o.modifiers := by
  obtain ⟨form, p, dataset⟩ := query
  obtain rfl : p = o.pattern := same
  obtain ⟨_, reduced⟩ := ofQuery_ok_iff.1 reduced
  rw [drawn_outline maxHops settled form dataset] at reduced
  obtain ⟨form, _, reduced⟩ := bind_ok_iff.1 reduced
  obtain ⟨_, _, reduced⟩ := bind_ok_iff.1 reduced
  obtain ⟨made, _, reduced⟩ := bind_ok_iff.1 reduced
  obtain ⟨rfl, _⟩ := Prod.mk.inj (pure_ok_iff.1 reduced)
  exact ⟨rfl, rfl⟩

end NormalQuery

/-! ## Parsed queries -/

namespace Sparql

/-- The query in parts; everything in scope is selected where nothing is selected by name. -/
def Query.Outlined (query : Query) (o : Outline) : Prop :=
  query.pattern = o.pattern ∧
    (query.form = .ask → o.names = Grammar.sortedNames o.body.inScope)

namespace Grammar

open Reader

theorem pattern_of_parts (slice : Option (Nat × Option Nat)) (reduction : Reduction)
    (names : List String) (orderBy : Option (List (Bool × Expression))) (inner : GraphPattern) :
    (let ordered := GraphPattern.project (match orderBy with
      | some keys => .orderBy inner keys
      | none => inner) names
    let reduced := match reduction with
      | .all => ordered
      | .distinct => .distinct ordered
      | .reduced => .reduced ordered
    match slice with
    | some (start, length) => GraphPattern.slice reduced start length
    | none => reduced) = (⟨slice, reduction, names, orderBy, inner⟩ : Outline).pattern := by
  unfold Outline.pattern Outline.selected Outline.ordered
  cases slice <;> cases reduction <;> cases orderBy <;> rfl

theorem selectPattern_outline {selection : Selection} {pattern made : GraphPattern}
    {modifying : Modifying} {aggregates : List String}
    (found : selectPattern selection pattern modifying aggregates = some made) :
    ∃ o : Outline, made = o.pattern ∧
      (selection.members = none → o.names = sortedNames o.body.inScope) := by
  unfold selectPattern at found
  generalize groupedPattern pattern modifying aggregates = state at found
  obtain ⟨below, grouped⟩ := state
  dsimp only at found
  split at found
  next members listed =>
    obtain ⟨⟨inner, names⟩, _, found⟩ := Option.bind_eq_some_iff.1 found
    split at found
    next => cases found
    next =>
      obtain rfl := Option.some.inj found
      refine ⟨⟨modifying.slice, selection.reduction, names, modifying.orderBy, inner⟩,
        pattern_of_parts _ _ _ _ _, ?_⟩
      intro everything
      rw [everything] at listed
      cases listed
  next =>
    split at found
    next => cases found
    next =>
      obtain ⟨⟨inner, names⟩, chosen, found⟩ := Option.bind_eq_some_iff.1 found
      obtain ⟨rfl, rfl⟩ := Prod.mk.inj (Option.some.inj chosen)
      split at found
      next => cases found
      next =>
        obtain rfl := Option.some.inj found
        exact ⟨⟨modifying.slice, selection.reduction, _, modifying.orderBy, below⟩,
          pattern_of_parts _ _ _ _ _, fun _ => rfl⟩

theorem gives_outline (selection : Selection) (pattern : GraphPattern) (nested : Nested) :
    Gives (selecting selection pattern nested) fun made => ∃ o : Outline, made = o.pattern ∧
      (selection.members = none → o.names = sortedNames o.body.inScope) := by
  refine gives_after _ fun modifying => gives_after _ fun aggregates => ?_
  exact gives_ofOption fun made found => selectPattern_outline found

theorem gives_outlined (nested : Nested) : Gives (query nested) fun query =>
    query.form = .construct ∨ query.form = .describe ∨ ∃ o, query.Outlined o := by
  refine gives_after _ fun _ => gives_after _ fun _ => ?_
  refine gives_bind (?_ : Gives _ fun query : Query =>
    query.form = .construct ∨ query.form = .describe ∨ ∃ o, query.Outlined o) fun query outlined =>
      gives_after _ fun _ => gives_pure outlined
  refine gives_orElse ?_ (gives_orElse ?_ (gives_orElse ?_ ?_))
  · refine gives_after _ fun selection => gives_after _ fun dataset => gives_after _ fun pattern => ?_
    refine gives_bind (gives_outline selection pattern nested) fun made outline => gives_pure ?_
    obtain ⟨o, same, _⟩ := outline
    refine Or.inr (Or.inr ⟨o, same, fun ask => ?_⟩)
    cases ask
  · apply gives_orElse
    · refine gives_after _ fun _ => gives_after _ fun _ => gives_after _ fun _ => ?_
      refine gives_after _ fun _ => gives_after _ fun _ => gives_after _ fun _ => ?_
      exact gives_after _ fun _ => gives_pure (Or.inl rfl)
    · refine gives_after _ fun _ => gives_after _ fun _ => gives_after _ fun _ => ?_
      refine gives_after _ fun _ => gives_after _ fun _ => gives_after _ fun _ => ?_
      exact gives_after _ fun _ => gives_pure (Or.inl rfl)
  · refine gives_after _ fun _ => gives_after _ fun _ => gives_after _ fun _ => ?_
    refine gives_after _ fun _ => gives_after _ fun _ => ?_
    exact gives_pure (Or.inr (Or.inl rfl))
  · refine gives_after _ fun _ => gives_after _ fun dataset => gives_after _ fun pattern => ?_
    refine gives_bind (gives_outline .everything pattern nested) fun made outline => gives_pure ?_
    obtain ⟨o, same, names⟩ := outline
    exact Or.inr (Or.inr ⟨o, same, fun _ => names rfl⟩)

end Grammar

theorem Query.exists_outlined {text : String} {query : Query} (parsed : parse text = .ok query)
    (form : query.form = .select ∨ query.form = .ask) : ∃ o, query.Outlined o ∧ o.Settled := by
  unfold parse at parsed
  dsimp only at parsed
  split at parsed
  next found =>
    obtain rfl := Except.ok.inj parsed
    obtain construct | describe | ⟨o, outlined⟩ := (Grammar.gives_outlined _).readAll found
    · rw [construct] at form
      simp at form
    · rw [describe] at form
      simp at form
    · obtain ⟨other, settled, same, names, inScope⟩ := o.exists_settled
      refine ⟨other, ⟨outlined.1.trans same.symm, ?_⟩, settled⟩
      intro ask
      rw [names, inScope, outlined.2 ask]
  next => cases parsed

end Sparql

open Sparql

theorem sortedNames_eq_nil_iff {names : List String} :
    Grammar.sortedNames names = [] ↔ names = [] := by
  simp only [List.eq_nil_iff_forall_not_mem, Grammar.mem_sortedNames]

/-- For every parsed query: it has a normal form exactly if it is a SELECT or ASK whose names are
free and whose body is of supported constructs at every depth. The normal form selects what the
query selects and records its modifiers; an ASK selects everything in scope, and so nothing only
where nothing is in scope. The graphs in FROM clauses make no difference. -/
theorem normal_form_iff_supported (text : String) (query : Query)
    (parsed : Query.parse text = .ok query) (maxHops : Nat) :
    ((∃ normal, NormalQuery.ofQuery maxHops query = .ok normal) ↔
        (query.form = .select ∨ query.form = .ask) ∧
          ∃ o, query.Outlined o ∧ o.Supported (Path.Unrolls maxHops)) ∧
      (0 < maxHops → ∀ o : Outline,
        o.Supported (Path.Unrolls maxHops) ↔ o.Supported Path.Affirmative) ∧
      (∀ normal, NormalQuery.ofQuery maxHops query = .ok normal →
        ∃ o, query.Outlined o ∧ o.Supported (Path.Unrolls maxHops) ∧
          normal.projected = o.names ∧ normal.modifiers = o.modifiers ∧
          (query.form = .ask → (normal.projected = [] ↔ o.body.inScope = []))) ∧
      ∀ dataset, NormalQuery.ofQuery maxHops { query with dataset := dataset } =
        NormalQuery.ofQuery maxHops query := by
  have outlined {normal : NormalQuery} (reduced : NormalQuery.ofQuery maxHops query = .ok normal) :
      (query.form = .select ∨ query.form = .ask) ∧
        ∃ o, query.Outlined o ∧ o.Supported (Path.Unrolls maxHops) := by
    obtain ⟨_, drawn⟩ := NormalQuery.ofQuery_ok_iff.1 reduced
    obtain ⟨form, _, _, _, _, formed, _⟩ := NormalQuery.drawn_ok_iff.1 drawn
    have accepted := (Normal.accepts_formOf query.form).1 ⟨form, formed⟩
    obtain ⟨o, outlined, settled⟩ := Query.exists_outlined parsed accepted
    have supported := (NormalQuery.accepts_outline maxHops settled outlined.1).1 ⟨normal, reduced⟩
    exact ⟨accepted, o, outlined, supported.2⟩
  refine ⟨⟨?_, ?_⟩, ?_, ?_, fun _ => rfl⟩
  · intro found
    obtain ⟨normal, reduced⟩ := found
    exact outlined reduced
  · intro met
    obtain ⟨form, o, outlined, supported⟩ := met
    have accepts := NormalQuery.accepts_outline maxHops supported.settled outlined.1
    exact accepts.2 ⟨form, supported⟩
  · intro some o
    have same : Path.Unrolls maxHops = Path.Affirmative := by
      funext path
      exact propext (Path.unrolls_iff_affirmative some path)
    rw [same]
  · intro normal reduced
    obtain ⟨_, o, outlined, supported⟩ := outlined reduced
    obtain ⟨projected, modifiers⟩ :=
      NormalQuery.keeps_outline supported.settled outlined.1 reduced
    refine ⟨o, outlined, supported, projected, modifiers, ?_⟩
    intro ask
    rw [projected, outlined.2 ask, sortedNames_eq_nil_iff]

/-- A query with a repeated path, a condition with a sign and modifiers. -/
def supportedText : String :=
  "SELECT DISTINCT ?s WHERE \x7b ?s <http://e/p>+ ?o FILTER(?o < -5) \x7d LIMIT 2"

set_option maxRecDepth 100000 in
theorem supportedText_reduces : (Query.parse supportedText).toOption.any (fun query =>
    (NormalQuery.ofQuery 3 query).isOk) = true := by
  decide +kernel

/-- The sample query has a normal form, so that everything in it is supported. -/
theorem normal_form_iff_supported_sample : ∃ query normal o,
    Query.parse supportedText = .ok query ∧ NormalQuery.ofQuery 3 query = .ok normal ∧
      (query.form = .select ∨ query.form = .ask) ∧ query.Outlined o ∧
      o.Supported Path.Affirmative ∧ normal.projected = o.names ∧
      normal.modifiers = o.modifiers := by
  obtain ⟨query, parsed, reduces⟩ := exists_ok_of_any supportedText_reduces
  obtain ⟨normal, reduced⟩ := exists_ok_of_isOk reduces
  have accepts := normal_form_iff_supported supportedText query parsed 3
  obtain ⟨form, _⟩ := accepts.1.1 ⟨normal, reduced⟩
  obtain ⟨o, outlined, supported, projected, modifiers, _⟩ := accepts.2.2.1 normal reduced
  exact ⟨query, normal, o, parsed, reduced, form, outlined,
    (accepts.2.1 (by decide) o).1 supported, projected, modifiers⟩

def mergedText : String := "SELECT ?s FROM <http://e/g> WHERE \x7b ?s <http://e/p> ?o \x7d"

def askText : String := "ASK \x7b ?s <http://e/p> ?o \x7d"

def Sparql.Query.selects (query : Query) (form : Form) (dataset : List DatasetClause)
    (names : List String) : Bool :=
  decide (query.form = form ∧ query.dataset = dataset) &&
    (NormalQuery.ofQuery 3 query).toOption.any fun normal => decide (normal.projected = names)

theorem Sparql.Query.exists_of_selects {query : Query} {form : Form} {dataset : List DatasetClause}
    {names : List String} (selects : query.selects form dataset names = true) :
    query.form = form ∧ query.dataset = dataset ∧
      ∃ normal, NormalQuery.ofQuery 3 query = .ok normal ∧ normal.projected = names := by
  rw [Query.selects, Bool.and_eq_true, decide_eq_true_eq] at selects
  obtain ⟨normal, reduced, selected⟩ := exists_ok_of_any selects.2
  exact ⟨selects.1.1, selects.1.2, normal, reduced, of_decide_eq_true selected⟩

set_option maxRecDepth 100000 in
theorem mergedText_selects : (Query.parse mergedText).toOption.any
    (fun query => query.selects .select [.merged "http://e/g"] ["s"]) = true := by
  decide +kernel

set_option maxRecDepth 100000 in
theorem askText_selects : (Query.parse askText).toOption.any
    (fun query => query.selects .ask [] ["o", "s"]) = true := by
  decide +kernel

/-- A query with a FROM clause has a normal form, and an ASK selects the variables in its scope. -/
theorem dataset_clause_dropped :
    (∃ query normal, Query.parse mergedText = .ok query ∧ query.form = .select ∧
      query.dataset = [.merged "http://e/g"] ∧ NormalQuery.ofQuery 3 query = .ok normal) ∧
    ∃ query normal, Query.parse askText = .ok query ∧ query.form = .ask ∧
      NormalQuery.ofQuery 3 query = .ok normal ∧ normal.projected = ["o", "s"] := by
  constructor
  · obtain ⟨query, parsed, selects⟩ := exists_ok_of_any mergedText_selects
    obtain ⟨form, dataset, normal, reduced, _⟩ := Query.exists_of_selects selects
    exact ⟨query, normal, parsed, form, dataset, reduced⟩
  · obtain ⟨query, parsed, selects⟩ := exists_ok_of_any askText_selects
    obtain ⟨form, _, normal, reduced, selected⟩ := Query.exists_of_selects selects
    exact ⟨query, normal, parsed, form, reduced, selected⟩

end AttestedQuery
