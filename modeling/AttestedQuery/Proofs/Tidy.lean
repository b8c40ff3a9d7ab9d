import AttestedQuery.Proofs.Hints
import AttestedQuery.Proofs.Leaves

/-!
# Assertions without empty lists

The combinators never make a conjunction or a disjunction without parts, and compiled conditions
are made by the combinators alone.
-/

set_option autoImplicit false

namespace AttestedQuery

open Compiling

namespace Assertion

mutual

def Tidy : Assertion → Prop
  | .true | .false | .eq .. | .compare .. => True
  | .not a => a.Tidy
  | .and parts | .or parts => parts ≠ [] ∧ TidyAll parts

def TidyAll : List Assertion → Prop
  | [] => True
  | part :: rest => part.Tidy ∧ TidyAll rest

end

theorem tidyAll_iff {parts : List Assertion} : TidyAll parts ↔ ∀ part ∈ parts, part.Tidy := by
  induction parts with
  | nil => simp [TidyAll]
  | cons part rest induction => simp [TidyAll, induction]

theorem tidy_true : Assertion.true.Tidy := trivial

theorem tidy_eq (a b : Wire) : (Assertion.eq a b).Tidy := trivial

theorem tidy_ofBool (b : Bool) : (ofBool b).Tidy := by
  cases b <;> trivial

theorem tidy_negated {a : Assertion} (tidy : a.Tidy) : a.negated.Tidy := by
  cases a with
  | not inner => exact tidy
  | true | false => trivial
  | eq | compare => trivial
  | and | or => exact tidy

private theorem conjuncts_tidy {parts flat : List Assertion} (opened : conjuncts? parts = some flat)
    (each : ∀ part ∈ parts, part.Tidy) : ∀ part ∈ flat, part.Tidy := by
  fun_induction conjuncts? parts generalizing flat with
  | case1 => simp_all
  | case2 rest induction => exact induction opened (List.forall_mem_cons.1 each).2
  | case3 rest => cases opened
  | case4 inner rest induction =>
    obtain ⟨others, found, rfl⟩ := Option.map_eq_some_iff.1 opened
    obtain ⟨here, later⟩ := List.forall_mem_cons.1 each
    exact List.forall_mem_append.2 ⟨tidyAll_iff.1 here.2, induction found later⟩
  | case5 part rest _ _ _ induction =>
    obtain ⟨others, found, rfl⟩ := Option.map_eq_some_iff.1 opened
    obtain ⟨here, later⟩ := List.forall_mem_cons.1 each
    exact List.forall_mem_cons.2 ⟨here, induction found later⟩

private theorem disjuncts_tidy {parts flat : List Assertion} (opened : disjuncts? parts = some flat)
    (each : ∀ part ∈ parts, part.Tidy) : ∀ part ∈ flat, part.Tidy := by
  fun_induction disjuncts? parts generalizing flat with
  | case1 => simp_all
  | case2 rest induction => exact induction opened (List.forall_mem_cons.1 each).2
  | case3 rest => cases opened
  | case4 inner rest induction =>
    obtain ⟨others, found, rfl⟩ := Option.map_eq_some_iff.1 opened
    obtain ⟨here, later⟩ := List.forall_mem_cons.1 each
    exact List.forall_mem_append.2 ⟨tidyAll_iff.1 here.2, induction found later⟩
  | case5 part rest _ _ _ induction =>
    obtain ⟨others, found, rfl⟩ := Option.map_eq_some_iff.1 opened
    obtain ⟨here, later⟩ := List.forall_mem_cons.1 each
    exact List.forall_mem_cons.2 ⟨here, induction found later⟩

theorem tidy_all {parts : List Assertion} (each : ∀ part ∈ parts, part.Tidy) :
    (all parts).Tidy := by
  unfold all
  split
  next => trivial
  next => trivial
  next single opened => exact conjuncts_tidy opened each single (by simp)
  next several nonempty _ opened => exact ⟨nonempty, tidyAll_iff.2 (conjuncts_tidy opened each)⟩

theorem tidy_any {parts : List Assertion} (each : ∀ part ∈ parts, part.Tidy) :
    (any parts).Tidy := by
  unfold any
  split
  next => trivial
  next => trivial
  next single opened => exact disjuncts_tidy opened each single (by simp)
  next several nonempty _ opened => exact ⟨nonempty, tidyAll_iff.2 (disjuncts_tidy opened each)⟩

end Assertion

open Assertion

/-! ## What compiling gives -/

namespace Compiling

variable {α β : Type}

/-- Every result of a computation is as wanted. -/
def Gives (x : Compiling α) (wanted : α → Prop) : Prop :=
  ∀ before a after, x before = .ok (a, after) → wanted a

variable {wanted : α → Prop}

theorem gives_any (x : Compiling α) : Gives x fun _ => True := fun _ _ _ _ => trivial

theorem gives_pure {a : α} (holds : wanted a) : Gives (pure a) wanted := by
  intro before b after compiled
  obtain ⟨rfl, _⟩ := run_pure_ok_iff.1 compiled
  exact holds

theorem gives_bind {x : Compiling β} {f : β → Compiling α} {middle : β → Prop}
    (first : Gives x middle) (second : ∀ b, middle b → Gives (f b) wanted) :
    Gives (x >>= f) wanted := by
  intro before a after compiled
  obtain ⟨b, between, ran, continued⟩ := run_bind_ok_iff.1 compiled
  exact second b (first before b between ran) between a after continued

theorem gives_refuse (construct : Construct) : Gives (refuse construct) wanted := by
  intro before a after compiled
  cases compiled

theorem Yields.gives {x : Compiling α} {yielded : List Hint → α → Prop} (yields : Yields x yielded)
    (gives : Gives x wanted) : Yields x fun all a => yielded all a ∧ wanted a := by
  intro before a after compiled
  obtain ⟨grows, holds⟩ := yields before a after compiled
  exact ⟨grows, fun all continues => ⟨holds all continues, gives before a after compiled⟩⟩

end Compiling

/-! ## Conditions -/

structure Condition.Tidy (c : Condition) : Prop where
  defined : c.defined.Tidy
  value : c.value.Tidy

namespace Condition

variable {a b c : Condition}

theorem tidy_ofBool (b : Bool) : (ofBool b).Tidy := ⟨trivial, Assertion.tidy_ofBool b⟩

theorem tidy_error : error.Tidy := ⟨trivial, trivial⟩

theorem Tidy.holds (tidy : c.Tidy) : c.holds.Tidy := by
  apply tidy_all
  simp [tidy.defined, tidy.value]

theorem Tidy.negated (tidy : c.Tidy) : c.negated.Tidy := ⟨tidy.defined, tidy_negated tidy.value⟩

theorem Tidy.both (left : a.Tidy) (right : b.Tidy) : (a.both b).Tidy where
  defined := by
    apply tidy_any
    simp [tidy_all, tidy_negated, left.defined, left.value, right.defined, right.value]
  value := by
    apply tidy_all
    simp [left.value, right.value]

theorem Tidy.either (left : a.Tidy) (right : b.Tidy) : (a.either b).Tidy := by
  have value : (a.either b).value.Tidy := by
    apply tidy_any
    simp [tidy_all, left.defined, left.value, right.defined, right.value]
  refine ⟨?_, value⟩
  apply tidy_any
  rw [List.forall_mem_cons]
  exact ⟨value, by simp [tidy_all, left.defined, right.defined]⟩

theorem Tidy.choose (tidy : c.Tidy) (left : a.Tidy) (right : b.Tidy) : (c.choose a b).Tidy where
  defined := by
    apply tidy_all
    simp [tidy_any, tidy_negated, tidy.defined, tidy.value, left.defined, right.defined]
  value := by
    apply tidy_any
    simp [tidy_all, tidy_negated, tidy.value, left.value, right.value]

theorem tidy_guardedBy {guards : List Assertion} {value : Assertion}
    (each : ∀ guard ∈ guards, guard.Tidy) (tidy : value.Tidy) :
    (Surroundings.guardedBy guards value).Tidy :=
  ⟨tidy_all each, tidy⟩

end Condition

/-! ## Values -/

def Guarded.Tidy (g : Guarded) : Prop := ∀ guard ∈ g.guards, guard.Tidy

theorem Guarded.tidy_error : error.Tidy := by simp [Tidy, error]

theorem Guarded.tidy_ofTerm (wire : Wire) (origin : Origin) : (ofTerm wire origin).Tidy := by
  simp [Tidy, ofTerm]

theorem Compiling.tie_tidy (key : String) (wire : Wire) :
    Gives (literalParts key wire) fun parts => parts.tie.Tidy := by
  intro before parts after compiled
  obtain ⟨rfl, _⟩ := (yields_literalParts key wire before parts after compiled).2 after
    List.prefix_rfl
  trivial

namespace Surroundings

variable (s : Surroundings)

theorem tidy_datatypeIn (parts : Parts) (names : List String) :
    (s.datatypeIn parts names).Tidy := by
  apply tidy_any
  simp [tidy_eq]

theorem tidy_constant (t : Term) : Gives (s.constant t) fun g => g.Tidy := by
  refine gives_bind (gives_any _) ?_
  intro code _
  exact gives_pure (Guarded.tidy_ofTerm _ _)

section Values

variable {guards : List Assertion} (guarded : ∀ guard ∈ guards, guard.Tidy)
include guarded

theorem tidy_strOf (wire : Wire) (origin : Origin) :
    Gives (s.strOf wire guards origin) fun g => g.Tidy := by
  cases origin with
  | const t =>
    rw [strOf]
    cases t.lexical? with
    | none => exact gives_pure Guarded.tidy_error
    | some lexical => exact s.tidy_constant _
  | key key =>
    refine gives_bind (tie_tidy key wire) ?_
    intro parts tie
    refine gives_pure (List.forall_mem_append.2 ⟨guarded, ?_⟩)
    simp [tidy_any, tidy_eq, tie]
  | str | lang => exact gives_pure guarded
  | datatype => exact gives_refuse _

theorem tidy_langOf (wire : Wire) (origin : Origin) :
    Gives (s.langOf wire guards origin) fun g => g.Tidy := by
  cases origin with
  | const t =>
    cases t with
    | literal => exact s.tidy_constant _
    | _ => exact gives_pure Guarded.tidy_error
  | key key =>
    refine gives_bind (tie_tidy key wire) ?_
    intro parts tie
    refine gives_pure (List.forall_mem_append.2 ⟨guarded, ?_⟩)
    simpa using tie
  | str | lang => exact s.tidy_constant _
  | datatype => exact gives_pure Guarded.tidy_error

theorem tidy_datatypeOf (wire : Wire) (origin : Origin) :
    Gives (s.datatypeOf wire guards origin) fun g => g.Tidy := by
  cases origin with
  | const t =>
    cases t with
    | literal => exact s.tidy_constant _
    | _ => exact gives_pure Guarded.tidy_error
  | key key =>
    refine gives_bind (tie_tidy key wire) ?_
    intro parts tie
    refine gives_pure (List.forall_mem_append.2 ⟨guarded, ?_⟩)
    simpa using tie
  | str | lang => exact s.tidy_constant _
  | datatype => exact gives_pure Guarded.tidy_error

omit s in
theorem tidy_lengthOf (wire : Wire) (origin : Origin) :
    Gives (lengthOf wire guards origin) fun g => g.Tidy := by
  cases origin with
  | const t =>
    cases t with
    | literal => exact gives_pure (List.forall_mem_nil _)
    | _ => exact gives_pure Guarded.tidy_error
  | key key =>
    refine gives_bind (tie_tidy key wire) ?_
    intro parts tie
    refine gives_bind (gives_any _) ?_
    intro length _
    refine gives_pure (List.forall_mem_append.2 ⟨guarded, ?_⟩)
    simpa using tie
  | str | lang => exact gives_refuse _
  | datatype => exact gives_pure Guarded.tidy_error

end Values

theorem tidy_callOf (builtin : Builtin) {argument : Guarded} (tidy : argument.Tidy) :
    Gives (s.callOf builtin argument) fun g => g.Tidy := by
  obtain ⟨guards, value⟩ := argument
  cases value with
  | error => exact gives_pure Guarded.tidy_error
  | number wire => exact gives_refuse _
  | term wire origin =>
    cases builtin with
    | str => exact s.tidy_strOf tidy wire origin
    | lang => exact s.tidy_langOf tidy wire origin
    | datatype => exact s.tidy_datatypeOf tidy wire origin
    | strLen => exact tidy_lengthOf tidy wire origin
    | isIri | isBlank | isLiteral | isNumeric => exact gives_refuse _

theorem tidy_value : (x : Expr) → Gives (s.value x) Guarded.Tidy
  | .const t => s.tidy_constant t
  | .var key => by
    refine gives_pure ?_
    cases s.keyWire? key with
    | none => exact Guarded.tidy_error
    | some wire => exact Guarded.tidy_ofTerm wire _
  | .call builtin argument => by
    rw [value]
    refine gives_bind (tidy_value argument) ?_
    intro g tidy
    exact s.tidy_callOf builtin tidy
  | .equal .. | .sameTerm .. | .compare .. | .isIn .. | .and .. | .or .. | .not _ | .ite .. |
    .bound _ => gives_refuse _

/-! ## Tests -/

theorem tidy_truthOf {argument : Guarded} (tidy : argument.Tidy) :
    Gives (s.truthOf argument) Condition.Tidy := by
  obtain ⟨guards, value⟩ := argument
  cases value with
  | error => exact gives_pure Condition.tidy_error
  | number wire => exact gives_pure (Condition.tidy_guardedBy tidy (tidy_negated (tidy_eq _ _)))
  | term wire origin =>
    cases origin with
    | const t =>
      refine gives_pure ?_
      cases Constant.truth? t with
      | none => exact Condition.tidy_error
      | some b => exact Condition.tidy_ofBool b
    | key key =>
      refine gives_bind (tie_tidy key wire) ?_
      intro parts tie
      refine gives_pure (Condition.tidy_guardedBy ?_ (tidy_eq _ _))
      refine List.forall_mem_append.2 ⟨tidy, ?_⟩
      simp [tie, s.tidy_datatypeIn]
    | str | lang =>
      refine gives_bind (gives_any _) ?_
      intro empty _
      exact gives_pure (Condition.tidy_guardedBy tidy (tidy_negated (tidy_eq _ _)))
    | datatype => exact gives_pure Condition.tidy_error

theorem tidy_kindTest (kind : TermKind) {argument : Guarded} (tidy : argument.Tidy) :
    Gives (kindTest kind argument) Condition.Tidy := by
  obtain ⟨guards, value⟩ := argument
  cases value with
  | error => exact gives_pure Condition.tidy_error
  | number wire => exact gives_pure (Condition.tidy_guardedBy tidy (Assertion.tidy_ofBool _))
  | term wire origin =>
    cases origin with
    | const t => exact gives_pure (Condition.tidy_guardedBy tidy (Assertion.tidy_ofBool _))
    | str | lang => exact gives_pure (Condition.tidy_guardedBy tidy (Assertion.tidy_ofBool _))
    | datatype => exact gives_pure (Condition.tidy_guardedBy tidy (Assertion.tidy_ofBool _))
    | key key =>
      refine gives_bind (gives_any (hint (.termInner (.key key)))) ?_
      intro inner _
      exact gives_pure (Condition.tidy_guardedBy tidy (tidy_eq _ _))

theorem tidy_numericTest {argument : Guarded} (tidy : argument.Tidy) :
    Gives (s.numericTest argument) Condition.Tidy := by
  obtain ⟨guards, value⟩ := argument
  cases value with
  | error => exact gives_pure Condition.tidy_error
  | number wire => exact gives_pure (Condition.tidy_guardedBy tidy tidy_true)
  | term wire origin =>
    cases origin with
    | const t =>
      cases t with
      | literal => exact gives_pure (Condition.tidy_guardedBy tidy (Assertion.tidy_ofBool _))
      | iri _ | blank _ | defaultGraph | var _ =>
        exact gives_pure (Condition.tidy_guardedBy tidy (Assertion.tidy_ofBool false))
    | str | lang | datatype =>
      exact gives_pure (Condition.tidy_guardedBy tidy (Assertion.tidy_ofBool false))
    | key key =>
      refine gives_bind (tie_tidy key wire) ?_
      intro parts tie
      refine gives_pure (Condition.tidy_guardedBy tidy (tidy_all ?_))
      simp [tie, s.tidy_datatypeIn]

theorem tidy_numberEquals {guards : List Assertion} (guarded : ∀ guard ∈ guards, guard.Tidy)
    (number wire : Wire) (origin : Origin) :
    Gives (s.numberEquals guards number wire origin) Condition.Tidy := by
  cases origin with
  | const t =>
    refine gives_pure ?_
    cases Constant.integer? t with
    | none => exact Condition.tidy_error
    | some n => exact Condition.tidy_guardedBy guarded (tidy_eq _ _)
  | key key =>
    refine gives_bind (tie_tidy key wire) ?_
    intro parts tie
    refine gives_pure (Condition.tidy_guardedBy ?_ (tidy_eq _ _))
    refine List.forall_mem_append.2 ⟨guarded, ?_⟩
    simp [tie, s.tidy_datatypeIn]
  | str | lang | datatype => exact gives_pure Condition.tidy_error

theorem tidy_equality (sameTerm : Bool) {a b : Guarded} (left : a.Tidy) (right : b.Tidy) :
    Gives (s.equality sameTerm a b) Condition.Tidy := by
  have guarded : ∀ guard ∈ a.guards ++ b.guards, guard.Tidy :=
    List.forall_mem_append.2 ⟨left, right⟩
  unfold equality
  split
  next => exact gives_pure Condition.tidy_error
  next => exact gives_pure Condition.tidy_error
  next =>
    split
    next => exact gives_pure (Condition.tidy_guardedBy guarded (Assertion.tidy_ofBool _))
    next => exact gives_pure (Condition.tidy_guardedBy guarded (tidy_eq _ _))
  next => exact gives_pure (Condition.tidy_guardedBy guarded (tidy_eq _ _))
  next => exact s.tidy_numberEquals guarded _ _ _
  next => exact s.tidy_numberEquals guarded _ _ _

/-! ## Order -/

theorem tidy_ordinal (space : ValueSpace) (value : Value) :
    Gives (s.ordinal space value) fun made => ∀ guard ∈ made.2, guard.Tidy := by
  cases value with
  | error | number => exact gives_pure (List.forall_mem_nil _)
  | term wire origin =>
    cases origin with
    | const t =>
      refine gives_bind (gives_any _) ?_
      intro found _
      exact gives_pure (List.forall_mem_nil _)
    | key key =>
      refine gives_bind (tie_tidy key wire) ?_
      intro parts tie
      refine gives_pure ?_
      simp [tie, s.tidy_datatypeIn]
    | str | lang | datatype => exact gives_pure (List.forall_mem_nil _)

theorem tidy_stringOperand (value : Value) :
    Gives (s.stringOperand value) fun made => ∀ guard ∈ made.2, guard.Tidy := by
  cases value with
  | error | number => exact gives_pure (List.forall_mem_nil _)
  | term wire origin =>
    cases origin with
    | const t => exact gives_pure (List.forall_mem_nil _)
    | key key =>
      refine gives_bind (tie_tidy key wire) ?_
      intro parts tie
      refine gives_pure ?_
      simp [tie, s.tidy_datatypeIn]
    | str | lang => exact gives_refuse _
    | datatype => exact gives_pure (List.forall_mem_nil _)

omit s in
theorem tidy_acceptedOrders (op : CompareOp) (order : Wire) : (acceptedOrders op order).Tidy := by
  cases op with
  | lt | gt => exact tidy_eq _ _
  | le | ge =>
    unfold acceptedOrders
    apply tidy_any
    simp [tidy_eq]

section Orders

variable {guards : List Assertion} (guarded : ∀ guard ∈ guards, guard.Tidy)
include guarded

theorem tidy_stringOrder (op : CompareOp) (x y : Value) :
    Gives (s.stringOrder op guards x y) Condition.Tidy := by
  refine gives_bind (s.tidy_stringOperand x) ?_
  rintro ⟨left, leftGuards⟩ leftTidy
  refine gives_bind (s.tidy_stringOperand y) ?_
  rintro ⟨right, rightGuards⟩ rightTidy
  dsimp only
  split
  next =>
    refine gives_bind (gives_any _) ?_
    intro order _
    refine gives_pure (Condition.tidy_guardedBy ?_ (tidy_acceptedOrders op order))
    simp only [List.forall_mem_append]
    exact ⟨⟨guarded, leftTidy⟩, rightTidy⟩
  next => exact gives_pure Condition.tidy_error

theorem tidy_numberOrder (op : CompareOp) (space : ValueSpace) (x y : Value) :
    Gives (s.numberOrder op space guards x y) Condition.Tidy := by
  refine gives_bind (s.tidy_ordinal space x) ?_
  rintro ⟨left, leftGuards⟩ leftTidy
  refine gives_bind (s.tidy_ordinal space y) ?_
  rintro ⟨right, rightGuards⟩ rightTidy
  dsimp only
  split
  next =>
    refine gives_pure (Condition.tidy_guardedBy ?_ trivial)
    simp only [List.forall_mem_append]
    exact ⟨⟨guarded, leftTidy⟩, rightTidy⟩
  next => exact gives_pure Condition.tidy_error

end Orders

theorem tidy_comparison (op : CompareOp) {a b : Guarded} (left : a.Tidy) (right : b.Tidy) :
    Gives (s.comparison op a b) Condition.Tidy := by
  have guarded : ∀ guard ∈ a.guards ++ b.guards, guard.Tidy :=
    List.forall_mem_append.2 ⟨left, right⟩
  unfold comparison
  split
  next t _ u _ _ =>
    refine gives_pure ?_
    cases Constant.compare? op t u with
    | none => exact Condition.tidy_error
    | some holds => exact Condition.tidy_ofBool holds
  next =>
    dsimp only
    split
    next => exact s.tidy_stringOrder guarded op _ _
    next => exact s.tidy_numberOrder guarded op _ _ _

/-! ## Expressions -/

theorem tidy_isIn (needle : Expr) (items : List Expr) {found : Condition} (tidy : found.Tidy) :
    Gives (items.foldlM (fun found item => do
        let needle ← s.value needle
        return found.either (← s.equality false needle (← s.value item))) found)
      Condition.Tidy := by
  induction items generalizing found with
  | nil => exact gives_pure tidy
  | cons item rest induction =>
    rw [List.foldlM_cons]
    refine gives_bind (?_ : Gives _ Condition.Tidy) fun next => induction
    refine gives_bind (s.tidy_value needle) ?_
    intro a left
    refine gives_bind (s.tidy_value item) ?_
    intro b right
    refine gives_bind (s.tidy_equality false left right) ?_
    intro c same
    exact gives_pure (tidy.either same)

theorem tidy_pairTest {test : Guarded → Guarded → Compiling Condition} (a b : Expr)
    (tests : ∀ g k, g.Tidy → k.Tidy → Gives (test g k) Condition.Tidy) :
    Gives (do let a ← s.value a; test a (← s.value b)) Condition.Tidy := by
  refine gives_bind (s.tidy_value a) ?_
  intro left first
  refine gives_bind (s.tidy_value b) ?_
  intro right second
  exact tests left right first second

omit s in
theorem tidy_connected {x y : Compiling Condition}
    {connective : Condition → Condition → Condition} (left : Gives x Condition.Tidy)
    (right : Gives y Condition.Tidy)
    (joins : ∀ c d : Condition, c.Tidy → d.Tidy → (connective c d).Tidy) :
    Gives (do return connective (← x) (← y)) Condition.Tidy := by
  refine gives_bind left ?_
  intro c first
  refine gives_bind right ?_
  intro d second
  exact gives_pure (joins c d first second)

theorem tidy_condition : (expression : Expr) → Gives (s.condition expression) Condition.Tidy
  | .and a b => tidy_connected (tidy_condition a) (tidy_condition b) fun _ _ => .both
  | .or a b => tidy_connected (tidy_condition a) (tidy_condition b) fun _ _ => .either
  | .not a => by
    refine gives_bind (tidy_condition a) ?_
    intro c tidy
    exact gives_pure tidy.negated
  | .ite c a b => by
    refine gives_bind (tidy_condition c) ?_
    intro condition first
    refine gives_bind (tidy_condition a) ?_
    intro left second
    refine gives_bind (tidy_condition b) ?_
    intro right third
    exact gives_pure (first.choose second third)
  | .bound key => gives_pure (Condition.tidy_ofBool _)
  | .equal a b => s.tidy_pairTest a b fun _ _ => s.tidy_equality false
  | .sameTerm a b => s.tidy_pairTest a b fun _ _ => s.tidy_equality true
  | .compare op a b => s.tidy_pairTest a b fun _ _ => s.tidy_comparison op
  | .isIn needle items => s.tidy_isIn needle items (Condition.tidy_ofBool false)
  | .call .isIri argument => gives_bind (s.tidy_value argument) fun _ => tidy_kindTest .iri
  | .call .isBlank argument => gives_bind (s.tidy_value argument) fun _ => tidy_kindTest .blank
  | .call .isLiteral argument => gives_bind (s.tidy_value argument) fun _ => tidy_kindTest .literal
  | .call .isNumeric argument => gives_bind (s.tidy_value argument) fun _ => s.tidy_numericTest
  | .const t => gives_bind (s.tidy_value (.const t)) fun _ => s.tidy_truthOf
  | .var key => gives_bind (s.tidy_value (.var key)) fun _ => s.tidy_truthOf
  | .call .str argument => gives_bind (s.tidy_value (.call .str argument)) fun _ => s.tidy_truthOf
  | .call .lang argument => gives_bind (s.tidy_value (.call .lang argument)) fun _ => s.tidy_truthOf
  | .call .datatype argument =>
    gives_bind (s.tidy_value (.call .datatype argument)) fun _ => s.tidy_truthOf
  | .call .strLen argument =>
    gives_bind (s.tidy_value (.call .strLen argument)) fun _ => s.tidy_truthOf

end Surroundings

end AttestedQuery
