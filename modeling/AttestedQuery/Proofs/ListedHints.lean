import AttestedQuery.Proofs.Compilation
import AttestedQuery.Proofs.Hints

/-!
# Hints are listed once

One list of hints is shared by all branches of a program and grows while their filters are compiled.
A hint is put at its end only where it is not listed yet, so the list stays free of repetitions
through every computation of the compiler.
-/

set_option autoImplicit false

namespace AttestedQuery

/-! ## Computations that list hints -/

namespace Compiling

variable {α β : Type}

/-- A computation that succeeds leaves a list without repetitions where it starts from one. -/
def Distinct (x : Compiling α) : Prop :=
  ∀ before a after, x before = .ok (a, after) → before.Nodup → after.Nodup

theorem distinct_pure (a : α) : Distinct (pure a) := by
  intro before b after succeeded distinct
  obtain ⟨_, rfl⟩ := run_pure_ok_iff.1 succeeded
  exact distinct

theorem distinct_bind {x : Compiling β} {f : β → Compiling α} (first : Distinct x)
    (second : ∀ b, Distinct (f b)) : Distinct (x >>= f) := by
  intro before a after succeeded distinct
  obtain ⟨b, between, ran, continued⟩ := run_bind_ok_iff.1 succeeded
  exact second b between a after continued (first before b between ran distinct)

theorem Distinct.map {x : Compiling β} (first : Distinct x) {f : β → α} :
    Distinct (x >>= fun b => pure (f b)) :=
  distinct_bind first fun b => distinct_pure (f b)

theorem distinct_lifted (x : Result α) : Distinct (liftM x) := by
  intro before a after succeeded distinct
  obtain ⟨_, rfl⟩ := run_lift_ok_iff.1 succeeded
  exact distinct

theorem distinct_refuse (construct : Construct) : Distinct (refuse construct : Compiling α) := by
  intro before a after succeeded
  cases succeeded

theorem distinct_mapM {f : β → Compiling α} (each : ∀ x, Distinct (f x)) (xs : List β) :
    Distinct (xs.mapM f) := by
  induction xs with
  | nil => exact distinct_pure []
  | cons x rest induction =>
    rw [List.mapM_cons]
    exact distinct_bind (each x) fun _ => induction.map

theorem distinct_foldlM {f : β → α → Compiling β} (each : ∀ b a, Distinct (f b a)) (items : List α)
    (start : β) : Distinct (items.foldlM f start) := by
  induction items generalizing start with
  | nil => exact distinct_pure start
  | cons item rest induction =>
    rw [List.foldlM_cons]
    exact distinct_bind (each start item) induction

/-- A hint is added only where it is not listed. -/
theorem distinct_hint (h : Hint) : Distinct (hint h) := by
  intro before wire after succeeded distinct
  obtain ⟨hints, here, gotten, chosen⟩ := run_bind_ok_iff.1 succeeded
  obtain ⟨same, unchanged⟩ := run_get_ok_iff.1 gotten
  rw [← same, ← unchanged] at chosen
  by_cases listed : h ∈ before
  · rw [if_pos (List.contains_iff_mem.2 listed)] at chosen
    obtain ⟨_, rfl⟩ := run_pure_ok_iff.1 chosen
    exact distinct
  · rw [if_neg (by simpa using listed)] at chosen
    obtain ⟨_, last, updated, finished⟩ := run_bind_ok_iff.1 chosen
    obtain ⟨_, rfl⟩ := run_pure_ok_iff.1 finished
    rw [← run_set_ok_iff.1 updated]
    exact List.nodup_append_comm.1 (List.nodup_cons.2 ⟨listed, distinct⟩)

theorem distinct_literalParts (key : String) (wire : Wire) : Distinct (literalParts key wire) :=
  distinct_bind (distinct_hint _) fun _ => distinct_bind (distinct_hint _) fun _ =>
    distinct_bind (distinct_hint _) fun _ => (distinct_hint _).map

end Compiling

open Compiling

/-! ## Filters -/

namespace Surroundings

variable (s : Surroundings)

theorem distinct_constant (t : Term) : Distinct (s.constant t) :=
  (distinct_lifted _).map

section Values

variable (wire : Wire) (guards : List Assertion) (origin : Origin)

theorem distinct_strOf : Distinct (s.strOf wire guards origin) := by
  cases origin with
  | const t =>
    rw [strOf]
    cases t.lexical? with
    | none => exact distinct_pure _
    | some lexical => exact s.distinct_constant _
  | key key => exact (distinct_literalParts key wire).map
  | str | lang => exact distinct_pure _
  | datatype => exact distinct_refuse _

theorem distinct_langOf : Distinct (s.langOf wire guards origin) := by
  cases origin with
  | const t =>
    cases t with
    | literal => exact s.distinct_constant _
    | _ => exact distinct_pure _
  | key key => exact (distinct_literalParts key wire).map
  | str | lang => exact s.distinct_constant _
  | datatype => exact distinct_pure _

theorem distinct_datatypeOf : Distinct (s.datatypeOf wire guards origin) := by
  cases origin with
  | const t =>
    cases t with
    | literal => exact s.distinct_constant _
    | _ => exact distinct_pure _
  | key key => exact (distinct_literalParts key wire).map
  | str | lang => exact s.distinct_constant _
  | datatype => exact distinct_pure _

omit s in
theorem distinct_lengthOf : Distinct (lengthOf wire guards origin) := by
  cases origin with
  | const t => cases t <;> exact distinct_pure _
  | key key =>
    exact distinct_bind (distinct_literalParts key wire) fun _ => (distinct_hint _).map
  | str | lang => exact distinct_refuse _
  | datatype => exact distinct_pure _

end Values

theorem distinct_callOf (builtin : Builtin) (argument : Guarded) :
    Distinct (s.callOf builtin argument) := by
  obtain ⟨guards, value⟩ := argument
  cases value with
  | error => exact distinct_pure _
  | number wire => exact distinct_refuse _
  | term wire origin =>
    cases builtin with
    | str => exact s.distinct_strOf wire guards origin
    | lang => exact s.distinct_langOf wire guards origin
    | datatype => exact s.distinct_datatypeOf wire guards origin
    | strLen => exact distinct_lengthOf wire guards origin
    | isIri | isBlank | isLiteral | isNumeric => exact distinct_refuse _

theorem distinct_value : (x : Expr) → Distinct (s.value x)
  | .const t => s.distinct_constant t
  | .var _ => distinct_pure _
  | .call builtin argument => by
    rw [value]
    exact distinct_bind (distinct_value argument) (s.distinct_callOf builtin)
  | .equal .. | .sameTerm .. | .compare .. | .isIn .. | .and .. | .or .. | .not _ | .ite .. |
    .bound _ => distinct_refuse _

theorem distinct_truthOf (argument : Guarded) : Distinct (s.truthOf argument) := by
  obtain ⟨guards, value⟩ := argument
  cases value with
  | error | number => exact distinct_pure _
  | term wire origin =>
    cases origin with
    | key key => exact (distinct_literalParts key wire).map
    | str | lang => exact (distinct_lifted _).map
    | const | datatype => exact distinct_pure _

omit s in
theorem distinct_kindTest (kind : TermKind) (argument : Guarded) :
    Distinct (kindTest kind argument) := by
  obtain ⟨guards, value⟩ := argument
  cases value with
  | error | number => exact distinct_pure _
  | term wire origin =>
    cases origin with
    | key key => exact (distinct_hint (.termInner (.key key))).map
    | const | str | lang | datatype => exact distinct_pure _

theorem distinct_numericTest (argument : Guarded) : Distinct (s.numericTest argument) := by
  obtain ⟨guards, value⟩ := argument
  cases value with
  | error | number => exact distinct_pure _
  | term wire origin =>
    cases origin with
    | const t => cases t <;> exact distinct_pure _
    | key key => exact (distinct_literalParts key wire).map
    | str | lang | datatype => exact distinct_pure _

theorem distinct_numberEquals (guards : List Assertion) (number wire : Wire) (origin : Origin) :
    Distinct (s.numberEquals guards number wire origin) := by
  cases origin with
  | key key => exact (distinct_literalParts key wire).map
  | const | str | lang | datatype => exact distinct_pure _

theorem distinct_equality (sameTerm : Bool) (a b : Guarded) :
    Distinct (s.equality sameTerm a b) := by
  unfold equality
  split
  next => exact distinct_pure _
  next => exact distinct_pure _
  next => split <;> exact distinct_pure _
  next => exact distinct_pure _
  next => exact s.distinct_numberEquals _ _ _ _
  next => exact s.distinct_numberEquals _ _ _ _

theorem distinct_ordinal (space : ValueSpace) (value : Value) :
    Distinct (s.ordinal space value) := by
  cases value with
  | error | number => exact distinct_pure _
  | term wire origin =>
    cases origin with
    | const t => exact (distinct_lifted _).map
    | key key => exact (distinct_literalParts key wire).map
    | str | lang | datatype => exact distinct_pure _

theorem distinct_stringOperand (value : Value) : Distinct (s.stringOperand value) := by
  cases value with
  | error | number => exact distinct_pure _
  | term wire origin =>
    cases origin with
    | key key => exact (distinct_literalParts key wire).map
    | str | lang => exact distinct_refuse _
    | const | datatype => exact distinct_pure _

theorem distinct_stringOrder (op : CompareOp) (guards : List Assertion) (x y : Value) :
    Distinct (s.stringOrder op guards x y) := by
  refine distinct_bind (s.distinct_stringOperand x) ?_
  rintro ⟨left, leftGuards⟩
  refine distinct_bind (s.distinct_stringOperand y) ?_
  rintro ⟨right, rightGuards⟩
  dsimp only
  split
  next => exact (distinct_hint _).map
  next => exact distinct_pure _

theorem distinct_numberOrder (op : CompareOp) (space : ValueSpace) (guards : List Assertion)
    (x y : Value) : Distinct (s.numberOrder op space guards x y) := by
  refine distinct_bind (s.distinct_ordinal space x) ?_
  rintro ⟨left, leftGuards⟩
  refine distinct_bind (s.distinct_ordinal space y) ?_
  rintro ⟨right, rightGuards⟩
  dsimp only
  split <;> exact distinct_pure _

theorem distinct_comparison (op : CompareOp) (a b : Guarded) :
    Distinct (s.comparison op a b) := by
  unfold comparison
  split
  next => exact distinct_pure _
  next =>
    dsimp only
    split
    next => exact s.distinct_stringOrder op _ _ _
    next => exact s.distinct_numberOrder op _ _ _ _

theorem distinct_sides {α : Type} (a b : Expr) {test : Guarded → Guarded → Compiling α}
    (each : ∀ x y, Distinct (test x y)) :
    Distinct (do
      let x ← s.value a
      test x (← s.value b)) :=
  distinct_bind (s.distinct_value a) fun x =>
    distinct_bind (s.distinct_value b) fun y => each x y

theorem distinct_condition : (expression : Expr) → Distinct (s.condition expression)
  | .and a b | .or a b =>
    distinct_bind (distinct_condition a) fun _ => (distinct_condition b).map
  | .not a => (distinct_condition a).map
  | .ite c a b =>
    distinct_bind (distinct_condition c) fun _ =>
      distinct_bind (distinct_condition a) fun _ => (distinct_condition b).map
  | .bound _ => distinct_pure _
  | .equal a b => s.distinct_sides a b (s.distinct_equality false)
  | .sameTerm a b => s.distinct_sides a b (s.distinct_equality true)
  | .isIn needle items => by
    refine distinct_foldlM (fun found item => ?_) items _
    exact s.distinct_sides needle item fun x y => (s.distinct_equality false x y).map
  | .compare op a b => s.distinct_sides a b (s.distinct_comparison op)
  | .call .isIri x => distinct_bind (s.distinct_value x) (distinct_kindTest .iri)
  | .call .isBlank x => distinct_bind (s.distinct_value x) (distinct_kindTest .blank)
  | .call .isLiteral x => distinct_bind (s.distinct_value x) (distinct_kindTest .literal)
  | .call .isNumeric x => distinct_bind (s.distinct_value x) s.distinct_numericTest
  | .const t => distinct_bind (s.distinct_value (.const t)) s.distinct_truthOf
  | .var key => distinct_bind (s.distinct_value (.var key)) s.distinct_truthOf
  | .call .str x => distinct_bind (s.distinct_value (.call .str x)) s.distinct_truthOf
  | .call .lang x => distinct_bind (s.distinct_value (.call .lang x)) s.distinct_truthOf
  | .call .datatype x => distinct_bind (s.distinct_value (.call .datatype x)) s.distinct_truthOf
  | .call .strLen x => distinct_bind (s.distinct_value (.call .strLen x)) s.distinct_truthOf

end Surroundings

/-! ## Programs -/

theorem Branch.distinct_ofFragment (e : Encoder) (projected : List String) (f : Fragment) :
    Distinct (ofFragment e projected f) := by
  refine distinct_bind (distinct_lifted _) fun plain => ?_
  refine distinct_bind (distinct_lifted _) ?_
  rintro ⟨t, extensions⟩
  refine (distinct_mapM (fun x => ?_) f.filters).map
  exact (Surroundings.distinct_condition _ x.condition).map

theorem Program.Compiles.hints_nodup {config : Config} {query : NormalQuery} {p : Program}
    {fragments : List Fragment} (compiles : Compiles config query p fragments) :
    p.hints.Nodup :=
  distinct_mapM (Branch.distinct_ofFragment config.encoder query.projected) fragments
    [] p.branches p.hints compiles.branches List.nodup_nil

end AttestedQuery
