import AttestedQuery.Proofs.TwinTests
import AttestedQuery.Proofs.KeyMap

/-!
# Compiling a filter in other surroundings

A filter is compiled against the sources of its branch and against the hints that the program has
listed so far. Neither matters for what it says: compiled in other surroundings that bind the same
keys, it becomes assertions that hold where these do, provided that the wires of keys and the hints
have the same values.
-/

set_option autoImplicit false

namespace AttestedQuery

namespace Surroundings

open Compiling

variable {s t : Surroundings} (twins : s.Twins t)
include twins

/-- What reads nothing of its surroundings but the encoder is the same in both. -/
theorem Twins.reads_encoder {α : Type} {f : Surroundings → α}
    (reads : ∀ u : Surroundings, f { u with encoder := s.encoder } = f s) : f t = f s := by
  have same : t = { t with encoder := s.encoder } := by rw [← twins.encoder]
  rw [same]
  exact reads t

theorem matches_keyValue (key : String) : Matches s t
    (pure (match s.keyWire? key with
      | some wire => .ofTerm wire (.key key)
      | none => .error))
    (pure (match t.keyWire? key with
      | some wire => .ofTerm wire (.key key)
      | none => .error))
    (fun g k => g.value.Twins s k.value) (Guarded.Alike s.encoder.hasher) := by
  have keys := twins.keys key
  cases found : s.keyWire? key with
  | none =>
    rw [found, Option.isSome_none, Option.isSome_eq_false_iff, Option.isNone_iff_eq_none] at keys
    rw [keys]
    exact matches_pure .error fun _ _ => ⟨.nil, trivial⟩
  | some wire =>
    rw [found, Option.isSome_some, Option.isSome_iff_exists] at keys
    obtain ⟨other, found'⟩ := keys
    rw [found']
    -- The value is the wire of the key, on which the views agree.
    intro before start g after succeeded
    obtain ⟨rfl, rfl⟩ := run_pure_ok_iff.1 succeeded
    refine ⟨_, start, rfl, List.prefix_rfl, List.prefix_rfl, .term _ _ _ ?_, ?_⟩
    · rintro _ ⟨⟩
      simp [found]
    · intro all others v u _ _ agree
      exact ⟨.nil, agree.keys key wire other found found'⟩

theorem matches_value : (expression : Expr) → Matches s t (s.value expression)
    (t.value expression) (fun g k => g.value.Twins s k.value) (Guarded.Alike s.encoder.hasher)
  | .const x => by
    rw [value, value, twins.reads_encoder (f := (·.constant x)) fun _ => rfl]
    exact matches_constant x
  | .var key => by
    rw [value, value]
    exact matches_keyValue twins key
  | .call builtin argument => by
    rw [value, value]
    refine matches_bind (matches_value argument) fun g k shape => ?_
    rw [twins.reads_encoder (f := (·.callOf builtin k)) fun _ => rfl]
    exact maps_callOf builtin shape
  | .equal .. | .sameTerm .. | .isIn .. | .compare .. | .and .. | .or .. | .not _ | .ite ..
  | .bound _ => matches_refuse

theorem matches_test {test other : Guarded → Compiling Condition} (expression : Expr)
    (judges : ∀ g k, g.value.Twins s k.value → Judges s t g k (test g) (other k)) :
    Matches s t (s.value expression >>= test) (t.value expression >>= other) anyShape
      (Condition.Alike s.encoder.hasher) :=
  matches_bind (matches_value twins expression) judges

theorem matches_pairTest {test other : Guarded → Guarded → Compiling Condition} (a b : Expr)
    (relates : ∀ g g' k k', g.value.Twins s k.value → g'.value.Twins s k'.value →
      Relates s t (g, g') (k, k') (test g g') (other k k')) :
    Matches s t (do let a ← s.value a; test a (← s.value b))
      (do let a ← t.value a; other a (← t.value b)) anyShape
      (Condition.Alike s.encoder.hasher) := by
  refine matches_bind (matches_value twins a) fun g k shape => ?_
  refine matches_bind (matches_value twins b) fun g' k' shape' => ?_
  exact (relates g g' k k' shape shape').imp fun _ _ _ _ leads second first => leads first second

theorem matches_equality (sameTerm : Bool) (a b : Expr) :
    Matches s t (do let a ← s.value a; s.equality sameTerm a (← s.value b))
      (do let a ← t.value a; t.equality sameTerm a (← t.value b)) anyShape
      (Condition.Alike s.encoder.hasher) := by
  refine matches_pairTest twins a b fun g g' k k' first second => ?_
  rw [twins.reads_encoder (f := (·.equality sameTerm k k')) fun _ => rfl]
  exact relates_equality sameTerm first second

theorem matches_isIn (needle : Expr) (items : List Expr) {found other : Condition}
    {earlier : View → View → Prop}
    (before : ∀ v u, earlier v u → found.Alike s.encoder.hasher v u other) :
    Matches s t
      (items.foldlM (fun found item => do
        let needle ← s.value needle
        return found.either (← s.equality false needle (← s.value item))) found)
      (items.foldlM (fun found item => do
        let needle ← t.value needle
        return found.either (← t.equality false needle (← t.value item))) other)
      anyShape (fun v u c d => earlier v u → c.Alike s.encoder.hasher v u d) := by
  have equality (k k' : Guarded) : t.equality false k k' = s.equality false k k' :=
    twins.reads_encoder (f := (·.equality false k k')) fun _ => rfl
  induction items generalizing found other earlier with
  | nil => exact matches_pure trivial before
  | cons item rest induction =>
    rw [List.foldlM_cons, List.foldlM_cons]
    refine matches_bind (show Matches s t _ _ anyShape
      (fun v u c d => earlier v u → c.Alike s.encoder.hasher v u d) from ?_) ?_
    · refine matches_bind (matches_value twins needle) fun g k shape => ?_
      refine matches_bind (matches_value twins item) fun g' k' shape' => ?_
      rw [equality]
      refine matches_bind (relates_equality false shape shape') fun c d _ => ?_
      refine matches_pure trivial fun v u equal second first known => ?_
      exact (before v u known).either (equal first second)
    · intro c d _
      have both (v u : View) (known : earlier v u ∧ c.Alike s.encoder.hasher v u d) :
          c.Alike s.encoder.hasher v u d := known.2
      refine (induction both).imp ?_
      exact fun v u x y leads here known => leads ⟨known, here known⟩

theorem matches_truth (expression : Expr) :
    Matches s t (s.value expression >>= s.truthOf) (t.value expression >>= t.truthOf) anyShape
      (Condition.Alike s.encoder.hasher) := by
  refine matches_test twins expression fun g k shape => ?_
  rw [twins.reads_encoder (f := (·.truthOf k)) fun _ => rfl]
  exact judges_truthOf shape

theorem matches_kind (kind : TermKind) (argument : Expr) :
    Matches s t (s.value argument >>= kindTest kind) (t.value argument >>= kindTest kind) anyShape
      (Condition.Alike s.encoder.hasher) :=
  matches_test twins argument fun _ _ => judges_kindTest kind

theorem matches_condition : (expression : Expr) → Matches s t (s.condition expression)
    (t.condition expression) anyShape (Condition.Alike s.encoder.hasher)
  | .and a b =>
    matches_connected (matches_condition a) (matches_condition b) fun _ _ _ _ _ _ => .both
  | .or a b =>
    matches_connected (matches_condition a) (matches_condition b) fun _ _ _ _ _ _ => .either
  | .not a => by
    rw [condition, condition]
    refine matches_bind (matches_condition a) fun _ _ _ => ?_
    exact matches_pure trivial fun v u alike => alike.negated
  | .ite c a b => by
    rw [condition, condition]
    refine matches_bind (matches_condition c) fun _ _ _ => ?_
    refine matches_bind (matches_condition a) fun _ _ _ => ?_
    refine matches_bind (matches_condition b) fun _ _ _ => ?_
    exact matches_pure trivial fun v u third second first => first.choose second third
  | .bound key => by
    rw [condition, condition, twins.keys]
    exact matches_pure trivial fun v u => Condition.alike_ofBool _
  | .equal a b => matches_equality twins false a b
  | .sameTerm a b => matches_equality twins true a b
  | .compare op a b => by
    refine matches_pairTest twins a b fun g g' k k' first second => ?_
    rw [twins.reads_encoder (f := (·.comparison op k k')) fun _ => rfl]
    exact relates_comparison op first second
  | .isIn needle items => by
    rw [condition, condition]
    have before (v u : View) (_ : True) :
        (Condition.ofBool false).Alike s.encoder.hasher v u (.ofBool false) :=
      Condition.alike_ofBool false
    exact (matches_isIn twins needle items before).imp fun _ _ _ _ leads => leads trivial
  | .call .isIri argument => matches_kind twins .iri argument
  | .call .isBlank argument => matches_kind twins .blank argument
  | .call .isLiteral argument => matches_kind twins .literal argument
  | .call .isNumeric argument => by
    refine matches_test twins argument fun g k shape => ?_
    rw [twins.reads_encoder (f := (·.numericTest k)) fun _ => rfl]
    exact judges_numericTest shape
  | .call .str _ | .call .lang _ | .call .datatype _ | .call .strLen _ | .const _ | .var _ =>
    matches_truth twins _

end Surroundings

end AttestedQuery
