import AttestedQuery.Constraint.Evaluation
import AttestedQuery.Proofs.Outcome

/-!
# What the combined assertions say

A conjunction holds where all of its parts do, whatever is dropped or opened while it is built.
Where every part can be read, disjunctions and negations follow their truth tables as well. What an
assertion says depends on the hints it mentions only.
-/

set_option autoImplicit false

namespace AttestedQuery.View

variable {h : Hasher} {v : View}

/-! ## Checking and holding -/

theorem allHold_true_iff (parts : List Assertion) :
    v.allHold h parts = .ok true ↔ ∀ part ∈ parts, v.holds h part = .ok true := by
  induction parts with
  | nil => simp [allHold]
  | cons part rest induction =>
    rw [allHold, bind_ok_iff]
    constructor
    · rintro ⟨first, read, later⟩
      cases first with
      | false => simp [pure_ok_iff] at later
      | true => simpa [read] using induction.1 later
    · intro each
      have first := each part List.mem_cons_self
      have others := induction.2 fun other member => each other (List.mem_cons_of_mem part member)
      exact ⟨true, first, others⟩

mutual

theorem check_ok_iff : (a : Assertion) → (v.check h a = .ok () ↔ v.holds h a = .ok true)
  | .and parts => by
    rw [check, holds]
    exact checkAll_ok_iff parts
  | .true | .false | .eq _ _ | .compare _ _ _ | .not _ | .or _ => by
    rw [check, bind_ok_iff]
    · constructor
      · rintro ⟨found, read, accepted⟩
        cases found with
        | false => simp at accepted
        | true => exact read
      · intro read
        exact ⟨true, read, rfl⟩
    · intro parts impossible
      cases impossible

theorem checkAll_ok_iff : (parts : List Assertion) →
    (v.checkAll h parts = .ok () ↔ v.allHold h parts = .ok true)
  | [] => by simp [checkAll, allHold]
  | part :: rest => by
    rw [checkAll, allHold, bind_ok_iff, bind_ok_iff]
    constructor
    · rintro ⟨_, first, later⟩
      exact ⟨true, (check_ok_iff part).1 first, (checkAll_ok_iff rest).1 later⟩
    · rintro ⟨found, read, later⟩
      cases found with
      | false => simp [pure_ok_iff] at later
      | true => exact ⟨(), (check_ok_iff part).2 read, (checkAll_ok_iff rest).2 later⟩

end

theorem check_toBool (a : Assertion) :
    (v.check h a).toBool = true ↔ v.holds h a = .ok true := by
  rw [← check_ok_iff]
  cases v.check h a <;> simp [Except.toBool]

/-! ## Conjunctions -/

private theorem conjuncts_none {parts : List Assertion}
    (dropped : Assertion.conjuncts? parts = none) : Assertion.false ∈ parts := by
  fun_induction Assertion.conjuncts? parts <;> simp_all

private theorem conjuncts_hold {parts flat : List Assertion}
    (opened : Assertion.conjuncts? parts = some flat) :
    (∀ part ∈ flat, v.holds h part = .ok true) ↔ ∀ part ∈ parts, v.holds h part = .ok true := by
  fun_induction Assertion.conjuncts? parts generalizing flat with
  | case1 => simp_all
  | case2 rest induction =>
    rw [induction opened]
    simp [holds]
  | case3 rest => simp at opened
  | case4 inner rest induction =>
    obtain ⟨others, found, rfl⟩ := Option.map_eq_some_iff.1 opened
    have below : v.holds h (.and inner) = .ok true ↔ ∀ part ∈ inner, v.holds h part = .ok true := by
      rw [holds, allHold_true_iff]
    rw [List.forall_mem_append, List.forall_mem_cons, induction found, below]
  | case5 part rest _ _ _ induction =>
    obtain ⟨others, found, rfl⟩ := Option.map_eq_some_iff.1 opened
    rw [List.forall_mem_cons, List.forall_mem_cons, induction found]

/-- A conjunction holds exactly where every part does. -/
theorem holds_all_iff (parts : List Assertion) :
    v.holds h (.all parts) = .ok true ↔ ∀ part ∈ parts, v.holds h part = .ok true := by
  cases opened : Assertion.conjuncts? parts with
  | none =>
    have member := conjuncts_none opened
    simp only [Assertion.all, opened, holds]
    constructor
    · intro impossible
      simp at impossible
    · intro each
      simpa [holds] using each .false member
  | some flat =>
    rw [← conjuncts_hold opened]
    match flat, opened with
    | [], opened => simp [Assertion.all, opened, holds]
    | [single], opened => simp [Assertion.all, opened]
    | first :: second :: rest, opened =>
      simp only [Assertion.all, opened, holds]
      exact allHold_true_iff _

/-! ## Truth tables -/

/-- Whether an assertion holds; one that cannot be read does not. -/
def truth (h : Hasher) (v : View) (a : Assertion) : Bool :=
  match v.holds h a with
  | .ok b => b
  | .error _ => false

def Decides (h : Hasher) (v : View) (a : Assertion) : Prop :=
  v.holds h a = .ok (v.truth h a)

theorem decides_of_holds {a : Assertion} {b : Bool} (read : v.holds h a = .ok b) :
    v.Decides h a := by
  simp [Decides, truth, read]

theorem truth_of_holds {a : Assertion} {b : Bool} (read : v.holds h a = .ok b) :
    v.truth h a = b := by
  simp [truth, read]

theorem truth_iff (a : Assertion) : v.truth h a = true ↔ v.holds h a = .ok true := by
  unfold truth
  cases v.holds h a <;> simp

theorem truth_all (parts : List Assertion) : v.truth h (.all parts) = parts.all (v.truth h) := by
  rw [Bool.eq_iff_iff, truth_iff, holds_all_iff, List.all_eq_true]
  simp only [truth_iff]

theorem allHold_append (parts others : List Assertion) :
    v.allHold h (parts ++ others) =
      v.allHold h parts >>= fun found => if found then v.allHold h others else pure false := by
  induction parts with
  | nil => rfl
  | cons part rest induction =>
    simp only [List.cons_append, allHold, induction]
    cases v.holds h part with
    | error e => rfl
    | ok found => cases found <;> rfl

theorem anyHolds_append (parts others : List Assertion) :
    v.anyHolds h (parts ++ others) =
      v.anyHolds h parts >>= fun found => if found then pure true else v.anyHolds h others := by
  induction parts with
  | nil => rfl
  | cons part rest induction =>
    simp only [List.cons_append, anyHolds, induction]
    cases v.holds h part with
    | error e => rfl
    | ok found => cases found <;> rfl

private theorem conjuncts_decided {parts flat : List Assertion}
    (opened : Assertion.conjuncts? parts = some flat) (each : ∀ part ∈ parts, v.Decides h part) :
    v.allHold h flat = .ok (parts.all (v.truth h)) := by
  fun_induction Assertion.conjuncts? parts generalizing flat with
  | case1 => simp_all [allHold]
  | case2 rest induction =>
    have others := induction opened fun other member => each other (List.mem_cons_of_mem _ member)
    simp [others, truth, holds]
  | case3 rest => simp at opened
  | case4 inner rest induction =>
    obtain ⟨others, found, rfl⟩ := Option.map_eq_some_iff.1 opened
    have later := induction found fun other member => each other (List.mem_cons_of_mem _ member)
    have first : v.allHold h inner = .ok (v.truth h (.and inner)) := by
      simpa [Decides, holds] using each (.and inner) List.mem_cons_self
    rw [allHold_append, first, later, List.all_cons]
    cases v.truth h (.and inner) <;> rfl
  | case5 part rest _ _ _ induction =>
    obtain ⟨others, found, rfl⟩ := Option.map_eq_some_iff.1 opened
    have later := induction found fun other member => each other (List.mem_cons_of_mem _ member)
    have first : v.holds h part = .ok (v.truth h part) := each part List.mem_cons_self
    rw [allHold, first, later, List.all_cons]
    cases v.truth h part <;> rfl

private theorem disjuncts_none {parts : List Assertion}
    (dropped : Assertion.disjuncts? parts = none) : Assertion.true ∈ parts := by
  fun_induction Assertion.disjuncts? parts <;> simp_all

private theorem disjuncts_decided {parts flat : List Assertion}
    (opened : Assertion.disjuncts? parts = some flat) (each : ∀ part ∈ parts, v.Decides h part) :
    v.anyHolds h flat = .ok (parts.any (v.truth h)) := by
  fun_induction Assertion.disjuncts? parts generalizing flat with
  | case1 => simp_all [anyHolds]
  | case2 rest induction =>
    have others := induction opened fun other member => each other (List.mem_cons_of_mem _ member)
    simp [others, truth, holds]
  | case3 rest => simp at opened
  | case4 inner rest induction =>
    obtain ⟨others, found, rfl⟩ := Option.map_eq_some_iff.1 opened
    have later := induction found fun other member => each other (List.mem_cons_of_mem _ member)
    have first : v.anyHolds h inner = .ok (v.truth h (.or inner)) := by
      simpa [Decides, holds] using each (.or inner) List.mem_cons_self
    rw [anyHolds_append, first, later, List.any_cons]
    cases v.truth h (.or inner) <;> rfl
  | case5 part rest _ _ _ induction =>
    obtain ⟨others, found, rfl⟩ := Option.map_eq_some_iff.1 opened
    have later := induction found fun other member => each other (List.mem_cons_of_mem _ member)
    have first : v.holds h part = .ok (v.truth h part) := each part List.mem_cons_self
    rw [anyHolds, first, later, List.any_cons]
    cases v.truth h part <;> rfl

theorem decides_all {parts : List Assertion} (each : ∀ part ∈ parts, v.Decides h part) :
    v.Decides h (.all parts) := by
  cases opened : Assertion.conjuncts? parts with
  | none => exact decides_of_holds (b := false) (by simp [Assertion.all, opened, holds])
  | some flat =>
    have read := conjuncts_decided opened each
    match flat, opened, read with
    | [], opened, _ => exact decides_of_holds (b := true) (by simp [Assertion.all, opened, holds])
    | [single], opened, read =>
      -- A list of one part is read as that part is.
      have whole : v.holds h single = .ok (parts.all (v.truth h)) := by
        rw [allHold, bind_ok_iff] at read
        obtain ⟨found, part, rest⟩ := read
        rw [part]
        cases found with
        | false => simpa only [pure_ok_iff, Bool.false_eq_true, if_false, Except.ok.injEq] using rest
        | true => simpa only [allHold, if_true] using rest
      refine decides_of_holds (b := parts.all (v.truth h)) ?_
      simpa [Assertion.all, opened] using whole
    | first :: second :: rest, opened, read =>
      refine decides_of_holds (b := parts.all (v.truth h)) ?_
      simpa [Assertion.all, opened, holds] using read

theorem holds_any_decided {parts : List Assertion} (each : ∀ part ∈ parts, v.Decides h part) :
    v.holds h (.any parts) = .ok (parts.any (v.truth h)) := by
  cases opened : Assertion.disjuncts? parts with
  | none =>
    have found : parts.any (v.truth h) = true :=
      List.any_eq_true.2 ⟨.true, disjuncts_none opened, by simp [truth, holds]⟩
    simp [Assertion.any, opened, holds, found]
  | some flat =>
    have read := disjuncts_decided opened each
    match flat, opened, read with
    | [], opened, read =>
      rw [← read]
      simp [Assertion.any, opened, holds, anyHolds]
    | [single], opened, read =>
      have whole : v.holds h single = .ok (parts.any (v.truth h)) := by
        rw [anyHolds, bind_ok_iff] at read
        obtain ⟨found, part, rest⟩ := read
        rw [part]
        cases found with
        | false => simpa only [anyHolds, Bool.false_eq_true, if_false] using rest
        | true => simpa only [pure_ok_iff, if_true, Except.ok.injEq] using rest
      simpa [Assertion.any, opened] using whole
    | first :: second :: rest, opened, read => simpa [Assertion.any, opened, holds] using read

theorem decides_any {parts : List Assertion} (each : ∀ part ∈ parts, v.Decides h part) :
    v.Decides h (.any parts) :=
  decides_of_holds (holds_any_decided each)

theorem truth_any {parts : List Assertion} (each : ∀ part ∈ parts, v.Decides h part) :
    v.truth h (.any parts) = parts.any (v.truth h) :=
  truth_of_holds (holds_any_decided each)

theorem holds_negated (a : Assertion) :
    v.holds h a.negated = (v.holds h a).map (!·) := by
  cases a with
  | not inner =>
    simp only [Assertion.negated, holds]
    cases v.holds h inner <;> simp [Except.map]
  | _ => simp [Assertion.negated, holds, Except.map]

theorem decides_negated {a : Assertion} (read : v.Decides h a) : v.Decides h a.negated := by
  refine decides_of_holds (b := !(v.truth h a)) ?_
  rw [holds_negated, read]
  rfl

theorem truth_negated {a : Assertion} (read : v.Decides h a) :
    v.truth h a.negated = !(v.truth h a) := by
  refine truth_of_holds ?_
  rw [holds_negated, read]
  rfl

theorem decides_ofBool (b : Bool) : v.Decides h (.ofBool b) := by
  cases b <;> exact decides_of_holds rfl

theorem truth_ofBool (b : Bool) : v.truth h (.ofBool b) = b := by
  cases b <;> rfl

/-! ## The hints an assertion depends on -/

/-- Two views that differ in hints outside some indices only. -/
structure SameUpTo (v u : View) (indices : List Nat) : Prop where
  slots : v.slots = u.slots
  values : v.values = u.values
  hints : ∀ index ∈ indices, v.hints[index]? = u.hints[index]?

theorem SameUpTo.mono {v u : View} {indices fewer : List Nat} (same : v.SameUpTo u indices)
    (subset : ∀ index ∈ fewer, index ∈ indices) : v.SameUpTo u fewer :=
  ⟨same.slots, same.values, fun index member => same.hints index (subset index member)⟩

theorem field_congr {u : View} : (wire : Wire) → v.SameUpTo u wire.hints →
    v.field h wire = u.field h wire
  | .slot index position, same => by simp only [field, slot?, same.slots]
  | .variable name, same => by simp only [field, same.values]
  | .hint index, same => by simp only [field, same.hints index (by simp [Wire.hints])]
  | .const value, _ => rfl
  | .hash2 a b, same => by
    simp only [field, field_congr a (same.mono (by simp +contextual [Wire.hints])),
      field_congr b (same.mono (by simp +contextual [Wire.hints]))]
  | .hash4 a b c d, same => by
    simp only [field, field_congr a (same.mono (by simp +contextual [Wire.hints])),
      field_congr b (same.mono (by simp +contextual [Wire.hints])),
      field_congr c (same.mono (by simp +contextual [Wire.hints])),
      field_congr d (same.mono (by simp +contextual [Wire.hints]))]

mutual

theorem holds_congr {u : View} : (a : Assertion) → v.SameUpTo u a.hints →
    v.holds h a = u.holds h a
  | .true, _ => rfl
  | .false, _ => rfl
  | .eq a b, same => by
    simp only [holds, field_congr a (same.mono (by simp +contextual [Assertion.hints])),
      field_congr b (same.mono (by simp +contextual [Assertion.hints]))]
  | .compare op a b, same => by
    simp only [holds, field_congr a (same.mono (by simp +contextual [Assertion.hints])),
      field_congr b (same.mono (by simp +contextual [Assertion.hints]))]
  | .not a, same => by
    simp only [holds, holds_congr a (same.mono (by simp [Assertion.hints]))]
  | .and parts, same => by
    simp only [holds, allHold_congr parts (same.mono (by simp [Assertion.hints]))]
  | .or parts, same => by
    simp only [holds, anyHolds_congr parts (same.mono (by simp [Assertion.hints]))]

theorem allHold_congr {u : View} : (parts : List Assertion) →
    v.SameUpTo u (Assertion.hintsOfAll parts) → v.allHold h parts = u.allHold h parts
  | [], _ => rfl
  | part :: rest, same => by
    simp only [allHold, holds_congr part (same.mono (by simp +contextual [Assertion.hintsOfAll])),
      allHold_congr rest (same.mono (by simp +contextual [Assertion.hintsOfAll]))]

theorem anyHolds_congr {u : View} : (parts : List Assertion) →
    v.SameUpTo u (Assertion.hintsOfAll parts) → v.anyHolds h parts = u.anyHolds h parts
  | [], _ => rfl
  | part :: rest, same => by
    simp only [anyHolds, holds_congr part (same.mono (by simp +contextual [Assertion.hintsOfAll])),
      anyHolds_congr rest (same.mono (by simp +contextual [Assertion.hintsOfAll]))]

end

/-! ## Views with more hints -/

structure Extends (v u : View) : Prop where
  slots : v.slots = u.slots
  values : v.values = u.values
  hints : ∀ (index : Nat) (x : Field), u.hints[index]? = some x → v.hints[index]? = some x

section Extends

variable {u : View}

theorem field_mono (more : v.Extends u) : (wire : Wire) → {x : Field} → u.field h wire = .ok x →
    v.field h wire = .ok x
  | .slot index position, x, read => by
    simpa only [field, slot?, more.slots] using read
  | .variable name, x, read => by
    simpa only [field, more.values] using read
  | .hint index, x, read => by
    simp only [field] at read ⊢
    split at read
    next y found => rw [more.hints index y found, ← read]
    next => simp at read
  | .const value, x, read => read
  | .hash2 a b, x, read => by
    obtain ⟨y, first, read⟩ := bind_ok_iff.1 read
    obtain ⟨z, second, read⟩ := bind_ok_iff.1 read
    exact bind_ok_iff.2 ⟨y, field_mono more a first, bind_ok_iff.2 ⟨z, field_mono more b second,
      read⟩⟩
  | .hash4 a b c d, x, read => by
    obtain ⟨p, first, read⟩ := bind_ok_iff.1 read
    obtain ⟨q, second, read⟩ := bind_ok_iff.1 read
    obtain ⟨r, third, read⟩ := bind_ok_iff.1 read
    obtain ⟨s, fourth, read⟩ := bind_ok_iff.1 read
    exact bind_ok_iff.2 ⟨p, field_mono more a first, bind_ok_iff.2 ⟨q, field_mono more b second,
      bind_ok_iff.2 ⟨r, field_mono more c third, bind_ok_iff.2 ⟨s, field_mono more d fourth,
        read⟩⟩⟩⟩

mutual

/-- What is decided stays decided when there are more hints. -/
theorem holds_mono (more : v.Extends u) : (a : Assertion) → {b : Bool} →
    u.holds h a = .ok b → v.holds h a = .ok b
  | .true, _, read | .false, _, read => read
  | .eq left right, _, read | .compare _ left right, _, read => by
    obtain ⟨x, first, read⟩ := bind_ok_iff.1 read
    obtain ⟨y, second, read⟩ := bind_ok_iff.1 read
    exact bind_ok_iff.2 ⟨x, field_mono more left first,
      bind_ok_iff.2 ⟨y, field_mono more right second, read⟩⟩
  | .not a, _, read => by
    obtain ⟨found, below, same⟩ := map_ok_iff.1 read
    exact map_ok_iff.2 ⟨found, holds_mono more a below, same⟩
  | .and parts, _, read => allHold_mono more parts read
  | .or parts, _, read => anyHolds_mono more parts read

theorem allHold_mono (more : v.Extends u) : (parts : List Assertion) → {b : Bool} →
    u.allHold h parts = .ok b → v.allHold h parts = .ok b
  | [], _, read => read
  | part :: rest, _, read => by
    obtain ⟨found, first, read⟩ := bind_ok_iff.1 read
    refine bind_ok_iff.2 ⟨found, holds_mono more part first, ?_⟩
    cases found with
    | false => exact read
    | true => exact allHold_mono more rest read

theorem anyHolds_mono (more : v.Extends u) : (parts : List Assertion) → {b : Bool} →
    u.anyHolds h parts = .ok b → v.anyHolds h parts = .ok b
  | [], _, read => read
  | part :: rest, _, read => by
    obtain ⟨found, first, read⟩ := bind_ok_iff.1 read
    refine bind_ok_iff.2 ⟨found, holds_mono more part first, ?_⟩
    cases found with
    | false => exact anyHolds_mono more rest read
    | true => exact read

end

end Extends

end AttestedQuery.View
