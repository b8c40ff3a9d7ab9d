import AttestedQuery.Error
import Mathlib.Data.List.Forall2

/-!
# Computations that succeed

What the success of a computation in parts says about the parts: of a sequence, of a list of
computations and of a fold.
-/

set_option autoImplicit false

namespace AttestedQuery

variable {ε α β σ : Type}

theorem bind_ok_iff {x : Except ε α} {f : α → Except ε β} {b : β} :
    (x >>= f) = .ok b ↔ ∃ a, x = .ok a ∧ f a = .ok b := by
  cases x with
  | error e => simp [bind, Except.bind]
  | ok a => simp [bind, Except.bind]

theorem eq_ok_of_toOption {x : Except ε α} {a : α} (found : x.toOption = some a) :
    x = .ok a := by
  cases x with
  | error e => simp [Except.toOption] at found
  | ok b =>
    obtain rfl := Option.some.inj found
    rfl

theorem exists_ok_of_isOk {x : Except ε α} (succeeds : x.isOk = true) : ∃ a, x = .ok a := by
  cases x with
  | error e => simp [Except.isOk, Except.toBool] at succeeds
  | ok a => exact ⟨a, rfl⟩

theorem exists_ok_of_any {x : Except ε α} {test : α → Bool}
    (found : x.toOption.any test = true) : ∃ a, x = .ok a ∧ test a = true := by
  cases x with
  | error fault => simp [Except.toOption] at found
  | ok a => exact ⟨a, rfl, by simpa [Except.toOption] using found⟩

theorem map_ok_iff {x : Except ε α} {f : α → β} {b : β} :
    x.map f = .ok b ↔ ∃ a, x = .ok a ∧ f a = b := by
  cases x with
  | error e => simp [Except.map]
  | ok a => simp [Except.map]

theorem pure_ok_iff {a b : α} : (pure a : Except ε α) = .ok b ↔ a = b := by
  simp [pure, Except.pure]

theorem mapM_ok_iff (f : α → Except ε β) (xs : List α) (ys : List β) :
    xs.mapM f = .ok ys ↔ List.Forall₂ (fun x y => f x = .ok y) xs ys := by
  induction xs generalizing ys with
  | nil => cases ys <;> simp [pure, Except.pure]
  | cons x rest induction =>
    rw [List.mapM_cons, bind_ok_iff]
    constructor
    · rintro ⟨y, first, later⟩
      obtain ⟨others, found, whole⟩ := bind_ok_iff.1 later
      obtain rfl := pure_ok_iff.1 whole
      exact List.Forall₂.cons first ((induction others).1 found)
    · intro each
      cases each with
      | cons first others => exact ⟨_, first, bind_ok_iff.2 ⟨_, (induction _).2 others, rfl⟩⟩

theorem mapM_ok_map {f : α → Except ε β} {g : α → β} {xs : List α}
    (each : ∀ x ∈ xs, f x = .ok (g x)) : xs.mapM f = .ok (xs.map g) := by
  rw [mapM_ok_iff, List.forall₂_map_right_iff, List.forall₂_same]
  exact each

/-- The results of a list of computations are those of its members. -/
theorem mem_mapM_iff {f : α → Except ε β} {xs : List α} {ys : List β}
    (mapped : xs.mapM f = .ok ys) (y : β) : y ∈ ys ↔ ∃ x ∈ xs, f x = .ok y := by
  have each := (mapM_ok_iff f xs ys).1 mapped
  clear mapped
  induction each with
  | nil => simp
  | cons first others induction =>
    simp only [List.mem_cons, exists_eq_or_imp, induction, first, Except.ok.injEq]
    rw [eq_comm]

theorem mapM_member {f : α → Except ε β} {xs : List α} {ys : List β}
    (mapped : xs.mapM f = .ok ys) {x : α} (member : x ∈ xs) : ∃ y, f x = .ok y ∧ y ∈ ys := by
  have each := (mapM_ok_iff f xs ys).1 mapped
  clear mapped
  induction each with
  | nil => simp at member
  | cons first others induction =>
    rcases List.mem_cons.1 member with rfl | member
    · exact ⟨_, first, List.mem_cons_self⟩
    · obtain ⟨y, found, inside⟩ := induction member
      exact ⟨y, found, List.mem_cons_of_mem _ inside⟩

theorem forM_member {f : α → Except ε Unit} {xs : List α} (checked : xs.forM f = .ok ()) {x : α}
    (member : x ∈ xs) : f x = .ok () := by
  induction xs with
  | nil => cases member
  | cons first rest induction =>
    obtain ⟨⟨⟩, here, later⟩ := bind_ok_iff.1 checked
    rcases List.mem_cons.1 member with rfl | member
    · exact here
    · exact induction later member

theorem mapM_succeeds {f : α → Except ε β} {xs : List α}
    (each : ∀ x ∈ xs, ∃ y, f x = .ok y) : ∃ ys, xs.mapM f = .ok ys := by
  induction xs with
  | nil => exact ⟨[], rfl⟩
  | cons x rest induction =>
    obtain ⟨y, first⟩ := each x List.mem_cons_self
    obtain ⟨ys, others⟩ := induction fun z member => each z (List.mem_cons_of_mem x member)
    refine ⟨y :: ys, (mapM_ok_iff f (x :: rest) (y :: ys)).2 ?_⟩
    exact List.Forall₂.cons first ((mapM_ok_iff f rest ys).1 others)

theorem bind_succeeds {x : Except ε α} {f : α → Except ε β} (first : ∃ a, x = .ok a)
    (second : ∀ a, x = .ok a → ∃ b, f a = .ok b) : ∃ b, (x >>= f) = .ok b := by
  obtain ⟨a, done⟩ := first
  obtain ⟨b, rest⟩ := second a done
  exact ⟨b, bind_ok_iff.2 ⟨a, done, rest⟩⟩

theorem foldlM_preserves {f : β → α → Except ε β} (invariant : β → Prop) {xs : List α}
    {start final : β} (folded : xs.foldlM f start = .ok final) (holds : invariant start)
    (step : ∀ state x next, x ∈ xs → invariant state → f state x = .ok next → invariant next) :
    invariant final := by
  induction xs generalizing start with
  | nil =>
    obtain rfl := pure_ok_iff.1 folded
    exact holds
  | cons x rest induction =>
    rw [List.foldlM_cons, bind_ok_iff] at folded
    obtain ⟨next, first, later⟩ := folded
    refine induction later (step start x next List.mem_cons_self holds first) ?_
    intro state y after member
    exact step state y after (List.mem_cons_of_mem x member)

theorem exists_forall₂ {related : α → β → Prop} {xs : List α}
    (each : ∀ x ∈ xs, ∃ y, related x y) : ∃ ys, List.Forall₂ related xs ys := by
  induction xs with
  | nil => exact ⟨[], List.Forall₂.nil⟩
  | cons x rest induction =>
    obtain ⟨y, first⟩ := each x List.mem_cons_self
    obtain ⟨ys, others⟩ := induction fun z member => each z (List.mem_cons_of_mem x member)
    exact ⟨y :: ys, List.Forall₂.cons first others⟩

/-! ## Failures -/

theorem bind_error_iff {x : Except ε α} {f : α → Except ε β} {e : ε} :
    (x >>= f) = .error e ↔ x = .error e ∨ ∃ a, x = .ok a ∧ f a = .error e := by
  cases x with
  | error e => simp [bind, Except.bind]
  | ok a => simp [bind, Except.bind]

theorem map_error_iff {x : Except ε α} {f : α → β} {e : ε} :
    x.map f = .error e ↔ x = .error e := by
  cases x <;> simp [Except.map]

theorem foldlM_error {f : β → α → Except ε β} {xs : List α} {start : β} {e : ε}
    (failed : xs.foldlM f start = .error e) : ∃ state, ∃ x ∈ xs, f state x = .error e := by
  induction xs generalizing start with
  | nil => simp [pure, Except.pure] at failed
  | cons x rest induction =>
    rw [List.foldlM_cons, bind_error_iff] at failed
    rcases failed with here | ⟨next, _, later⟩
    · exact ⟨start, x, List.mem_cons_self, here⟩
    · obtain ⟨state, y, member, failed⟩ := induction later
      exact ⟨state, y, List.mem_cons_of_mem x member, failed⟩

theorem mapM_error {f : α → Except ε β} {xs : List α} {e : ε} (failed : xs.mapM f = .error e) :
    ∃ x ∈ xs, f x = .error e := by
  induction xs with
  | nil => simp [pure, Except.pure] at failed
  | cons x rest induction =>
    rw [List.mapM_cons, bind_error_iff] at failed
    rcases failed with here | ⟨y, _, later⟩
    · exact ⟨x, List.mem_cons_self, here⟩
    · rcases bind_error_iff.1 later with others | ⟨ys, _, impossible⟩
      · obtain ⟨z, member, failed⟩ := induction others
        exact ⟨z, List.mem_cons_of_mem x member, failed⟩
      · simp [pure, Except.pure] at impossible

/-! ## Computations with a state -/

theorem run_bind_ok_iff {x : StateT σ (Except ε) α} {f : α → StateT σ (Except ε) β} {s t : σ}
    {b : β} : (x >>= f) s = .ok (b, t) ↔ ∃ a u, x s = .ok (a, u) ∧ f a u = .ok (b, t) := by
  change (x s >>= fun (a, u) => f a u) = .ok (b, t) ↔ _
  rw [bind_ok_iff]
  simp

theorem run_pure_ok_iff {s t : σ} {a b : α} :
    (pure a : StateT σ (Except ε) α) s = .ok (b, t) ↔ a = b ∧ s = t := by
  change (Except.ok (a, s) : Except ε (α × σ)) = .ok (b, t) ↔ _
  simp

theorem run_get_ok_iff {s t a : σ} :
    (get : StateT σ (Except ε) σ) s = .ok (a, t) ↔ s = a ∧ s = t := by
  change (Except.ok (s, s) : Except ε (σ × σ)) = .ok (a, t) ↔ _
  simp

theorem run_set_ok_iff {s t u : σ} {nothing : PUnit} :
    (set u : StateT σ (Except ε) PUnit) s = .ok (nothing, t) ↔ u = t := by
  change (Except.ok (PUnit.unit, u) : Except ε (PUnit × σ)) = .ok (nothing, t) ↔ _
  simp

theorem run_lift_ok_iff {x : Except ε α} {s t : σ} {a : α} :
    (liftM x : StateT σ (Except ε) α) s = .ok (a, t) ↔ x = .ok a ∧ s = t := by
  change (x >>= fun a => pure (a, s)) = .ok (a, t) ↔ _
  rw [bind_ok_iff]
  simp [pure, Except.pure]

end AttestedQuery
