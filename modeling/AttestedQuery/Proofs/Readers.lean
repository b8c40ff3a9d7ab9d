import AttestedQuery.Text.Reader
import Mathlib.Data.List.TakeDrop
import Mathlib.Data.List.TakeWhile

/-!
# What readers give

A property of every value that a reader gives, whatever the text and the state are. One rule for
each way of making readers; a step whose value does not matter gives anything.
-/

set_option autoImplicit false

namespace AttestedQuery.Reader

instance (σ : Type) : LawfulMonad (Reader σ) := LawfulMonad.mk' (Reader σ)
  (by
    intro α reader
    funext text s
    change andThen reader succeed text s = reader text s
    unfold andThen
    split
    next _ _ _ ran => exact ran.symm
    next _ ran => exact ran.symm)
  (fun _ _ => rfl)
  (by
    intro α β γ first second third
    funext text s
    change andThen (andThen first second) third text s =
      andThen first (fun a => andThen (second a) third) text s
    simp only [andThen]
    rcases first text s with ⟨_ | ⟨a, rest⟩, s'⟩ <;> rfl)

variable {σ α β : Type} {wanted : α → Prop}

def Gives (reader : Reader σ α) (wanted : α → Prop) : Prop :=
  ∀ text s a rest after, reader text s = (some (a, rest), after) → wanted a

theorem gives_any (reader : Reader σ α) : Gives reader fun _ => True := fun _ _ _ _ _ _ => trivial

theorem Gives.imp {reader : Reader σ α} {weaker : α → Prop} (gives : Gives reader wanted)
    (leads : ∀ a, wanted a → weaker a) : Gives reader weaker :=
  fun text s a rest after read => leads a (gives text s a rest after read)

theorem gives_pure {a : α} (holds : wanted a) : Gives (pure a : Reader σ α) wanted := by
  intro text s b rest after read
  obtain ⟨same, _⟩ := Prod.mk.inj read
  obtain ⟨rfl, _⟩ := Prod.mk.inj (Option.some.inj same)
  exact holds

theorem gives_fail : Gives (fail : Reader σ α) wanted := by
  intro text s a rest after read
  cases read

theorem gives_bind {first : Reader σ β} {next : β → Reader σ α} {middle : β → Prop}
    (before : Gives first middle) (later : ∀ b, middle b → Gives (next b) wanted) :
    Gives (first >>= next) wanted := by
  intro text s a rest after read
  change andThen first next text s = _ at read
  unfold andThen at read
  split at read
  next b between s' ran =>
    exact later b (before text s b between s' ran) between s' a rest after read
  next => cases read

/-- A step whose value does not matter. -/
theorem gives_after (first : Reader σ β) {next : β → Reader σ α}
    (later : ∀ b, Gives (next b) wanted) : Gives (first >>= next) wanted :=
  gives_bind (gives_any first) fun b _ => later b

theorem gives_orElse {first second : Reader σ α} (left : Gives first wanted)
    (right : Gives second wanted) : Gives (first <|> second) wanted := by
  intro text s a rest after read
  change orElse first (fun _ => second) text s = _ at read
  unfold orElse at read
  split at read
  next result s' ran =>
    obtain ⟨same, rfl⟩ := Prod.mk.inj read
    obtain rfl := Option.some.inj same
    exact left text s a rest s' ran
  next s' _ => exact right text s' a rest after read

theorem gives_ofOption {found : Option α} (holds : ∀ a, found = some a → wanted a) :
    Gives (ofOption found : Reader σ α) wanted := by
  cases found with
  | none => exact gives_fail
  | some a => exact gives_pure (holds a rfl)

theorem gives_charIf (admitted : Char → Bool) :
    Gives (charIf admitted : Reader σ Char) fun c => admitted c = true := by
  intro text s c rest after read
  unfold charIf at read
  split at read
  next first others =>
    split at read
    next met =>
      obtain ⟨same, _⟩ := Prod.mk.inj read
      obtain ⟨rfl, _⟩ := Prod.mk.inj (Option.some.inj same)
      exact met
    next => cases read
  next => cases read

theorem gives_run (admitted : Char → Bool) :
    Gives (run admitted : Reader σ (List Char)) fun taken => ∀ c ∈ taken, admitted c = true := by
  intro text s taken rest after read
  obtain ⟨same, _⟩ := Prod.mk.inj read
  have whole := Option.some.inj same
  rw [List.span_eq_takeWhile_dropWhile] at whole
  obtain ⟨rfl, _⟩ := Prod.mk.inj whole
  exact fun c => List.mem_takeWhile_imp

theorem gives_maybe {reader : Reader σ α} (gives : Gives reader wanted) :
    Gives (maybe reader) fun found => ∀ a, found = some a → wanted a := by
  apply gives_orElse
  · refine gives_bind gives fun a holds => gives_pure ?_
    rintro _ ⟨⟩
    exact holds
  · exact gives_pure (by simp)

theorem gives_many {reader : Reader σ α} (gives : Gives reader wanted) :
    Gives reader.many fun values => ∀ a ∈ values, wanted a := by
  have each (text : List Char) (s : σ) : ∀ a ∈ (reader.repeated text s).1.1, wanted a := by
    fun_induction repeated reader text s with
    | case1 => simp
    | case2 text s a rest s' ran shorter more last s'' later induction =>
      rw [later] at induction
      exact List.forall_mem_cons.2 ⟨gives _ _ _ _ _ ran, induction⟩
    | case3 text s a rest s' ran => simpa using gives _ _ _ _ _ ran
  intro text s values rest after read
  have same := congrArg (·.1.map (·.1)) read
  obtain rfl := Option.some.inj same
  exact each text s

theorem gives_atLeastOne {reader : Reader σ α} (gives : Gives reader wanted) :
    Gives reader.atLeastOne fun values => ∀ a ∈ values, wanted a := by
  refine gives_bind gives fun first here => ?_
  refine gives_bind (gives_many gives) fun more later => ?_
  exact gives_pure (List.forall_mem_cons.2 ⟨here, later⟩)

theorem gives_sepBy {reader : Reader σ α} (gives : Gives reader wanted) (separator : Reader σ β) :
    Gives (reader.sepBy separator) fun values => ∀ a ∈ values, wanted a := by
  refine gives_bind gives fun first here => ?_
  refine gives_bind (gives_many (gives_after separator fun _ => gives)) fun more later => ?_
  exact gives_pure (List.forall_mem_cons.2 ⟨here, later⟩)

theorem gives_mapM {f : β → Reader σ α} {xs : List β} (each : ∀ x ∈ xs, Gives (f x) wanted) :
    Gives (xs.mapM f) fun values => ∀ a ∈ values, wanted a := by
  induction xs with
  | nil =>
    rw [List.mapM_nil]
    exact gives_pure (List.forall_mem_nil _)
  | cons x rest induction =>
    obtain ⟨here, later⟩ := List.forall_mem_cons.1 each
    rw [List.mapM_cons]
    refine gives_bind here fun a first => ?_
    refine gives_bind (induction later) fun others more => ?_
    exact gives_pure (List.forall_mem_cons.2 ⟨first, more⟩)

theorem gives_foldlM {f : α → β → Reader σ α} {xs : List β} {start : α} (holds : wanted start)
    (step : ∀ a, ∀ x ∈ xs, wanted a → Gives (f a x) wanted) :
    Gives (xs.foldlM f start) wanted := by
  induction xs generalizing start with
  | nil => exact gives_pure holds
  | cons x rest induction =>
    rw [List.foldlM_cons]
    refine gives_bind (step start x List.mem_cons_self holds) fun a kept => ?_
    exact induction kept fun b y member => step b y (List.mem_cons_of_mem x member)

theorem Gives.readAll {reader : Reader σ α} (gives : Gives reader wanted) {s : σ}
    {text : List Char} {a : α} (read : reader.readAll s text = some a) : wanted a := by
  unfold Reader.readAll at read
  split at read
  next b after ran =>
    obtain rfl := Option.some.inj read
    exact gives text s b [] after ran
  next => cases read

end AttestedQuery.Reader
