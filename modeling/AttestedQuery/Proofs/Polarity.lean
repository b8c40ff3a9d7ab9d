import AttestedQuery.Proofs.Meaning

/-!
# Where a wrong hint can help

A wrong hint takes values away, and turns a type test about its key from true to false. So it can
make an expression true only through a type test that the expression wants false: one below an odd
number of negations, or in the condition of an IF.
-/

set_option autoImplicit false

namespace AttestedQuery

def Builtin.isTest : Builtin → Bool
  | .isIri | .isBlank | .isLiteral | .isNumeric => true
  | .str | .lang | .datatype | .strLen => false

/-- No test about a key is wanted false by an expression that is wanted to have this value. -/
def Expr.affirms : Expr → Bool → Bool
  | .and a b, wanted | .or a b, wanted => a.affirms wanted && b.affirms wanted
  | .not a, wanted => a.affirms (!wanted)
  | .ite c a b, wanted =>
    c.affirms true && c.affirms false && a.affirms wanted && b.affirms wanted
  | .call builtin (.var _), wanted => wanted || !builtin.isTest
  | _, _ => true

def Keeps {α : Type} (a b : Option α) : Prop := ∀ x, a = some x → b = some x

namespace Keeps

variable {α β : Type} {a b : Option α}

theorem refl (a : Option α) : Keeps a a := fun _ found => found

theorem map (keeps : Keeps a b) (f : α → β) : Keeps (a.map f) (b.map f) := by
  intro y found
  obtain ⟨x, first, rfl⟩ := Option.map_eq_some_iff.1 found
  rw [keeps x first]
  rfl

theorem bind {f g : α → Option β} (keeps : Keeps a b) (each : ∀ x, Keeps (f x) (g x)) :
    Keeps (a.bind f) (b.bind g) := by
  intro y found
  obtain ⟨x, first, second⟩ := Option.bind_eq_some_iff.1 found
  rw [keeps x first]
  exact each x y second

end Keeps

theorem bothTrue_true {a b : Option Bool} :
    bothTrue a b = some true ↔ a = some true ∧ b = some true := by
  rcases a with _ | _ | _ <;> rcases b with _ | _ | _ <;> simp [bothTrue]

theorem bothTrue_false {a b : Option Bool} :
    bothTrue a b = some false ↔ a = some false ∨ b = some false := by
  rcases a with _ | _ | _ <;> rcases b with _ | _ | _ <;> simp [bothTrue]

theorem eitherTrue_true {a b : Option Bool} :
    eitherTrue a b = some true ↔ a = some true ∨ b = some true := by
  rcases a with _ | _ | _ <;> rcases b with _ | _ | _ <;> simp [eitherTrue]

theorem eitherTrue_false {a b : Option Bool} :
    eitherTrue a b = some false ↔ a = some false ∧ b = some false := by
  rcases a with _ | _ | _ <;> rcases b with _ | _ | _ <;> simp [eitherTrue]

theorem chosen_some {c a b : Option Bool} {value : Bool} : chosen c a b = some value ↔
    (c = some true ∧ a = some value) ∨ (c = some false ∧ b = some value) := by
  rcases c with _ | _ | _ <;> simp [chosen]

/-- A reading of the same row in which no more hints are wrong. -/
structure Reading.Within (r other : Reading) : Prop where
  encoder : other.encoder = r.encoder
  row : other.row = r.row
  trusted : other.trusted = r.trusted
  wrong : ∀ h, other.wrong h = true → r.wrong h = true

/-- The same meaning, with no value lost. -/
inductive Meaning.Within : Meaning → Meaning → Prop
  | term {a b : Option Field} (keeps : Keeps a b) (origin : Origin) :
    Within (.term a origin) (.term b origin)
  | number {a b : Option Field} (keeps : Keeps a b) : Within (.number a) (.number b)
  | error : Within .error .error

namespace Reading.Within

variable {r other : Reading} (within : r.Within other)

include within

theorem parts (key : String) : Keeps (r.parts? key) (other.parts? key) := by
  intro parts known
  unfold parts? at known ⊢
  split at known
  next => simp at known
  next right =>
    have less : ¬ (Hint.parts key).any other.wrong = true := by
      intro wrong
      obtain ⟨h, member, wrong⟩ := List.any_eq_true.1 wrong
      exact right (List.any_eq_true.2 ⟨h, member, within.wrong h wrong⟩)
    rw [if_neg less, within.row, within.encoder]
    exact known

theorem textHash (key : String) : Keeps (r.textHash? key) (other.textHash? key) := by
  intro x known
  unfold textHash? at known ⊢
  rw [within.row, within.encoder]
  split at known
  next text found =>
    split at known
    next => simp at known
    next right =>
      have less : ¬ other.wrong (.lexicalHash (.key key)) = true := fun wrong =>
        right (within.wrong _ wrong)
      rw [if_neg less]
      exact known
  next => exact (within.parts key).map _ x known

theorem constant (t : Term) : (r.constant t).Within (other.constant t) := by
  rw [Reading.constant, Reading.constant, within.encoder]
  exact Meaning.Within.term (Keeps.refl _) _

theorem simpleCode : other.simpleCode = r.simpleCode := by
  funext lexical
  rw [Reading.simpleCode, Reading.simpleCode, within.encoder]

theorem typed : other.typed = r.typed := by
  funext parts names
  rw [Reading.typed, Reading.typed, within.encoder]

theorem callOf (builtin : Builtin) {m n : Meaning} (argument : m.Within n) :
    (r.callOf builtin m).Within (other.callOf builtin n) := by
  cases argument with
  | error => exact Meaning.Within.error
  | number keeps => exact Meaning.Within.error
  | term keeps origin =>
    cases builtin with
    | str =>
      cases origin with
      | const t =>
        simp only [Reading.callOf, strOf]
        split
        · exact within.constant _
        · exact Meaning.Within.error
      | key key =>
        simp only [Reading.callOf, strOf, within.simpleCode]
        exact Meaning.Within.term (keeps.bind fun _ => (within.textHash key).map _) _
      | str | lang => exact Meaning.Within.term keeps _
      | datatype => exact Meaning.Within.error
    | lang =>
      cases origin with
      | const t =>
        cases t with
        | literal _ _ _ => exact within.constant _
        | iri _ | blank _ | defaultGraph | _ => exact Meaning.Within.error
      | key key =>
        simp only [Reading.callOf, langOf, within.simpleCode]
        exact Meaning.Within.term (keeps.bind fun _ => (within.parts key).map _) _
      | str | lang => exact within.constant _
      | datatype => exact Meaning.Within.error
    | datatype =>
      cases origin with
      | const t =>
        cases t with
        | literal _ _ _ => exact within.constant _
        | iri _ | blank _ | defaultGraph | _ => exact Meaning.Within.error
      | key key =>
        exact Meaning.Within.term (keeps.bind fun _ => (within.parts key).map _) _
      | str | lang => exact within.constant _
      | datatype => exact Meaning.Within.error
    | strLen =>
      cases origin with
      | const t =>
        cases t with
        | literal _ _ _ => exact Meaning.Within.number (Keeps.refl _)
        | iri _ | blank _ | defaultGraph | _ => exact Meaning.Within.error
      | key key =>
        simp only [Reading.callOf, lengthOf, within.trusted]
        exact Meaning.Within.number (keeps.bind fun _ => (within.parts key).map _)
      | str | lang | datatype => exact Meaning.Within.error
    | isIri | isBlank | isLiteral | isNumeric => exact Meaning.Within.error

theorem meaning : (e : Expr) → (r.meaning e).Within (other.meaning e)
  | .const t => within.constant t
  | .var key => by
    simp only [Reading.meaning, within.row, within.encoder]
    split
    · exact Meaning.Within.term (Keeps.refl _) _
    · exact Meaning.Within.error
  | .call builtin argument => within.callOf builtin (meaning argument)
  | .equal .. | .sameTerm .. | .compare .. | .isIn .. | .and .. | .or .. | .not _ | .ite .. |
    .bound _ => Meaning.Within.error

/-! ## Tests -/

variable {m n p q : Meaning}

theorem typed_keeps {β : Type} (key : String) (names : List String) (test : LiteralParts → β) :
    Keeps ((r.parts? key).bind fun parts => if r.typed parts names then some (test parts) else none)
      ((other.parts? key).bind fun parts =>
        if other.typed parts names then some (test parts) else none) := by
  rw [within.typed]
  exact (within.parts key).bind fun _ => Keeps.refl _

theorem truthOf (argument : m.Within n) : Keeps (r.truthOf m) (other.truthOf n) := by
  cases argument with
  | error => exact Keeps.refl _
  | number keeps => exact keeps.map _
  | term keeps origin =>
    cases origin with
    | const t => exact Keeps.refl _
    | key key => exact keeps.bind fun _ => within.typed_keeps key _ _
    | str | lang =>
      simp only [Reading.truthOf, within.encoder]
      exact keeps.bind fun _ => Keeps.refl _
    | datatype => exact Keeps.refl _

theorem numberEquals {a b c d : Option Field} (number : Keeps a b) (code : Keeps c d)
    (origin : Origin) : Keeps (r.numberEquals a c origin) (other.numberEquals b d origin) := by
  cases origin with
  | const t =>
    simp only [Reading.numberEquals]
    split
    · exact number.bind fun _ => code.map _
    · exact Keeps.refl _
  | key key => exact number.bind fun _ => code.bind fun _ => within.typed_keeps key _ _
  | str | lang | datatype => exact Keeps.refl _

theorem equality (sameTerm : Bool) (left : m.Within n) (right : p.Within q) :
    Keeps (r.equality sameTerm m p) (other.equality sameTerm n q) := by
  cases left with
  | error => simp only [Reading.equality]; exact Keeps.refl _
  | number first =>
    cases right with
    | error => simp only [Reading.equality]; exact Keeps.refl _
    | number second => exact first.bind fun _ => second.map _
    | term second origin => exact within.numberEquals first second origin
  | term first origin =>
    cases right with
    | error => simp only [Reading.equality]; exact Keeps.refl _
    | number second =>
      simp only [Reading.equality]
      exact within.numberEquals second first origin
    | term second another =>
      cases origin <;> cases another <;>
        exact first.bind fun _ => second.map _

theorem ordinal (space : ValueSpace) (argument : m.Within n) :
    Keeps (r.ordinal space m) (other.ordinal space n) := by
  cases argument with
  | error => exact Keeps.refl _
  | number keeps =>
    simp only [Reading.ordinal]
    split
    · exact keeps
    · exact Keeps.refl _
  | term keeps origin =>
    cases origin with
    | const t => exact keeps.bind fun _ => Keeps.refl _
    | key key => exact keeps.bind fun _ => within.typed_keeps key _ _
    | str | lang | datatype => exact Keeps.refl _

theorem stringOperand (argument : m.Within n) :
    Keeps (r.stringOperand m) (other.stringOperand n) := by
  cases argument with
  | error | number _ => exact Keeps.refl _
  | term keeps origin =>
    cases origin with
    | const t => exact keeps.bind fun _ => Keeps.refl _
    | key key => exact keeps.bind fun _ => within.typed_keeps key _ _
    | str | lang | datatype => exact Keeps.refl _

omit within in
theorem spaceOf (argument : m.Within n) : spaceOf? n = spaceOf? m := by
  cases argument with
  | error | number _ => rfl
  | term _ origin => cases origin <;> rfl

theorem comparison (op : CompareOp) (left : m.Within n) (right : p.Within q) :
    Keeps (r.comparison op m p) (other.comparison op n q) := by
  have order : Keeps (r.ordered op m p) (other.ordered op n q) := by
    rw [Reading.ordered, Reading.ordered, spaceOf left, spaceOf right]
    split
    · rw [Reading.stringOrder, Reading.stringOrder, within.trusted]
      exact (within.stringOperand left).bind fun _ => (within.stringOperand right).map _
    · exact (within.ordinal _ left).bind fun _ => (within.ordinal _ right).map _
  cases left with
  | error | number _ => exact order
  | term first origin =>
    cases right with
    | error | number _ => cases origin <;> exact order
    | term second another =>
      cases origin <;> cases another <;> first | exact order | exact Keeps.refl _

/-! ## Tests that may be denied -/

omit within in
theorem origin_ne_key (e : Expr) (noVariable : ∀ key, e ≠ .var key) (code : Option Field)
    (key : String) : r.meaning e ≠ .term code (.key key) := by
  intro same
  cases e with
  | const t => simp [Reading.meaning, Reading.constant] at same
  | var name => exact noVariable name rfl
  | call builtin argument =>
    rw [Reading.meaning] at same
    generalize r.meaning argument = m at same
    cases m with
    | error | number _ => simp [Reading.callOf] at same
    | term inner origin =>
      cases builtin <;> cases origin <;>
        simp only [Reading.callOf, strOf, langOf, datatypeOf, lengthOf, Reading.constant] at same <;>
        first | (split at same <;> simp at same) | simp at same
  | _ => simp [Reading.meaning] at same

theorem kindTest_true (kind : TermKind) (argument : m.Within n)
    (holds : r.kindTest kind m = some true) : other.kindTest kind n = some true := by
  cases argument with
  | error => exact holds
  | number keeps => exact keeps.map _ true holds
  | term keeps origin =>
    cases origin with
    | const _ | str | lang | datatype => exact keeps.map _ true holds
    | key key =>
      obtain ⟨code, found, test⟩ := Option.map_eq_some_iff.1 holds
      rw [Bool.and_eq_true, Bool.not_eq_true'] at test
      have less : other.wrong (.termInner (.key key)) = false := by
        by_contra wrong
        rw [within.wrong _ (by simpa using wrong)] at test
        exact absurd test.1 (by simp)
      rw [Reading.kindTest, keeps code found, within.row]
      simp [less, test.2]

omit within in
theorem kindTest_keeps (kind : TermKind) (argument : m.Within n)
    (noKey : ∀ code key, m ≠ .term code (.key key)) :
    Keeps (r.kindTest kind m) (other.kindTest kind n) := by
  cases argument with
  | error => exact Keeps.refl _
  | number keeps => exact keeps.map _
  | term keeps origin =>
    cases origin with
    | const _ | str | lang | datatype => exact keeps.map _
    | key key => exact absurd rfl (noKey _ key)

theorem numericTest_true (argument : m.Within n) (holds : r.numericTest m = some true) :
    other.numericTest n = some true := by
  cases argument with
  | error => exact holds
  | number keeps => exact keeps.map _ true holds
  | term keeps origin =>
    cases origin with
    | const t => cases t <;> exact keeps.map _ true holds
    | str | lang | datatype => exact keeps.map _ true holds
    | key key =>
      obtain ⟨code, found, test⟩ := Option.map_eq_some_iff.1 holds
      obtain ⟨parts, known, typed⟩ := (Option.any_eq_true _ _).1 test
      rw [Reading.numericTest, keeps code found, within.typed]
      simp [within.parts key parts known, typed]

omit within in
theorem numericTest_keeps (argument : m.Within n)
    (noKey : ∀ code key, m ≠ .term code (.key key)) :
    Keeps (r.numericTest m) (other.numericTest n) := by
  cases argument with
  | error => exact Keeps.refl _
  | number keeps => exact keeps.map _
  | term keeps origin =>
    cases origin with
    | const t => cases t <;> exact keeps.map _
    | str | lang | datatype => exact keeps.map _
    | key key => exact absurd rfl (noKey _ key)

theorem test (outcome : Reading → Meaning → Option Bool) {builtin : Builtin}
    (isTest : builtin.isTest = true) (argument : Expr) {wanted : Bool}
    (affirms : (Expr.call builtin argument).affirms wanted = true)
    (whenTrue : ∀ {m n : Meaning}, m.Within n → outcome r m = some true → outcome other n = some true)
    (keeps : ∀ {m n : Meaning}, m.Within n → (∀ code key, m ≠ .term code (.key key)) →
      Keeps (outcome r m) (outcome other n))
    (holds : outcome r (r.meaning argument) = some wanted) :
    outcome other (other.meaning argument) = some wanted := by
  by_cases variable_ : ∃ key, argument = .var key
  · obtain ⟨key, rfl⟩ := variable_
    have wantedTrue : wanted = true := by simpa [Expr.affirms, isTest] using affirms
    rw [wantedTrue] at holds ⊢
    exact whenTrue (within.meaning _) holds
  · have noKey := origin_ne_key (r := r) argument fun key same => variable_ ⟨key, same⟩
    exact keeps (within.meaning argument) noKey wanted holds

theorem isIn (needle : Expr) (items : List Expr) {a b : Option Bool} (start : Keeps a b) :
    Keeps
      (items.foldl (fun found item =>
        eitherTrue found (r.equality false (r.meaning needle) (r.meaning item))) a)
      (items.foldl (fun found item =>
        eitherTrue found (other.equality false (other.meaning needle) (other.meaning item))) b) := by
  induction items generalizing a b with
  | nil => exact start
  | cons item rest induction =>
    rw [List.foldl_cons, List.foldl_cons]
    apply induction
    have step := within.equality false (within.meaning needle) (within.meaning item)
    intro wanted found
    cases wanted with
    | true =>
      rw [eitherTrue_true] at found ⊢
      exact found.imp (start true) (step true)
    | false =>
      rw [eitherTrue_false] at found ⊢
      exact found.imp (start false) (step false)

/-- Righting hints keeps the value of an expression that affirms the tests about keys in it. -/
theorem outcome : (e : Expr) → {wanted : Bool} → e.affirms wanted = true →
    r.outcome e = some wanted → other.outcome e = some wanted
  | .and a b, wanted, affirms, holds => by
    simp only [Expr.affirms, Bool.and_eq_true] at affirms
    rw [Reading.outcome] at holds ⊢
    cases wanted with
    | true =>
      rw [bothTrue_true] at holds ⊢
      exact ⟨outcome a affirms.1 holds.1, outcome b affirms.2 holds.2⟩
    | false =>
      rw [bothTrue_false] at holds ⊢
      exact holds.imp (outcome a affirms.1) (outcome b affirms.2)
  | .or a b, wanted, affirms, holds => by
    simp only [Expr.affirms, Bool.and_eq_true] at affirms
    rw [Reading.outcome] at holds ⊢
    cases wanted with
    | true =>
      rw [eitherTrue_true] at holds ⊢
      exact holds.imp (outcome a affirms.1) (outcome b affirms.2)
    | false =>
      rw [eitherTrue_false] at holds ⊢
      exact ⟨outcome a affirms.1 holds.1, outcome b affirms.2 holds.2⟩
  | .not a, wanted, affirms, holds => by
    rw [Expr.affirms] at affirms
    rw [Reading.outcome] at holds ⊢
    obtain ⟨value, found, rfl⟩ := Option.map_eq_some_iff.1 holds
    rw [Bool.not_not] at affirms
    rw [outcome a affirms found]
    rfl
  | .ite c a b, wanted, affirms, holds => by
    simp only [Expr.affirms, Bool.and_eq_true] at affirms
    rw [Reading.outcome, chosen_some] at holds ⊢
    rcases holds with ⟨condition, value⟩ | ⟨condition, value⟩
    · exact Or.inl ⟨outcome c affirms.1.1.1 condition, outcome a affirms.1.2 value⟩
    · exact Or.inr ⟨outcome c affirms.1.1.2 condition, outcome b affirms.2 value⟩
  | .bound key, wanted, _, holds => by
    rw [Reading.outcome, within.row]
    exact holds
  | .equal a b, _, _, holds => within.equality false (within.meaning a) (within.meaning b) _ holds
  | .sameTerm a b, _, _, holds =>
    within.equality true (within.meaning a) (within.meaning b) _ holds
  | .isIn needle items, _, _, holds => within.isIn needle items (Keeps.refl _) _ holds
  | .compare op a b, _, _, holds =>
    within.comparison op (within.meaning a) (within.meaning b) _ holds
  | .call .isIri argument, _, affirms, holds =>
    within.test (fun r => r.kindTest .iri) rfl argument affirms (within.kindTest_true .iri)
      (kindTest_keeps .iri) holds
  | .call .isBlank argument, _, affirms, holds =>
    within.test (fun r => r.kindTest .blank) rfl argument affirms (within.kindTest_true .blank)
      (kindTest_keeps .blank) holds
  | .call .isLiteral argument, _, affirms, holds =>
    within.test (fun r => r.kindTest .literal) rfl argument affirms (within.kindTest_true .literal)
      (kindTest_keeps .literal) holds
  | .call .isNumeric argument, _, affirms, holds =>
    within.test Reading.numericTest rfl argument affirms within.numericTest_true numericTest_keeps
      holds
  | .const t, _, _, holds => within.truthOf (within.meaning (.const t)) _ holds
  | .var key, _, _, holds => within.truthOf (within.meaning (.var key)) _ holds
  | .call .str argument, _, _, holds =>
    within.truthOf (within.meaning (.call .str argument)) _ holds
  | .call .lang argument, _, _, holds =>
    within.truthOf (within.meaning (.call .lang argument)) _ holds
  | .call .datatype argument, _, _, holds =>
    within.truthOf (within.meaning (.call .datatype argument)) _ holds
  | .call .strLen argument, _, _, holds =>
    within.truthOf (within.meaning (.call .strLen argument)) _ holds

end Reading.Within

end AttestedQuery
