import AttestedQuery.Proofs.Returned

/-!
# Rows that a fragment admits

What a fragment asks of a row, before it is compiled: a quad for each pattern, the value of each
extension, and no keys beyond those that it mentions. The pair of two fragments admits the rows that
two agreeing rows of the fragments make together. For fragments whose extensions are constants and
aliases of paths this is what their branches admit.
-/

set_option autoImplicit false

namespace AttestedQuery

/-! ## Two rows together -/

namespace Row

/-- Two rows have the same terms at the keys that both bind. -/
def Agrees (a b : Row) : Prop :=
  ∀ key x y, a.get? key = some x → b.get? key = some y → x = y

/-- The bindings of two rows together. -/
def plus (a b : Row) : Row :=
  KeyMap.ofList ((a.keys ++ b.keys).map fun key =>
    (key, ((a.get? key).or (b.get? key)).getD default))

theorem get_plus (a b : Row) (key : String) :
    (a.plus b).get? key = (a.get? key).or (b.get? key) := by
  rw [plus, KeyMap.get_ofList_map]
  simp only [List.mem_append, KeyMap.mem_keys_iff]
  cases a.get? key <;> cases b.get? key <;> rfl

theorem within_plus (a b : Row) : a.Within (a.plus b) := by
  intro key value held
  rw [get_plus, held, Option.some_or]

theorem Agrees.symm {a b : Row} (agrees : a.Agrees b) : b.Agrees a :=
  fun key x y first second => (agrees key y x second first).symm

theorem Agrees.within_plus {a b : Row} (agrees : a.Agrees b) : b.Within (a.plus b) := by
  intro key value held
  rw [get_plus]
  cases found : a.get? key with
  | none => exact held
  | some other => rw [agrees key other value found held, Option.some_or]

theorem Agrees.plus_comm {a b : Row} (agrees : a.Agrees b) : a.plus b = b.plus a := by
  apply KeyMap.ext
  intro key
  rw [get_plus, get_plus]
  cases first : a.get? key with
  | none => simp
  | some x =>
    cases second : b.get? key with
    | none => simp
    | some y => rw [agrees key x y first second]

theorem agrees_of_within {a b whole : Row} (left : a.Within whole) (right : b.Within whole) :
    a.Agrees b := by
  intro key x y first second
  exact Option.some.inj ((left key x first).symm.trans (right key y second))

theorem within_insert {row : Row} {key : String} {value : Term}
    (equal : ∀ held, row.get? key = some held → held = value) :
    row.Within (row.insert key value) := by
  intro other held found
  rw [KeyMap.get_insert]
  split
  next same => rw [equal held (same ▸ found)]
  next => exact found

theorem plus_restrict {row : Row} {keep other : String → Bool}
    (all : ∀ key, (row.get? key).isSome → keep key = true ∨ other key = true) :
    Row.plus (row.restrict keep) (row.restrict other) = row := by
  apply KeyMap.ext
  intro key
  rw [get_plus, KeyMap.get_restrict, KeyMap.get_restrict]
  cases held : row.get? key with
  | none => simp
  | some value =>
    rcases all key (by simp [held]) with kept | kept
    · simp [kept]
    · cases keep key <;> simp [kept]

end Row

/-! ## Extensions before compiling -/

/-- An extension by a constant, or the alias of the two ends of a path of length zero. -/
def ScopedExtension.isPlain (x : ScopedExtension) : Bool :=
  match x.value, x.visible with
  | .const _, _ | .var _, none => true
  | _, _ => false

def ScopedExtension.Holds (row : Row) (x : ScopedExtension) : Prop :=
  match x.value with
  | .const term => row.get? x.name = some term
  | .var key => ∃ term, row.get? x.name = some term ∧ row.get? key = some term
  | _ => False

def ScopedExtension.keys (x : ScopedExtension) : List String :=
  match x.value with
  | .var key => [x.name, key]
  | _ => [x.name]

section Extensions

variable {e : Encoder} {t final : Tracing} {x : ScopedExtension} {xs : List ScopedExtension}
  {made : List Extension}

theorem Tracing.extension_plain (plain : x.isPlain = true) {found : Option (Extension × Wire)}
    (traced : t.extension? e x = .ok found) : ∃ extension wire, found = some (extension, wire) ∧
      (∀ row, extension.Holds row ↔ x.Holds row) ∧
      ∀ key, (key = extension.name ∨ (t.sources.get? key).isSome) ↔
        key ∈ x.keys ∨ (t.sources.get? key).isSome := by
  obtain ⟨name, value, visible⟩ := x
  cases value with
  | const term =>
    obtain ⟨code, _, whole⟩ := bind_ok_iff.1 traced
    obtain rfl := pure_ok_iff.1 whole
    refine ⟨_, _, rfl, fun row => ?_, fun key => ?_⟩
    · simp [Extension.Holds, ScopedExtension.Holds, Candidate.sourceOf, eq_comm]
    · simp [ScopedExtension.keys]
  | var other =>
    cases visible with
    | some visible => simp [ScopedExtension.isPlain] at plain
    | none =>
      simp only [extension?] at traced
      split at traced
      next shown => cases shown
      next shown => cases shown
      next source stored _ =>
        obtain rfl := Except.ok.inj traced
        refine ⟨_, _, rfl, fun row => ?_, fun key => ?_⟩
        · simp only [Extension.Holds, ScopedExtension.Holds, Candidate.sourceOf]
          exact exists_congr fun term => and_comm
        · by_cases same : key = other <;> simp [ScopedExtension.keys, same, stored]
      next =>
        split at traced
        next source stored =>
          obtain rfl := Except.ok.inj traced
          refine ⟨_, _, rfl, fun row => Iff.rfl, fun key => ?_⟩
          by_cases same : key = name <;> simp [ScopedExtension.keys, same, stored]
        next => cases traced
  | _ => simp [ScopedExtension.isPlain] at plain

theorem Tracing.Applies.plain (applies : Applies e t xs made final)
    (plain : ∀ x ∈ xs, x.isPlain = true) :
    (∀ row, (∀ x ∈ made, x.Holds row) ↔ ∀ x ∈ xs, x.Holds row) ∧
      ∀ key, (final.sources.get? key).isSome ↔
        (t.sources.get? key).isSome ∨ key ∈ xs.flatMap ScopedExtension.keys := by
  induction applies with
  | done t => simp
  | skip found _ _ =>
    obtain ⟨_, _, impossible, _⟩ := extension_plain (plain _ List.mem_cons_self) found
    cases impossible
  | @make t final x rest extension wire made found _ induction =>
    rw [List.forall_mem_cons] at plain
    obtain ⟨_, _, same, holds, keys⟩ := extension_plain plain.1 found
    obtain ⟨rfl, rfl⟩ := Prod.mk.inj (Option.some.inj same)
    obtain ⟨others, bound⟩ := induction plain.2
    refine ⟨fun row => ?_, fun key => ?_⟩
    · rw [List.forall_mem_cons, List.forall_mem_cons, holds, others]
    · rw [bound, isSome_withKey, keys, List.flatMap_cons, List.mem_append, or_assoc, or_comm,
        or_assoc, or_comm (a := key ∈ rest.flatMap _)]

theorem Tracing.extension_name {extension : Extension} {wire : Wire}
    (traced : t.extension? e x = .ok (some (extension, wire))) : extension.name ∈ x.keys := by
  obtain ⟨name, value, visible⟩ := x
  cases value with
  | const term =>
    obtain ⟨code, _, whole⟩ := bind_ok_iff.1 traced
    obtain ⟨rfl, rfl⟩ := Prod.mk.inj (Option.some.inj (pure_ok_iff.1 whole))
    simp [ScopedExtension.keys]
  | var other =>
    simp only [extension?] at traced
    split at traced
    next =>
      split at traced
      · obtain ⟨rfl, rfl⟩ := Prod.mk.inj (Option.some.inj (Except.ok.inj traced))
        simp [ScopedExtension.keys]
      · cases traced
    next => cases traced
    next =>
      obtain ⟨rfl, rfl⟩ := Prod.mk.inj (Option.some.inj (Except.ok.inj traced))
      simp [ScopedExtension.keys]
    next =>
      split at traced
      · obtain ⟨rfl, rfl⟩ := Prod.mk.inj (Option.some.inj (Except.ok.inj traced))
        simp [ScopedExtension.keys]
      · cases traced
  | _ => cases traced

theorem Tracing.Applies.mentioned (applies : Applies e t xs made final) {key : String}
    (bound : (final.sources.get? key).isSome) :
    (t.sources.get? key).isSome ∨ key ∈ xs.flatMap ScopedExtension.keys := by
  induction applies with
  | done t => exact Or.inl bound
  | skip _ _ induction => exact (induction bound).imp_right (List.mem_append_right _)
  | make found _ induction =>
    rcases induction bound with before | later
    · rcases (isSome_withKey _ _ _ _).1 before with rfl | before
      · exact Or.inr (List.mem_append_left _ (extension_name found))
      · exact Or.inl before
    · exact Or.inr (List.mem_append_right _ later)

end Extensions

/-! ## Admission before compiling -/

namespace Fragment

def mentions (f : Fragment) : List String :=
  f.patterns.flatMap Pattern.keys ++ f.extensions.flatMap ScopedExtension.keys

structure Suits (agrees : Term → Term → Prop) (quads : List Quad) (f : Fragment) (row : Row) :
    Prop where
  fits : ∀ p ∈ f.patterns, ∃ quad ∈ quads, p.Fits agrees row quad
  extended : ∀ x ∈ f.extensions, x.Holds row

/-- A row that suits a fragment and binds exactly its keys. -/
structure Admits (agrees : Term → Term → Prop) (quads : List Quad) (f : Fragment) (row : Row) :
    Prop where
  suits : f.Suits agrees quads row
  bound : ∀ key, (row.get? key).isSome ↔ key ∈ f.mentions

section Admission

variable {agrees : Term → Term → Prop} {quads : List Quad} {f : Fragment} {row other : Row}

theorem Suits.congr (suits : f.Suits agrees quads row)
    (same : ∀ key ∈ f.mentions, other.get? key = row.get? key) : f.Suits agrees quads other where
  fits p member := by
    obtain ⟨quad, inside, fits⟩ := suits.fits p member
    refine ⟨quad, inside, fits.mono fun key keyed => same key ?_⟩
    exact List.mem_append_left _ (List.mem_flatMap.2 ⟨p, member, keyed⟩)
  extended x member := by
    have holds := suits.extended x member
    have here {key : String} (about : key ∈ x.keys) : other.get? key = row.get? key :=
      same key (List.mem_append_right _ (List.mem_flatMap.2 ⟨x, member, about⟩))
    obtain ⟨name, value, visible⟩ := x
    cases value with
    | const term => exact (here (by simp [ScopedExtension.keys])).trans holds
    | var key =>
      obtain ⟨term, first, second⟩ := holds
      exact ⟨term, (here (by simp [ScopedExtension.keys])).trans first,
        (here (by simp [ScopedExtension.keys])).trans second⟩
    | _ => exact holds

theorem Suits.isSome (suits : f.Suits agrees quads row) {key : String} (member : key ∈ f.mentions) :
    (row.get? key).isSome := by
  rcases List.mem_append.1 member with member | member
  · obtain ⟨p, inside, keyed⟩ := List.mem_flatMap.1 member
    obtain ⟨quad, _, fits⟩ := suits.fits p inside
    obtain ⟨position, term, asked, named⟩ := (p.mem_keys_iff key).1 keyed
    rw [fits.key position term key asked named, QuadOf.get_isSome_iff _ p.positions, asked]
    rfl
  · obtain ⟨⟨name, value, visible⟩, inside, about⟩ := List.mem_flatMap.1 member
    have holds := suits.extended _ inside
    cases value with
    | const term =>
      obtain rfl : key = name := by simpa [ScopedExtension.keys] using about
      exact Option.isSome_iff_exists.2 ⟨term, holds⟩
    | var other =>
      obtain ⟨term, first, second⟩ := holds
      rcases (by simpa [ScopedExtension.keys] using about : key = name ∨ key = other) with rfl | rfl
      · exact Option.isSome_iff_exists.2 ⟨term, first⟩
      · exact Option.isSome_iff_exists.2 ⟨term, second⟩
    | _ => exact holds.elim

/-- The part of a row that binds the keys of a fragment. -/
def part (f : Fragment) (row : Row) : Row := row.restrict f.mentions.contains

theorem get_part {key : String} (member : key ∈ f.mentions) :
    (f.part row).get? key = row.get? key := by
  rw [part, KeyMap.get_restrict, if_pos (List.contains_iff_mem.2 member)]

theorem part_within : (f.part row).Within row := Row.restrict_within row _

theorem admits_part_iff : f.Admits agrees quads (f.part row) ↔ f.Suits agrees quads row := by
  constructor
  · intro admits
    exact admits.suits.congr fun key member => (get_part member).symm
  · intro suits
    refine ⟨suits.congr fun key member => get_part member, fun key => ?_⟩
    rw [part, KeyMap.get_restrict]
    by_cases member : key ∈ f.mentions
    · simpa [member] using suits.isSome member
    · simp [member]

theorem Admits.suits_within (admits : f.Admits agrees quads row) (within : row.Within other) :
    f.Suits agrees quads other := by
  refine admits.suits.congr fun key member => ?_
  obtain ⟨value, held⟩ := Option.isSome_iff_exists.1 ((admits.bound key).2 member)
  rw [held, within key value held]

/-! ## Pairs -/

section Pairs

variable {a b : Fragment} {i j width : Nat}

theorem mem_mentions_paired {key : String} :
    key ∈ (paired width i j a b).mentions ↔ key ∈ a.mentions ∨ key ∈ b.mentions := by
  simp only [mentions, paired, List.flatMap_append, List.mem_append]
  tauto

theorem suits_paired_iff : (paired width i j a b).Suits agrees quads row ↔
    a.Suits agrees quads row ∧ b.Suits agrees quads row := by
  constructor
  · intro ⟨fits, extended⟩
    exact ⟨⟨fun p member => fits p (List.mem_append_left _ member),
        fun x member => extended x (List.mem_append_left _ member)⟩,
      ⟨fun p member => fits p (List.mem_append_right _ member),
        fun x member => extended x (List.mem_append_right _ member)⟩⟩
  · rintro ⟨first, second⟩
    refine ⟨fun p member => ?_, fun x member => ?_⟩
    · exact (List.mem_append.1 member).elim (first.fits p) (second.fits p)
    · exact (List.mem_append.1 member).elim (first.extended x) (second.extended x)

theorem admits_paired_iff : (paired width i j a b).Admits agrees quads row ↔
    ∃ left right, a.Admits agrees quads left ∧ b.Admits agrees quads right ∧
      left.Agrees right ∧ row = left.plus right := by
  constructor
  · rintro ⟨suits, bound⟩
    obtain ⟨first, second⟩ := suits_paired_iff.1 suits
    refine ⟨a.part row, b.part row, admits_part_iff.2 first, admits_part_iff.2 second,
      Row.agrees_of_within part_within part_within, (Row.plus_restrict fun key held => ?_).symm⟩
    simpa using mem_mentions_paired.1 ((bound key).1 held)
  · rintro ⟨left, right, first, second, agree, rfl⟩
    refine ⟨suits_paired_iff.2 ⟨first.suits_within (left.within_plus right),
      second.suits_within agree.within_plus⟩, fun key => ?_⟩
    rw [Row.get_plus, mem_mentions_paired, ← first.bound, ← second.bound]
    cases left.get? key <;> simp

end Pairs

end Admission

/-! ## Admission by the branch of a fragment -/

def IsPlain (f : Fragment) : Prop := ∀ x ∈ f.extensions, x.isPlain = true

theorem admits_branch_iff {d : Dataset} {e : Encoder} {f : Fragment} {b : Branch}
    {start final : Tracing} (applies : b.Applies e f start final) (plain : f.IsPlain) (row : Row) :
    b.Admits d e row ↔ f.Admits e.SameCode d.quads row := by
  obtain ⟨holds, bound⟩ := applies.extensions.plain plain
  have keys (key : String) : b.bound.contains key = true ↔ key ∈ f.mentions := by
    rw [applies.bound, bound, Tracing.isSome_ofPatterns applies.traced, mentions, List.mem_append,
      List.mem_flatMap (l := f.patterns)]
  constructor
  · intro admits
    refine ⟨⟨fun p member => admits.fits p (applies.patterns ▸ member),
      (holds row).1 admits.extended⟩, fun key => ?_⟩
    rw [admits.bound, keys]
  · rintro ⟨suits, mentioned⟩
    refine ⟨fun p member => suits.fits p (applies.patterns ▸ member),
      (holds row).2 suits.extended, fun key => ?_⟩
    rw [Bool.eq_iff_iff, mentioned, keys]

theorem mentions_of_bound {e : Encoder} {f : Fragment} {b : Branch} {start final : Tracing}
    (applies : b.Applies e f start final) {key : String} (bound : b.bound.contains key = true) :
    key ∈ f.mentions := by
  rw [applies.bound] at bound
  rcases applies.extensions.mentioned bound with pattern | extension
  · refine List.mem_append_left _ (List.mem_flatMap.2 ?_)
    exact (Tracing.isSome_ofPatterns applies.traced key).1 pattern
  · exact List.mem_append_right _ extension

end Fragment

end AttestedQuery
