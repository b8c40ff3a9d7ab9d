import AttestedQuery.Algebra.OfQuery
import AttestedQuery.Proofs.Solutions
import Mathlib.Logic.Relation

/-!
# Algebras that link two ends

An algebra between two ends links the terms that its solutions give them. Besides the ends it only
binds path variables, numbered within bounds; so algebras that share one path variable join into the
composition of what they link, and united ones link what any of them does.
-/

set_option autoImplicit false

namespace AttestedQuery

open AttestedQuery.Normal (pathVariable zeroSteps)

/-! ## Ends -/

namespace PatternTerm

def Takes (row : Row) (t : PatternTerm) (x : Term) : Prop :=
  match t.key? with
  | some key => row.get? key = some x
  | none => t = .const x

/-- A constant only allows itself. -/
def Allows (t : PatternTerm) (x : Term) : Prop := ∀ term, t = .const term → term = x

/-- Two ends that are not one key. -/
def Apart (s o : PatternTerm) : Prop := ∀ key, s.key? = some key → o.key? ≠ some key

variable {row other : Row} {t s o : PatternTerm} {x y : Term}

theorem Takes.allows (takes : t.Takes row x) : t.Allows x := by
  rintro term rfl
  exact PatternTerm.const.inj takes

theorem Takes.within (takes : t.Takes row x) (within : row.Within other) : t.Takes other x := by
  unfold Takes at takes ⊢
  split
  next key named =>
    rw [named] at takes
    exact within key x takes
  next unnamed =>
    rw [unnamed] at takes
    exact takes

theorem Apart.symm (apart : s.Apart o) : o.Apart s :=
  fun key first second => apart key second first

/-- The row that gives two ends their terms, and binds nothing else. -/
def rowOf (s o : PatternTerm) (x y : Term) : Row :=
  withEnd s x (withEnd o y KeyMap.empty)
where
  withEnd (t : PatternTerm) (x : Term) (row : Row) : Row :=
    match t.key? with
    | some key => row.insert key x
    | none => row

theorem get_withEnd (t : PatternTerm) (x : Term) (row : Row) (key : String) :
    (rowOf.withEnd t x row).get? key = if t.key? = some key then some x else row.get? key := by
  unfold rowOf.withEnd
  split
  next own named => simp only [named, KeyMap.get_insert, Option.some.injEq, eq_comm]
  next unnamed => simp [unnamed]

theorem get_rowOf (s o : PatternTerm) (x y : Term) (key : String) :
    (s.rowOf o x y).get? key =
      if s.key? = some key then some x else if o.key? = some key then some y else none := by
  rw [rowOf, get_withEnd, get_withEnd]
  rfl

theorem takes_iff {key : String} (named : t.key? = some key) :
    t.Takes row x ↔ row.get? key = some x := by
  rw [Takes, named]

theorem exists_const (unnamed : t.key? = none) : ∃ term, t = .const term := by
  cases t with
  | const term => exact ⟨term, rfl⟩
  | _ => simp [key?] at unnamed

theorem takes_of_get (allows : t.Allows x)
    (held : ∀ key, t.key? = some key → row.get? key = some x) : t.Takes row x := by
  unfold Takes
  split
  next key named => exact held key named
  next unnamed =>
    obtain ⟨term, rfl⟩ := exists_const unnamed
    rw [allows term rfl]

theorem Fits.takes (fits : t.Fits Eq row x) : t.Takes row x := takes_of_get fits.1 fits.2

theorem Takes.fits (takes : t.Takes row x) : t.Fits Eq row x :=
  ⟨takes.allows, fun _ named => (takes_iff named).1 takes⟩

theorem takes_rowOf (apart : s.Apart o) (allowsS : s.Allows x) (allowsO : o.Allows y) :
    s.Takes (s.rowOf o x y) x ∧ o.Takes (s.rowOf o x y) y := by
  refine ⟨takes_of_get allowsS fun key named => ?_, takes_of_get allowsO fun key named => ?_⟩
  · rw [get_rowOf, if_pos named]
  · rw [get_rowOf, if_neg fun first => apart key first named, if_pos named]

end PatternTerm

/-! ## Path variables -/

def PatternTerm.middle (n : Nat) : PatternTerm := .var (pathKey n)

theorem pathKey_inj {n m : Nat} (same : pathKey n = pathKey m) : n = m := by
  have digits : Nat.toDigits 10 n = Nat.toDigits 10 m := by
    have lists := congrArg String.toList same
    have natural (k : Nat) : ¬ (k : Int) < 0 := by omega
    simpa [pathKey, Decimal.textOfInt, Decimal.ofInt, Decimal.ofNat, natural] using lists
  have values := congrArg (Nat.ofDigitChars 10 · 0) digits
  simpa [Nat.ofDigitChars_toDigits] using values

theorem isUserKey_pathKey (n : Nat) : isUserKey (pathKey n) = false := by
  simp [isUserKey, pathKey, pathVariableLead, Text.afterPart]

theorem pathVariable_ok {names after : Normal.Names} {t : PatternTerm}
    (made : pathVariable pathKey names = .ok (t, after)) :
    t = .middle names.paths ∧ after = { names with paths := names.paths + 1 } := by
  obtain ⟨rfl, rfl⟩ := Prod.mk.inj (Except.ok.inj made)
  exact ⟨rfl, rfl⟩

/-- An end that is no path variable with a number from some bound on. -/
def PatternTerm.Before (t : PatternTerm) (n : Nat) : Prop :=
  ∀ i, n ≤ i → t.key? ≠ some (pathKey i)

theorem PatternTerm.Before.mono {t : PatternTerm} {n m : Nat} (before : t.Before n) (le : n ≤ m) :
    t.Before m := fun i bound => before i (le.trans bound)

theorem PatternTerm.Before.apart {t : PatternTerm} {n j : Nat} (before : t.Before n) (le : n ≤ j) :
    t.Apart (.middle j) :=
  fun _ first second => before j le (first.trans second.symm)

theorem PatternTerm.middle_before {n m : Nat} (below : n < m) : (middle n).Before m := by
  intro i bound same
  have := pathKey_inj (Option.some.inj same)
  omega

/-! ## Links -/

namespace Algebra

/-- An algebra whose solutions give two ends related terms. The path variables that it binds have
numbers within bounds. -/
structure Links (quads : List Quad) (low high : Nat) (s o : PatternTerm)
    (r : Term → Term → Prop) (a : Algebra) : Prop where
  positive : a.Positive
  keys : ∀ key ∈ a.keys, s.key? = some key ∨ o.key? = some key ∨
    ∃ i, low ≤ i ∧ i < high ∧ key = pathKey i
  sound : ∀ row, a.Solves Eq quads row → ∃ x y, r x y ∧ s.Takes row x ∧ o.Takes row y
  complete : ∀ x y, r x y → s.Allows x → o.Allows y →
    ∃ row, a.Solves Eq quads row ∧ s.Takes row x ∧ o.Takes row y

namespace Links

variable {quads : List Quad} {low high n m j : Nat} {s o : PatternTerm} {r q : Term → Term → Prop}
  {a b : Algebra}

theorem mono (links : Links quads n m s o r a) (lower : low ≤ n) (upper : m ≤ high) :
    Links quads low high s o r a where
  positive := links.positive
  keys key member := by
    refine (links.keys key member).imp_right fun either => either.imp_right ?_
    rintro ⟨i, from_, below, same⟩
    exact ⟨i, lower.trans from_, below.trans_le upper, same⟩
  sound := links.sound
  complete := links.complete

theorem swap (links : Links quads low high o s r a) :
    Links quads low high s o (fun x y => r y x) a where
  positive := links.positive
  keys key member := by
    rcases links.keys key member with first | second | inner
    · exact Or.inr (Or.inl first)
    · exact Or.inl second
    · exact Or.inr (Or.inr inner)
  sound row solves := by
    obtain ⟨y, x, related, first, second⟩ := links.sound row solves
    exact ⟨x, y, related, second, first⟩
  complete x y related allowsS allowsO := by
    obtain ⟨row, solves, first, second⟩ := links.complete y x related allowsO allowsS
    exact ⟨row, solves, second, first⟩

theorem congr (links : Links quads low high s o q a) (same : ∀ x y, q x y ↔ r x y) :
    Links quads low high s o r a := by
  obtain rfl : q = r := by
    funext x y
    exact propext (same x y)
  exact links

/-- Algebras that share a path variable join into one that links by composition. -/
theorem joined (first : Links quads low m s (.middle j) r a)
    (second : Links quads m high (.middle j) o q b) (lower : low ≤ j) (upper : j < m)
    (order : m ≤ high) (apart : s.Apart o)
    (sBefore : ∀ i, m ≤ i → i < high → s.key? ≠ some (pathKey i))
    (oBefore : ∀ i, low ≤ i → i < m → o.key? ≠ some (pathKey i)) :
    Links quads low high s o (Relation.Comp r q) (a.joined b) where
  positive := first.positive.joined second.positive
  keys key member := by
    have shared (named : (PatternTerm.middle j).key? = some key) :
        ∃ i, low ≤ i ∧ i < high ∧ key = pathKey i :=
      ⟨j, lower, upper.trans_le order, (Option.some.inj named).symm⟩
    rcases mem_keys_joined.1 member with inside | inside
    · rcases first.keys key inside with here | named | ⟨i, from_, below, same⟩
      · exact Or.inl here
      · exact Or.inr (Or.inr (shared named))
      · exact Or.inr (Or.inr ⟨i, from_, below.trans_le order, same⟩)
    · rcases second.keys key inside with named | here | ⟨i, from_, below, same⟩
      · exact Or.inr (Or.inr (shared named))
      · exact Or.inr (Or.inl here)
      · exact Or.inr (Or.inr ⟨i, (lower.trans upper.le).trans from_, below, same⟩)
  sound row solves := by
    obtain ⟨left, right, solvesA, solvesB, agree, rfl⟩ :=
      solves_join_iff.1 (solves_joined_iff.1 solves)
    obtain ⟨x, z, related, takesX, takesZ⟩ := first.sound left solvesA
    obtain ⟨z', y, related', takesZ', takesY⟩ := second.sound right solvesB
    obtain rfl : z = z' := agree (pathKey j) z z' takesZ takesZ'
    exact ⟨x, y, ⟨z, related, related'⟩, takesX.within (left.within_plus right),
      takesY.within agree.within_plus⟩
  complete x y related allowsS allowsO := by
    obtain ⟨z, related, related'⟩ := related
    have free : (PatternTerm.middle j).Allows z := fun term impossible => by cases impossible
    obtain ⟨left, solvesA, takesX, takesZ⟩ := first.complete x z related allowsS free
    obtain ⟨right, solvesB, takesZ', takesY⟩ := second.complete z y related' free allowsO
    -- The path variable is the only key that both rows bind.
    have agree : left.Agrees right := by
      intro key u v here there
      have middle (named : (PatternTerm.middle j).key? = some key) : u = v := by
        obtain rfl := Option.some.inj named
        exact Option.some.inj
          ((here.symm.trans takesZ).trans (there.symm.trans takesZ').symm)
      have inA := first.keys key (solvesA.mem_keys (by simp [here]))
      have inB := second.keys key (solvesB.mem_keys (by simp [there]))
      rcases inA with inS | named | ⟨i, from_, below, rfl⟩
      · rcases inB with named | inO | ⟨i, from_, below, rfl⟩
        · exact middle named
        · exact absurd inO (apart key inS)
        · exact absurd inS (sBefore i from_ below)
      · exact middle named
      · rcases inB with named | inO | ⟨k, from', _, same⟩
        · exact middle named
        · exact absurd inO (oBefore i from_ below)
        · have := pathKey_inj same
          omega
    exact ⟨_, solves_joined_iff.2 (.join solvesA solvesB agree),
      takesX.within (left.within_plus right), takesY.within agree.within_plus⟩

/-- Algebras that link two ends taken together: each by a part of a relation, and all of it between
them. -/
structure Jointly (quads : List Quad) (low high : Nat) (s o : PatternTerm)
    (r : Term → Term → Prop) (parts : List Algebra) : Prop where
  each : ∀ a ∈ parts, ∃ q, Links quads low high s o q a ∧ ∀ x y, q x y → r x y
  all : ∀ x y, r x y → s.Allows x → o.Allows y →
    ∃ a ∈ parts, ∃ q, Links quads low high s o q a ∧ q x y

theorem alone (links : Links quads low high s o r a) : Jointly quads low high s o r [a] where
  each part member := by
    obtain rfl := List.mem_singleton.1 member
    exact ⟨r, links, fun _ _ => id⟩
  all _ _ related _ _ := ⟨a, List.mem_singleton.2 rfl, r, links, related⟩

namespace Jointly

variable {parts others : List Algebra}

theorem mono (jointly : Jointly quads n m s o r parts) (lower : low ≤ n) (upper : m ≤ high) :
    Jointly quads low high s o r parts where
  each part member := by
    obtain ⟨q, links, included⟩ := jointly.each part member
    exact ⟨q, links.mono lower upper, included⟩
  all x y related allowsS allowsO := by
    obtain ⟨part, member, q, links, holds⟩ := jointly.all x y related allowsS allowsO
    exact ⟨part, member, q, links.mono lower upper, holds⟩

theorem append (first : Jointly quads low high s o r parts)
    (second : Jointly quads low high s o q others) :
    Jointly quads low high s o (fun x y => r x y ∨ q x y) (parts ++ others) where
  each part member := by
    rcases List.mem_append.1 member with inside | inside
    · obtain ⟨p, links, included⟩ := first.each part inside
      exact ⟨p, links, fun x y holds => Or.inl (included x y holds)⟩
    · obtain ⟨p, links, included⟩ := second.each part inside
      exact ⟨p, links, fun x y holds => Or.inr (included x y holds)⟩
  all x y related allowsS allowsO := by
    rcases related with related | related
    · obtain ⟨part, member, linked⟩ := first.all x y related allowsS allowsO
      exact ⟨part, List.mem_append_left _ member, linked⟩
    · obtain ⟨part, member, linked⟩ := second.all x y related allowsS allowsO
      exact ⟨part, List.mem_append_right _ member, linked⟩

theorem united (jointly : Jointly quads low high s o r parts) :
    Links quads low high s o r (united parts) where
  positive := Positive.united fun a member => by
    obtain ⟨_, links, _⟩ := jointly.each a member
    exact links.positive
  keys key member := by
    obtain ⟨a, inside, member⟩ := mem_keys_united.1 member
    obtain ⟨_, links, _⟩ := jointly.each a inside
    exact links.keys key member
  sound row solves := by
    obtain ⟨a, inside, solves⟩ := solves_united_iff.1 solves
    obtain ⟨_, links, included⟩ := jointly.each a inside
    obtain ⟨x, y, related, takes⟩ := links.sound row solves
    exact ⟨x, y, included x y related, takes⟩
  complete x y related allowsS allowsO := by
    obtain ⟨a, inside, q, links, related⟩ := jointly.all x y related allowsS allowsO
    obtain ⟨row, solves, takes⟩ := links.complete x y related allowsS allowsO
    exact ⟨row, solves_united_iff.2 ⟨a, inside, solves⟩, takes⟩

end Jointly

theorem predicate (iri : String) (n : Nat) (apart : s.Apart o) : Links quads n n s o
    (fun x y => ∃ quad ∈ quads, quad.subject = x ∧ quad.predicate = .iri iri ∧ quad.object = y)
    (.bgp [⟨s, .const (.iri iri), o, none⟩]) := by
  have keyed (key : String) :
      key ∈ Pattern.keys ⟨s, .const (.iri iri), o, none⟩ ↔
        s.key? = some key ∨ o.key? = some key := by
    simp [Pattern.keys, Pattern.positions, QuadOf.toList, PatternTerm.key?]
  constructor
  · exact .bgp _
  · intro key member
    rw [Algebra.keys, List.flatMap_singleton] at member
    exact ((keyed key).1 member).imp_right Or.inl
  · intro row solves
    cases solves with
    | bgp fits _ =>
      obtain ⟨quad, stored, fits⟩ := fits _ List.mem_cons_self
      obtain ⟨subject, named, object, _⟩ := Pattern.fits_iff.1 fits
      have same : quad.predicate = .iri iri := (PatternTerm.fits_const_iff.1 named).symm
      exact ⟨quad.subject, quad.object, ⟨quad, stored, rfl, same, rfl⟩, subject.takes,
        object.takes⟩
  · rintro x y ⟨quad, stored, rfl, same, rfl⟩ allowsS allowsO
    obtain ⟨takesS, takesO⟩ := PatternTerm.takes_rowOf apart allowsS allowsO
    refine ⟨_, .bgp ?_ fun key => ?_, takesS, takesO⟩
    · intro p member
      obtain rfl := List.mem_singleton.1 member
      exact ⟨quad, stored, Pattern.fits_iff.2 ⟨takesS.fits, PatternTerm.fits_const_iff.2 same.symm,
        takesO.fits, by simp⟩⟩
    · rw [PatternTerm.get_rowOf]
      simp only [List.mem_singleton, exists_eq_left, keyed]
      by_cases first : s.key? = some key <;> by_cases second : o.key? = some key <;>
        simp [first, second]

/-! ## Paths of length zero -/

theorem solves_empty {agrees : Term → Term → Prop} {row : Row} :
    Algebra.empty.Solves agrees quads row ↔ row = KeyMap.empty := by
  rw [Algebra.empty, solves_bgp_iff]
  constructor
  · intro admits
    apply KeyMap.ext
    intro key
    rw [KeyMap.get_empty, ← Option.not_isSome_iff_eq_none, admits.bound]
    simp [Fragment.mentions, Fragment.ofPatterns]
  · rintro rfl
    refine ⟨⟨by simp [Fragment.ofPatterns], by simp [Fragment.ofPatterns]⟩, fun key => ?_⟩
    simp [Fragment.mentions, Fragment.ofPatterns, KeyMap.get_empty]

theorem linked_key {source target : String} (named : s.key? = some source) :
    zeroSteps.linked target s = .extend true target (.var source) .empty := by
  cases s with
  | const term => cases named
  | _ => rw [← Option.some.inj named]; rfl

theorem constant (term : Term) {key : String} (named : o.key? = some key) (n : Nat) :
    Links quads n n (.const term) o Eq (.extend true key (.const term) .empty) where
  positive := .extend true key term (.bgp [])
  keys other member := by
    have same : other = key := by
      simpa [Algebra.keys, ScopedExtension.keys, Algebra.empty] using member
    exact Or.inr (Or.inl (same ▸ named))
  sound row solves := by
    cases solves with
    | extend _ _ =>
      exact ⟨term, term, rfl, rfl,
        (PatternTerm.takes_iff named).2 (KeyMap.get_insert_same _ key term)⟩
  complete x y same allowsS allowsO := by
    obtain rfl := same
    obtain rfl := allowsS term rfl
    exact ⟨_, .extend (solves_empty.2 rfl) (by simp [KeyMap.get_empty]), rfl,
      (PatternTerm.takes_iff named).2 (KeyMap.get_insert_same _ key term)⟩

theorem aliased (apart : s.Apart o) {source target : String} (namedS : s.key? = some source)
    (namedO : o.key? = some target) (n : Nat) :
    Links quads n n s o Eq (.extend true target (.var source) .empty) := by
  have takes (row : Row) (term : Term) :
      s.Takes ((row.insert target term).insert source term) term ∧
        o.Takes ((row.insert target term).insert source term) term := by
    have different : target ≠ source := fun same => apart source namedS (same ▸ namedO)
    refine ⟨(PatternTerm.takes_iff namedS).2 (KeyMap.get_insert_same _ source term),
      (PatternTerm.takes_iff namedO).2 ?_⟩
    rw [KeyMap.get_insert_other term different, KeyMap.get_insert_same]
  constructor
  · exact .link target source (.bgp [])
  · intro other member
    have either : other = target ∨ other = source := by
      simpa [Algebra.keys, ScopedExtension.keys, Algebra.empty] using member
    rcases either with rfl | rfl
    · exact Or.inr (Or.inl namedO)
    · exact Or.inl namedS
  · intro row solves
    cases solves with
    | @link _ inner _ _ term _ _ _ => exact ⟨term, term, rfl, takes inner term⟩
  · rintro x _ rfl _ _
    exact ⟨_, .link (solves_empty.2 rfl) (by simp [KeyMap.get_empty]) (by simp [KeyMap.get_empty]),
      takes KeyMap.empty x⟩

/-- The path of length zero links equal terms. -/
theorem zero (apart : s.Apart o) (n : Nat) (zero : zeroSteps s o = some a) :
    Links quads n n s o Eq a := by
  unfold zeroSteps at zero
  split at zero
  next unnamedS unnamedO =>
    obtain ⟨first, rfl⟩ := PatternTerm.exists_const unnamedS
    obtain ⟨second, rfl⟩ := PatternTerm.exists_const unnamedO
    obtain ⟨same, whole⟩ := Option.ite_none_right_eq_some.1 zero
    obtain rfl := PatternTerm.const.inj same
    obtain rfl := Option.some.inj whole
    refine ⟨.bgp [], by simp [Algebra.keys, Algebra.empty], fun row _ => ?_, ?_⟩
    · exact ⟨first, first, rfl, rfl, rfl⟩
    · rintro x _ rfl allows _
      obtain rfl := allows first rfl
      exact ⟨_, solves_empty.2 rfl, rfl, rfl⟩
  next target unnamedS named =>
    obtain ⟨term, rfl⟩ := PatternTerm.exists_const unnamedS
    obtain rfl := Option.some.inj zero
    exact constant term named n
  next target named unnamedO =>
    obtain ⟨term, rfl⟩ := PatternTerm.exists_const unnamedO
    obtain rfl := Option.some.inj zero
    refine (constant term named n).swap.congr fun x y => ?_
    exact eq_comm
  next source target namedS namedO =>
    split at zero
    next same => exact absurd (same ▸ namedO) (apart source namedS)
    next =>
      obtain rfl := Option.some.inj zero
      rw [linked_key namedS]
      exact aliased apart namedS namedO n

/-- There is a path of length zero wherever both ends allow one term. -/
theorem exists_zero {x : Term} (allowsS : s.Allows x) (allowsO : o.Allows x) :
    ∃ a, zeroSteps s o = some a := by
  unfold zeroSteps
  split
  next unnamedS unnamedO =>
    obtain ⟨first, rfl⟩ := PatternTerm.exists_const unnamedS
    obtain ⟨second, rfl⟩ := PatternTerm.exists_const unnamedO
    exact ⟨_, if_pos (by rw [allowsS first rfl, allowsO second rfl])⟩
  next => exact ⟨_, rfl⟩
  next => exact ⟨_, rfl⟩
  next =>
    split
    next => exact ⟨_, rfl⟩
    next => exact ⟨_, rfl⟩

/-- Equal terms are linked by the path of length zero, where there is one. -/
theorem jointly_zero (apart : s.Apart o) (n : Nat) :
    Jointly quads n n s o Eq (zeroSteps s o).toList where
  each part member := ⟨Eq, zero apart n (Option.mem_toList.1 member), fun _ _ => id⟩
  all x y same allowsS allowsO := by
    obtain rfl := same
    obtain ⟨part, made⟩ := exists_zero allowsS allowsO
    exact ⟨part, Option.mem_toList.2 made, Eq, zero apart n made, rfl⟩

end Links

end Algebra

end AttestedQuery
