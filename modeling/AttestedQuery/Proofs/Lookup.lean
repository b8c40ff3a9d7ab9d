import AttestedQuery.Dataset.Index
import Mathlib.Data.List.Basic

/-!
# What a lookup finds

The lists of an index hold exactly the quads with a value at a position, so that a lookup finds
the quads that agree with all fixed positions, whichever of the lists it takes.
-/

set_option autoImplicit false

namespace AttestedQuery

namespace QuadOf

variable {α β : Type}

@[simp] theorem get_map (q : QuadOf α) (f : α → β) (position : Nat) :
    (q.map f).get? position = (q.get? position).map f := by
  match position with
  | 0 | 1 | 2 | 3 => rfl
  | _ + 4 => rfl

theorem get_zip (q : QuadOf α) (r : QuadOf β) (position : Nat) :
    (q.zip r).get? position =
      (q.get? position).bind fun x => (r.get? position).map fun y => (x, y) := by
  match position with
  | 0 | 1 | 2 | 3 => rfl
  | _ + 4 => rfl

theorem toList_getElem (q : QuadOf α) (position : Nat) :
    q.toList[position]? = q.get? position := by
  match position with
  | 0 | 1 | 2 | 3 => rfl
  | _ + 4 => rfl

theorem mem_toList_iff (q : QuadOf α) (x : α) :
    x ∈ q.toList ↔ ∃ position, q.get? position = some x := by
  rw [List.mem_iff_getElem?]
  simp only [toList_getElem]

theorem get_eq_some_iff {q : QuadOf α} {position : Nat} {x : α} :
    q.get? position = some x ↔ position = 0 ∧ q.subject = x ∨ position = 1 ∧ q.predicate = x ∨
      position = 2 ∧ q.object = x ∨ position = 3 ∧ q.graph = x := by
  rcases position with _ | _ | _ | _ | position <;> simp [get?]

theorem get_isSome_iff (q : QuadOf α) (r : QuadOf β) (position : Nat) :
    (q.get? position).isSome = (r.get? position).isSome := by
  match position with
  | 0 | 1 | 2 | 3 => rfl
  | _ + 4 => rfl

end QuadOf

namespace Dataset

theorem getD_addPosting (postings : Postings) (value other : Field) (index : Nat) :
    (addPosting postings value index).getD other [] =
      postings.getD other [] ++ if value = other then [index] else [] := by
  rw [addPosting, Std.HashMap.getD_insert]
  by_cases same : value = other
  · simp [same]
  · simp [same]

namespace Index

def listed (rows : List (QuadOf Field × Nat)) (position : Nat) (value : Field) : List Nat :=
  rows.flatMap fun (codes, index) => if codes.get? position = some value then [index] else []

theorem getD_foldl_addQuad {rows : List (QuadOf Field × Nat)} {start : QuadOf Postings}
    {position : Nat} {before after : Postings} (first : start.get? position = some before)
    (last : (rows.foldl addQuad start).get? position = some after) (value : Field) :
    after.getD value [] = before.getD value [] ++ listed rows position value := by
  induction rows generalizing start before with
  | nil =>
    obtain rfl : before = after := Option.some.inj (first.symm.trans last)
    simp [listed]
  | cons row rest induction =>
    obtain ⟨codes, index⟩ := row
    cases code : codes.get? position with
    | none =>
      have absent := QuadOf.get_isSome_iff start codes position
      simp [first, code] at absent
    | some x =>
      have next : (addQuad start (codes, index)).get? position = some (addPosting before x index) := by
        simp [addQuad, QuadOf.get_zip, first, code]
      rw [List.foldl_cons] at last
      rw [induction next last, getD_addPosting, List.append_assoc]
      simp [listed, code]

theorem getD_postings {d : Dataset} {position : Nat} {postings : Postings}
    (found : (ofDataset d).postings.get? position = some postings) (value : Field) :
    postings.getD value [] = listed d.encoded.zipIdx position value := by
  have start : ∃ before : Postings, (⟨{}, {}, {}, {}⟩ : QuadOf Postings).get? position = some before ∧
      before.getD value [] = [] := by
    match position, found with
    | 0, _ | 1, _ | 2, _ | 3, _ => exact ⟨_, rfl, Std.HashMap.getD_empty⟩
  obtain ⟨before, first, none⟩ := start
  rw [getD_foldl_addQuad first found value, none, List.nil_append]

theorem listed_sublist (rows : List (QuadOf Field × Nat)) (position : Nat) (value : Field) :
    (listed rows position value).Sublist (rows.map (·.2)) := by
  induction rows with
  | nil => exact List.Sublist.slnil
  | cons row rest induction =>
    by_cases holds : row.1.get? position = some value
    · simpa [listed, holds] using induction.cons_cons row.2
    · simpa [listed, holds] using induction.cons row.2

theorem mem_postings_iff {d : Dataset} {position : Nat} {postings : Postings}
    (found : (ofDataset d).postings.get? position = some postings) (value : Field) (i : Nat) :
    i ∈ postings.getD value [] ↔
      ∃ codes, d.encoded[i]? = some codes ∧ codes.get? position = some value := by
  rw [getD_postings found]
  simp only [listed, List.mem_flatMap, Prod.exists]
  constructor
  · rintro ⟨codes, index, member, inside⟩
    split at inside
    next holds =>
      obtain rfl := List.mem_singleton.1 inside
      exact ⟨codes, List.mem_zipIdx_iff_getElem?.1 member, holds⟩
    next => simp at inside
  · rintro ⟨codes, stored, holds⟩
    exact ⟨codes, i, List.mem_zipIdx_iff_getElem?.2 stored, by simp [holds]⟩

theorem agrees_iff (fixed : QuadOf (Option Field)) (codes : QuadOf Field) :
    agrees fixed codes = true ↔ ∀ position value, fixed.get? position = some (some value) →
      codes.get? position = some value := by
  simp only [agrees, List.all_eq_true, Prod.forall, QuadOf.mem_toList_iff, QuadOf.get_zip,
    Option.bind_eq_some_iff, Option.map_eq_some_iff, Prod.mk.injEq, Option.all_eq_true,
    beq_iff_eq]
  constructor
  · intro each position value wanted
    cases held : codes.get? position with
    | none =>
      have absent := QuadOf.get_isSome_iff fixed codes position
      simp [wanted, held] at absent
    | some code =>
      rw [each (some value) code ⟨position, some value, wanted, code, held, rfl, rfl⟩ value rfl]
  · rintro each want held ⟨position, _, wanted, _, found, rfl, rfl⟩ value rfl
    exact Option.some.inj ((each position value wanted).symm.trans found)

theorem shortest_mem {lists : List (List Nat)} {list : List Nat}
    (found : shortest lists = some list) : list ∈ lists := by
  induction lists generalizing list with
  | nil => simp [shortest] at found
  | cons first rest induction =>
    rw [shortest] at found
    split at found
    next => simp_all
    next other chosen =>
      split at found
      · obtain rfl := Option.some.inj found
        exact List.mem_cons_of_mem _ (induction chosen)
      · obtain rfl := Option.some.inj found
        exact List.mem_cons_self

theorem shortest_none {lists : List (List Nat)} (found : shortest lists = none) : lists = [] := by
  cases lists with
  | nil => rfl
  | cons first rest =>
    rw [shortest] at found
    split at found
    · simp at found
    · split at found <;> simp at found

theorem mem_fixedLists_iff (index : Index) (fixed : QuadOf (Option Field)) (list : List Nat) :
    list ∈ index.fixedLists fixed ↔ ∃ position postings value,
      index.postings.get? position = some postings ∧
        fixed.get? position = some (some value) ∧ list = postings.getD value [] := by
  simp only [fixedLists, List.mem_filterMap, Prod.exists, QuadOf.mem_toList_iff, QuadOf.get_zip,
    Option.bind_eq_some_iff, Option.map_eq_some_iff, Prod.mk.injEq]
  constructor
  · rintro ⟨_, _, ⟨position, postings, stored, _, wanted, rfl, rfl⟩, value, rfl, rfl⟩
    exact ⟨position, postings, value, stored, wanted, rfl⟩
  · rintro ⟨position, postings, value, stored, wanted, rfl⟩
    exact ⟨postings, some value, ⟨position, postings, stored, some value, wanted, rfl, rfl⟩,
      value, rfl, rfl⟩

theorem pairwise_candidates (d : Dataset) (fixed : QuadOf (Option Field)) :
    ((ofDataset d).candidates fixed).Pairwise (· < ·) := by
  unfold candidates
  split
  next => exact List.pairwise_lt_range
  next list found =>
    obtain ⟨position, postings, value, here, _, rfl⟩ :=
      (mem_fixedLists_iff _ fixed list).1 (shortest_mem found)
    have ordered : (d.encoded.zipIdx.map (·.2)).Pairwise (· < ·) := by
      rw [List.zipIdx_map_snd]
      exact List.pairwise_lt_range'
    rw [getD_postings here]
    exact (ordered.sublist (listed_sublist _ position value)).filter _

/-- A lookup finds exactly the quads whose encodings agree with every fixed position. -/
theorem mem_candidates_iff {d : Dataset} (lengths : d.encoded.length = d.quads.length)
    (fixed : QuadOf (Option Field)) (i : Nat) :
    i ∈ (ofDataset d).candidates fixed ↔
      ∃ codes, d.encoded[i]? = some codes ∧ agrees fixed codes = true := by
  unfold candidates
  split
  next none =>
    -- Nothing is fixed, so that every quad agrees.
    have free : ∀ codes, agrees fixed codes = true := by
      intro codes
      rw [agrees_iff]
      intro position value wanted
      cases stored : (ofDataset d).postings.get? position with
      | none =>
        have absent := QuadOf.get_isSome_iff fixed (ofDataset d).postings position
        simp [wanted, stored] at absent
      | some postings =>
        have member := (mem_fixedLists_iff (ofDataset d) fixed _).2
          ⟨position, postings, value, stored, wanted, rfl⟩
        simp [shortest_none none] at member
    change i ∈ List.range d.quads.length ↔ _
    rw [List.mem_range, ← lengths]
    constructor
    · intro inside
      exact ⟨d.encoded[i], List.getElem?_eq_getElem inside, free _⟩
    · rintro ⟨codes, stored, _⟩
      exact (List.getElem?_eq_some_iff.1 stored).1
  next list chosen =>
    obtain ⟨position, postings, value, stored, wanted, rfl⟩ :=
      (mem_fixedLists_iff (ofDataset d) fixed list).1 (shortest_mem chosen)
    rw [List.mem_filter, mem_postings_iff stored]
    change _ ∧ d.encoded[i]?.any (agrees fixed) = true ↔ _
    rw [Option.any_eq_true]
    constructor
    · rintro ⟨_, codes, found, agree⟩
      exact ⟨codes, found, agree⟩
    · rintro ⟨codes, found, agree⟩
      exact ⟨⟨codes, found, (agrees_iff fixed codes).1 agree position value wanted⟩, codes, found,
        agree⟩

end Index

end Dataset

end AttestedQuery
