import AttestedQuery.KeyMap
import Mathlib.Data.List.Nodup

/-!
# What a map from names holds

The operations on maps from names, read through `get?`: two maps that agree at every name are
equal, and every operation is described by what it does at each name.
-/

set_option autoImplicit false

namespace AttestedQuery

variable {α : Type}

private theorem find_insertEntry (key other : String) (value : α) (entries : List (String × α)) :
    ((insertEntry key value entries).find? fun entry => entry.1 == other).map (·.2) =
      if other = key then some value
      else (entries.find? fun entry => entry.1 == other).map (·.2) := by
  induction entries with
  | nil =>
    by_cases same : key = other
    · simp [insertEntry, same]
    · have absent : ¬other = key := fun equal => same equal.symm
      simp [insertEntry, same, absent]
  | cons head rest induction =>
    obtain ⟨k, v⟩ := head
    simp only [insertEntry]
    split
    · by_cases same : key = other
      · simp [same]
      · have absent : ¬other = key := fun equal => same equal.symm
        simp [same, absent]
    · split
      next equal =>
        subst equal
        by_cases same : key = other
        · simp [same]
        · have absent : ¬other = key := fun equal => same equal.symm
          simp [same, absent]
      next different =>
        by_cases found : k = other
        · have absent : ¬other = key := fun same => different (same.symm.trans found.symm)
          simp [found, absent]
        · simpa [found] using induction

namespace KeyMap

theorem get_empty (key : String) : (empty : KeyMap α).get? key = none := rfl

theorem get_insert (map : KeyMap α) (key other : String) (value : α) :
    (map.insert key value).get? other = if other = key then some value else map.get? other :=
  find_insertEntry key other value map.entries

theorem get_insert_same (map : KeyMap α) (key : String) (value : α) :
    (map.insert key value).get? key = some value := by
  rw [get_insert, if_pos rfl]

theorem get_insert_other {map : KeyMap α} {key other : String} (value : α) (different : other ≠ key) :
    (map.insert key value).get? other = map.get? other := by
  rw [get_insert, if_neg different]

theorem mem_entries_iff (map : KeyMap α) (key : String) (value : α) :
    (key, value) ∈ map.entries ↔ map.get? key = some value := by
  obtain ⟨entries, sorted⟩ := map
  simp only [get?]
  induction entries with
  | nil => simp
  | cons head rest induction =>
    obtain ⟨k, v⟩ := head
    have above := (List.pairwise_cons.1 sorted).1
    have tail := induction (List.pairwise_cons.1 sorted).2
    by_cases same : k = key
    · subst same
      -- A later entry with this name would stand above it in the order.
      have absent : (k, value) ∉ rest := fun later => String.lt_irrefl k (above _ later)
      simp [absent, eq_comm]
    · have notHead : ¬(key = k ∧ value = v) := fun equal => same equal.1.symm
      simpa [same, notHead] using tail

theorem ext {a b : KeyMap α} (same : ∀ key, a.get? key = b.get? key) : a = b := by
  obtain ⟨left, leftSorted⟩ := a
  obtain ⟨right, rightSorted⟩ := b
  have members : ∀ entry, entry ∈ left ↔ entry ∈ right := by
    rintro ⟨key, value⟩
    rw [mem_entries_iff ⟨left, leftSorted⟩, mem_entries_iff ⟨right, rightSorted⟩, same]
  have irreflexive (entry : String × α) : ¬entry.1 < entry.1 := String.lt_irrefl entry.1
  have once {entries : List (String × α)} (sorted : entries.Pairwise fun a b => a.1 < b.1) :
      entries.Nodup := by
    refine sorted.imp ?_
    intro a b below equal
    subst equal
    exact irreflexive a below
  have permuted := (List.perm_ext_iff_of_nodup (once leftSorted) (once rightSorted)).2 members
  have entries : left = right := permuted.eq_of_pairwise
    (fun a b _ _ before after => absurd (String.lt_trans before after) (irreflexive a))
    leftSorted rightSorted
  subst entries
  rfl

theorem mem_keys_iff (map : KeyMap α) (key : String) : key ∈ map.keys ↔ (map.get? key).isSome := by
  rw [Option.isSome_iff_exists]
  constructor
  · intro member
    obtain ⟨⟨k, value⟩, stored, rfl⟩ := List.mem_map.1 member
    exact ⟨value, (mem_entries_iff map k value).1 stored⟩
  · rintro ⟨value, found⟩
    exact List.mem_map.2 ⟨(key, value), (mem_entries_iff map key value).2 found, rfl⟩

theorem contains_eq_isSome (map : KeyMap α) (key : String) :
    map.contains key = (map.get? key).isSome := rfl

theorem get_restrict (map : KeyMap α) (keep : String → Bool) (key : String) :
    (map.restrict keep).get? key = if keep key then map.get? key else none := by
  apply Option.ext
  intro value
  rw [← mem_entries_iff]
  by_cases kept : keep key
  · simp [restrict, kept, mem_entries_iff]
  · simp [restrict, kept]

private theorem get_foldl_insert (entries : List (String × α)) (map : KeyMap α) (key : String) :
    (entries.foldl (fun map entry => map.insert entry.1 entry.2) map).get? key =
      ((entries.reverse.find? fun entry => entry.1 == key).map (·.2)).or (map.get? key) := by
  induction entries generalizing map with
  | nil => simp
  | cons head rest induction =>
    rw [List.foldl_cons, induction, get_insert, List.reverse_cons, List.find?_append]
    by_cases same : key = head.1
    · cases rest.reverse.find? fun entry => entry.1 == key <;> simp [same]
    · have different : ¬head.1 = key := fun equal => same equal.symm
      cases rest.reverse.find? fun entry => entry.1 == key <;> simp [same, different]

theorem get_ofList (entries : List (String × α)) (key : String) :
    (ofList entries).get? key = (entries.reverse.find? fun entry => entry.1 == key).map (·.2) := by
  rw [ofList, get_foldl_insert, get_empty, Option.or_none]

theorem keys_nodup (map : KeyMap α) : map.keys.Nodup := by
  rw [keys, List.Nodup, List.pairwise_map]
  apply map.sorted.imp
  intro a b below same
  exact String.lt_irrefl b.1 (same ▸ below)

/-- A map keeps all entries of a list exactly where no two of them have one name. -/
theorem entries_ofList_perm_iff (entries : List (String × α)) :
    (ofList entries).entries.Perm entries ↔ (entries.map (·.1)).Nodup := by
  constructor
  · intro same
    exact (same.map Prod.fst).nodup_iff.1 (ofList entries).keys_nodup
  · intro distinct
    have once : (ofList entries).entries.Nodup :=
      List.Nodup.of_map Prod.fst (ofList entries).keys_nodup
    apply (List.perm_ext_iff_of_nodup once (List.Nodup.of_map (·.1) distinct)).2
    intro entry
    rw [mem_entries_iff, get_ofList]
    constructor
    · intro found
      obtain ⟨stored, first, same⟩ := Option.map_eq_some_iff.1 found
      have key : stored.1 = entry.1 := by simpa using List.find?_some first
      have inside := List.mem_reverse.1 (List.mem_of_find?_eq_some first)
      rwa [show stored = entry from Prod.ext key same] at inside
    · intro member
      cases first : entries.reverse.find? fun other => other.1 == entry.1 with
      | none =>
        have absent := List.find?_eq_none.1 first entry (List.mem_reverse.2 member)
        exact absurd (beq_self_eq_true entry.1) absent
      | some stored =>
        have key : stored.1 = entry.1 := by simpa using List.find?_some first
        have inside := List.mem_reverse.1 (List.mem_of_find?_eq_some first)
        rw [List.inj_on_of_nodup_map distinct inside member key]
        rfl

/-- A map given by a function on some names holds its value at each of them and nothing else. -/
theorem get_ofList_map (names : List String) (value : String → α) (key : String) :
    (ofList (names.map fun name => (name, value name))).get? key =
      if key ∈ names then some (value key) else none := by
  have last : (ofList (names.map fun name => (name, value name))).get? key =
      ((names.reverse.find? fun name => name == key).map fun name => (name, value name)).map
        (·.2) := by
    rw [get_ofList, ← List.map_reverse, List.find?_map]
    rfl
  rw [last]
  by_cases member : key ∈ names
  · cases found : names.reverse.find? fun name => name == key with
    | none =>
      rw [List.find?_eq_none] at found
      exact absurd (beq_self_eq_true key) (found key (List.mem_reverse.2 member))
    | some name =>
      have same : name = key := by simpa using List.find?_some found
      simp [same, member]
  · have absent : names.reverse.find? (fun name => name == key) = none := by
      rw [List.find?_eq_none]
      intro name inside same
      rw [beq_iff_eq] at same
      exact member (same ▸ List.mem_reverse.1 inside)
    simp [absent, member]

end KeyMap

namespace KeySet

theorem contains_add (set : KeySet) (key other : String) :
    (set.add key).contains other = (other == key || set.contains other) := by
  rw [KeyMap.contains_eq_isSome, add, KeyMap.get_insert]
  by_cases same : other = key <;> simp [same, KeyMap.contains_eq_isSome]

theorem contains_addAll (set : KeySet) (keys : List String) (key : String) :
    (addAll set keys).contains key = (keys.contains key || set.contains key) := by
  induction keys generalizing set with
  | nil => simp [addAll]
  | cons head rest induction =>
    change (addAll (set.add head) rest).contains key = _
    rw [induction, contains_add, List.contains_cons]
    cases rest.contains key <;> simp

theorem contains_ofKeys (keys : List String) (key : String) :
    (ofKeys keys).contains key = keys.contains key := by
  rw [ofKeys, contains_addAll]
  simp [KeyMap.contains_eq_isSome, KeyMap.get_empty]

end KeySet

end AttestedQuery
