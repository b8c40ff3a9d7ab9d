/-!
# Maps from names

Finite maps from names to values, kept as a list in strictly increasing order of the names, so
that equal maps are equal lists. Names are ordered by their code points. A set of names is a map
to nothing.
-/

set_option autoImplicit false

namespace AttestedQuery

/-- The list with one entry set: replaced where the name stands, put in order where it does not. -/
def insertEntry {α : Type} (key : String) (value : α) : List (String × α) → List (String × α)
  | [] => [(key, value)]
  | (k, v) :: rest =>
    if key < k then (key, value) :: (k, v) :: rest
    else if key = k then (key, value) :: rest
    else (k, v) :: insertEntry key value rest

theorem fst_mem_insertEntry {α : Type} (key : String) (value : α) (entries : List (String × α))
    (entry : String × α) (mem : entry ∈ insertEntry key value entries) :
    entry.1 = key ∨ entry ∈ entries := by
  induction entries with
  | nil => simp [insertEntry] at mem; simp [mem]
  | cons head rest ih =>
    obtain ⟨k, v⟩ := head
    simp only [insertEntry] at mem
    split at mem
    · rcases List.mem_cons.1 mem with rfl | mem
      · exact Or.inl rfl
      · exact Or.inr mem
    · split at mem
      · rcases List.mem_cons.1 mem with rfl | mem
        · exact Or.inl rfl
        · exact Or.inr (List.mem_cons_of_mem _ mem)
      · rcases List.mem_cons.1 mem with rfl | mem
        · exact Or.inr (List.mem_cons_self)
        · rcases ih mem with same | mem
          · exact Or.inl same
          · exact Or.inr (List.mem_cons_of_mem _ mem)

theorem insertEntry_sorted {α : Type} (key : String) (value : α) (entries : List (String × α))
    (sorted : entries.Pairwise fun a b => a.1 < b.1) :
    (insertEntry key value entries).Pairwise fun a b => a.1 < b.1 := by
  induction entries with
  | nil => simp [insertEntry]
  | cons head rest ih =>
    obtain ⟨k, v⟩ := head
    have above := (List.pairwise_cons.1 sorted).1
    have tail := (List.pairwise_cons.1 sorted).2
    simp only [insertEntry]
    split
    next before =>
      refine List.pairwise_cons.2 ⟨?_, sorted⟩
      intro entry mem
      rcases List.mem_cons.1 mem with rfl | mem
      · exact before
      · exact String.lt_trans before (above entry mem)
    next notBefore =>
      split
      next same =>
        subst same
        exact List.pairwise_cons.2 ⟨fun entry mem => above entry mem, tail⟩
      next different =>
        refine List.pairwise_cons.2 ⟨?_, ih tail⟩
        intro entry mem
        rcases fst_mem_insertEntry key value rest entry mem with same | mem
        · rw [same]
          rcases Std.lt_trichotomy key k with less | equal | greater
          · exact absurd less notBefore
          · exact absurd equal different
          · exact greater
        · exact above entry mem

structure KeyMap (α : Type) where
  entries : List (String × α)
  sorted : entries.Pairwise fun a b => a.1 < b.1
  deriving DecidableEq

namespace KeyMap

variable {α β : Type}

def empty : KeyMap α := ⟨[], List.Pairwise.nil⟩

instance : Inhabited (KeyMap α) := ⟨empty⟩

def insert (map : KeyMap α) (key : String) (value : α) : KeyMap α :=
  ⟨insertEntry key value map.entries, insertEntry_sorted key value map.entries map.sorted⟩

def get? (map : KeyMap α) (key : String) : Option α :=
  (map.entries.find? fun entry => entry.1 == key).map (·.2)

def contains (map : KeyMap α) (key : String) : Bool :=
  (map.get? key).isSome

def keys (map : KeyMap α) : List String :=
  map.entries.map (·.1)

/-- The entries whose name satisfies a condition. -/
def restrict (map : KeyMap α) (keep : String → Bool) : KeyMap α :=
  ⟨map.entries.filter fun entry => keep entry.1, map.sorted.filter _⟩

def ofList (entries : List (String × α)) : KeyMap α :=
  entries.foldl (fun map entry => map.insert entry.1 entry.2) empty

end KeyMap

abbrev KeySet := KeyMap Unit

namespace KeySet

def add (set : KeySet) (key : String) : KeySet :=
  KeyMap.insert set key ()

def addAll (set : KeySet) (keys : List String) : KeySet :=
  keys.foldl add set

def ofKeys (keys : List String) : KeySet :=
  addAll KeyMap.empty keys

end KeySet

end AttestedQuery
