import AttestedQuery.Proofs.Folding

/-!
# Unions that are opened

The plain union of parts opens the unions among them, and a single branch stands alone. The
fragments are those of the union with the parts as they are: fragments one after the other do not
change when lists among them are joined first.
-/

set_option autoImplicit false

namespace AttestedQuery

namespace Fragment

theorem map_shifted_zero (fragments : List Fragment) : fragments.map (shifted 0) = fragments :=
  List.map_id'' (fun f => by simp [shifted]) fragments

theorem map_shifted_shifted (i j : Nat) (fragments : List Fragment) :
    (fragments.map (shifted i)).map (shifted j) = fragments.map (shifted (i + j)) := by
  simp [shifted, Function.comp_def, Nat.add_assoc]

theorem foldl_shifted (lists : List (List Fragment)) (start : List Fragment) :
    lists.foldl (fun before list => before ++ list.map (shifted before.length)) start =
      start ++ (concatenated lists).map (shifted start.length) := by
  induction lists generalizing start with
  | nil => simp [concatenated]
  | cons list rest induction =>
    have whole : concatenated (list :: rest) = list ++ (concatenated rest).map
        (shifted list.length) := by
      rw [concatenated, List.foldl_cons, List.nil_append, List.length_nil, map_shifted_zero,
        induction]
    rw [List.foldl_cons, induction, whole, List.map_append, map_shifted_shifted, List.append_assoc,
      List.length_append, List.length_map, Nat.add_comm]

theorem concatenated_cons (list : List Fragment) (lists : List (List Fragment)) :
    concatenated (list :: lists) = list ++ (concatenated lists).map (shifted list.length) := by
  rw [concatenated, List.foldl_cons, List.nil_append, List.length_nil, map_shifted_zero,
    foldl_shifted]

theorem concatenated_append (first second : List (List Fragment)) : concatenated (first ++ second) =
    concatenated first ++ (concatenated second).map (shifted (concatenated first).length) := by
  rw [concatenated, List.foldl_append, foldl_shifted]
  rfl

def joinedUp (folded : List (List Fragment) × Nat) : List Fragment × Nat :=
  (concatenated folded.1, folded.2)

theorem ofAlgebra_plain (n : Nat) (branches : List Algebra) :
    ofAlgebra n (.union .plain branches) = (ofBranches n branches).map joinedUp := by
  rw [ofAlgebra]
  cases ofBranches n branches <;> rfl

theorem ofBranches_single (n : Nat) (branch : Algebra) :
    (ofBranches n [branch]).map joinedUp = ofAlgebra n branch := by
  rw [ofBranches]
  cases ofAlgebra n branch with
  | error fault => rfl
  | ok folded =>
    change Except.ok (joinedUp ([folded.1], folded.2)) = Except.ok folded
    rw [joinedUp, concatenated_cons]
    simp [concatenated]

theorem ofBranches_plainBranches (n : Nat) (part : Algebra) :
    (ofBranches n part.plainBranches).map joinedUp = ofAlgebra n part := by
  unfold Algebra.plainBranches
  split
  next branches => exact (ofAlgebra_plain n branches).symm
  next => exact ofBranches_single n part

theorem ofBranches_append (n : Nat) (first second : List Algebra) :
    ofBranches n (first ++ second) = do
      let (lists, next) ← ofBranches n first
      let (others, next) ← ofBranches next second
      return (lists ++ others, next) := by
  induction first generalizing n with
  | nil =>
    rw [List.nil_append, ofBranches]
    change _ = ofBranches n second >>= fun others => pure others
    exact (bind_pure _).symm
  | cons branch rest induction =>
    simp only [List.cons_append, ofBranches, induction, bind_assoc, pure_bind]

/-- Fragments after those before, with their numbers moved up. -/
def following (front : List Fragment) (folded : List Fragment × Nat) : List Fragment × Nat :=
  (front ++ folded.1.map (shifted front.length), folded.2)

theorem ofBranches_opened (n : Nat) (parts : List Algebra) :
    (ofBranches n (parts.flatMap Algebra.plainBranches)).map joinedUp =
      (ofBranches n parts).map joinedUp := by
  induction parts generalizing n with
  | nil => rfl
  | cons part rest induction =>
    rw [List.flatMap_cons, ofBranches_append, ofBranches, ← ofBranches_plainBranches n part]
    cases ofBranches n part.plainBranches with
    | error fault => rfl
    | ok lists =>
      have opened (more : Result (List (List Fragment) × Nat)) :
          (more >>= fun others => pure (lists.1 ++ others.1, others.2)).map joinedUp =
            (more.map joinedUp).map (following (concatenated lists.1)) := by
        cases more with
        | error fault => rfl
        | ok others =>
          exact congrArg (fun fragments => Except.ok (fragments, others.2))
            (concatenated_append lists.1 others.1)
      have closed (more : Result (List (List Fragment) × Nat)) :
          (more >>= fun others => pure (concatenated lists.1 :: others.1, others.2)).map joinedUp =
            (more.map joinedUp).map (following (concatenated lists.1)) := by
        cases more with
        | error fault => rfl
        | ok others =>
          exact congrArg (fun fragments => Except.ok (fragments, others.2))
            (concatenated_cons (concatenated lists.1) others.1)
      exact (opened _).trans ((congrArg _ (induction lists.2)).trans (closed _).symm)

theorem ofAlgebra_united (n : Nat) (parts : List Algebra) :
    ofAlgebra n (.united parts) = ofAlgebra n (.union .plain parts) := by
  rw [ofAlgebra_plain, ← ofBranches_opened, Algebra.united]
  split
  next single same => rw [same, ofBranches_single]
  next => exact ofAlgebra_plain n _

end Fragment

end AttestedQuery
