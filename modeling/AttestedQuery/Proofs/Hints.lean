import AttestedQuery.Program.OfQuery
import AttestedQuery.Proofs.Outcome
import Mathlib.Data.List.Infix

/-!
# Compiling with a growing list of hints

Compiling only appends to the list of hints, so a hint keeps its place for good. What a computation
yields is therefore stated with respect to every list that continues the one it leaves, in
particular to the hints of the whole program.
-/

set_option autoImplicit false

namespace AttestedQuery

def Hint.wire (all : List Hint) (h : Hint) : Wire := .hint (all.idxOf h)

namespace Compiling

variable {α β : Type} {wanted : List Hint → α → Prop}

/-- A computation that succeeds only appends hints, and its result is as wanted with respect to
every list that continues the one it leaves. -/
def Yields (x : Compiling α) (wanted : List Hint → α → Prop) : Prop :=
  ∀ before a after, x before = .ok (a, after) →
    before <+: after ∧ ∀ all, after <+: all → wanted all a

theorem Yields.imp {x : Compiling α} {other : List Hint → α → Prop} (yields : Yields x wanted)
    (weaker : ∀ all a, wanted all a → other all a) : Yields x other := by
  intro before a after succeeded
  obtain ⟨grows, holds⟩ := yields before a after succeeded
  exact ⟨grows, fun all continues => weaker all a (holds all continues)⟩

theorem yields_pure {a : α} (holds : ∀ all, wanted all a) : Yields (pure a) wanted := by
  intro before b after succeeded
  obtain ⟨rfl, rfl⟩ := run_pure_ok_iff.1 succeeded
  exact ⟨List.prefix_rfl, fun all _ => holds all⟩

theorem yields_bind {x : Compiling β} {f : β → Compiling α} {middle : List Hint → β → Prop}
    (first : Yields x middle)
    (second : ∀ b, Yields (f b) fun all a => middle all b → wanted all a) :
    Yields (x >>= f) wanted := by
  intro before a after succeeded
  obtain ⟨b, between, ran, continued⟩ := run_bind_ok_iff.1 succeeded
  obtain ⟨grows, holds⟩ := first before b between ran
  obtain ⟨growsOn, leads⟩ := second b between a after continued
  refine ⟨grows.trans growsOn, fun all continues => ?_⟩
  exact leads all continues (holds all (growsOn.trans continues))

theorem yields_lifted (x : Result α) : Yields (liftM x) fun _ a => x = .ok a := by
  intro before a after succeeded
  obtain ⟨found, rfl⟩ := run_lift_ok_iff.1 succeeded
  exact ⟨List.prefix_rfl, fun _ _ => found⟩

theorem yields_refuse (construct : Construct) : Yields (refuse construct) wanted := by
  intro before a after succeeded
  cases succeeded

theorem yields_mapM {f : β → Compiling α} {wanted : β → List Hint → α → Prop} {xs : List β}
    (each : ∀ x ∈ xs, Yields (f x) (wanted x)) :
    Yields (xs.mapM f) fun all ys => List.Forall₂ (fun x y => wanted x all y) xs ys := by
  induction xs with
  | nil =>
    rw [List.mapM_nil]
    exact yields_pure fun all => List.Forall₂.nil
  | cons x rest induction =>
    rw [List.mapM_cons]
    apply yields_bind (each x List.mem_cons_self)
    intro y
    apply yields_bind (induction fun z member => each z (List.mem_cons_of_mem x member))
    intro ys
    apply yields_pure
    intro all others first
    exact List.Forall₂.cons first others

/-! ## Hints -/

theorem wire_prefix {h : Hint} {hints all : List Hint} (member : h ∈ hints)
    (continues : hints <+: all) : h.wire hints = h.wire all := by
  obtain ⟨rest, rfl⟩ := continues
  rw [Hint.wire, Hint.wire, List.idxOf_append_of_mem member]

/-- A hint that is asked for stands in the list, and its wire is that of its place. -/
theorem yields_hint (h : Hint) : Yields (hint h) fun all wire => h ∈ all ∧ wire = h.wire all := by
  intro before wire after succeeded
  have found : before <+: after ∧ h ∈ after ∧ wire = h.wire after := by
    obtain ⟨hints, here, gotten, chosen⟩ := run_bind_ok_iff.1 succeeded
    obtain ⟨same, unchanged⟩ := run_get_ok_iff.1 gotten
    rw [← same, ← unchanged] at chosen
    by_cases listed : h ∈ before
    · rw [if_pos (List.contains_iff_mem.2 listed)] at chosen
      obtain ⟨rfl, rfl⟩ := run_pure_ok_iff.1 chosen
      exact ⟨List.prefix_rfl, listed, rfl⟩
    · rw [if_neg (by simpa using listed)] at chosen
      obtain ⟨_, last, updated, finished⟩ := run_bind_ok_iff.1 chosen
      obtain ⟨rfl, rfl⟩ := run_pure_ok_iff.1 finished
      rw [← run_set_ok_iff.1 updated]
      refine ⟨List.prefix_append before [h], by simp, ?_⟩
      rw [Hint.wire, List.idxOf_append_of_notMem listed]
      simp
  obtain ⟨grows, member, same⟩ := found
  refine ⟨grows, fun all continues => ⟨continues.subset member, ?_⟩⟩
  rw [same, wire_prefix member continues]

end Compiling

/-- The hints about the four parts of the literal under a key. -/
def Hint.parts (key : String) : List Hint :=
  [.lexicalHash (.key key), .specialValue (.key key), .langHash (.key key),
    .datatypeEncoding (.key key)]

def Parts.ofKey (all : List Hint) (key : String) (wire : Wire) : Parts :=
  let lexical := (Hint.lexicalHash (.key key)).wire all
  let special := (Hint.specialValue (.key key)).wire all
  let lang := (Hint.langHash (.key key)).wire all
  let datatype := (Hint.datatypeEncoding (.key key)).wire all
  ⟨lexical, special, lang, datatype,
    .eq wire (Compiling.taggedWire .literal (.hash4 lexical special lang datatype))⟩

theorem Compiling.yields_literalParts (key : String) (wire : Wire) :
    Yields (literalParts key wire) fun all parts =>
      parts = Parts.ofKey all key wire ∧ ∀ h ∈ Hint.parts key, h ∈ all := by
  apply yields_bind (yields_hint _)
  intro lexical
  apply yields_bind (yields_hint _)
  intro special
  apply yields_bind (yields_hint _)
  intro lang
  apply yields_bind (yields_hint _)
  intro datatype
  apply yields_pure
  intro all fourth third second first
  rw [first.2, second.2, third.2, fourth.2]
  refine ⟨rfl, ?_⟩
  simp only [Hint.parts, List.forall_mem_cons]
  exact ⟨first.1, second.1, third.1, fourth.1, by simp⟩

end AttestedQuery
