import AttestedQuery.Proofs.Compilation
import AttestedQuery.Proofs.Matching

/-!
# Rows that a branch admits

Which rows the candidates of a branch have: those that its patterns fit to quads of the dataset,
that give every extension the value of its source, and that bind the keys of the branch. That the
source of an extension is bound when its turn comes is the doing of the compiler, which follows the
keys in the order in which the resolver binds them.
-/

set_option autoImplicit false

namespace AttestedQuery

/-! ## Extensions in the order of the compiler -/

namespace Tracing

inductive Applies (e : Encoder) : Tracing → List ScopedExtension → List Extension → Tracing → Prop
  | done (t : Tracing) : Applies e t [] [] t
  | skip {t final : Tracing} {x : ScopedExtension} {rest : List ScopedExtension}
    {made : List Extension} (found : t.extension? e x = .ok none)
    (later : Applies e t rest made final) : Applies e t (x :: rest) made final
  | make {t final : Tracing} {x : ScopedExtension} {rest : List ScopedExtension}
    {extension : Extension} {wire : Wire} {made : List Extension}
    (found : t.extension? e x = .ok (some (extension, wire)))
    (later : Applies e (t.withKey extension.name wire) rest made final) :
      Applies e t (x :: rest) (extension :: made) final

theorem applies_of_foldlM {e : Encoder} {xs : List ScopedExtension}
    {state final : Tracing × List Extension}
    (folded : xs.foldlM (withExtension e) state = .ok final) :
    ∃ made, final.2 = state.2 ++ made ∧ Applies e state.1 xs made final.1 := by
  induction xs generalizing state with
  | nil =>
    obtain rfl := pure_ok_iff.1 folded
    exact ⟨[], by simp, .done _⟩
  | cons x rest induction =>
    rw [List.foldlM_cons, bind_ok_iff] at folded
    obtain ⟨next, here, later⟩ := folded
    obtain ⟨made, whole, applies⟩ := induction later
    rw [withExtension, bind_ok_iff] at here
    obtain ⟨found, traced, here⟩ := here
    cases found with
    | none =>
      obtain rfl := pure_ok_iff.1 here
      exact ⟨made, whole, .skip traced applies⟩
    | some found =>
      obtain ⟨extension, wire⟩ := found
      obtain rfl := pure_ok_iff.1 here
      exact ⟨extension :: made, by simp [whole], .make traced applies⟩

theorem isSome_withKey (t : Tracing) (key other : String) (wire : Wire) :
    ((t.withKey key wire).sources.get? other).isSome ↔
      other = key ∨ (t.sources.get? other).isSome := by
  unfold withKey
  split
  next source found =>
    constructor
    · exact Or.inr
    · rintro (rfl | bound)
      · simp [withEquality, found]
      · exact bound
  next absent =>
    rw [KeyMap.get_insert]
    by_cases same : other = key <;> simp [same]

theorem isSome_ofPatterns {e : Encoder} {patterns : List Pattern} {t : Tracing}
    (traced : ofPatterns e patterns = .ok t) (key : String) :
    (t.sources.get? key).isSome ↔ ∃ p ∈ patterns, key ∈ p.keys := by
  have records := records_ofPatterns traced
  constructor
  · intro bound
    obtain ⟨wire, found⟩ := Option.isSome_iff_exists.1 bound
    obtain ⟨place, member, _, named⟩ := records.origin key wire found
    obtain ⟨i, p, position, stored, asked, _⟩ := mem_places_iff.1 member
    obtain ⟨term, here, named⟩ := Option.bind_eq_some_iff.1 named
    exact ⟨p, List.mem_of_getElem? stored,
      (p.mem_keys_iff key).2 ⟨position, term, here ▸ asked, named⟩⟩
  · rintro ⟨p, member, keyed⟩
    obtain ⟨position, term, asked, named⟩ := (p.mem_keys_iff key).1 keyed
    obtain ⟨i, inside, rfl⟩ := List.getElem_of_mem member
    refine records.bound (.slot i position, some term) (mem_places_iff.2 ?_) key named
    exact ⟨i, _, position, List.getElem?_eq_getElem inside, asked, rfl⟩

end Tracing

structure Branch.Applies (e : Encoder) (f : Fragment) (b : Branch) (start final : Tracing) :
    Prop where
  patterns : b.patterns = f.patterns
  traced : Tracing.ofPatterns e f.patterns = .ok start
  extensions : Tracing.Applies e start f.extensions b.extensions final
  bound : ∀ key, b.bound.contains key = (final.sources.get? key).isSome

theorem Branch.ofFragment_applies {e : Encoder} {projected : List String} {f : Fragment}
    {b : Branch} {before after : List Hint}
    (compiled : Branch.ofFragment e projected f before = .ok (b, after)) :
    ∃ start final, b.Applies e f start final := by
  obtain ⟨plain, t, extensions, _, traced, folded, _, rfl⟩ := ofFragment_ok_iff.1 compiled
  obtain ⟨made, whole, applies⟩ := Tracing.applies_of_foldlM folded
  obtain rfl : extensions = made := by simpa using whole
  refine ⟨plain, t, rfl, traced, applies, fun key => ?_⟩
  rw [KeySet.contains_ofKeys, List.contains_eq_mem, Bool.eq_iff_iff, decide_eq_true_iff,
    KeyMap.mem_keys_iff]

/-! ## Extensions in the order of the resolver -/

def Extension.Holds (row : Row) (x : Extension) : Prop :=
  ∃ value, Candidate.sourceOf row x.source = some value ∧ row.get? x.name = some value

namespace Candidate

theorem sourceOf_within {row other : Row} {source : Operand} {value : Term}
    (within : row.Within other) (found : sourceOf row source = some value) :
    sourceOf other source = some value := by
  cases source with
  | term t => exact found
  | key key => exact within key value found

theorem exists_sourceOf {e : Encoder} {t : Tracing} {x : ScopedExtension} {made : Extension}
    {wire : Wire} {row : Row} (found : t.extension? e x = .ok (some (made, wire)))
    (keys : ∀ key, (row.get? key).isSome ↔ (t.sources.get? key).isSome) :
    ∃ value, sourceOf row made.source = some value := by
  have supplies := Tracing.extension_supplies found
  cases origin : made.source with
  | term term => exact ⟨term, rfl⟩
  | key key =>
    rw [origin] at supplies
    exact Option.isSome_iff_exists.1 ((keys key).2 (by simp [show _ = some wire from supplies]))

/-- Applying an extension to a row binds its name, unless the row says otherwise. -/
theorem applyExtension_some {row next : Row} {x : Extension} {value : Term}
    (source : sourceOf row x.source = some value) :
    applyExtension row x = some next ↔ row.Within next ∧ next.get? x.name = some value ∧
      ∀ key, (next.get? key).isSome ↔ key = x.name ∨ (row.get? key).isSome := by
  unfold applyExtension
  simp only [source]
  cases held : row.get? x.name with
  | some bound =>
    by_cases same : bound = value
    · subst same
      simp only [if_true, Option.some.injEq]
      constructor
      · rintro rfl
        refine ⟨fun _ _ found => found, held, fun key => ⟨Or.inr, ?_⟩⟩
        rintro (rfl | found)
        · simp [held]
        · exact found
      · rintro ⟨within, _, keys⟩
        refine within.eq fun key found => ?_
        rcases (keys key).1 found with rfl | found
        · simp [held]
        · exact found
    · simp only [same, if_false, reduceCtorEq, false_iff]
      rintro ⟨within, found, _⟩
      exact same (Option.some.inj ((within x.name bound held).symm.trans found))
  | none =>
    simp only [Option.some.injEq]
    constructor
    · rintro rfl
      refine ⟨fun key other found => ?_, KeyMap.get_insert_same row x.name value, fun key => ?_⟩
      · rw [KeyMap.get_insert_other value]
        · exact found
        · rintro rfl
          simp [held] at found
      · rw [KeyMap.get_insert]
        by_cases same : key = x.name <;> simp [same]
    · rintro ⟨within, found, keys⟩
      apply KeyMap.ext
      intro key
      rw [KeyMap.get_insert]
      split
      next same => rw [same, found]
      next different =>
        cases here : row.get? key with
        | some other => exact (within key other here).symm
        | none =>
          have absent := (keys key).not.2 (by simp [different, here])
          exact (Option.not_isSome_iff_eq_none.1 absent).symm

theorem foldlM_applyExtension {e : Encoder} {t final : Tracing} {xs : List ScopedExtension}
    {made : List Extension} (applies : Tracing.Applies e t xs made final) {row target : Row}
    (keys : ∀ key, (row.get? key).isSome ↔ (t.sources.get? key).isSome) :
    made.foldlM applyExtension row = some target ↔ row.Within target ∧
      (∀ x ∈ made, x.Holds target) ∧
        ∀ key, (target.get? key).isSome ↔ (final.sources.get? key).isSome := by
  induction applies generalizing row with
  | done t =>
    simp only [List.foldlM_nil, Option.pure_def, Option.some.injEq, List.not_mem_nil,
      false_implies, implies_true, true_and]
    constructor
    · rintro rfl
      exact ⟨fun _ _ found => found, keys⟩
    · rintro ⟨within, bound⟩
      exact within.eq fun key held => (keys key).2 ((bound key).1 held)
  | skip _ _ induction => exact induction keys
  | @make t final x rest extension wire made found later induction =>
    obtain ⟨value, source⟩ := exists_sourceOf found keys
    rw [List.foldlM_cons, Option.bind_eq_bind, Option.bind_eq_some_iff, List.forall_mem_cons]
    have step (next : Row) (applied : applyExtension row extension = some next) (key : String) :
        (next.get? key).isSome ↔ ((t.withKey extension.name wire).sources.get? key).isSome := by
      rw [((applyExtension_some source).1 applied).2.2, Tracing.isSome_withKey, keys]
    constructor
    · rintro ⟨next, applied, others⟩
      obtain ⟨within, named, _⟩ := (applyExtension_some source).1 applied
      obtain ⟨withinNext, holds, bound⟩ := (induction (step next applied)).1 others
      refine ⟨within.trans withinNext, ⟨⟨value, ?_, withinNext _ _ named⟩, holds⟩, bound⟩
      exact sourceOf_within (within.trans withinNext) source
    · rintro ⟨within, ⟨⟨other, given, named⟩, holds⟩, bound⟩
      obtain rfl := Option.some.inj (given.symm.trans (sourceOf_within within source))
      -- The next row is the part of the target that binds the keys so far.
      let keep (key : String) : Bool := decide (key = extension.name) || (row.get? key).isSome
      have kept (key : String) (bound : (row.get? key).isSome = true) :
          (target.restrict keep).get? key = target.get? key := by
        rw [KeyMap.get_restrict, if_pos (by simp [keep, bound])]
      have applied : applyExtension row extension = some (target.restrict keep) := by
        refine (applyExtension_some source).2 ⟨fun key held found => ?_, ?_, fun key => ?_⟩
        · rw [kept key (by simp [found])]
          exact within key held found
        · rw [KeyMap.get_restrict, if_pos (by simp [keep])]
          exact named
        · rw [KeyMap.get_restrict]
          by_cases name : key = extension.name
          · simp [keep, name, named]
          · cases found : row.get? key with
            | none => simp [keep, name, found]
            | some held => simp [keep, found, within key held found]
      exact ⟨_, applied,
        (induction (step _ applied)).2 ⟨Row.restrict_within target keep, holds, bound⟩⟩

end Candidate

/-! ## Admission -/

structure Branch.Admits (b : Branch) (d : Dataset) (e : Encoder) (row : Row) : Prop where
  fits : ∀ p ∈ b.patterns, ∃ quad ∈ d.quads, p.Fits e.SameCode row quad
  extended : ∀ x ∈ b.extensions, x.Holds row
  bound : ∀ key, (row.get? key).isSome = b.bound.contains key

/-- A row whose keys have encodings can be drafted with them. -/
theorem Candidate.Draft.exists_encoded {e : Encoder} {row : Row}
    (encodes : ∀ key value, row.get? key = some value → ∃ code, e.encode value = .ok code)
    (quads : List Nat) :
    ∃ draft : Draft, draft.row = row ∧ draft.quads = quads ∧ draft.Encoded e := by
  have choice (key : String) : ∃ code, ∀ value, row.get? key = some value →
      e.encode value = .ok code := by
    cases held : row.get? key with
    | none => exact ⟨Field.zero, by simp⟩
    | some value =>
      obtain ⟨code, encoded⟩ := encodes key value held
      exact ⟨code, fun other same => Option.some.inj same ▸ encoded⟩
  choose code chosen using choice
  refine ⟨⟨row, KeyMap.ofList (row.keys.map fun key => (key, code key)), quads⟩, rfl, rfl,
    fun key => ⟨fun value held => ⟨code key, ?_, chosen key value held⟩, fun absent => ?_⟩⟩
  · simp only [KeyMap.get_ofList_map, KeyMap.mem_keys_iff, held, Option.isSome_some, if_true]
  · simp [KeyMap.get_ofList_map, KeyMap.mem_keys_iff, absent]

theorem Candidate.exists_covers_at {d : Dataset} {e : Encoder} (encoded : d.EncodedBy e)
    {patterns : List Pattern} {quads : List Nat} {row : Row}
    (fits : List.Forall₂ (fun p i => ∃ quad, d.quads[i]? = some quad ∧
      p.Fits e.SameCode row quad) patterns quads) :
    ∃ draft : Draft, draft.Covers d e patterns ∧ draft.row.Within row ∧ draft.quads = quads := by
  let keep (key : String) : Bool := decide (∃ p ∈ patterns, key ∈ p.keys)
  -- The keys of the patterns stand for terms of the quads, which the dataset encodes.
  have holds {p : Pattern} (member : p ∈ patterns) {key : String} (keyed : key ∈ p.keys) :
      ∃ value code, row.get? key = some value ∧ e.encode value = .ok code := by
    obtain ⟨place, short, rfl⟩ := List.getElem_of_mem member
    obtain ⟨quad, found, fits⟩ := fits.get short (fits.length_eq ▸ short)
    have inside := List.mem_of_getElem? found
    obtain ⟨position, term, asked, named⟩ := (Pattern.mem_keys_iff _ key).1 keyed
    obtain ⟨value, held⟩ : ∃ value, quad.get? position = some value := by
      rw [← Option.isSome_iff_exists, QuadOf.get_isSome_iff _ (Pattern.positions _), asked]
      rfl
    obtain ⟨code, encodes⟩ := encoded.encodable inside held
    exact ⟨value, code, (fits.key position term key asked named).trans held, encodes⟩
  have kept (key : String) (inside : ∃ p ∈ patterns, key ∈ p.keys) :
      (row.restrict keep).get? key = row.get? key := by
    rw [KeyMap.get_restrict, if_pos (decide_eq_true inside)]
  have keyed (key : String) (value : Term) (held : (row.restrict keep).get? key = some value) :
      ∃ p ∈ patterns, key ∈ p.keys := by
    rw [KeyMap.get_restrict] at held
    split at held
    next inside => exact of_decide_eq_true inside
    next => cases held
  obtain ⟨draft, same, listed, coded⟩ := Draft.exists_encoded (e := e)
    (fun key value held => by
      obtain ⟨p, member, inside⟩ := keyed key value held
      obtain ⟨other, code, found, encodes⟩ := holds member inside
      rw [kept key ⟨p, member, inside⟩, found] at held
      exact ⟨code, Option.some.inj held ▸ encodes⟩) quads
  have within : draft.row.Within row := same ▸ Row.restrict_within row keep
  refine ⟨draft, ⟨?_, fun key => ?_, coded⟩, within, listed⟩
  · rw [listed, same]
    exact fits_congr fits fun p member key inside => kept key ⟨p, member, inside⟩
  · rw [same]
    constructor
    · intro bound
      obtain ⟨value, held⟩ := Option.isSome_iff_exists.1 bound
      exact keyed key value held
    · intro inside
      obtain ⟨p, member, named⟩ := inside
      obtain ⟨value, _, held, _⟩ := holds member named
      rw [kept key ⟨p, member, named⟩, held, Option.isSome_some]

theorem Candidate.exists_covers {d : Dataset} {e : Encoder} (encoded : d.EncodedBy e)
    {patterns : List Pattern} {row : Row}
    (fits : ∀ p ∈ patterns, ∃ quad ∈ d.quads, p.Fits e.SameCode row quad) :
    ∃ draft : Draft, draft.Covers d e patterns ∧ draft.row.Within row := by
  have each : ∀ p ∈ patterns, ∃ i : Nat, ∃ quad, d.quads[i]? = some quad ∧
      p.Fits e.SameCode row quad := by
    intro p member
    obtain ⟨quad, inside, fits⟩ := fits p member
    obtain ⟨i, bound, rfl⟩ := List.getElem_of_mem inside
    exact ⟨i, _, List.getElem?_eq_getElem bound, fits⟩
  obtain ⟨quads, found⟩ := exists_forall₂ each
  obtain ⟨draft, covers, within, _⟩ := exists_covers_at encoded found
  exact ⟨draft, covers, within⟩

theorem Candidate.exists_iff_admits {d : Dataset} {e : Encoder} (encoded : d.EncodedBy e)
    {f : Fragment} {b : Branch} {start final : Tracing} (applies : b.Applies e f start final)
    {candidates : List Candidate} (made : ofBranch (.ofDataset d) e b = .ok candidates)
    (row : Row) : (∃ c ∈ candidates, c.row = row) ↔ b.Admits d e row := by
  have keys (draft : Draft) (covers : draft.Covers d e b.patterns) (key : String) :
      (draft.row.get? key).isSome ↔ (start.sources.get? key).isSome := by
    rw [covers.keys, Tracing.isSome_ofPatterns applies.traced, applies.patterns]
  constructor
  · rintro ⟨c, member, rfl⟩
    obtain ⟨draft, covers, extended, _⟩ := (mem_ofBranch_iff encoded made c).1 member
    obtain ⟨within, holds, bound⟩ :=
      (foldlM_applyExtension applies.extensions (keys draft covers)).1 extended
    refine ⟨fun p inside => ?_, holds, fun key => ?_⟩
    · have same (p : Pattern) (inside : p ∈ b.patterns) (key : String) (keyed : key ∈ p.keys) :
          c.row.get? key = draft.row.get? key := by
        obtain ⟨value, held⟩ := Option.isSome_iff_exists.1 ((covers.keys key).2 ⟨p, inside, keyed⟩)
        rw [held]
        exact within key value held
      have fits := fits_congr covers.fits same
      obtain ⟨i, short, rfl⟩ := List.getElem_of_mem inside
      obtain ⟨quad, found, here⟩ := fits.get short (by rw [← fits.length_eq]; exact short)
      exact ⟨quad, List.mem_of_getElem? found, here⟩
    · rw [applies.bound, Bool.eq_iff_iff]
      exact bound key
  · intro admits
    obtain ⟨draft, covers, within⟩ := exists_covers encoded admits.fits
    have extended := (foldlM_applyExtension applies.extensions (keys draft covers)).2
      ⟨within, admits.extended, fun key => by rw [admits.bound, applies.bound]⟩
    exact ⟨⟨row, draft.quads⟩, (mem_ofBranch_iff encoded made _).2 ⟨draft, covers, extended, rfl⟩,
      rfl⟩

end AttestedQuery
