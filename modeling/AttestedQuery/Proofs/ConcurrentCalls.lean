import AttestedQuery.Proofs.Caching
import Mathlib.Data.Finset.Card

/-!
# Callers that share one cache

Several callers use one cache at once. A call takes three steps: it looks its key up, compiles
without holding the cache, and inserts its program unless the key has been taken in the meantime.
Between the steps of one call any other calls may take theirs. Two callers may so compile one key
both; the one that inserts first decides which of the two programs all callers get.

A program is shared, not copied, so which compilation it comes from is part of it. The invariant of
every interleaving is that the entries have different keys, that each is the program of a caller
that has finished, and that what a caller was given is the entry of its key.
-/

set_option autoImplicit false

namespace AttestedQuery

/-- A program together with the caller whose compilation it is: no caller compiles twice. -/
structure Shared where
  maker : Nat
  program : Program

/-- The programs that callers share, by their keys, in the order in which they were inserted. -/
abbrev Entries := List ((String × String) × Shared)

namespace Entries

def get? (entries : Entries) (key : String × String) : Option Shared :=
  (entries.find? fun entry => entry.1 == key).map (·.2)

variable {entries later : Entries} {key : String × String} {held : Shared}

theorem mem_of_get? (found : entries.get? key = some held) : (key, held) ∈ entries := by
  obtain ⟨⟨other, _⟩, first, rfl⟩ := Option.map_eq_some_iff.1 found
  have same : other = key := by simpa using List.find?_some first
  exact same ▸ List.mem_of_find?_eq_some first

theorem get?_eq_none_iff : entries.get? key = none ↔ key ∉ entries.map (·.1) := by
  rw [get?, Option.map_eq_none_iff, List.find?_eq_none, List.mem_map]
  constructor
  · rintro none ⟨entry, member, same⟩
    exact none entry member (beq_iff_eq.2 same)
  · intro absent entry member same
    exact absent ⟨entry, member, beq_iff_eq.1 same⟩

theorem get?_of_prefix (grows : entries <+: later) (found : entries.get? key = some held) :
    later.get? key = some held := by
  obtain ⟨more, rfl⟩ := grows
  obtain ⟨entry, first, rfl⟩ := Option.map_eq_some_iff.1 found
  rw [get?, List.find?_append, first]
  rfl

end Entries

inductive Stage where
  | called
  /-- The key was not there. -/
  | missed
  | compiled (own : Shared)
  /-- Finished: the key was there. -/
  | found (held : Shared)
  /-- Finished: the query does not compile. -/
  | refused (fault : Error)
  /-- Finished: what was compiled has been inserted, or given up for what was there. -/
  | kept (held : Shared)

namespace Stage

/-- What a finished call returned. -/
def answer? : Stage → Option (Result Shared)
  | .found held | .kept held => some (.ok held)
  | .refused fault => some (.error fault)
  | .called | .missed | .compiled _ => none

/-- The next step of a call: the entries that it leaves, and how far it is then. -/
def advance (entries : Entries) (number : Nat) (call : Call) : Stage → Entries × Stage
  | .called =>
    match entries.get? call.key with
    | some held => (entries, .found held)
    | none => (entries, .missed)
  | .missed =>
    match call.compiled with
    | .ok program => (entries, .compiled ⟨number, program⟩)
    | .error fault => (entries, .refused fault)
  | .compiled own =>
    match entries.get? call.key with
    | some held => (entries, .kept held)
    | none => (entries ++ [(call.key, own)], .kept own)
  | finished => (entries, finished)

/-- What holds of a call that is so far: what it was given is the entry of its key, and its own
compilation has come out as its stage says. -/
def Fits (entries : Entries) (number : Nat) (call : Call) : Stage → Prop
  | .called | .missed => True
  | .compiled own => own.maker = number ∧ call.compiled = .ok own.program
  | .found held => (call.key, held) ∈ entries
  | .refused fault => call.compiled = .error fault
  | .kept held => (call.key, held) ∈ entries ∧ ∃ program, call.compiled = .ok program

variable {entries later : Entries} {number : Nat} {call : Call} {stage : Stage} {own held : Shared}

theorem advance_called : Stage.called.advance entries number call =
    match entries.get? call.key with
    | some held => (entries, .found held)
    | none => (entries, .missed) := rfl

theorem advance_missed : Stage.missed.advance entries number call =
    match call.compiled with
    | .ok program => (entries, .compiled ⟨number, program⟩)
    | .error fault => (entries, .refused fault) := rfl

theorem advance_compiled : (Stage.compiled own).advance entries number call =
    match entries.get? call.key with
    | some held => (entries, .kept held)
    | none => (entries ++ [(call.key, own)], .kept own) := rfl

theorem advance_called_some (found : entries.get? call.key = some held) :
    Stage.called.advance entries number call = (entries, .found held) := by
  rw [advance_called, found]

theorem advance_called_none (absent : entries.get? call.key = none) :
    Stage.called.advance entries number call = (entries, .missed) := by
  rw [advance_called, absent]

theorem advance_missed_ok {program : Program} (compiled : call.compiled = .ok program) :
    Stage.missed.advance entries number call = (entries, .compiled ⟨number, program⟩) := by
  rw [advance_missed, compiled]

theorem advance_missed_error {fault : Error} (refused : call.compiled = .error fault) :
    Stage.missed.advance entries number call = (entries, .refused fault) := by
  rw [advance_missed, refused]

theorem advance_compiled_some (found : entries.get? call.key = some held) :
    (Stage.compiled own).advance entries number call = (entries, .kept held) := by
  rw [advance_compiled, found]

theorem advance_compiled_none (absent : entries.get? call.key = none) :
    (Stage.compiled own).advance entries number call =
      (entries ++ [(call.key, own)], .kept own) := by
  rw [advance_compiled, absent]

theorem advance_finished (finished : stage.answer?.isSome = true) :
    stage.advance entries number call = (entries, stage) := by
  cases stage with
  | found | refused | kept => rfl
  | called | missed | compiled => cases finished

/-- Only the insertion of a new key changes the entries. -/
theorem advance_entries (entries : Entries) (number : Nat) (call : Call) (stage : Stage) :
    (stage.advance entries number call).1 = entries ∨
      ∃ own, stage = .compiled own ∧ call.key ∉ entries.map (·.1) ∧
        stage.advance entries number call = (entries ++ [(call.key, own)], .kept own) := by
  cases stage with
  | called =>
    left
    cases held : entries.get? call.key with
    | some => rw [advance_called_some held]
    | none => rw [advance_called_none held]
  | missed =>
    left
    cases compiled : call.compiled with
    | ok => rw [advance_missed_ok compiled]
    | error => rw [advance_missed_error compiled]
  | compiled own =>
    cases held : entries.get? call.key with
    | some => exact Or.inl (by rw [advance_compiled_some held])
    | none =>
      exact Or.inr ⟨own, rfl, Entries.get?_eq_none_iff.1 held, advance_compiled_none held⟩
  | found | refused | kept => exact Or.inl rfl

theorem prefix_advance : entries <+: (stage.advance entries number call).1 := by
  obtain same | ⟨own, _, _, inserted⟩ := advance_entries entries number call stage
  · rw [same]
  · rw [inserted]
    exact List.prefix_append entries _

theorem Fits.mono (fits : stage.Fits entries number call) (grows : entries <+: later) :
    stage.Fits later number call := by
  cases stage with
  | called | missed | compiled | refused => exact fits
  | found held => exact grows.subset fits
  | kept held => exact ⟨grows.subset fits.1, fits.2⟩

theorem Fits.advance (fits : stage.Fits entries number call) :
    (stage.advance entries number call).2.Fits (stage.advance entries number call).1 number
      call := by
  cases stage with
  | called =>
    cases held : entries.get? call.key with
    | some found =>
      rw [advance_called_some held]
      exact Entries.mem_of_get? held
    | none =>
      rw [advance_called_none held]
      trivial
  | missed =>
    cases compiled : call.compiled with
    | ok program =>
      rw [advance_missed_ok compiled]
      exact ⟨rfl, compiled⟩
    | error fault =>
      rw [advance_missed_error compiled]
      exact compiled
  | compiled own =>
    cases held : entries.get? call.key with
    | some found =>
      rw [advance_compiled_some held]
      exact ⟨Entries.mem_of_get? held, own.program, fits.2⟩
    | none =>
      rw [advance_compiled_none held]
      exact ⟨List.mem_append_right _ (List.mem_singleton_self _), own.program, fits.2⟩
  | found | refused | kept => exact fits

theorem Fits.mem_entries (fits : stage.Fits entries number call)
    (answered : stage.answer? = some (.ok held)) : (call.key, held) ∈ entries := by
  cases stage with
  | found given =>
    obtain rfl := Except.ok.inj (Option.some.inj answered)
    exact fits
  | kept given =>
    obtain rfl := Except.ok.inj (Option.some.inj answered)
    exact fits.1
  | called | missed | compiled | refused => cases answered

theorem Fits.compiled_eq_error (fits : stage.Fits entries number call) {fault : Error}
    (answered : stage.answer? = some (.error fault)) : call.compiled = .error fault := by
  cases stage with
  | refused given =>
    obtain rfl := Except.error.inj (Option.some.inj answered)
    exact fits
  | called | missed | compiled | found | kept => cases answered

end Stage

structure Caller where
  call : Call
  stage : Stage

def Caller.compiledKey? (caller : Caller) : Option (String × String) :=
  match caller.stage with
  | .kept _ => some caller.call.key
  | _ => none

structure SharedCache where
  entries : Entries
  callers : List Caller

namespace SharedCache

def start (calls : List Call) : SharedCache := ⟨[], calls.map (⟨·, .called⟩)⟩

def turn (s : SharedCache) (number : Nat) : SharedCache :=
  match s.callers[number]? with
  | none => s
  | some caller =>
    let next := caller.stage.advance s.entries number caller.call
    ⟨next.1, s.callers.set number ⟨caller.call, next.2⟩⟩

/-- The steps of some calls, in the order in which they happen. -/
def run (s : SharedCache) (schedule : List Nat) : SharedCache := schedule.foldl turn s

def answer? (s : SharedCache) (number : Nat) : Option (Result Shared) :=
  s.callers[number]?.bind (·.stage.answer?)

def compiledKeys (s : SharedCache) : List (String × String) :=
  s.callers.filterMap Caller.compiledKey?

/-- The cache without the origin of its programs. -/
def programs (s : SharedCache) : ProgramCache :=
  ⟨s.entries.map fun entry => (entry.1, entry.2.program)⟩

theorem programs_congr {s t : SharedCache} (same : s.entries = t.entries) :
    s.programs = t.programs := by
  rw [programs, programs, same]

/-! ## One step -/

section Turn

variable {s : SharedCache} {number other : Nat} {caller : Caller}

theorem turn_eq (found : s.callers[number]? = some caller) :
    s.turn number = ⟨(caller.stage.advance s.entries number caller.call).1,
      s.callers.set number
        ⟨caller.call, (caller.stage.advance s.entries number caller.call).2⟩⟩ := by
  rw [turn, found]

theorem turn_of_advance {call : Call} {stage reached : Stage} {left : Entries}
    (found : s.callers[number]? = some ⟨call, stage⟩)
    (next : stage.advance s.entries number call = (left, reached)) :
    (s.turn number).entries = left ∧ (s.turn number).callers[number]? = some ⟨call, reached⟩ := by
  rw [turn_eq found, next]
  exact ⟨rfl, List.getElem?_set_self (List.getElem?_eq_some_iff.1 found).1⟩

theorem turn_absent (absent : s.callers[number]? = none) : s.turn number = s := by
  rw [turn, absent]

theorem callers_turn_self (found : s.callers[number]? = some caller) :
    (s.turn number).callers[number]? =
      some ⟨caller.call, (caller.stage.advance s.entries number caller.call).2⟩ := by
  rw [turn_eq found, List.getElem?_set_self (List.getElem?_eq_some_iff.1 found).1]

theorem callers_turn_other (differ : number ≠ other) :
    (s.turn number).callers[other]? = s.callers[other]? := by
  cases found : s.callers[number]? with
  | none => rw [turn_absent found]
  | some caller => rw [turn_eq found, List.getElem?_set_ne differ]

theorem turn_finished (found : s.callers[number]? = some caller)
    (finished : caller.stage.answer?.isSome = true) : s.turn number = s := by
  rw [turn_eq found, Stage.advance_finished finished]
  obtain ⟨inside, rfl⟩ := List.getElem?_eq_some_iff.1 found
  exact congrArg (SharedCache.mk s.entries) (List.set_getElem_self inside)

theorem callers_turn_finished (found : s.callers[other]? = some caller)
    (finished : caller.stage.answer?.isSome = true) (number : Nat) :
    (s.turn number).callers[other]? = some caller := by
  by_cases same : number = other
  · rw [same, turn_finished found finished, found]
  · rw [callers_turn_other same, found]

theorem prefix_turn (s : SharedCache) (number : Nat) : s.entries <+: (s.turn number).entries := by
  cases found : s.callers[number]? with
  | none => rw [turn_absent found]
  | some caller =>
    rw [turn_eq found]
    exact Stage.prefix_advance

theorem calls_turn (s : SharedCache) (number : Nat) :
    (s.turn number).callers.map Caller.call = s.callers.map Caller.call := by
  cases found : s.callers[number]? with
  | none => rw [turn_absent found]
  | some caller =>
    obtain ⟨inside, rfl⟩ := List.getElem?_eq_some_iff.1 found
    have within : number < (s.callers.map Caller.call).length := by simpa using inside
    have same : (s.callers.map Caller.call)[number] = s.callers[number].call :=
      List.getElem_map Caller.call
    rw [turn_eq found, List.map_set, ← same, List.set_getElem_self]

structure Coherent (s : SharedCache) : Prop where
  distinct : (s.entries.map (·.1)).Nodup
  made : ∀ entry ∈ s.entries, ∃ caller : Caller, s.callers[entry.2.maker]? = some caller ∧
    caller.stage = .kept entry.2 ∧ caller.call.key = entry.1 ∧
      caller.call.compiled = .ok entry.2.program
  fits : ∀ (number : Nat) (caller : Caller), s.callers[number]? = some caller →
    caller.stage.Fits s.entries number caller.call

theorem coherent_start (calls : List Call) : (start calls).Coherent where
  distinct := List.nodup_nil
  made entry member := absurd member (List.not_mem_nil)
  fits number caller found := by
    rw [start, List.getElem?_map] at found
    obtain ⟨call, _, rfl⟩ := Option.map_eq_some_iff.1 found
    trivial

theorem Coherent.fits_turn (coherent : s.Coherent) (number : Nat) :
    ∀ (other : Nat) (caller : Caller), (s.turn number).callers[other]? = some caller →
      caller.stage.Fits (s.turn number).entries other caller.call := by
  intro other caller found
  by_cases same : number = other
  · cases before : s.callers[number]? with
    | none =>
      rw [turn_absent before] at found ⊢
      exact coherent.fits other caller found
    | some earlier =>
      rw [← same, callers_turn_self before] at found
      obtain rfl := Option.some.inj found
      rw [← same, turn_eq before]
      exact (coherent.fits number earlier before).advance
  · rw [callers_turn_other same] at found
    exact (coherent.fits other caller found).mono (prefix_turn s number)

/-- One step of any call keeps the invariant. -/
theorem Coherent.turn (coherent : s.Coherent) (number : Nat) : (s.turn number).Coherent := by
  have earlier : ∀ entry ∈ s.entries, ∃ caller : Caller,
      (s.turn number).callers[entry.2.maker]? = some caller ∧ caller.stage = .kept entry.2 ∧
        caller.call.key = entry.1 ∧ caller.call.compiled = .ok entry.2.program := by
    intro entry member
    obtain ⟨caller, found, kept, made⟩ := coherent.made entry member
    exact ⟨caller, callers_turn_finished found (by rw [kept]; rfl) number, kept, made⟩
  cases found : s.callers[number]? with
  | none =>
    rw [turn_absent found]
    exact coherent
  | some caller =>
    have entries : (s.turn number).entries =
        (caller.stage.advance s.entries number caller.call).1 := by rw [turn_eq found]
    obtain same | ⟨own, stage, fresh, inserted⟩ :=
      Stage.advance_entries s.entries number caller.call caller.stage
    · rw [same] at entries
      refine ⟨?_, ?_, coherent.fits_turn number⟩
      · rw [entries]
        exact coherent.distinct
      · rw [entries]
        exact earlier
    · rw [inserted] at entries
      have fits := coherent.fits number caller found
      rw [stage] at fits
      have finished := callers_turn_self found
      rw [inserted] at finished
      refine ⟨?_, ?_, coherent.fits_turn number⟩
      · rw [entries, List.map_append]
        exact List.nodup_append_comm.1 (List.nodup_cons.2 ⟨fresh, coherent.distinct⟩)
      · rw [entries]
        intro entry member
        rcases List.mem_append.1 member with before | now
        · exact earlier entry before
        · obtain rfl := List.mem_singleton.1 now
          refine ⟨⟨caller.call, .kept own⟩, ?_, rfl, rfl, fits.2⟩
          rw [fits.1]
          exact finished

end Turn

/-! ## Any interleaving -/

section Run

variable {s : SharedCache}

theorem run_append (s : SharedCache) (schedule more : List Nat) :
    s.run (schedule ++ more) = (s.run schedule).run more :=
  List.foldl_append

theorem Coherent.run (coherent : s.Coherent) (schedule : List Nat) : (s.run schedule).Coherent := by
  induction schedule generalizing s with
  | nil => exact coherent
  | cons number rest induction => exact induction (coherent.turn number)

theorem prefix_run (s : SharedCache) (schedule : List Nat) :
    s.entries <+: (s.run schedule).entries := by
  induction schedule generalizing s with
  | nil => exact List.prefix_rfl
  | cons number rest induction => exact (prefix_turn s number).trans (induction (s.turn number))

/-- What a call has returned does not change any more. -/
theorem callers_run_finished {number : Nat} {caller : Caller}
    (found : s.callers[number]? = some caller) (finished : caller.stage.answer?.isSome = true)
    (schedule : List Nat) : (s.run schedule).callers[number]? = some caller := by
  induction schedule generalizing s with
  | nil => exact found
  | cons other rest induction => exact induction (callers_turn_finished found finished other)

theorem calls_run (s : SharedCache) (schedule : List Nat) :
    (s.run schedule).callers.map Caller.call = s.callers.map Caller.call := by
  induction schedule generalizing s with
  | nil => rfl
  | cons number rest induction => exact (induction (s.turn number)).trans (calls_turn s number)

/-- The cache after some steps of some calls, from an empty one. -/
def after (calls : List Call) (schedule : List Nat) : SharedCache := (start calls).run schedule

theorem coherent_after (calls : List Call) (schedule : List Nat) :
    (after calls schedule).Coherent :=
  (coherent_start calls).run schedule

theorem calls_after (calls : List Call) (schedule : List Nat) :
    (after calls schedule).callers.map Caller.call = calls := by
  rw [after, calls_run, start, List.map_map]
  exact List.map_id calls

theorem caller_after {calls : List Call} {number : Nat} {call : Call}
    (called : calls[number]? = some call) (schedule : List Nat) :
    ∃ stage, (after calls schedule).callers[number]? = some ⟨call, stage⟩ := by
  rw [← calls_after calls schedule, List.getElem?_map] at called
  obtain ⟨⟨_, stage⟩, found, rfl⟩ := Option.map_eq_some_iff.1 called
  exact ⟨stage, found⟩

end Run

/-! ## What callers are given -/

section Answers

variable {s : SharedCache} {number : Nat} {caller : Caller} {held : Shared} {fault : Error}

theorem stage_answer {call : Call} {stage : Stage} {answer : Result Shared}
    (found : s.callers[number]? = some ⟨call, stage⟩) (answered : s.answer? number = some answer) :
    stage.answer? = some answer := by
  rwa [answer?, found] at answered

/-- A call whose query does not compile leaves the entries alone with every step. -/
theorem Coherent.entries_turn_of_error (coherent : s.Coherent) {call : Call} {stage : Stage}
    (found : s.callers[number]? = some ⟨call, stage⟩) (refused : call.compiled = .error fault) :
    (s.turn number).entries = s.entries := by
  rw [turn_eq found]
  obtain same | ⟨own, rfl, _, _⟩ := Stage.advance_entries s.entries number call stage
  · exact same
  · have compiled := (coherent.fits number _ found).2
    rw [refused] at compiled
    cases compiled

theorem Coherent.answers_agree (coherent : s.Coherent) {other : Nat} {second : Caller}
    {given : Shared} (found : s.callers[number]? = some caller)
    (answered : caller.stage.answer? = some (.ok held)) (foundToo : s.callers[other]? = some second)
    (answeredToo : second.stage.answer? = some (.ok given))
    (keys : caller.call.key = second.call.key) : held = given := by
  have first := (coherent.fits number caller found).mem_entries answered
  have later := (coherent.fits other second foundToo).mem_entries answeredToo
  exact congrArg Prod.snd (List.inj_on_of_nodup_map coherent.distinct first later keys)

theorem mem_compiledKeys_iff {key : String × String} : key ∈ s.compiledKeys ↔
    ∃ caller ∈ s.callers, caller.call.key = key ∧ ∃ held, caller.stage = .kept held := by
  rw [compiledKeys, List.mem_filterMap]
  refine exists_congr fun caller => and_congr_right fun _ => ?_
  rw [Caller.compiledKey?]
  cases caller.stage with
  | kept held => simp
  | called | missed | compiled | found | refused => simp

theorem Coherent.mem_keys_iff (coherent : s.Coherent) (key : String × String) :
    key ∈ s.entries.map (·.1) ↔ key ∈ s.compiledKeys := by
  rw [mem_compiledKeys_iff, List.mem_map]
  constructor
  · rintro ⟨entry, member, rfl⟩
    obtain ⟨caller, found, kept, same, _⟩ := coherent.made entry member
    exact ⟨caller, List.mem_of_getElem? found, same, entry.2, kept⟩
  · rintro ⟨caller, member, rfl, held, kept⟩
    obtain ⟨number, found⟩ := List.mem_iff_getElem?.1 member
    have answered : caller.stage.answer? = some (.ok held) := by rw [kept]; rfl
    exact ⟨_, (coherent.fits number caller found).mem_entries answered, rfl⟩

theorem Coherent.size_programs (coherent : s.Coherent) :
    s.programs.size = s.compiledKeys.toFinset.card := by
  have keys : s.compiledKeys.toFinset = (s.entries.map (·.1)).toFinset := by
    ext key
    rw [List.mem_toFinset, List.mem_toFinset, coherent.mem_keys_iff]
  rw [keys, List.toFinset_card_of_nodup coherent.distinct, programs, ProgramCache.size,
    List.length_map, List.length_map]

end Answers

/-! ## One call at a time -/

section Alone

variable {s : SharedCache} {number : Nat} {call : Call}

theorem Coherent.hit_programs (coherent : s.Coherent) (call : Call) :
    (s.programs.hit? call).map (·.2) = (s.entries.get? call.key).map (·.program) := by
  cases held : s.entries.get? call.key with
  | none =>
    cases hit : s.programs.hit? call with
    | none => rfl
    | some found =>
      obtain ⟨entry, member, same⟩ := List.mem_map.1 (ProgramCache.hit?_some hit)
      have key : call.key ∈ s.entries.map (·.1) :=
        List.mem_map.2 ⟨entry, member, (Prod.mk.inj same).1⟩
      exact absurd key (Entries.get?_eq_none_iff.1 held)
  | some shared =>
    have member := Entries.mem_of_get? held
    cases hit : s.programs.hit? call with
    | none => exact absurd rfl (ProgramCache.hit?_none hit _ (List.mem_map_of_mem member))
    | some found =>
      obtain ⟨entry, inside, same⟩ := List.mem_map.1 (ProgramCache.hit?_some hit)
      obtain ⟨key, program⟩ := Prod.mk.inj same
      have one := List.inj_on_of_nodup_map coherent.distinct inside member key
      rw [one] at program
      exact congrArg some program.symm

/-- A call whose steps follow each other returns the program that a single call returns, and leaves
the cache that it leaves. -/
theorem Coherent.alone (coherent : s.Coherent)
    (waiting : s.callers[number]? = some ⟨call, .called⟩) :
    ((s.run [number, number, number]).answer? number).map (·.map (·.program)) =
        some (s.programs.answer call.config call.text) ∧
      (s.run [number, number, number]).programs =
        (s.programs.getOrCompile call.config call.text).2 := by
  have hits := coherent.hit_programs call
  have ran : s.run [number, number, number] = ((s.turn number).turn number).turn number := rfl
  cases held : s.entries.get? call.key with
  | some shared =>
    rw [held] at hits
    obtain ⟨found, hit, program⟩ := Option.map_eq_some_iff.1 hits
    obtain ⟨kept, answered⟩ := turn_of_advance waiting (Stage.advance_called_some held)
    rw [ran, turn_finished answered rfl, turn_finished answered rfl, answer?, answered,
      ProgramCache.answer_of_hit hit, ProgramCache.getOrCompile_eq, hit, program]
    exact ⟨rfl, programs_congr kept⟩
  | none =>
    rw [held] at hits
    have missed := Option.map_eq_none_iff.1 hits
    obtain ⟨before, waits⟩ := turn_of_advance waiting (Stage.advance_called_none held)
    rw [ProgramCache.answer_of_miss missed, ProgramCache.getOrCompile_eq, missed]
    cases compiled : call.compiled with
    | error fault =>
      obtain ⟨kept, answered⟩ := turn_of_advance waits (Stage.advance_missed_error compiled)
      rw [ran, turn_finished answered rfl, answer?, answered]
      exact ⟨rfl, programs_congr (kept.trans before)⟩
    | ok program =>
      obtain ⟨between, holds⟩ := turn_of_advance waits (Stage.advance_missed_ok compiled)
      have fresh : ((s.turn number).turn number).entries.get? call.key = none := by
        rw [between, before, held]
      obtain ⟨inserted, answered⟩ := turn_of_advance holds (Stage.advance_compiled_none fresh)
      rw [between, before] at inserted
      rw [ran, answer?, answered, programs, inserted, List.map_append]
      exact ⟨rfl, rfl⟩

end Alone

end SharedCache

/-- Whatever calls use one cache at once, and in whatever order their steps happen: at all times what
calls of one key have been given is one shared program; an entry is the program that a call of its
key has compiled, and stays under its key for good; the steps of a call whose query does not compile
leave the entries as they are, and only such a call returns a fault; there are as many entries as
different keys that finished calls have compiled; and a call whose steps follow each other does what
a single call of the cache does. -/
theorem concurrent_calls_share_programs (calls : List Call) (schedule : List Nat) :
    (∀ i j first second held given more, calls[i]? = some first → calls[j]? = some second →
      first.key = second.key →
      (SharedCache.after calls schedule).answer? i = some (.ok held) →
      (SharedCache.after calls (schedule ++ more)).answer? j = some (.ok given) →
      held = given) ∧
    (∀ key held, (SharedCache.after calls schedule).entries.get? key = some held →
      (∃ call, calls[held.maker]? = some call ∧ call.key = key ∧
        call.compiled = .ok held.program) ∧
      ∀ more, (SharedCache.after calls (schedule ++ more)).entries.get? key = some held) ∧
    (∀ i call fault, calls[i]? = some call →
      (call.compiled = .error fault → (SharedCache.after calls (schedule ++ [i])).entries =
        (SharedCache.after calls schedule).entries) ∧
      ((SharedCache.after calls schedule).answer? i = some (.error fault) →
        call.compiled = .error fault)) ∧
    (SharedCache.after calls schedule).programs.size =
      (SharedCache.after calls schedule).compiledKeys.toFinset.card ∧
    ∀ i call, (SharedCache.after calls schedule).callers[i]? = some ⟨call, .called⟩ →
      ((SharedCache.after calls (schedule ++ [i, i, i])).answer? i).map (·.map (·.program)) =
        some ((SharedCache.after calls schedule).programs.answer call.config call.text) ∧
      (SharedCache.after calls (schedule ++ [i, i, i])).programs =
        ((SharedCache.after calls schedule).programs.getOrCompile call.config call.text).2 := by
  have coherent := SharedCache.coherent_after calls schedule
  have later (more : List Nat) : SharedCache.after calls (schedule ++ more) =
      (SharedCache.after calls schedule).run more := SharedCache.run_append _ schedule more
  refine ⟨?_, ?_, ?_, coherent.size_programs, fun i call waiting => ?_⟩
  · intro i j first second held given more calledFirst calledSecond keys answered answeredToo
    obtain ⟨stage, found⟩ := SharedCache.caller_after calledFirst schedule
    have finished := SharedCache.stage_answer found answered
    obtain ⟨stageToo, foundToo⟩ := SharedCache.caller_after calledSecond (schedule ++ more)
    have stays := SharedCache.callers_run_finished found (by rw [finished]; rfl) more
    rw [← later] at stays
    exact (SharedCache.coherent_after calls (schedule ++ more)).answers_agree stays finished
      foundToo (SharedCache.stage_answer foundToo answeredToo) keys
  · intro key held found
    refine ⟨?_, fun more => ?_⟩
    · obtain ⟨⟨call, stage⟩, maker, _, same, compiled⟩ :=
        coherent.made (key, held) (Entries.mem_of_get? found)
      refine ⟨call, ?_, same, compiled⟩
      rw [← SharedCache.calls_after calls schedule, List.getElem?_map, maker]
      rfl
    · rw [later]
      exact Entries.get?_of_prefix (SharedCache.prefix_run _ more) found
  · intro i call fault called
    obtain ⟨stage, found⟩ := SharedCache.caller_after called schedule
    refine ⟨fun refused => ?_, fun answered => ?_⟩
    · rw [later]
      exact coherent.entries_turn_of_error found refused
    · exact (coherent.fits i _ found).compiled_eq_error (SharedCache.stage_answer found answered)
  · rw [later]
    exact coherent.alone waiting

def sampleRacing : List Call :=
  [⟨sampleConfig, sampleText⟩, ⟨sampleConfig, sampleText⟩,
    ⟨{ sampleConfig with workers := 0 }, sampleText⟩]

/-- All three look before any inserts, and the second call inserts before the first. -/
def sampleRace : List Nat := [0, 1, 2, 0, 1, 2, 1, 0]

theorem after_sampleRace {call other : Call} {p : Program} {fault : Error}
    (made : call.compiled = .ok p) (refused : other.compiled = .error fault)
    (keys : other.key = call.key) :
    SharedCache.after [call, call, other] sampleRace =
      ⟨[(call.key, ⟨1, p⟩)],
        [⟨call, .kept ⟨1, p⟩⟩, ⟨call, .kept ⟨1, p⟩⟩, ⟨other, .refused fault⟩]⟩ := by
  simp [SharedCache.after, SharedCache.run, SharedCache.start, sampleRace, SharedCache.turn,
    Stage.advance, Entries.get?, made, refused, keys]

/-- The call that loses the race returns the program of the other one. -/
theorem concurrent_calls_share_programs_sample : ∃ held,
    sampleRacing[0]? = some ⟨sampleConfig, sampleText⟩ ∧
    sampleRacing[1]? = some ⟨sampleConfig, sampleText⟩ ∧
    (SharedCache.after sampleRacing sampleRace).answer? 0 = some (.ok held) ∧
    (SharedCache.after sampleRacing sampleRace).answer? 1 = some (.ok held) ∧
    held.maker = 1 ∧
    (SharedCache.after sampleRacing sampleRace).answer? 2 = some (.error (.config .noWorkers)) ∧
    (SharedCache.after sampleRacing sampleRace).programs.size = 1 := by
  obtain ⟨p, compiled⟩ := sample_compiles
  have same : sampleConfig.SameUpToWorkers { sampleConfig with workers := 0 } := rfl
  have refused : (Call.mk { sampleConfig with workers := 0 } sampleText).compiled =
      .error (.config .noWorkers) :=
    (Program.compile_sameUpToWorkers same compiled).trans (if_pos rfl)
  have ends : SharedCache.after sampleRacing sampleRace = _ :=
    after_sampleRace compiled refused (congrArg (Prod.mk sampleText) same.fingerprint_eq.symm)
  have first : (SharedCache.after sampleRacing sampleRace).answer? 0 = some (.ok ⟨1, p⟩) := by
    rw [ends]
    rfl
  obtain ⟨given, second⟩ : ∃ given,
      (SharedCache.after sampleRacing sampleRace).answer? 1 = some (.ok given) :=
    ⟨⟨1, p⟩, by rw [ends]; rfl⟩
  have shared := (concurrent_calls_share_programs sampleRacing sampleRace).1 0 1 _ _ _ given [] rfl
    rfl rfl first second
  refine ⟨given, rfl, rfl, ?_, second, ?_, ?_, ?_⟩
  · rw [first, shared]
  · rw [← shared]
  · rw [ends]
    rfl
  · rw [ends]
    rfl

end AttestedQuery
