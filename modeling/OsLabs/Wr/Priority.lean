import OsLabs.Wr.Invariant

/-!
# Waiting writers and `start_read`

`start_read` tests `writers_queue` for zero, so that no reader starts while a writer
waits. But `start_write` raises `writers_queue` and lowers it again inside one array: a
call that waits leaves no trace, and one that succeeds has undone the raise. The test
therefore never fails, and a reader passes every writer that waits for readers
(`reader_overtakes`). What keeps readers out is `active_writer` alone: a run satisfies
the rule exactly when every `start_read` tried while a writer waits meets an active
writer (`priority_iff`).
-/

namespace OsLabs.Wr

open Concurrent

/-- The writer has called `semop(start_write)` and is blocked in it. -/
def waitsToWrite (x : Process) : Bool := x.pc = .writer .startSleep

/-- The next step of the reader is `semop(start_read)`, called or retried. -/
def callsStartRead (x : Process) : Bool := x.pc = .reader .start || x.pc = .reader .startSleep

section Steps

variable {ι : Type} [DecidableEq ι] {c : Config ι Shared Process}

/-- The action is a `semop(start_read)` that succeeds while a writer is blocked in
`semop(start_write)`. -/
def Overtakes (c : Config ι Shared Process) (a : ι × Event) : Prop :=
  a.2 = .run ∧ callsStartRead (c.loc a.1) = true ∧ (∃ w, waitsToWrite (c.loc w) = true) ∧
    ∃ c', (children ι).next c a = some c' ∧ inRead (c'.loc a.1) = true

/-- Where the action is a `semop(start_read)` tried while a writer is blocked, a writer
is active. -/
def MeetsWriter (c : Config ι Shared Process) (a : ι × Event) : Prop :=
  a.2 = .run → callsStartRead (c.loc a.1) = true → (∃ w, waitsToWrite (c.loc w) = true) →
    c.shared.sem .activeWriter ≠ 0

instance [Fintype ι] (c : Config ι Shared Process) (a : ι × Event) :
    Decidable (MeetsWriter c a) :=
  inferInstanceAs (Decidable (_ = _ → _ = _ → (∃ _, _) → _ ≠ _))

/-- With nobody counted in `writers_queue`, `start_read` succeeds exactly when no writer
is active. -/
theorem startRead_succeeds_iff {t : ι} (hq : c.shared.sem .writersQueue = 0)
    (ht : callsStartRead (c.loc t) = true) :
    (∃ c', (children ι).next c (t, .run) = some c' ∧ inRead (c'.loc t) = true) ↔
      c.shared.sem .activeWriter = 0 := by
  cases hl : c.loc t with
  | mk pc f =>
    have hpc : pc = .reader .start ∨ pc = .reader .startSleep := by
      rw [hl] at ht
      simpa [callsStartRead] using ht
    constructor
    · rintro ⟨c', hn, hin⟩
      obtain ⟨s, x, hs, rfl⟩ := interleave_next.mp hn
      cases hsem : semop c.shared.sem startRead with
      | some v => exact (semop_startRead.mp hsem).1
      | none =>
        rw [hl] at hs
        rcases hpc with rfl | rfl <;>
          simp only [processStep, reader, callSemop, hsem, Option.map_some, Option.map_none] at hs
        · cases hs
          rw [Config.set_loc_self] at hin
          cases hin
        · cases hs
    · intro hw
      have hsem := semop_startRead.mpr ⟨hw, hq, rfl⟩
      have hgo : processStep t .run c.shared ⟨pc, f⟩ = some ({ c.shared with
          sem := Function.update c.shared.sem .numbOfReaders
            (c.shared.sem .numbOfReaders + 1) }, ⟨.reader .read, f⟩) := by
        rcases hpc with rfl | rfl <;> simp only [processStep, reader, callSemop, hsem, id]
      rw [← hl] at hgo
      refine ⟨_, interleave_next.mpr ⟨_, _, hgo, rfl⟩, ?_⟩
      rw [Config.set_loc_self]
      rfl

end Steps

variable {ι : Type} [Fintype ι] [DecidableEq ι]

theorem Inv.overtakes_iff {c : Config ι Shared Process} (hI : Inv c) (a : ι × Event) :
    ¬ Overtakes c a ↔ MeetsWriter c a := by
  obtain ⟨t, e⟩ := a
  constructor
  · rintro h rfl ht hw haw
    exact h ⟨rfl, ht, hw, (startRead_succeeds_iff hI.writersQueue ht).mpr haw⟩
  · rintro h ⟨rfl, ht, hw, hgo⟩
    exact h rfl ht hw ((startRead_succeeds_iff hI.writersQueue ht).mp hgo)

/-- **When waiting writers have priority.** In a run no `start_read` succeeds while a
writer is blocked in `start_write` if and only if every `start_read` tried in such a
state meets an active writer. -/
theorem priority_iff {role : ι → Role} {c : Config ι Shared Process}
    {tr : List (Config ι Shared Process × (ι × Event))}
    (h : (children ι).Trace (initial role) tr c) :
    (∀ p ∈ tr, ¬ Overtakes p.1 p.2) ↔ ∀ p ∈ tr, MeetsWriter p.1 p.2 := by
  constructor
  · intro hall p hp
    exact ((inv_reach (h.reach_of_mem hp)).overtakes_iff p.2).mp (hall p hp)
  · intro hall p hp
    exact ((inv_reach (h.reach_of_mem hp)).overtakes_iff p.2).mpr (hall p hp)

/-- Two writers and a reader. -/
def twoWriters : Fin 3 → Role := ![.writer, .writer, .reader]

/-- The first writer enters; the second writer and the reader wait for it. -/
def bothWaitRun {ι : Type} (w w' r : ι) : List (ι × Event) :=
  [(w, .run), (w, .run), (w, .run), (w', .run), (w', .run), (w', .run), (r, .run), (r, .run),
    (r, .run)]

theorem priority_iff_both_wait : ∃ (c : Config (Fin 3) Shared Process)
    (tr : List (Config (Fin 3) Shared Process × (Fin 3 × Event))),
    (children (Fin 3)).Trace (initial twoWriters) tr c ∧
      waitsToWrite (c.loc 1) = true ∧ (c.loc 2).pc = .reader .startSleep ∧
      ∀ p ∈ tr, ¬ Overtakes p.1 p.2 := by
  have hrun : ((children (Fin 3)).exec MeetsWriter (initial twoWriters) (bothWaitRun 0 1 2)).any
      (fun c => waitsToWrite (c.loc 1) && (c.loc 2).pc = .reader .startSleep) = true := by decide
  obtain ⟨c, hc, hp⟩ := Machine.exists_reachBy_of_exec _ _ hrun
  obtain ⟨tr, htr, hall⟩ := hc.exists_trace
  simp only [Bool.and_eq_true, decide_eq_true_eq] at hp
  exact ⟨c, tr, htr, hp.1, hp.2, (priority_iff htr).mpr hall⟩

/-- Two readers and a writer. -/
def twoReaders : Fin 3 → Role := ![.reader, .reader, .writer]

/-- The first reader enters, the writer falls asleep in `start_write`, and the second
reader comes to its `start_read`. -/
def writerWaitsRun {ι : Type} (r r' w : ι) : List (ι × Event) :=
  [(r, .run), (r, .run), (r, .run), (w, .run), (w, .run), (w, .run), (r', .run), (r', .run)]

/-- The second reader starts although the writer waits. -/
theorem reader_overtakes : ¬ ∀ (c : Config (Fin 3) Shared Process)
    (tr : List (Config (Fin 3) Shared Process × (Fin 3 × Event))),
    (children (Fin 3)).Trace (initial twoReaders) tr c → ∀ p ∈ tr, ¬ Overtakes p.1 p.2 := by
  intro h
  have hrun : ((children (Fin 3)).run (initial twoReaders) (writerWaitsRun 0 1 2)).any
      (fun c => waitsToWrite (c.loc 2) && callsStartRead (c.loc 1) &&
        c.shared.sem .writersQueue = 0 && c.shared.sem .activeWriter = 0) = true := by decide
  obtain ⟨c, hc, hp⟩ := Machine.exists_reach_of_run _ _ hrun
  simp only [Bool.and_eq_true, decide_eq_true_eq] at hp
  obtain ⟨⟨⟨hw, ht⟩, hq⟩, ha⟩ := hp
  obtain ⟨tr, htr, _⟩ := hc.exists_trace
  obtain ⟨c', hn, hin⟩ := (startRead_succeeds_iff hq ht).mpr ha
  exact h c' _ (htr.snoc hn) (c, (1, .run)) (by simp) ⟨rfl, ht, ⟨2, hw⟩, c', hn, hin⟩

end OsLabs.Wr
