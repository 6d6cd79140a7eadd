import OsLabs.Wr.Monitor
import OsLabs.Concurrent.Termination

/-!
# The readers-writers monitor on System V semaphores: shutdown

SIGINT may come to a process between its test of `f_sigint` and its `semop`. The call then
waits without an `EINTR` to end it, and the parent waits for the process in `waitpid`.

No such wait is for ever. Once the signal has come to every process, each of them ends its
turn and exits, in a bounded number of steps; a process that waits in `start_read` or
`start_write` is let in by those that leave, or interrupted by a further signal. When all
have exited, the semaphores have the values that `main` gave them (`sigint_shutdown`).
-/

namespace OsLabs.Wr

open Concurrent

/-- The step is one of the process itself. -/
def Event.own (e : Event) : Bool :=
  match e with
  | .run => true
  | .sigint => false

/-- The steps that a process makes at most once its `f_sigint` is cleared. -/
def stepsLeft (x : Process) : ℕ :=
  match x.pc with
  | .exited _ => 0
  | .reader pc =>
      match pc with
      | .head => 1
      | .stopSleep => 2
      | .stop => 3
      | .read => 4
      | .startSleep => 5
      | .start => 6
      | .sleep => 7
  | .writer pc =>
      match pc with
      | .head => 1
      | .stopSleep => 2
      | .stop => 3
      | .print => 4
      | .reset | .store _ => 5
      | .load => 6
      | .test => 7
      | .startSleep => 8
      | .start => 9
      | .sleep => 10

theorem stepsLeft_le (x : Process) : stepsLeft x ≤ 10 := by
  obtain ⟨pc, f⟩ := x
  rcases pc with pc | pc | st
  · cases pc <;> simp [stepsLeft]
  · cases pc <;> simp [stepsLeft]
  · simp [stepsLeft]

section Steps

variable {s s' : Shared} {x x' : Process}

/-- A call of `semop` goes on or falls asleep, and the flag stays. -/
theorem callSemop_stepsLeft {ops : List (SemBuf SemNum)} {next : PC} {asleep : Option PC}
    {done : Shared → Shared} {f : Bool} {k : ℕ} (hnext : stepsLeft ⟨next, f⟩ + 1 ≤ k)
    (hasleep : ∀ pc, asleep = some pc → stepsLeft ⟨pc, f⟩ + 1 ≤ k)
    (h : callSemop s ops next asleep done f = some (s', x')) :
    x'.fSigint = f ∧ stepsLeft x' + 1 ≤ k := by
  unfold callSemop at h
  split at h
  · cases h
    exact ⟨rfl, hnext⟩
  · obtain ⟨pc, hpc, he⟩ := Option.map_eq_some_iff.mp h
    cases he
    exact ⟨rfl, hasleep pc hpc⟩

theorem reader_stepsLeft {pc : ReaderPC} (h : reader s false pc = some (s', x')) :
    x'.fSigint = false ∧ stepsLeft x' + 1 ≤ stepsLeft ⟨.reader pc, false⟩ := by
  cases pc with
  | head | sleep | read =>
    cases h
    exact ⟨rfl, Nat.le_refl _⟩
  | start | stop =>
    exact callSemop_stepsLeft (by decide) (by rintro _ ⟨⟩; decide) h
  | startSleep | stopSleep =>
    exact callSemop_stepsLeft (by decide) (by rintro _ ⟨⟩) h

theorem writer_stepsLeft {pc : WriterPC} (h : writer s false pc = some (s', x')) :
    x'.fSigint = false ∧ stepsLeft x' + 1 ≤ stepsLeft ⟨.writer pc, false⟩ := by
  cases pc with
  | head | sleep | reset | load | store | print =>
    cases h
    exact ⟨rfl, Nat.le_refl _⟩
  | test =>
    simp only [writer] at h
    split_ifs at h <;> cases h <;> exact ⟨rfl, by simp [stepsLeft]⟩
  | start | stop =>
    exact callSemop_stepsLeft (by decide) (by rintro _ ⟨⟩; decide) h
  | startSleep | stopSleep =>
    exact callSemop_stepsLeft (by decide) (by rintro _ ⟨⟩) h

/-- A flag that is cleared stays so, a step of the process itself brings it nearer to its
end, and a further signal does not take it back. -/
theorem step_stepsLeft {ι : Type} {t : ι} {e : Event} (hflag : x.fSigint = false)
    (h : processStep t e s x = some (s', x')) :
    x'.fSigint = false ∧ stepsLeft x' + e.own.toNat ≤ stepsLeft x := by
  obtain ⟨pc, f⟩ := x
  cases hflag
  cases e with
  | run =>
    rcases pc with pc | pc | st
    · exact reader_stepsLeft h
    · exact writer_stepsLeft h
    · cases h
  | sigint =>
    rcases pc with pc | pc | st
    · cases pc <;> cases h <;> exact ⟨rfl, by decide⟩
    · cases pc <;> cases h <;> exact ⟨rfl, by simp [stepsLeft, PC.asleep, Event.own]⟩
    · cases h

end Steps

variable {ι : Type} [Fintype ι] [DecidableEq ι] {c : Config ι Shared Process}

/-- What is left when all processes have exited. -/
structure Stopped (c : Config ι Shared Process) : Prop where
  exited : ∀ t, exited (c.loc t) = true
  sem : c.shared.sem = initVal

omit [DecidableEq ι] in
theorem Inv.stopped (hI : Inv c)
    (hstuck : ∀ t, processStep t .run c.shared (c.loc t) = none) : Stopped c := by
  have hall : ∀ t, Wr.exited (c.loc t) = true := by
    intro t
    by_contra ht
    obtain ⟨u, -, s, x, hs⟩ := hI.progress (Bool.not_eq_true _ ▸ ht)
    rw [hstuck u] at hs
    cases hs
  exact ⟨hall, hI.restored hall⟩

/-- **Shutdown.** From every reachable state in which SIGINT has come to all processes,
whatever the interleaving and whatever signals are still to come: every process makes at
most ten more steps, and where none of them can go on, all have exited and the
semaphores have their initial values. -/
theorem sigint_shutdown {role : ι → Role} (h : (children ι).Reach (initial role) c)
    (hflag : ∀ t, (c.loc t).fSigint = false) :
    (children ι).EachWindsDown Event.own Stopped 10 c := by
  apply interleave_windsDown (fun c => Inv c ∧ ∀ t, (c.loc t).fSigint = false)
    stepsLeft stepsLeft_le ⟨inv_reach h, hflag⟩
  · rintro c t e s x ⟨hI, hflag⟩ hs
    obtain ⟨hx, hless⟩ := step_stepsLeft (hflag t) hs
    refine ⟨⟨inv_step hI hs, ?_⟩, hless⟩
    exact Config.forall_set (P := fun _ (x : Process) => x.fSigint = false) hx fun u _ => hflag u
  · rintro c ⟨hI, -⟩ hnone
    exact hI.stopped fun t => hnone t .run rfl

/-- The reader enters, the signal comes to the writer before its `semop`, which then waits,
and to the reader. -/
def lateSignal {ι : Type} (r w : ι) : List (ι × Event) :=
  [(r, .run), (r, .run), (r, .run), (w, .run), (w, .run), (w, .sigint), (w, .run), (r, .sigint)]

/-- The writer that the signal has missed waits for the reader, and gets out. -/
theorem shutdown_late_signal : ∃ c : Config (Fin 2) Shared Process,
    (c.loc 1).pc = .writer .startSleep ∧
      ∃ tr c', (children (Fin 2)).Trace c tr c' ∧ tr.length ≤ 20 ∧ Stopped c' := by
  have hrun : ((children (Fin 2)).run (initial onePair) (lateSignal 0 1)).any
      (fun c => !(c.loc 0).fSigint && !(c.loc 1).fSigint &&
        (c.loc 1).pc = .writer .startSleep) = true := by decide
  obtain ⟨c, hc, hp⟩ := Machine.exists_reach_of_run _ _ hrun
  simp only [Bool.and_eq_true, decide_eq_true_eq, Bool.not_eq_true'] at hp
  obtain ⟨⟨h0, h1⟩, hpc⟩ := hp
  have hwinds := sigint_shutdown hc (by simpa [Fin.forall_fin_two] using ⟨h0, h1⟩)
  obtain ⟨tr, c', htr, hown, hdone⟩ := hwinds.exists_done
  have hle := hwinds.bounded tr c' htr
  rw [List.countP_eq_length.mpr hown] at hle
  exact ⟨c, hpc, tr, c', htr, hle, hdone⟩

end OsLabs.Wr
