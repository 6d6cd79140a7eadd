import OsLabs.Wr.Invariant

/-!
# The readers-writers monitor on System V semaphores: exclusion and progress

`monitor_spec` collects what holds in every reachable state, for any number of readers
and writers and with SIGINT delivered anywhere: the counters are exact, writers exclude
each other and the readers, some process can run while one is alive, and the semaphores
are back at their initial values once all processes have exited.
-/

namespace OsLabs.Wr

open Concurrent Concurrent.ReadersWriters

/-- The process has exited. -/
def exited (x : Process) : Bool :=
  match x.pc with
  | .exited _ => true
  | _ => false

/-- The process itself can make a step. -/
def CanRun {ι : Type} (c : Config ι Shared Process) (t : ι) : Prop :=
  ∃ s x, processStep t .run c.shared (c.loc t) = some (s, x)

theorem not_sections_of_exited {x : Process} (h : exited x = true) :
    inRead x = false ∧ inWrite x = false := by
  obtain ⟨pc, f⟩ := x
  rcases pc with pc | pc | st
  · simp [exited] at h
  · simp [exited] at h
  · exact ⟨rfl, rfl⟩

/-- A process asleep waits to start a section. -/
theorem asleep_cases {x : Process} (ha : x.pc.asleep = true) (hstop : stopSleeps x = false) :
    x.pc = .reader .startSleep ∨ x.pc = .writer .startSleep := by
  obtain ⟨pc, f⟩ := x
  rcases pc with pc | pc | st
  · cases pc with
    | startSleep => exact Or.inl rfl
    | stopSleep => cases hstop
    | _ => cases ha
  · cases pc with
    | startSleep => exact Or.inr rfl
    | stopSleep => cases hstop
    | _ => cases ha
  · cases ha

section Steps

variable {ι : Type} {c : Config ι Shared Process} {t : ι}

/-- Outside a sleeping `semop` a process can always run. -/
theorem canRun_of_awake (hx : exited (c.loc t) = false) (ha : (c.loc t).pc.asleep = false) :
    CanRun c t := by
  cases hl : c.loc t with
  | mk pc f =>
    rw [hl] at hx ha
    unfold CanRun
    rw [hl]
    rcases pc with pc | pc | st
    · cases pc with
      | head => cases f <;> exact ⟨_, _, rfl⟩
      | sleep | read => exact ⟨_, _, rfl⟩
      | start | stop =>
        simp only [processStep, reader, callSemop]
        split <;> exact ⟨_, _, rfl⟩
      | startSleep | stopSleep => simp [PC.asleep] at ha
    · cases pc with
      | head => cases f <;> exact ⟨_, _, rfl⟩
      | test =>
        simp only [processStep, writer]
        split_ifs <;> exact ⟨_, _, rfl⟩
      | sleep | reset | load | store | print => exact ⟨_, _, rfl⟩
      | start | stop =>
        simp only [processStep, writer, callSemop]
        split <;> exact ⟨_, _, rfl⟩
      | startSleep | stopSleep => simp [PC.asleep] at ha
    · simp [exited] at hx

/-- A process in a section is neither exited nor asleep, once it does not sleep in the
call that ends the section. -/
theorem canRun_of_section (hs : inRead (c.loc t) = true ∨ inWrite (c.loc t) = true)
    (hstop : stopSleeps (c.loc t) = false) : exited (c.loc t) = false ∧ CanRun c t := by
  have hx : exited (c.loc t) = false := by
    by_contra h
    have hout := not_sections_of_exited (Bool.not_eq_false _ ▸ h)
    simp [hout] at hs
  refine ⟨hx, canRun_of_awake hx ?_⟩
  by_contra ha
  rcases asleep_cases (by simpa using ha) hstop with hpc | hpc
  · simp only [inRead, inWrite, place, hpc] at hs
    rcases hs with hs | hs <;> cases hs
  · simp only [inRead, inWrite, place, hpc] at hs
    rcases hs with hs | hs <;> cases hs

end Steps

variable {ι : Type} [Fintype ι] {c : Config ι Shared Process}

theorem Inv.writer_unique (hI : Inv c) {t u : ι} (ht : inWrite (c.loc t) = true)
    (hu : inWrite (c.loc u) = true) : t = u :=
  eq_of_writes hI.safe.1 (Place.writes_pos.mpr ht) (Place.writes_pos.mpr hu)

theorem Inv.no_reader (hI : Inv c) {t : ι} (ht : inWrite (c.loc t) = true) (u : ι) :
    inRead (c.loc u) = false := by
  have hreads := reads_eq_zero_of_writes hI.safe (Place.writes_pos.mpr ht) u
  exact Bool.toNat_eq_zero.mp hreads

omit [Fintype ι] in
theorem canRun_of_semop {t : ι} {a : Call} (hs : semop c.shared.sem (encoding.ops a) ≠ none)
    (hat : (a = .startRead ∧ (c.loc t).pc = .reader .startSleep) ∨
      (a = .startWrite ∧ (c.loc t).pc = .writer .startSleep)) : CanRun c t := by
  obtain ⟨v, hv⟩ := Option.ne_none_iff_exists'.mp hs
  unfold CanRun
  rcases hat with ⟨rfl, hpc⟩ | ⟨rfl, hpc⟩
  · have hcall : semop c.shared.sem startRead = some v := hv
    simp only [processStep, hpc, reader, callSemop, hcall]
    exact ⟨_, _, rfl⟩
  · have hcall : semop c.shared.sem startWrite = some v := hv
    simp only [processStep, hpc, writer, callSemop, hcall]
    exact ⟨_, _, rfl⟩

/-- Whoever waits, waits for somebody in a section, and that process can run. -/
theorem Inv.progress (hI : Inv c) {t : ι} (ht : exited (c.loc t) = false) :
    ∃ u, exited (c.loc u) = false ∧ CanRun c u := by
  by_cases ha : (c.loc t).pc.asleep = true
  · have hinside : ∀ u, inRead (c.loc u) = true ∨ inWrite (c.loc u) = true →
        exited (c.loc u) = false ∧ CanRun c u := fun u hu => canRun_of_section hu (hI.awake u)
    have hpos := fun u hu => hinside u (Or.imp Place.reads_pos.mp Place.writes_pos.mp hu)
    rcases asleep_cases ha (hI.awake t) with hpc | hpc
    · exact encoding_faithful.exists_running hI.toRepresents hpos (Or.inl rfl)
        fun hs => ⟨ht, canRun_of_semop hs (Or.inl ⟨rfl, hpc⟩)⟩
    · exact encoding_faithful.exists_running hI.toRepresents hpos (Or.inr rfl)
        fun hs => ⟨ht, canRun_of_semop hs (Or.inr ⟨rfl, hpc⟩)⟩
  · exact ⟨t, ht, canRun_of_awake ht (by simpa using ha)⟩

theorem Inv.restored (hI : Inv c) (h : ∀ t, exited (c.loc t) = true) :
    c.shared.sem = initVal := by
  have hr : count inRead c.loc = 0 :=
    count_eq_zero_iff.mpr fun t => (not_sections_of_exited (h t)).1
  have hw : count inWrite c.loc = 0 :=
    count_eq_zero_iff.mpr fun t => (not_sections_of_exited (h t)).2
  have h1 := hI.readers
  have h2 := hI.writers
  have h3 := hI.complement
  funext k
  cases k with
  | activeWriter => simp only [initVal]; omega
  | numbOfReaders => simp only [initVal]; omega
  | writersQueue => exact hI.writersQueue
  | readersQueue => exact hI.readersQueue
  | binSem => simp only [initVal]; omega

/-- **The monitor.** In every state reached by any number of readers and writers, under
every interleaving of their `semop` calls and every delivery of SIGINT: both counters
are exact, `active_writer = 1 - bin_sem`, the queue counters are zero, a writer in its
section is alone, while a process is alive some process can run, and when all have
exited the semaphores have their initial values. -/
theorem monitor_spec [DecidableEq ι] {role : ι → Role} (h : (children ι).Reach (initial role) c) :
    c.shared.sem .numbOfReaders = count inRead c.loc ∧
    c.shared.sem .activeWriter = count inWrite c.loc ∧
    c.shared.sem .activeWriter + c.shared.sem .binSem = 1 ∧
    c.shared.sem .writersQueue = 0 ∧ c.shared.sem .readersQueue = 0 ∧
    (∀ t u, inWrite (c.loc t) = true → inWrite (c.loc u) = true → t = u) ∧
    (∀ t u, inWrite (c.loc t) = true → inRead (c.loc u) = false) ∧
    (∀ t, exited (c.loc t) = false → ∃ u, exited (c.loc u) = false ∧ CanRun c u) ∧
    ((∀ t, exited (c.loc t) = true) → c.shared.sem = initVal) := by
  have hI := inv_reach h
  exact ⟨hI.readers, hI.writers, hI.complement, hI.writersQueue, hI.readersQueue,
    fun _ _ => hI.writer_unique, fun _ u ht => hI.no_reader ht u, fun _ => hI.progress,
    hI.restored⟩

/-- One reader and one writer. -/
def onePair : Fin 2 → Role := ![.reader, .writer]

/-- The reader enters, the writer falls asleep in `start_write` and is interrupted, and
the reader leaves by its flag. -/
def interruptedRun {ι : Type} (r w : ι) : List (ι × Event) :=
  [(r, .run), (r, .run), (r, .run), (w, .run), (w, .run), (w, .run), (w, .sigint), (r, .sigint),
    (r, .run), (r, .run), (r, .run)]

theorem monitor_spec_interrupted : ∃ c : Config (Fin 2) Shared Process,
    (∀ t, exited (c.loc t) = true) ∧ c.shared.sem = initVal := by
  have hrun : ((children (Fin 2)).run (initial onePair) (interruptedRun 0 1)).any
      (fun c => exited (c.loc 0) && exited (c.loc 1)) = true := by decide
  obtain ⟨c, hc, hp⟩ := Machine.exists_reach_of_run _ _ hrun
  have hall : ∀ t, exited (c.loc t) = true := by
    simpa [Fin.forall_fin_two] using hp
  exact ⟨c, hall, (monitor_spec hc).2.2.2.2.2.2.2.2 hall⟩

end OsLabs.Wr
