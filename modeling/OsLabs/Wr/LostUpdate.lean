import OsLabs.Wr.Monitor

/-!
# The readers-writers monitor on System V semaphores: no lost update

A writer tests `*buf`, and then stores `'a'` or reads the letter once more and stores the
next one; each access is a step of its own. The section excludes the other writers and
the readers, so what a writer has read stays true until it stores (`Follows`), and the
letter is the one after the number of sections completed whenever no writer is inside
(`no_lost_update`). Nobody else changes it under a process that is in its section.
-/

namespace OsLabs.Wr

open Concurrent

variable {s s' : Shared} {x x' : Process}

/-- What a writer in its section knows of the letter. -/
def Follows (s : Shared) (x : Process) : Prop :=
  match x.pc with
  | .writer .test => s.buf = letter s.sections
  | .writer .reset => s.buf = letter s.sections ∧ letter s.sections = 'z'
  | .writer .load => s.buf = letter s.sections ∧ letter s.sections ≠ 'z'
  | .writer (.store c) => c = letter s.sections ∧ letter s.sections ≠ 'z'
  | .writer .print | .writer .stop | .writer .stopSleep => s.buf = letter (s.sections + 1)
  | _ => True

/-- The process is in its section, as a reader or as a writer. -/
def inSection (x : Process) : Bool := inRead x || inWrite x

theorem follows_of_outside (h : inWrite x = false) : Follows s x := by
  obtain ⟨pc, f⟩ := x
  rcases pc with pc | pc | st
  · trivial
  · cases pc with
    | head | sleep | start | startSleep => trivial
    | _ => cases h
  · trivial

/-- The call that ends the section of a writer is recorded in the history. -/
theorem callSemop_cases {ops : List (SemBuf SemNum)} {next : PC} {asleep : Option PC}
    {done : Shared → Shared} {f : Bool}
    (h : callSemop s ops next asleep done f = some (s', x')) :
    (∃ v, s' = done { s with sem := v } ∧ x' = ⟨next, f⟩) ∨
      (s' = s ∧ ∃ pc, asleep = some pc ∧ x' = ⟨pc, f⟩) := by
  unfold callSemop at h
  cases hv : semop s.sem ops with
  | some v =>
    rw [hv] at h
    cases h
    exact Or.inl ⟨v, rfl, rfl⟩
  | none =>
    rw [hv] at h
    obtain ⟨pc, rfl, hpc⟩ := Option.map_eq_some_iff.mp h
    cases hpc
    exact Or.inr ⟨rfl, pc, rfl, rfl⟩

/-- A process outside a writer's section changes neither the letter nor the history. -/
theorem step_outside {ι : Type} {t : ι} {e : Event} (hx : inWrite x = false)
    (h : processStep t e s x = some (s', x')) :
    s'.buf = s.buf ∧ s'.sections = s.sections ∧ (inWrite x' = true → x'.pc = .writer .test) := by
  obtain ⟨pc, f⟩ := x
  cases e with
  | sigint =>
    rcases pc with pc | pc | st
    · cases pc <;> cases h <;> exact ⟨rfl, rfl, fun hin => by cases hin⟩
    · cases pc with
      | head | sleep | start | startSleep =>
        cases h
        exact ⟨rfl, rfl, fun hin => by cases hin⟩
      | _ => cases hx
    · cases h
  | run =>
    rcases pc with pc | pc | st
    · cases pc with
      | head =>
        simp only [processStep, reader] at h
        split_ifs at h <;> cases h <;> exact ⟨rfl, rfl, fun hin => by cases hin⟩
      | sleep | read => cases h; exact ⟨rfl, rfl, fun hin => by cases hin⟩
      | start | startSleep | stop | stopSleep =>
        rcases callSemop_cases h with ⟨v, rfl, rfl⟩ | ⟨rfl, pc, hpc, rfl⟩
        · exact ⟨rfl, rfl, fun hin => by cases hin⟩
        · cases hpc <;> exact ⟨rfl, rfl, fun hin => by cases hin⟩
    · cases pc with
      | head =>
        simp only [processStep, writer] at h
        split_ifs at h <;> cases h <;> exact ⟨rfl, rfl, fun hin => by cases hin⟩
      | sleep => cases h; exact ⟨rfl, rfl, fun hin => by cases hin⟩
      | start | startSleep =>
        rcases callSemop_cases h with ⟨v, rfl, rfl⟩ | ⟨rfl, pc, hpc, rfl⟩
        · exact ⟨rfl, rfl, fun _ => rfl⟩
        · cases hpc <;> exact ⟨rfl, rfl, fun hin => by cases hin⟩
      | _ => cases hx
    · cases h

/-- A writer in its section goes on with the letter, or leaves it at the next one. -/
theorem step_inside {ι : Type} {t : ι} {e : Event} (hx : inWrite x = true)
    (hawake : stopSleeps x = false) (hf : Follows s x)
    (h : processStep t e s x = some (s', x')) :
    Follows s' x' ∧ (inWrite x' = false → s'.buf = letter s'.sections) := by
  obtain ⟨pc, f⟩ := x
  rcases pc with pc | pc | st
  · cases pc <;> cases hx
  · cases e with
    | sigint =>
      cases pc with
      | head | sleep | start | startSleep => cases hx
      | stopSleep => cases hawake
      | _ => cases h; exact ⟨hf, fun hin => by cases hin⟩
    | run =>
      cases pc with
      | head | sleep | start | startSleep => cases hx
      | test =>
        have hf : s.buf = letter s.sections := hf
        simp only [processStep, writer] at h
        split_ifs at h with hz <;> cases h <;> rw [hf] at hz
        · exact ⟨⟨hf, hz⟩, fun hin => by cases hin⟩
        · exact ⟨⟨hf, hz⟩, fun hin => by cases hin⟩
      | reset => cases h; exact ⟨(letter_succ_of_z hf.2).symm, fun hin => by cases hin⟩
      | load => cases h; exact ⟨hf, fun hin => by cases hin⟩
      | store c =>
        cases h
        obtain ⟨rfl, hz⟩ := hf
        exact ⟨(letter_succ_of_ne_z hz).symm, fun hin => by cases hin⟩
      | print => cases h; exact ⟨hf, fun hin => by cases hin⟩
      | stop | stopSleep =>
        rcases callSemop_cases h with ⟨v, rfl, rfl⟩ | ⟨rfl, pc, hpc, rfl⟩
        · exact ⟨trivial, fun _ => hf⟩
        · cases hpc <;> exact ⟨hf, fun hin => by cases hin⟩
  · cases hx

variable {ι : Type} [Fintype ι] {c : Config ι Shared Process}

/-- The letter is the one after the sections completed, but for what a writer inside has
done to it. -/
structure Cycle (c : Config ι Shared Process) : Prop where
  monitor : Inv c
  follows : ∀ t, Follows c.shared (c.loc t)
  free : (∀ t, inWrite (c.loc t) = false) → c.shared.buf = letter c.shared.sections

theorem cycle_initial (role : ι → Role) : Cycle (initial role) := by
  have hout : ∀ t, inWrite ((initial role).loc t) = false := by
    intro t
    simp only [initial]
    cases role t <;> rfl
  exact ⟨inv_initial role, fun t => follows_of_outside (hout t), fun _ => rfl⟩

variable [DecidableEq ι]

omit [DecidableEq ι] in
/-- While `t` is in its section the letter is changed by nobody else. -/
theorem Inv.buf_of_ne (hI : Inv c) {t u : ι} (ht : inSection (c.loc t) = true) (hu : u ≠ t)
    {e : Event} (h : processStep u e c.shared (c.loc u) = some (s', x')) :
    s'.buf = c.shared.buf := by
  have hout : inWrite (c.loc u) = false := by
    by_contra hin
    have hin : inWrite (c.loc u) = true := by simpa using hin
    rcases Bool.or_eq_true_iff.mp ht with hr | hw
    · rw [hI.no_reader hin t] at hr
      cases hr
    · exact hu (hI.writer_unique hin hw)
  exact (step_outside hout h).1

theorem Cycle.step (hC : Cycle c) {t : ι} {e : Event}
    (h : processStep t e c.shared (c.loc t) = some (s', x')) : Cycle (c.set t s' x') := by
  have hI' := inv_step hC.monitor h
  by_cases ht : inWrite (c.loc t) = true
  · obtain ⟨hf, hleave⟩ := step_inside ht (hC.monitor.awake t) (hC.follows t) h
    refine ⟨hI', ?_, fun hnone => hleave (by simpa using hnone t)⟩
    refine Config.forall_set (P := fun _ y => Follows s' y) hf fun u hu => ?_
    apply follows_of_outside
    by_contra hin
    exact hu (hC.monitor.writer_unique (by simpa using hin) ht)
  · have hout : inWrite (c.loc t) = false := by simpa using ht
    obtain ⟨hbuf, hsections, henter⟩ := step_outside hout h
    have hsame (y : Process) (hy : Follows c.shared y) : Follows s' y := by
      unfold Follows at hy ⊢
      rwa [hbuf, hsections]
    have hself : Follows s' x' := by
      by_cases hx : inWrite x' = true
      · -- the writer enters, so no other one is inside
        have hnone : ∀ u, inWrite (c.loc u) = false := by
          intro u
          by_cases hu : u = t
          · rw [hu, hout]
          · by_contra hin
            refine hu (hI'.writer_unique ?_ (by simpa using hx))
            rw [Config.set_loc_of_ne hu]
            simpa using hin
        unfold Follows
        rw [henter hx, hbuf, hsections]
        exact hC.free hnone
      · exact follows_of_outside (by simpa using hx)
    refine ⟨hI', Config.forall_set (P := fun _ y => Follows s' y) hself
      fun u _ => hsame _ (hC.follows u), fun hnone => ?_⟩
    rw [Config.set_shared, hbuf, hsections]
    apply hC.free
    intro u
    by_cases hu : u = t
    · rw [hu, hout]
    · simpa [Config.set_loc_of_ne hu] using hnone u

theorem cycle_reach {role : ι → Role} (h : (children ι).Reach (initial role) c) : Cycle c :=
  Machine.ReachBy.interleave_invariant h (cycle_initial role) fun _ _ _ _ _ hC _ hs => hC.step hs

/-- Between two reads of a process in its section the letter stays, whatever the others
do. -/
theorem buf_stable {role : ι → Role} (h : (children ι).Reach (initial role) c) {t : ι}
    (ht : inSection (c.loc t) = true) {c' : Config ι Shared Process}
    (hrun : (children ι).ReachBy (fun _ a => a.1 ≠ t) c c') : c'.shared.buf = c.shared.buf := by
  suffices hkeep : Inv c' ∧ c'.loc t = c.loc t ∧ c'.shared.buf = c.shared.buf from hkeep.2.2
  refine hrun.interleave_invariant
    (I := fun d => Inv d ∧ d.loc t = c.loc t ∧ d.shared.buf = c.shared.buf)
    ⟨inv_reach h, rfl, rfl⟩ ?_
  rintro d u e s x ⟨hI, hloc, hbuf⟩ hne hs
  refine ⟨inv_step hI hs, ?_, ?_⟩
  · rw [Config.set_loc_of_ne (Ne.symm hne), hloc]
  · exact (hI.buf_of_ne (by rwa [hloc]) hne hs).trans hbuf

/-- **No lost update, and stable reads.** In every state reached by any number of readers
and writers: if no writer is in its section, `*buf` is the letter after as many steps from
`'a'` as sections were completed; a process in its section sees no change by the others,
as long as they run; the letter a reader prints is the one after the sections completed so
far, between `'a'` and `'z'`, and the letter a writer prints is the next one. -/
theorem no_lost_update {role : ι → Role} (h : (children ι).Reach (initial role) c) :
    ((∀ t, inWrite (c.loc t) = false) → c.shared.buf = letter c.shared.sections) ∧
    (∀ t, inSection (c.loc t) = true → ∀ c', (children ι).ReachBy (fun _ a => a.1 ≠ t) c c' →
      c'.shared.buf = c.shared.buf) ∧
    (∀ t, (c.loc t).pc = .reader .read →
      c.shared.buf = letter c.shared.sections ∧ 'a' ≤ c.shared.buf ∧ c.shared.buf ≤ 'z') ∧
    (∀ t, (c.loc t).pc = .writer .print → c.shared.buf = letter (c.shared.sections + 1)) := by
  have hC := cycle_reach h
  refine ⟨hC.free, fun t ht c' hrun => buf_stable h ht hrun, fun t ht => ?_, fun t ht => ?_⟩
  · have hread : inRead (c.loc t) = true := by
      unfold inRead place
      rw [ht]
      rfl
    have hbuf : c.shared.buf = letter c.shared.sections := by
      apply hC.free
      intro u
      by_contra hin
      rw [hC.monitor.no_reader (by simpa using hin) t] at hread
      cases hread
    rw [hbuf]
    exact ⟨rfl, letter_mem_range _⟩
  · have hf := hC.follows t
    unfold Follows at hf
    rwa [ht] at hf

/-- The writer completes a section, and then the reader starts one. -/
def writeThenReadRun {ι : Type} (r w : ι) : List (ι × Event) :=
  List.replicate 8 (w, .run) ++ List.replicate 3 (r, .run)

theorem no_lost_update_one_section : ∃ c : Config (Fin 2) Shared Process,
    (c.loc 0).pc = .reader .read ∧ c.shared.sections = 1 ∧ c.shared.buf = letter 1 := by
  have hrun : ((children (Fin 2)).run (initial onePair) (writeThenReadRun 0 1)).any
      (fun c => (c.loc 0).pc = .reader .read && c.shared.sections = 1) = true := by decide
  obtain ⟨c, hc, hp⟩ := Machine.exists_reach_of_run _ _ hrun
  simp only [Bool.and_eq_true, decide_eq_true_eq] at hp
  obtain ⟨hread, hsections⟩ := hp
  have hbuf := ((no_lost_update hc).2.2.1 0 hread).1
  rw [hsections] at hbuf
  exact ⟨c, hread, hsections, hbuf⟩

end OsLabs.Wr
