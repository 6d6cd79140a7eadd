import OsLabs.Winwr.Counters

/-!
# The readers-writers monitor on Windows events: no lost wake-up

A thread blocks because it has read a counter that is not zero; the thread that it has
seen there is on its way to a `SetEvent`. `ReadPending` and `WritePending` say that the
event in question is set, or that some thread is still to set it.

`can_read` is given on: a reader that consumes it sets it again, so `ReadPending` is
never lost. `can_write` is reset by every writer that leaves, but that writer sets an
event itself: `can_write`, or `can_read` where it finds a reader in the queue, and this
reader sets `can_write` when it leaves. Where all threads have come to rest outside or
at a wait, nothing is on its way any more, so an event is set (`no_lost_wakeup`).
-/

namespace OsLabs.Winwr

open Concurrent

/-! ## Who is still to set an event -/

/-- The reader has passed its wait and not yet set `can_read`. -/
def willSetRead (x : Thread) : Bool :=
  match x with
  | .reader .lock | .reader .decQueue | .reader .incActive | .reader .setRead => true
  | _ => false

/-- The reader has passed its wait and not yet come to the end of `stop_read`. -/
def passedReadWait (x : Thread) : Bool :=
  match x with
  | .reader .release | .reader .read | .reader .decActive | .reader .testZero
  | .reader .setWrite => true
  | x => willSetRead x

/-- The reader is in the queue and has not passed its wait. -/
def beforeReadWait (x : Thread) : Bool :=
  match x with
  | .reader .testWriter | .reader .testQueue | .reader .wait => true
  | _ => false

/-- The writer has passed its wait, and it is not settled that it will set `can_read` and
not `can_write`. -/
def passedWriteWait (x : Thread) : Bool :=
  match x with
  | .writer .decQueue | .writer .incActive | .writer .resetWrite | .writer .testQueue
  | .writer .setWrite => true
  | x => inWrite x

/-- The writer is counted, or has been, and will set `can_read` if it finds a reader in
the queue. -/
def owesRead (x : Thread) : Bool :=
  match x with
  | .writer .incActive | .writer .resetWrite | .writer .testQueue | .writer .setRead => true
  | x => inWritersQueue x || inWrite x

section Steps

variable {ι : Type} {t : ι} {e : Event} {s s' : Shared ι} {x x' : Thread}

/-- What `can_read` is consumed for is paid back. -/
theorem willSetRead_step (h : threadStep t e s x = some (s', x'))
    (hr : s.canRead = true ∨ willSetRead x = true) :
    s'.canRead = true ∨ willSetRead x' = true := by
  cases e with
  | ctrlC => cases h; exact hr
  | run =>
    cases x with
    | reader pc =>
      cases pc with
      | wait =>
        obtain ⟨-, he⟩ := step_wait_canRead.mp h
        cases he
        exact Or.inr rfl
      | lock =>
        obtain ⟨-, he⟩ := step_wait_mutex.mp h
        cases he
        exact Or.inr rfl
      | decQueue | incActive =>
        cases h
        exact Or.inr rfl
      | setRead =>
        cases h
        exact Or.inl rfl
      | exited => cases h
      | _ =>
        cases h
        exact Or.inl (hr.resolve_right Bool.false_ne_true)
    | writer pc =>
      have hset : s.canRead = true := hr.resolve_right Bool.false_ne_true
      cases pc with
      | wait =>
        obtain ⟨-, he⟩ := step_wait_canWrite.mp h
        cases he
        exact Or.inl hset
      | setRead =>
        cases h
        exact Or.inl rfl
      | exited => cases h
      | _ =>
        cases h
        exact Or.inl hset

/-- A thread past its wait comes to set `can_write`, except a reader that leaves others
behind and a writer that finds a reader in the queue. -/
theorem passed_step (h : threadStep t e s x = some (s', x'))
    (hp : s.canWrite = true ∨ passedReadWait x = true ∨ passedWriteWait x = true) :
    s'.canWrite = true ∨ passedReadWait x' = true ∨ passedWriteWait x' = true ∨
      (x = .reader .testZero ∧ s.activeReaders ≠ 0) ∨
      (x = .writer .testQueue ∧ x' = .writer .setRead ∧ 0 < s.readersQueue) := by
  cases e with
  | ctrlC =>
    cases h
    exact hp.imp_right (Or.imp_right Or.inl)
  | run =>
    cases x with
    | reader pc =>
      cases pc with
      | head | sleep | incQueue | testWriter | testQueue =>
        cases h
        exact Or.inl (hp.resolve_right (by rintro (hx | hx) <;> cases hx))
      | wait =>
        obtain ⟨-, he⟩ := step_wait_canRead.mp h
        cases he
        exact Or.inr (Or.inl rfl)
      | lock =>
        obtain ⟨-, he⟩ := step_wait_mutex.mp h
        cases he
        exact Or.inr (Or.inl rfl)
      | testZero =>
        cases h
        by_cases hz : s.activeReaders = 0
        · rw [if_pos hz]
          exact Or.inr (Or.inl rfl)
        · exact Or.inr (Or.inr (Or.inr (Or.inl ⟨rfl, hz⟩)))
      | setWrite =>
        cases h
        exact Or.inl rfl
      | exited => cases h
      | _ =>
        cases h
        exact Or.inr (Or.inl rfl)
    | writer pc =>
      cases pc with
      | head | sleep | incQueue | testReaders | setRead =>
        cases h
        exact Or.inl (hp.resolve_right (by rintro (hx | hx) <;> cases hx))
      | testWriter =>
        cases h
        dsimp only
        split_ifs
        · exact Or.inl (hp.resolve_right (by rintro (hx | hx) <;> cases hx))
        · exact Or.inr (Or.inr (Or.inl rfl))
      | wait =>
        obtain ⟨-, he⟩ := step_wait_canWrite.mp h
        cases he
        exact Or.inr (Or.inr (Or.inl rfl))
      | test =>
        cases h
        dsimp only
        split_ifs <;> exact Or.inr (Or.inr (Or.inl rfl))
      | testQueue =>
        cases h
        by_cases hq : s.readersQueue > 0
        · rw [if_pos hq]
          exact Or.inr (Or.inr (Or.inr (Or.inr ⟨rfl, rfl, hq⟩)))
        · rw [if_neg hq]
          exact Or.inr (Or.inr (Or.inl rfl))
      | setWrite =>
        cases h
        exact Or.inl rfl
      | exited => cases h
      | _ =>
        cases h
        exact Or.inr (Or.inr (Or.inl rfl))

/-- A reader before its wait stays there or passes it. -/
theorem beforeReadWait_step (h : threadStep t e s x = some (s', x'))
    (hb : beforeReadWait x = true) : beforeReadWait x' = true ∨ willSetRead x' = true := by
  cases e with
  | ctrlC => cases h; exact Or.inl hb
  | run =>
    cases x with
    | reader pc =>
      cases pc with
      | testWriter =>
        cases h
        dsimp only
        split_ifs <;> exact Or.inl rfl
      | testQueue =>
        cases h
        dsimp only
        split_ifs
        · exact Or.inl rfl
        · exact Or.inr rfl
      | wait =>
        obtain ⟨-, he⟩ := step_wait_canRead.mp h
        cases he
        exact Or.inr rfl
      | _ => cases hb
    | writer pc => cases hb

theorem setRead_step (h : threadStep t e s x = some (s', x')) (hx : x = .writer .setRead) :
    s'.canRead = true ∨ x' = .writer .setRead := by
  subst hx
  cases e with
  | ctrlC => cases h; exact Or.inr rfl
  | run => cases h; exact Or.inl rfl

/-- A writer that owes `can_read` pays, unless nobody is in the queue. -/
theorem owesRead_step (h : threadStep t e s x = some (s', x')) (ho : owesRead x = true) :
    s'.canRead = true ∨ owesRead x' = true ∨ s.readersQueue ≤ 0 := by
  cases e with
  | ctrlC => cases h; exact Or.inr (Or.inl ho)
  | run =>
    cases x with
    | reader pc => cases ho
    | writer pc =>
      cases pc with
      | head | sleep | incQueue | setWrite | exited => cases ho
      | testReaders | testWriter | test =>
        cases h
        dsimp only
        split_ifs <;> exact Or.inr (Or.inl rfl)
      | wait =>
        obtain ⟨-, he⟩ := step_wait_canWrite.mp h
        cases he
        exact Or.inr (Or.inl rfl)
      | testQueue =>
        cases h
        by_cases hq : s.readersQueue > 0
        · rw [if_pos hq]
          exact Or.inr (Or.inl rfl)
        · exact Or.inr (Or.inr (not_lt.mp hq))
      | setRead =>
        cases h
        exact Or.inl rfl
      | _ =>
        cases h
        exact Or.inr (Or.inl rfl)

/-- A reader begins to wait where it has found a writer. -/
theorem reader_waits_cases (h : threadStep t e s x = some (s', x')) (hx : x' = .reader .wait) :
    x = .reader .wait ∨
      ((∃ pc, x = .reader pc) ∧ (s.activeWriter ≠ 0 ∨ s.writersQueue ≠ 0)) := by
  cases e with
  | ctrlC => cases h; exact Or.inl hx
  | run =>
    cases x with
    | reader pc =>
      cases pc with
      | testWriter =>
        cases h
        by_cases hw : s.activeWriter = 0
        · rw [if_neg (not_not.mpr hw)] at hx
          cases hx
        · exact Or.inr ⟨⟨_, rfl⟩, Or.inl hw⟩
      | testQueue =>
        cases h
        by_cases hq : s.writersQueue = 0
        · rw [if_neg (not_not.mpr hq)] at hx
          cases hx
        · exact Or.inr ⟨⟨_, rfl⟩, Or.inr hq⟩
      | wait => exact Or.inl rfl
      | head | testZero =>
        cases h
        split_ifs at hx <;> cases hx
      | lock =>
        obtain ⟨-, he⟩ := step_wait_mutex.mp h
        cases he
        cases hx
      | exited => cases h
      | _ =>
        cases h
        cases hx
    | writer pc =>
      obtain ⟨p, _, he⟩ := Option.map_eq_some_iff.mp h
      cases he
      cases hx

/-- A writer begins to wait where it has found a reader or a writer inside. -/
theorem writer_waits_cases (h : threadStep t e s x = some (s', x')) (hx : x' = .writer .wait) :
    x = .writer .wait ∨
      (inWritersQueue x = true ∧ (s.activeReaders ≠ 0 ∨ s.activeWriter ≠ 0)) := by
  cases e with
  | ctrlC => cases h; exact Or.inl hx
  | run =>
    cases x with
    | reader pc =>
      obtain ⟨p, _, he⟩ := Option.map_eq_some_iff.mp h
      cases he
      cases hx
    | writer pc =>
      cases pc with
      | testReaders =>
        cases h
        by_cases hr : s.activeReaders = 0
        · rw [if_neg (not_not.mpr hr)] at hx
          cases hx
        · exact Or.inr ⟨rfl, Or.inl hr⟩
      | testWriter =>
        cases h
        by_cases hw : s.activeWriter = 0
        · rw [if_neg (not_not.mpr hw)] at hx
          cases hx
        · exact Or.inr ⟨rfl, Or.inr hw⟩
      | wait => exact Or.inl rfl
      | head | test | testQueue =>
        cases h
        split_ifs at hx <;> cases hx
      | exited => cases h
      | _ =>
        cases h
        cases hx

end Steps

/-! ## What is pending -/

variable {ι : Type} {c : Config ι (Shared ι) Thread}

/-- `can_read` is set, or a reader is about to set it. -/
def ReadPending (c : Config ι (Shared ι) Thread) : Prop :=
  c.shared.canRead = true ∨ ∃ t, willSetRead (c.loc t) = true

/-- `can_write` is set, or a thread is on its way to set it, or a reader in the queue is
going to be let in and will then be on its way. -/
def WritePending (c : Config ι (Shared ι) Thread) : Prop :=
  c.shared.canWrite = true ∨ (∃ t, passedReadWait (c.loc t) = true) ∨
    (∃ t, passedWriteWait (c.loc t) = true) ∨
    ((∃ t, beforeReadWait (c.loc t) = true) ∧
      (ReadPending c ∨ ∃ t, c.loc t = .writer .setRead))

theorem passedReadWait_of_willSetRead {x : Thread} (h : willSetRead x = true) :
    passedReadWait x = true := by
  cases x with
  | reader pc => cases pc <;> first | rfl | cases h
  | writer pc => cases h

theorem passedReadWait_of_inRead {x : Thread} (h : inRead x = true) :
    passedReadWait x = true := by
  cases x with
  | reader pc => cases pc <;> first | rfl | cases h
  | writer pc => cases h

theorem beforeReadWait_or_passed {x : Thread} (h : inReadersQueue x = true) :
    beforeReadWait x = true ∨ passedReadWait x = true := by
  cases x with
  | reader pc => cases pc <;> first | exact Or.inl rfl | exact Or.inr rfl | cases h
  | writer pc => cases h

theorem passedWriteWait_of_inWrite {x : Thread} (h : inWrite x = true) :
    passedWriteWait x = true := by
  cases x with
  | reader pc => cases h
  | writer pc => cases pc <;> first | rfl | cases h

theorem owesRead_of_counted {x : Thread} (h : inWritersQueue x = true ∨ inWrite x = true) :
    owesRead x = true := by
  cases x with
  | reader pc => rcases h with h | h <;> cases h
  | writer pc => cases pc <;> first | rfl | (rcases h with h | h <;> cases h)

section Pending

variable [DecidableEq ι] {t : ι} {e : Event} {s : Shared ι} {x : Thread}

theorem ReadPending.step (hp : ReadPending c)
    (h : threadStep t e c.shared (c.loc t) = some (s, x)) : ReadPending (c.set t s x) := by
  have hown : c.shared.canRead = true ∨ willSetRead (c.loc t) = true →
      ReadPending (c.set t s x) := by
    intro hr
    rcases willSetRead_step h hr with hs | hx
    · exact Or.inl hs
    · exact Or.inr ⟨t, by rwa [Config.set_loc_self]⟩
  rcases hp with hr | hu
  · exact hown (Or.inl hr)
  · rcases Config.exists_set (p := fun y => willSetRead y = true) hu t s x with ht | hu
    · exact hown (Or.inr ht)
    · exact Or.inr hu

theorem WritePending.step [Fintype ι] (hC : Counters c) (hp : WritePending c)
    (h : threadStep t e c.shared (c.loc t) = some (s, x)) : WritePending (c.set t s x) := by
  have hloc : (c.set t s x).loc t = x := Config.set_loc_self ..
  have hown : c.shared.canWrite = true ∨ passedReadWait (c.loc t) = true ∨
      passedWriteWait (c.loc t) = true → WritePending (c.set t s x) := by
    intro hr
    rcases passed_step h hr with hs | hx | hx | ⟨hx, hne⟩ | ⟨hx, hx', hpos⟩
    · exact Or.inl hs
    · exact Or.inr (Or.inl ⟨t, by rwa [hloc]⟩)
    · exact Or.inr (Or.inr (Or.inl ⟨t, by rwa [hloc]⟩))
    · -- the reader leaves others inside
      rcases Config.exists_set (p := fun y => inRead y = true) (hC.exists_inRead hne) t s x with
        ht | ⟨u, hu⟩
      · rw [hx] at ht
        cases ht
      · exact Or.inr (Or.inl ⟨u, passedReadWait_of_inRead hu⟩)
    · -- the writer has found a reader in the queue
      rcases Config.exists_set (p := fun y => inReadersQueue y = true)
        (hC.exists_inReadersQueue hpos) t s x with ht | ⟨u, hu⟩
      · rw [hx] at ht
        cases ht
      · rcases beforeReadWait_or_passed hu with hb | hp
        · exact Or.inr (Or.inr (Or.inr ⟨⟨u, hb⟩, Or.inr ⟨t, by rw [hloc, hx']⟩⟩))
        · exact Or.inr (Or.inl ⟨u, hp⟩)
  rcases hp with hw | hu | hu | ⟨hb, hr⟩
  · exact hown (Or.inl hw)
  · rcases Config.exists_set (p := fun y => passedReadWait y = true) hu t s x with ht | hu
    · exact hown (Or.inr (Or.inl ht))
    · exact Or.inr (Or.inl hu)
  · rcases Config.exists_set (p := fun y => passedWriteWait y = true) hu t s x with ht | hu
    · exact hown (Or.inr (Or.inr ht))
    · exact Or.inr (Or.inr (Or.inl hu))
  · have hr' : ReadPending (c.set t s x) ∨ ∃ u, (c.set t s x).loc u = .writer .setRead := by
      rcases hr with hr | hu
      · exact Or.inl (hr.step h)
      · rcases Config.exists_set (p := fun y => y = .writer .setRead) hu t s x with ht | hu
        · rcases setRead_step h ht with hs | hx
          · exact Or.inl (Or.inl hs)
          · exact Or.inr ⟨t, by rw [hloc, hx]⟩
        · exact Or.inr hu
    rcases Config.exists_set (p := fun y => beforeReadWait y = true) hb t s x with ht | hu
    · rcases beforeReadWait_step h ht with hx | hx
      · exact Or.inr (Or.inr (Or.inr ⟨⟨t, by rwa [hloc]⟩, hr'⟩))
      · exact Or.inr (Or.inl ⟨t, by rw [hloc]; exact passedReadWait_of_willSetRead hx⟩)
    · exact Or.inr (Or.inr (Or.inr ⟨hu, hr'⟩))

end Pending

/-! ## The invariant -/

structure Inv [Fintype ι] (c : Config ι (Shared ι) Thread) : Prop where
  counters : Counters c
  readerWaits : (∃ t, c.loc t = .reader .wait) →
    ReadPending c ∨ ∃ t, owesRead (c.loc t) = true
  writerWaits : (∃ t, c.loc t = .writer .wait) → WritePending c

theorem inv_initial [Fintype ι] (role : ι → Role) : Inv (initial role) := by
  refine ⟨counters_initial role, ?_, ?_⟩
  · rintro ⟨t, ht⟩
    have hstart : (role t).start = .reader .wait := ht
    cases hr : role t <;> rw [hr] at hstart <;> cases hstart
  · rintro ⟨t, ht⟩
    have hstart : (role t).start = .writer .wait := ht
    cases hr : role t <;> rw [hr] at hstart <;> cases hstart

variable [Fintype ι] [DecidableEq ι]

theorem Inv.step (hI : Inv c) {t : ι} {e : Event} {s : Shared ι} {x : Thread}
    (h : threadStep t e c.shared (c.loc t) = some (s, x)) : Inv (c.set t s x) := by
  have hC := hI.counters
  refine ⟨hC.step h, ?_, ?_⟩
  · rintro ⟨u, hu⟩
    by_cases hold : ∃ u, c.loc u = .reader .wait
    · obtain ⟨u, hu⟩ := hold
      rcases hI.readerWaits ⟨u, hu⟩ with hr | ho
      · exact Or.inl (hr.step h)
      · rcases Config.exists_set (p := fun y => owesRead y = true) ho t s x with ht | ho
        · rcases owesRead_step h ht with hs | hx | hzero
          · exact Or.inl (Or.inl hs)
          · exact Or.inr ⟨t, by rwa [Config.set_loc_self]⟩
          · -- the waiting reader itself is in the queue
            have := hC.readersQueue_pos (t := u) (by rw [hu]; rfl)
            omega
        · exact Or.inr ho
    · have hut : u = t := by
        by_contra hut
        rw [Config.set_loc_of_ne hut] at hu
        exact hold ⟨u, hu⟩
      subst hut
      rw [Config.set_loc_self] at hu
      rcases reader_waits_cases h hu with hx | ⟨⟨pc, hpc⟩, hne⟩
      · exact absurd ⟨u, hx⟩ hold
      · right
        have hcounted : ∃ v, inWritersQueue (c.loc v) = true ∨ inWrite (c.loc v) = true := by
          rcases hne with hne | hne
          · obtain ⟨v, hv⟩ := hC.exists_inWrite hne
            exact ⟨v, Or.inr hv⟩
          · obtain ⟨v, hv⟩ := hC.exists_inWritersQueue hne
            exact ⟨v, Or.inl hv⟩
        obtain ⟨v, hv⟩ := hcounted
        have hvu : v ≠ u := by
          rintro rfl
          rw [hpc] at hv
          rcases hv with hv | hv <;> cases hv
        exact ⟨v, by rw [Config.set_loc_of_ne hvu]; exact owesRead_of_counted hv⟩
  · rintro ⟨u, hu⟩
    apply WritePending.step hC _ h
    by_cases hold : ∃ u, c.loc u = .writer .wait
    · exact hI.writerWaits hold
    · have hut : u = t := by
        by_contra hut
        rw [Config.set_loc_of_ne hut] at hu
        exact hold ⟨u, hu⟩
      subst hut
      rw [Config.set_loc_self] at hu
      rcases writer_waits_cases h hu with hx | ⟨-, hne | hne⟩
      · exact absurd ⟨u, hx⟩ hold
      · obtain ⟨v, hv⟩ := hC.exists_inRead hne
        exact Or.inr (Or.inl ⟨v, passedReadWait_of_inRead hv⟩)
      · obtain ⟨v, hv⟩ := hC.exists_inWrite hne
        exact Or.inr (Or.inr (Or.inl ⟨v, passedWriteWait_of_inWrite hv⟩))

theorem inv_reach {role : ι → Role} (h : (program ι).Reach (initial role) c) : Inv c := by
  apply h.interleave_invariant (inv_initial role)
  intro c t e s x hI _ hs
  exact hI.step hs

/-! ## Threads at rest -/

/-- The thread is blocked in `WaitForSingleObject(can_read)` or
`WaitForSingleObject(can_write)`. -/
def blocked (x : Thread) : Bool := x = .reader .wait || x = .writer .wait

/-- The thread has not begun `start_read` or `start_write`, or has ended `stop_read` or
`stop_write`, or is blocked. -/
def atRest (x : Thread) : Bool :=
  match x with
  | .reader .head | .reader .sleep | .reader .incQueue | .reader .exited => true
  | .writer .head | .writer .sleep | .writer .incQueue | .writer .exited => true
  | x => blocked x

/-- The event that a blocked thread waits for is signalled. -/
def signalled (s : Shared ι) (x : Thread) : Bool :=
  match x with
  | .reader .wait => s.canRead
  | .writer .wait => s.canWrite
  | _ => false

theorem atRest_cases {x : Thread} (h : atRest x = true) :
    willSetRead x = false ∧ passedReadWait x = false ∧ passedWriteWait x = false ∧
      x ≠ .writer .setRead ∧ (beforeReadWait x = true → x = .reader .wait) ∧
      (owesRead x = true → x = .writer .wait) := by
  cases x with
  | reader pc => cases pc <;> first | decide | cases h
  | writer pc => cases pc <;> first | decide | cases h

omit [DecidableEq ι] in
theorem Inv.signalled_of_rest (hI : Inv c) (hrest : ∀ t, atRest (c.loc t) = true)
    (hb : ∃ t, blocked (c.loc t) = true) :
    ∃ t, blocked (c.loc t) = true ∧ signalled c.shared (c.loc t) = true := by
  have hrc := fun t => atRest_cases (hrest t)
  have hread : ReadPending c → c.shared.canRead = true := by
    rintro (hr | ⟨t, ht⟩)
    · exact hr
    · rw [(hrc t).1] at ht
      cases ht
  have hreader : ∀ t, c.loc t = .reader .wait → c.shared.canRead = true →
      ∃ t, blocked (c.loc t) = true ∧ signalled c.shared (c.loc t) = true := by
    intro t ht hr
    exact ⟨t, by rw [ht]; rfl, by rw [ht]; exact hr⟩
  have hwriter : ∀ t, c.loc t = .writer .wait →
      ∃ t, blocked (c.loc t) = true ∧ signalled c.shared (c.loc t) = true := by
    intro t ht
    rcases hI.writerWaits ⟨t, ht⟩ with hw | ⟨u, hu⟩ | ⟨u, hu⟩ | ⟨⟨u, hu⟩, hr⟩
    · exact ⟨t, by rw [ht]; rfl, by rw [ht]; exact hw⟩
    · rw [(hrc u).2.1] at hu
      cases hu
    · rw [(hrc u).2.2.1] at hu
      cases hu
    · apply hreader u ((hrc u).2.2.2.2.1 hu)
      rcases hr with hr | ⟨v, hv⟩
      · exact hread hr
      · exact absurd hv (hrc v).2.2.2.1
  obtain ⟨t, ht⟩ := hb
  simp only [blocked, Bool.or_eq_true, decide_eq_true_eq] at ht
  rcases ht with ht | ht
  · rcases hI.readerWaits ⟨t, ht⟩ with hr | ⟨v, hv⟩
    · exact hreader t ht (hread hr)
    · exact hwriter v ((hrc v).2.2.2.2.2 hv)
  · exact hwriter t ht

omit [Fintype ι] in
theorem proceeds_of_signalled {t : ι} (hb : blocked (c.loc t) = true)
    (hs : signalled c.shared (c.loc t) = true) :
    ∃ c', (program ι).next c (t, .run) = some c' ∧ blocked (c'.loc t) = false := by
  simp only [blocked, Bool.or_eq_true, decide_eq_true_eq] at hb
  rcases hb with ht | ht
  · rw [ht] at hs
    have hgo := step_wait_canRead (t := t).mpr ⟨hs, rfl⟩
    rw [← ht] at hgo
    exact ⟨_, interleave_next.mpr ⟨_, _, hgo, rfl⟩, by rw [Config.set_loc_self]; rfl⟩
  · rw [ht] at hs
    have hgo := step_wait_canWrite (t := t).mpr ⟨hs, rfl⟩
    rw [← ht] at hgo
    exact ⟨_, interleave_next.mpr ⟨_, _, hgo, rfl⟩, by rw [Config.set_loc_self]; rfl⟩

/-- **No lost wake-up.** In a reachable state where every thread is outside its calls or
blocked, and some thread is blocked, the event of some blocked thread is signalled and
that thread can go on. -/
theorem no_lost_wakeup {role : ι → Role} (h : (program ι).Reach (initial role) c)
    (hrest : ∀ t, atRest (c.loc t) = true) (hb : ∃ t, blocked (c.loc t) = true) :
    ∃ t, blocked (c.loc t) = true ∧ signalled c.shared (c.loc t) = true ∧
      ∃ c', (program ι).next c (t, .run) = some c' ∧ blocked (c'.loc t) = false := by
  obtain ⟨t, ht, hs⟩ := (inv_reach h).signalled_of_rest hrest hb
  exact ⟨t, ht, hs, proceeds_of_signalled ht hs⟩

/-- A reader and two writers. -/
def threeThreads : Fin 3 → Role := ![.reader, .writer, .writer]

/-- The first writer enters; the reader and the second writer block; the first writer
leaves and comes back to its loop head. -/
def bothBlockRun {ι : Type} (r w w' : ι) : List (ι × Event) :=
  List.replicate 7 (w, .run) ++ List.replicate 4 (r, .run) ++ List.replicate 5 (w', .run) ++
    List.replicate 8 (w, .run)

theorem no_lost_wakeup_both_block : ∃ c : Config (Fin 3) (Shared (Fin 3)) Thread,
    (program (Fin 3)).Reach (initial threeThreads) c ∧ c.loc 0 = .reader .wait ∧
      c.loc 2 = .writer .wait ∧
      ∃ t, blocked (c.loc t) = true ∧ signalled c.shared (c.loc t) = true ∧
        ∃ c', (program (Fin 3)).next c (t, .run) = some c' ∧ blocked (c'.loc t) = false := by
  have hrun : ((program (Fin 3)).run (initial threeThreads) (bothBlockRun 0 1 2)).any
      (fun c => decide (∀ t, atRest (c.loc t) = true) && c.loc 0 = .reader .wait &&
        c.loc 2 = .writer .wait) = true := by decide +kernel
  obtain ⟨c, hc, hp⟩ := Machine.exists_reach_of_run _ _ hrun
  simp only [Bool.and_eq_true, decide_eq_true_eq] at hp
  obtain ⟨⟨hrest, h0⟩, h2⟩ := hp
  exact ⟨c, hc, h0, h2, no_lost_wakeup hc hrest ⟨0, by rw [h0]; rfl⟩⟩

end OsLabs.Winwr
