import OsLabs.Winwr.Arrival
import OsLabs.Concurrent.Termination

/-!
# The readers-writers monitor on Windows events: shutdown

After Ctrl-C every thread ends its turn and leaves at the head of its loop. It may have to
wait once more on the way, for an event or for the mutex, so that `main` comes past its two
`WaitForMultipleObjects` only if none of these waits is for ever.

None is: as long as a thread has not exited, some thread can make a step. A reader that
holds the mutex can, and where all threads are outside the calls or wait for an event, one
of the events is set (`no_lost_wakeup`). So all threads exit, after a number of steps that
is bounded by the program points at which Ctrl-C has found them (`ctrlC_shutdown`).
-/

namespace OsLabs.Winwr

open Concurrent

/-- The step is one of the thread itself. -/
def Event.own (e : Event) : Bool :=
  match e with
  | .run => true
  | .ctrlC => false

def exited (x : Thread) : Bool := x = .reader .exited || x = .writer .exited

/-- The steps that a thread makes at most once `f_sigint` is cleared. -/
def stepsLeft (x : Thread) : ℕ :=
  match x with
  | .reader pc =>
      match pc with
      | .exited => 0
      | .head => 1
      | .setWrite => 2
      | .testZero => 3
      | .decActive => 4
      | .read => 5
      | .release => 6
      | .setRead => 7
      | .incActive => 8
      | .decQueue => 9
      | .lock => 10
      | .wait => 11
      | .testQueue => 12
      | .testWriter => 13
      | .incQueue => 14
      | .sleep => 15
  | .writer pc =>
      match pc with
      | .exited => 0
      | .head => 1
      | .setRead | .setWrite => 2
      | .testQueue => 3
      | .resetWrite => 4
      | .decActive => 5
      | .print => 6
      | .reset | .store _ => 7
      | .load => 8
      | .test => 9
      | .incActive => 10
      | .decQueue => 11
      | .wait => 12
      | .testWriter => 13
      | .testReaders => 14
      | .incQueue => 15
      | .sleep => 16

theorem stepsLeft_le (x : Thread) : stepsLeft x ≤ 16 := by
  cases x with
  | reader pc => cases pc <;> simp [stepsLeft]
  | writer pc => cases pc <;> simp [stepsLeft]

variable {ι : Type} {t : ι} {e : Event} {s s' : Shared ι} {x x' : Thread}

/-- Once `f_sigint` is cleared it stays so, and a step of the thread itself brings it nearer
to its end. -/
theorem step_stepsLeft (hflag : s.fSigint = false) (h : threadStep t e s x = some (s', x')) :
    s'.fSigint = false ∧ stepsLeft x' + e.own.toNat ≤ stepsLeft x := by
  cases e with
  | ctrlC =>
    cases h
    exact ⟨rfl, Nat.le_refl _⟩
  | run =>
    cases x with
    | reader pc =>
      cases pc with
      | head =>
        cases h
        rw [hflag]
        exact ⟨rfl, Nat.le_refl _⟩
      | testWriter | testQueue | testZero =>
        cases h
        refine ⟨hflag, ?_⟩
        dsimp only
        split_ifs <;> decide
      | wait =>
        obtain ⟨-, he⟩ := step_wait_canRead.mp h
        cases he
        exact ⟨hflag, Nat.le_refl _⟩
      | lock =>
        obtain ⟨-, he⟩ := step_wait_mutex.mp h
        cases he
        exact ⟨hflag, Nat.le_refl _⟩
      | exited => cases h
      | _ =>
        cases h
        exact ⟨hflag, Nat.le_refl _⟩
    | writer pc =>
      cases pc with
      | head =>
        cases h
        rw [hflag]
        exact ⟨rfl, Nat.le_refl _⟩
      | testReaders | testWriter | test | testQueue =>
        cases h
        refine ⟨hflag, ?_⟩
        dsimp only
        split_ifs <;> simp [stepsLeft, Event.own]
      | wait =>
        obtain ⟨-, he⟩ := step_wait_canWrite.mp h
        cases he
        exact ⟨hflag, Nat.le_refl _⟩
      | exited => cases h
      | _ =>
        cases h
        exact ⟨hflag, Nat.le_refl _⟩

/-! ## Who can make a step -/

/-- A thread that can make no step has exited, waits for an event that is not set, or waits
for the mutex. -/
theorem stuck_cases (h : threadStep t .run s x = none) :
    exited x = true ∨ (blocked x = true ∧ signalled s x = false) ∨
      (x = .reader .lock ∧ s.mutex ≠ none) := by
  cases x with
  | reader pc =>
    cases pc with
    | exited => exact Or.inl rfl
    | wait =>
      refine Or.inr (Or.inl ⟨rfl, ?_⟩)
      show s.canRead = false
      cases hread : s.canRead with
      | false => rfl
      | true => rw [step_wait_canRead.mpr ⟨hread, rfl⟩] at h; cases h
    | lock =>
      refine Or.inr (Or.inr ⟨rfl, ?_⟩)
      intro hfree
      rw [step_wait_mutex.mpr ⟨hfree, rfl⟩] at h
      cases h
    | _ => cases h
  | writer pc =>
    cases pc with
    | exited => exact Or.inl rfl
    | wait =>
      refine Or.inr (Or.inl ⟨rfl, ?_⟩)
      show s.canWrite = false
      cases hwrite : s.canWrite with
      | false => rfl
      | true => rw [step_wait_canWrite.mpr ⟨hwrite, rfl⟩] at h; cases h
    | _ => cases h

theorem atRest_of_blocked (h : blocked x = true) : atRest x = true := by
  simp only [blocked, Bool.or_eq_true, decide_eq_true_eq] at h
  rcases h with rfl | rfl <;> rfl

theorem atRest_of_exited (h : exited x = true) : atRest x = true := by
  simp only [exited, Bool.or_eq_true, decide_eq_true_eq] at h
  rcases h with rfl | rfl <;> rfl

/-- A reader that holds the mutex neither waits nor has exited. -/
theorem step_of_holdsMutex (h : holdsMutex x = true) : threadStep t .run s x ≠ none := by
  intro hstuck
  rcases stuck_cases hstuck with hx | ⟨hx, -⟩ | ⟨hx, -⟩
  · simp only [exited, Bool.or_eq_true, decide_eq_true_eq] at hx
    rcases hx with rfl | rfl <;> cases h
  · simp only [blocked, Bool.or_eq_true, decide_eq_true_eq] at hx
    rcases hx with rfl | rfl <;> cases h
  · rw [hx] at h
    cases h

/-! ## The mutex -/

variable [DecidableEq ι] {c : Config ι (Shared ι) Thread}

/-- The mutex is in the hands of a reader between its lock and its release. -/
def Held (c : Config ι (Shared ι) Thread) : Prop :=
  ∀ u, c.shared.mutex = some u → holdsMutex (c.loc u) = true

theorem Held.step (hH : Held c) (h : threadStep t e c.shared (c.loc t) = some (s, x)) :
    Held (c.set t s x) := by
  intro u hu
  rw [Config.set_shared] at hu
  rcases mutex_step h with ⟨hsame, hkeeps⟩ | ⟨htaken, hx⟩ | hfree
  · rw [hsame] at hu
    by_cases hut : u = t
    · subst hut
      rw [Config.set_loc_self]
      exact hkeeps (hH u hu)
    · rw [Config.set_loc_of_ne hut]
      exact hH u hu
  · rw [htaken] at hu
    cases hu
    rwa [Config.set_loc_self]
  · rw [hfree] at hu
    cases hu

theorem held_reach {role : ι → Role} (h : (program ι).Reach (initial role) c) : Held c := by
  apply h.interleave_invariant
  · intro u hu
    cases hu
  · intro c t e s x hH _ hs
    exact hH.step hs

/-! ## Shutdown -/

variable [Fintype ι]

omit [DecidableEq ι] in
/-- Where no thread can make a step, all have exited. -/
theorem Inv.exited_of_stuck (hI : Inv c) (hH : Held c)
    (hstuck : ∀ t, threadStep t .run c.shared (c.loc t) = none) (t : ι) :
    exited (c.loc t) = true := by
  have hlock : ∀ u, c.loc u = .reader .lock → False := by
    intro u hu
    rcases stuck_cases (hstuck u) with hx | ⟨hx, -⟩ | ⟨-, hmutex⟩
    · rw [hu] at hx
      cases hx
    · rw [hu] at hx
      cases hx
    · obtain ⟨v, hv⟩ := Option.ne_none_iff_exists'.mp hmutex
      exact step_of_holdsMutex (hH v hv) (hstuck v)
  have hrest : ∀ u, atRest (c.loc u) = true := by
    intro u
    rcases stuck_cases (hstuck u) with hx | ⟨hx, -⟩ | ⟨hx, -⟩
    · exact atRest_of_exited hx
    · exact atRest_of_blocked hx
    · exact absurd hx (hlock u)
  have hnobody : ∀ u, blocked (c.loc u) = true → False := by
    intro u hu
    obtain ⟨v, hv, hset⟩ := hI.signalled_of_rest hrest ⟨u, hu⟩
    rcases stuck_cases (hstuck v) with hx | ⟨-, hx⟩ | ⟨hx, -⟩
    · simp only [exited, Bool.or_eq_true, decide_eq_true_eq] at hx
      rcases hx with hx | hx <;> rw [hx] at hv <;> cases hv
    · rw [hx] at hset
      cases hset
    · exact hlock v hx
  rcases stuck_cases (hstuck t) with hx | ⟨hx, -⟩ | ⟨hx, -⟩
  · exact hx
  · exact absurd hx (hnobody t)
  · exact absurd hx (hlock t)

/-- What is left when all threads have exited: nobody is counted anywhere, and the mutex is
free. -/
structure Stopped (c : Config ι (Shared ι) Thread) : Prop where
  exited : ∀ t, exited (c.loc t) = true
  readersQueue : c.shared.readersQueue = 0
  activeReaders : c.shared.activeReaders = 0
  writersQueue : c.shared.writersQueue = 0
  activeWriter : c.shared.activeWriter = 0
  mutex : c.shared.mutex = none

omit [DecidableEq ι] in
theorem Inv.stopped (hI : Inv c) (hH : Held c)
    (hstuck : ∀ t, threadStep t .run c.shared (c.loc t) = none) : Stopped c := by
  have hall := hI.exited_of_stuck hH hstuck
  have hzero : ∀ p : Thread → Bool, p (.reader .exited) = false → p (.writer .exited) = false →
      count p c.loc = 0 := by
    intro p hr hw
    apply count_eq_zero_iff.mpr
    intro t
    have ht := hall t
    simp only [Winwr.exited, Bool.or_eq_true, decide_eq_true_eq] at ht
    rcases ht with ht | ht
    · rw [ht, hr]
    · rw [ht, hw]
  have hC := hI.counters
  refine ⟨hall, ?_, ?_, ?_, ?_, ?_⟩
  · rw [hC.readersQueue, hzero _ rfl rfl]
    rfl
  · rw [hC.activeReaders, hzero _ rfl rfl]
    rfl
  · rw [hC.writersQueue, hzero _ rfl rfl]
    rfl
  · rw [hC.activeWriter, hzero _ rfl rfl]
    rfl
  · by_contra hmutex
    obtain ⟨u, hu⟩ := Option.ne_none_iff_exists'.mp hmutex
    exact step_of_holdsMutex (hH u hu) (hstuck u)

/-- **Shutdown.** From every reachable state in which Ctrl-C has been handled, whatever the
interleaving: every thread makes at most 16 more steps, and in a state where none of
them can go on, all have exited, the counters are zero and the mutex is free. -/
theorem ctrlC_shutdown {role : ι → Role} (h : (program ι).Reach (initial role) c)
    (hflag : c.shared.fSigint = false) :
    (program ι).EachWindsDown Event.own Stopped 16 c := by
  apply interleave_windsDown (fun c => Inv c ∧ Held c ∧ c.shared.fSigint = false)
    stepsLeft stepsLeft_le ⟨inv_reach h, held_reach h, hflag⟩
  · rintro c t e s x ⟨hI, hH, hflag⟩ hs
    obtain ⟨hflag', hless⟩ := step_stepsLeft hflag hs
    exact ⟨⟨hI.step hs, hH.step hs, hflag'⟩, hless⟩
  · rintro c ⟨hI, hH, -⟩ hnone
    exact hI.stopped hH fun t => hnone t .run rfl

/-- Ctrl-C while a reader and a writer wait for the writer inside: all three get out. -/
theorem shutdown_both_block : ∃ c : Config (Fin 3) (Shared (Fin 3)) Thread,
    c.loc 0 = .reader .wait ∧ c.loc 2 = .writer .wait ∧
      ∃ tr c', (program (Fin 3)).Trace c tr c' ∧ tr.length ≤ 48 ∧ Stopped c' := by
  have hrun : ((program (Fin 3)).run (initial threeThreads)
      (bothBlockRun 0 1 2 ++ [(1, .ctrlC)])).any
      (fun c => !c.shared.fSigint && c.loc 0 = .reader .wait && c.loc 2 = .writer .wait) =
        true := by decide +kernel
  obtain ⟨c, hc, hp⟩ := Machine.exists_reach_of_run _ _ hrun
  simp only [Bool.and_eq_true, decide_eq_true_eq, Bool.not_eq_true'] at hp
  obtain ⟨⟨hflag, h0⟩, h2⟩ := hp
  have hwinds := ctrlC_shutdown hc hflag
  obtain ⟨tr, c', htr, hown, hdone⟩ := hwinds.exists_done
  have hle := hwinds.bounded tr c' htr
  rw [List.countP_eq_length.mpr hown] at hle
  exact ⟨c, h0, h2, tr, c', htr, hle, hdone⟩

end OsLabs.Winwr
