import OsLabs.Winwr.Model
import OsLabs.Concurrent.Count

/-!
# The readers-writers monitor on Windows events: counters

Each of the four counters is changed by Interlocked operations only, so it counts the
threads at the points between its increment and its decrement, in every reachable state
and for any number of threads. What a thread has read of a counter may be out of date;
the counter itself is not.
-/

namespace OsLabs.Winwr

open Concurrent

/-! ## Regions of the threads -/

/-- Counted in `readers_queue`. -/
def inReadersQueue (x : Thread) : Bool :=
  match x with
  | .reader .testWriter | .reader .testQueue | .reader .wait | .reader .lock
  | .reader .decQueue => true
  | _ => false

/-- Counted in `active_readers`: this includes the points between `start_read` and
`stop_read`. -/
def inRead (x : Thread) : Bool :=
  match x with
  | .reader .setRead | .reader .release | .reader .read | .reader .decActive => true
  | _ => false

/-- Counted in `writers_queue`. -/
def inWritersQueue (x : Thread) : Bool :=
  match x with
  | .writer .testReaders | .writer .testWriter | .writer .wait | .writer .decQueue => true
  | _ => false

/-- Counted in `active_writer`: the points between `start_write` and `stop_write`. -/
def inWrite (x : Thread) : Bool :=
  match x with
  | .reader _ => false
  | .writer pc =>
      match pc with
      | .test | .reset | .load | .store _ | .print | .decActive => true
      | .head | .sleep | .incQueue | .testReaders | .testWriter | .wait | .decQueue | .incActive
      | .resetWrite | .testQueue | .setRead | .setWrite | .exited => false

/-! ## One step -/

variable {ι : Type} {t : ι} {e : Event} {s s' : Shared ι} {x x' : Thread}

/-- A step changes each counter by what its thread contributes before and after. -/
theorem step_counters (h : threadStep t e s x = some (s', x')) :
    s'.readersQueue + (inReadersQueue x).toNat = s.readersQueue + (inReadersQueue x').toNat ∧
      s'.activeReaders + (inRead x).toNat = s.activeReaders + (inRead x').toNat ∧
      s'.writersQueue + (inWritersQueue x).toNat = s.writersQueue + (inWritersQueue x').toNat ∧
      s'.activeWriter + (inWrite x).toNat = s.activeWriter + (inWrite x').toNat := by
  cases e with
  | ctrlC => cases h; exact ⟨rfl, rfl, rfl, rfl⟩
  | run =>
    cases x with
    | reader pc =>
      cases pc with
      | sleep | setRead | release | read | setWrite => cases h; exact ⟨rfl, rfl, rfl, rfl⟩
      | head | testWriter | testQueue | testZero =>
        cases h
        dsimp only
        split_ifs <;> exact ⟨rfl, rfl, rfl, rfl⟩
      | wait =>
        obtain ⟨-, he⟩ := step_wait_canRead.mp h
        cases he
        exact ⟨rfl, rfl, rfl, rfl⟩
      | lock =>
        obtain ⟨-, he⟩ := step_wait_mutex.mp h
        cases he
        exact ⟨rfl, rfl, rfl, rfl⟩
      | incQueue | decQueue | incActive | decActive =>
        cases h
        simp [inReadersQueue, inRead, inWritersQueue, inWrite]
      | exited => cases h
    | writer pc =>
      cases pc with
      | sleep | reset | load | store | print | resetWrite | setRead | setWrite =>
        cases h
        exact ⟨rfl, rfl, rfl, rfl⟩
      | head | testReaders | testWriter | test | testQueue =>
        cases h
        dsimp only
        split_ifs <;> exact ⟨rfl, rfl, rfl, rfl⟩
      | wait =>
        obtain ⟨-, he⟩ := step_wait_canWrite.mp h
        cases he
        exact ⟨rfl, rfl, rfl, rfl⟩
      | incQueue | decQueue | incActive | decActive =>
        cases h
        simp [inReadersQueue, inRead, inWritersQueue, inWrite]
      | exited => cases h

/-! ## Counting -/

variable [Fintype ι]

structure Counters (c : Config ι (Shared ι) Thread) : Prop where
  readersQueue : c.shared.readersQueue = count inReadersQueue c.loc
  activeReaders : c.shared.activeReaders = count inRead c.loc
  writersQueue : c.shared.writersQueue = count inWritersQueue c.loc
  activeWriter : c.shared.activeWriter = count inWrite c.loc

variable {c : Config ι (Shared ι) Thread}

theorem counters_initial (role : ι → Role) : Counters (initial role) := by
  have hzero : ∀ p : Thread → Bool, p (.reader .head) = false → p (.writer .head) = false →
      count p (initial role).loc = 0 := by
    intro p hr hw
    rw [count_eq_zero_iff]
    intro t
    show p (role t).start = false
    cases role t with
    | reader => exact hr
    | writer => exact hw
  constructor <;> rw [hzero _ rfl rfl] <;> rfl

/-! ## Reading a counter -/

theorem Counters.exists_inReadersQueue (hC : Counters c) (h : 0 < c.shared.readersQueue) :
    ∃ t, inReadersQueue (c.loc t) = true := by
  rw [hC.readersQueue] at h
  exact count_pos_iff.mp (by exact_mod_cast h)

theorem Counters.exists_inRead (hC : Counters c) (h : c.shared.activeReaders ≠ 0) :
    ∃ t, inRead (c.loc t) = true := by
  rw [hC.activeReaders] at h
  exact count_pos_iff.mp (Nat.pos_of_ne_zero (by exact_mod_cast h))

theorem Counters.exists_inWritersQueue (hC : Counters c) (h : c.shared.writersQueue ≠ 0) :
    ∃ t, inWritersQueue (c.loc t) = true := by
  rw [hC.writersQueue] at h
  exact count_pos_iff.mp (Nat.pos_of_ne_zero (by exact_mod_cast h))

theorem Counters.exists_inWrite (hC : Counters c) (h : c.shared.activeWriter ≠ 0) :
    ∃ t, inWrite (c.loc t) = true := by
  rw [hC.activeWriter] at h
  exact count_pos_iff.mp (Nat.pos_of_ne_zero (by exact_mod_cast h))

theorem Counters.not_inRead (hC : Counters c) (h : c.shared.activeReaders = 0) (t : ι) :
    inRead (c.loc t) = false := by
  rw [hC.activeReaders] at h
  exact count_eq_zero_iff.mp (by exact_mod_cast h) t

theorem Counters.not_inWrite (hC : Counters c) (h : c.shared.activeWriter = 0) (t : ι) :
    inWrite (c.loc t) = false := by
  rw [hC.activeWriter] at h
  exact count_eq_zero_iff.mp (by exact_mod_cast h) t

/-- A reader in the queue keeps `readers_queue` positive. -/
theorem Counters.readersQueue_pos (hC : Counters c) (h : inReadersQueue (c.loc t) = true) :
    0 < c.shared.readersQueue := by
  rw [hC.readersQueue]
  exact_mod_cast count_pos h

/-! ## Every run -/

variable [DecidableEq ι]

theorem Counters.step (hC : Counters c) (h : threadStep t e c.shared (c.loc t) = some (s', x')) :
    Counters (c.set t s' x') := by
  obtain ⟨hrq, har, hwq, haw⟩ := step_counters h
  constructor
  · have := count_update inReadersQueue c.loc t x'
    have := hC.readersQueue
    rw [Config.set_loc, Config.set_shared]
    omega
  · have := count_update inRead c.loc t x'
    have := hC.activeReaders
    rw [Config.set_loc, Config.set_shared]
    omega
  · have := count_update inWritersQueue c.loc t x'
    have := hC.writersQueue
    rw [Config.set_loc, Config.set_shared]
    omega
  · have := count_update inWrite c.loc t x'
    have := hC.activeWriter
    rw [Config.set_loc, Config.set_shared]
    omega

theorem counters_reach {role : ι → Role} (h : (program ι).Reach (initial role) c) :
    Counters c := by
  apply h.interleave_invariant (counters_initial role)
  intro c t e s x hC _ hs
  exact hC.step hs

end OsLabs.Winwr
