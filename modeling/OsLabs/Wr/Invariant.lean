import OsLabs.Concurrent.ReadersWriters
import OsLabs.Wr.Model

/-!
# The readers-writers monitor on System V semaphores: invariant

The arrays of `wr.c` encode the abstract monitor: `numb_of_readers` and `active_writer`
count the processes at the points of their sections, `bin_sem` is the complement of
`active_writer`, and the two queue counters are zero in every state, since an array raises
and lowers them within one call and a call that waits changes nothing. `step_moved` says
once which call a step makes, so the values follow the monitor in every run (`inv_reach`).
-/

namespace OsLabs.Wr

open Concurrent Concurrent.ReadersWriters

/-! ## The semaphore arrays -/

theorem semop_startRead {v w : SemNum → ℕ} : semop v startRead = some w ↔
    v .activeWriter = 0 ∧ v .writersQueue = 0 ∧
      w = Function.update v .numbOfReaders (v .numbOfReaders + 1) := by
  have hback : Function.update (Function.update (Function.update v .readersQueue
      (v .readersQueue + 1)) .numbOfReaders (v .numbOfReaders + 1)) .readersQueue
      (v .readersQueue) = Function.update v .numbOfReaders (v .numbOfReaders + 1) := by
    funext k
    cases k <;> simp [Function.update]
  simp [startRead, hback, eq_comm]

theorem semop_stopRead {v w : SemNum → ℕ} : semop v stopRead = some w ↔
    0 < v .numbOfReaders ∧ w = Function.update v .numbOfReaders (v .numbOfReaders - 1) := by
  simp [stopRead, eq_comm]

theorem semop_startWrite {v w : SemNum → ℕ} : semop v startWrite = some w ↔
    v .numbOfReaders = 0 ∧ 0 < v .binSem ∧
      w = Function.update (Function.update v .binSem (v .binSem - 1)) .activeWriter
        (v .activeWriter + 1) := by
  have hback : Function.update (Function.update (Function.update (Function.update v
      .writersQueue (v .writersQueue + 1)) .binSem (v .binSem - 1)) .activeWriter
      (v .activeWriter + 1)) .writersQueue (v .writersQueue) =
      Function.update (Function.update v .binSem (v .binSem - 1)) .activeWriter
        (v .activeWriter + 1) := by
    funext k
    cases k <;> simp [Function.update]
  simp [startWrite, hback, eq_comm]

theorem semop_stopWrite {v w : SemNum → ℕ} : semop v stopWrite = some w ↔
    0 < v .activeWriter ∧
      w = Function.update (Function.update v .activeWriter (v .activeWriter - 1)) .binSem
        (v .binSem + 1) := by
  simp [stopWrite, eq_comm]

/-! ## The arrays as an encoding -/

/-- The arrays and the initial values of `wr.c`. -/
def encoding : Encoding SemNum where
  init := initVal
  ops
    | .startRead => startRead
    | .stopRead => stopRead
    | .startWrite => startWrite
    | .stopWrite => stopWrite

/-- The values for the readers and writers inside. -/
def rep (m : Inside) : SemNum → ℕ
  | .activeWriter => m.writes
  | .numbOfReaders => m.reads
  | .writersQueue | .readersQueue => 0
  | .binSem => 1 - m.writes

theorem encoding_faithful : encoding.Faithful rep where
  init := by
    funext k
    cases k <;> rfl
  call := by
    intro m _ a w
    rcases a with _ | _ | _ | _
    · have hrep : Function.update (rep m) .numbOfReaders (rep m .numbOfReaders + 1) =
          rep ⟨m.reads + 1, m.writes⟩ := by
        funext k
        cases k <;> rfl
      simp only [encoding, semop_startRead, hrep]
      simp [rep]
    · have hrep : Function.update (rep m) .numbOfReaders (rep m .numbOfReaders - 1) =
          rep ⟨m.reads - 1, m.writes⟩ := by
        funext k
        cases k <;> rfl
      simp only [encoding, semop_stopRead, hrep]
      simp [rep]
    · have hrep (h : m.writes = 0) : Function.update (Function.update (rep m) .binSem
          (rep m .binSem - 1)) .activeWriter (rep m .activeWriter + 1) =
          rep ⟨m.reads, m.writes + 1⟩ := by
        funext k
        cases k <;> simp [rep, Function.update, h]
      have hfree : 0 < rep m .binSem ↔ m.writes = 0 := by
        simp only [rep]
        omega
      simp only [encoding, semop_startWrite, Inside.steps_startWrite, hfree]
      constructor
      · rintro ⟨hr, hw, rfl⟩
        exact ⟨_, ⟨⟨hr, hw⟩, rfl⟩, hrep hw⟩
      · rintro ⟨_, ⟨⟨hr, hw⟩, rfl⟩, rfl⟩
        exact ⟨hr, hw, (hrep hw).symm⟩
    · have hrep (h : 0 < m.writes) : Function.update (Function.update (rep m) .activeWriter
          (rep m .activeWriter - 1)) .binSem (rep m .binSem + 1) =
          rep ⟨m.reads, m.writes - 1⟩ := by
        funext k
        cases k <;> simp [rep, Function.update]
        omega
      simp only [encoding, semop_stopWrite, Inside.steps_stopWrite]
      constructor
      · rintro ⟨hw, rfl⟩
        exact ⟨_, ⟨hw, rfl⟩, hrep hw⟩
      · rintro ⟨_, ⟨hw, rfl⟩, rfl⟩
        exact ⟨hw, (hrep hw).symm⟩

/-! ## Sections -/

/-- Where the process stands. -/
def place (x : Process) : Place :=
  match x.pc with
  | .reader .read | .reader .stop => .reading false
  | .reader .stopSleep => .reading true
  | .writer .test | .writer .reset | .writer .load | .writer (.store _) | .writer .print
  | .writer .stop => .writing false
  | .writer .stopSleep => .writing true
  | _ => .outside

/-- The process is between `start_read` and `stop_read`. -/
def inRead (x : Process) : Bool := (place x).inRead

/-- The process is between `start_write` and `stop_write`. -/
def inWrite (x : Process) : Bool := (place x).inWrite

/-- The process sleeps in the call that ends a section. -/
def stopSleeps (x : Process) : Bool := (place x).stopSleeps

/-- What the process is inside. -/
def sections (x : Process) : Inside := (place x).inside

variable {s s' : Shared} {x x' : Process}

/-- What a step has to be: it does not put its process to sleep in a section, and it is a
call of the monitor or nothing. -/
def Moved (s : Shared) (x : Process) (s' : Shared) (x' : Process) : Prop :=
  stopSleeps x' = false ∧ encoding.Moves s.sem (sections x) s'.sem (sections x')

theorem moved_of_start {a : Call} {next : PC} {asleep : Option PC} {f : Bool}
    (h : callSemop s (encoding.ops a) next asleep id f = some (s', x'))
    (hnext : (sections x).after a = some (sections ⟨next, f⟩) ∧ stopSleeps ⟨next, f⟩ = false)
    (hsleep : ∀ pc, asleep = some pc → sections ⟨pc, f⟩ = sections x ∧
      stopSleeps ⟨pc, f⟩ = false) : Moved s x s' x' := by
  unfold callSemop at h
  cases hv : semop s.sem (encoding.ops a) with
  | some v =>
    rw [hv] at h
    cases h
    exact ⟨hnext.2, Or.inr ⟨a, hv, hnext.1⟩⟩
  | none =>
    rw [hv] at h
    obtain ⟨pc, hpc, he⟩ := Option.map_eq_some_iff.mp h
    cases he
    exact ⟨(hsleep pc hpc).2, Or.inl ⟨rfl, (hsleep pc hpc).1⟩⟩

/-- A call that ends a section does not wait. -/
theorem moved_of_stop {a : Call} {next : PC} {asleep : Option PC} {done : Shared → Shared}
    {f : Bool} (hdone : ∀ s, (done s).sem = s.sem)
    (h : callSemop s (encoding.ops a) next asleep done f = some (s', x'))
    (hgo : semop s.sem (encoding.ops a) ≠ none)
    (hnext : (sections x).after a = some (sections ⟨next, f⟩) ∧ stopSleeps ⟨next, f⟩ = false) :
    Moved s x s' x' := by
  unfold callSemop at h
  obtain ⟨v, hv⟩ := Option.ne_none_iff_exists'.mp hgo
  rw [hv] at h
  cases h
  exact ⟨hnext.2, Or.inr ⟨a, hv.trans (congrArg some (hdone { s with sem := v }).symm), hnext.1⟩⟩

theorem reader_moved {pc : ReaderPC} {f : Bool} (hx : stopSleeps ⟨.reader pc, f⟩ = false)
    (hr : inRead ⟨.reader pc, f⟩ = true → semop s.sem stopRead ≠ none)
    (h : reader s f pc = some (s', x')) : Moved s ⟨.reader pc, f⟩ s' x' := by
  cases pc with
  | head =>
    cases f with
    | true | false =>
      cases h
      exact ⟨rfl, Or.inl ⟨rfl, rfl⟩⟩
  | sleep | read =>
    cases h
    exact ⟨rfl, Or.inl ⟨rfl, rfl⟩⟩
  | start =>
    refine moved_of_start (a := .startRead) h ⟨rfl, rfl⟩ ?_
    rintro pc ⟨⟩
    exact ⟨rfl, rfl⟩
  | startSleep =>
    refine moved_of_start (a := .startRead) h ⟨rfl, rfl⟩ ?_
    rintro pc ⟨⟩
  | stop => exact moved_of_stop (a := .stopRead) (fun _ => rfl) h (hr rfl) ⟨rfl, rfl⟩
  | stopSleep => cases hx

theorem writer_moved {pc : WriterPC} {f : Bool} (hx : stopSleeps ⟨.writer pc, f⟩ = false)
    (hw : inWrite ⟨.writer pc, f⟩ = true → semop s.sem stopWrite ≠ none)
    (h : writer s f pc = some (s', x')) : Moved s ⟨.writer pc, f⟩ s' x' := by
  cases pc with
  | head =>
    cases f with
    | true | false =>
      cases h
      exact ⟨rfl, Or.inl ⟨rfl, rfl⟩⟩
  | test =>
    simp only [writer] at h
    split_ifs at h
    · cases h
      exact ⟨rfl, Or.inl ⟨rfl, rfl⟩⟩
    · cases h
      exact ⟨rfl, Or.inl ⟨rfl, rfl⟩⟩
  | sleep | reset | load | store | print =>
    cases h
    exact ⟨rfl, Or.inl ⟨rfl, rfl⟩⟩
  | start =>
    refine moved_of_start (a := .startWrite) h ⟨rfl, rfl⟩ ?_
    rintro pc ⟨⟩
    exact ⟨rfl, rfl⟩
  | startSleep =>
    refine moved_of_start (a := .startWrite) h ⟨rfl, rfl⟩ ?_
    rintro pc ⟨⟩
  | stop =>
    have hdone : ∀ s, (Shared.endSection s).sem = s.sem := fun _ => rfl
    exact moved_of_stop (a := .stopWrite) hdone h (hw rfl) ⟨rfl, rfl⟩
  | stopSleep => cases hx

/-- Only the calls that start a section can be asleep, so a signal ends nobody inside. -/
theorem handler_moved {pc : PC} {f : Bool} (hx : stopSleeps ⟨pc, f⟩ = false)
    (h : handler s pc = some (s', x')) : Moved s ⟨pc, f⟩ s' x' := by
  rcases pc with pc | pc | st
  · cases pc with
    | stopSleep => cases hx
    | _ =>
      cases h
      exact ⟨rfl, Or.inl ⟨rfl, rfl⟩⟩
  · cases pc with
    | stopSleep => cases hx
    | _ =>
      cases h
      exact ⟨rfl, Or.inl ⟨rfl, rfl⟩⟩
  · cases h

/-- Every step is a call of the monitor or nothing, where the calls that end a section do
not wait. -/
theorem step_moved {ι : Type} {t : ι} {e : Event} (hx : stopSleeps x = false)
    (hr : inRead x = true → semop s.sem stopRead ≠ none)
    (hw : inWrite x = true → semop s.sem stopWrite ≠ none)
    (h : processStep t e s x = some (s', x')) : Moved s x s' x' := by
  obtain ⟨pc, f⟩ := x
  cases e with
  | sigint => exact handler_moved hx h
  | run =>
    rcases pc with pc | pc | st
    · exact reader_moved hx hr h
    · exact writer_moved hx hw h
    · cases h

/-! ## The invariant -/

structure Inv {ι : Type} [Fintype ι] (c : Config ι Shared Process) : Prop
    extends Represents rep c.shared.sem (insideOf sections c.loc) where
  awake : ∀ t, stopSleeps (c.loc t) = false

section Invariant

variable {ι : Type} [Fintype ι] {c : Config ι Shared Process}

theorem inv_initial (role : ι → Role) : Inv (initial role) := by
  have hout : insideOf sections (initial role).loc = fun _ => ⟨0, 0⟩ := by
    funext t
    simp only [insideOf, initial]
    cases role t <;> rfl
  refine ⟨?_, fun t => ?_⟩
  · rw [hout]
    exact encoding_faithful.represents_init
  · simp only [initial]
    cases role t <;> rfl

namespace Inv

/-- The values, semaphore by semaphore. -/
theorem readers (hI : Inv c) : c.shared.sem .numbOfReaders = count inRead c.loc := by
  rw [hI.sem]
  rfl

theorem writers (hI : Inv c) : c.shared.sem .activeWriter = count inWrite c.loc := by
  rw [hI.sem]
  rfl

theorem complement (hI : Inv c) : c.shared.sem .activeWriter + c.shared.sem .binSem = 1 := by
  have hone := hI.safe.1
  rw [hI.sem]
  simp only [rep]
  omega

theorem writersQueue (hI : Inv c) : c.shared.sem .writersQueue = 0 := by
  rw [hI.sem]
  rfl

theorem readersQueue (hI : Inv c) : c.shared.sem .readersQueue = 0 := by
  rw [hI.sem]
  rfl

/-- A call that ends a section goes on. -/
theorem stopRead_goes_on (hI : Inv c) {t : ι} (ht : inRead (c.loc t) = true) :
    semop c.shared.sem stopRead ≠ none :=
  encoding_faithful.stop_goes_on hI.toRepresents (Or.inl rfl) (Place.after_stopRead ht)

theorem stopWrite_goes_on (hI : Inv c) {t : ι} (ht : inWrite (c.loc t) = true) :
    semop c.shared.sem stopWrite ≠ none :=
  encoding_faithful.stop_goes_on hI.toRepresents (Or.inr rfl) (Place.after_stopWrite ht)

end Inv

variable [DecidableEq ι]

theorem inv_step {t : ι} {e : Event} (hI : Inv c)
    (h : processStep t e c.shared (c.loc t) = some (s', x')) : Inv (c.set t s' x') := by
  obtain ⟨hx, hmoves⟩ := step_moved (hI.awake t) hI.stopRead_goes_on hI.stopWrite_goes_on h
  refine ⟨?_, Config.forall_set (P := fun _ y => stopSleeps y = false) hx fun u _ => hI.awake u⟩
  rw [insideOf_set]
  exact encoding_faithful.represents_move hI.toRepresents hmoves

/-- The invariant holds in every state the children reach. -/
theorem inv_reach {role : ι → Role} (h : (children ι).Reach (initial role) c) : Inv c :=
  Machine.ReachBy.interleave_invariant h (inv_initial role) fun _ _ _ _ _ hI _ hs => inv_step hI hs

end Invariant

end OsLabs.Wr
