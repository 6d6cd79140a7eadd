import OsLabs.Concurrent.ReadersWriters
import OsLabs.TmpWr.Model
import OsLabs.Wr.Invariant

/-!
# Three encodings of the readers-writers monitor

`wr.c`, `wr_old.c` and `tmp_wr.c` write the four calls of the monitor as different arrays
over different semaphore sets. Each is a faithful encoding of the abstract monitor: its
values are a function of the number of readers and of writers inside (`rep`; the encoding of
`wr.c` stands with its invariant). So the same attempts succeed in all three, and they have
the same runs (`encodings_equivalent`).
-/

namespace OsLabs

open Concurrent Concurrent.ReadersWriters

/-! ## `wr_old.c` -/

namespace WrOld

/-- The semaphores of the set. -/
inductive SemNum
  | flagEdit
  | numbOfReaders
  | writersQueue
  | readersQueue
deriving DecidableEq, Repr

def semStartRead : List (SemBuf SemNum) :=
  [⟨.readersQueue, 1⟩, ⟨.flagEdit, 0⟩, ⟨.writersQueue, 0⟩, ⟨.numbOfReaders, 1⟩,
    ⟨.readersQueue, -1⟩]

def semStopRead : List (SemBuf SemNum) := [⟨.numbOfReaders, -1⟩]

def semStartWrite : List (SemBuf SemNum) :=
  [⟨.writersQueue, 1⟩, ⟨.numbOfReaders, 0⟩, ⟨.flagEdit, 0⟩, ⟨.flagEdit, 1⟩,
    ⟨.writersQueue, -1⟩]

def semStopWrite : List (SemBuf SemNum) := [⟨.flagEdit, -1⟩]

/-- The arrays of `wr_old.c`; `main` sets every semaphore to zero. -/
def encoding : Encoding SemNum where
  init _ := 0
  ops
    | .startRead => semStartRead
    | .stopRead => semStopRead
    | .startWrite => semStartWrite
    | .stopWrite => semStopWrite

/-- The values for the readers and writers inside. -/
def rep (m : Inside) : SemNum → ℕ
  | .flagEdit => m.writes
  | .numbOfReaders => m.reads
  | .writersQueue | .readersQueue => 0

theorem encoding_faithful : encoding.Faithful rep where
  init := by
    funext k
    cases k <;> rfl
  call := by
    intro m _ a w
    rcases a with _ | _ | _ | _
    · have hrep : Function.update (Function.update (Function.update (rep m) .readersQueue 1)
          .numbOfReaders (m.reads + 1)) .readersQueue 0 = rep ⟨m.reads + 1, m.writes⟩ := by
        funext k
        cases k <;> rfl
      simp [encoding, semStartRead, rep, hrep, eq_comm (b := w)]
    · have hrep : Function.update (rep m) .numbOfReaders (m.reads - 1) =
          rep ⟨m.reads - 1, m.writes⟩ := by
        funext k
        cases k <;> rfl
      simp [encoding, semStopRead, rep, hrep, eq_comm (b := w)]
    · have hrep : Function.update (Function.update (Function.update (rep m) .writersQueue 1)
          .flagEdit (m.writes + 1)) .writersQueue 0 = rep ⟨m.reads, m.writes + 1⟩ := by
        funext k
        cases k <;> rfl
      simp [encoding, semStartWrite, rep, hrep, eq_comm (b := w), and_assoc]
    · have hrep : Function.update (rep m) .flagEdit (m.writes - 1) =
          rep ⟨m.reads, m.writes - 1⟩ := by
        funext k
        cases k <;> rfl
      simp [encoding, semStopWrite, rep, hrep, eq_comm (b := w)]

end WrOld

/-! ## `tmp_wr.c` -/

namespace TmpWr

/-- The arrays and the initial values of `tmp_wr.c`. -/
def encoding : Encoding SemNum where
  init := initVal
  ops
    | .startRead => semStartRead
    | .stopRead => semStopRead
    | .startWrite => semStartWrite
    | .stopWrite => semStopWrite

/-- The values for the readers and writers inside. -/
def rep (m : Inside) : SemNum → ℕ
  | .cWaitingR | .cWaitingW => 0
  | .cActiveR => m.reads
  | .bActiveW => 1 - m.writes
  | .bSem => m.writes

theorem encoding_faithful : encoding.Faithful rep where
  init := by
    funext k
    cases k <;> rfl
  call := by
    intro m hm a w
    rcases a with _ | _ | _ | _
    · have hrep : Function.update (Function.update (Function.update (rep m) .cWaitingR 1)
          .cActiveR (m.reads + 1)) .cWaitingR 0 = rep ⟨m.reads + 1, m.writes⟩ := by
        funext k
        cases k <;> rfl
      simp [encoding, semStartRead, rep, hrep, eq_comm (b := w)]
    · have hrep : Function.update (rep m) .cActiveR (m.reads - 1) =
          rep ⟨m.reads - 1, m.writes⟩ := by
        funext k
        cases k <;> rfl
      simp [encoding, semStopRead, rep, hrep, eq_comm (b := w)]
    · have hrep : Function.update (Function.update (Function.update (Function.update (rep m)
          .cWaitingW 1) .bSem (m.writes + 1)) .bActiveW 0) .cWaitingW 0 =
          rep ⟨m.reads, m.writes + 1⟩ := by
        funext k
        cases k <;> simp [rep, Function.update]
      have hfree : 0 < 1 - m.writes ↔ m.writes = 0 := by omega
      simp [encoding, semStartWrite, rep, hrep, hfree, eq_comm (b := w), and_assoc]
    · have hrep (h : 0 < m.writes) : Function.update (Function.update (rep m) .bActiveW
          (1 - m.writes + 1)) .bSem (m.writes - 1) = rep ⟨m.reads, m.writes - 1⟩ := by
        funext k
        cases k <;> simp [rep, Function.update]
        omega
      have hcall : semop (rep m) semStopWrite = some w ↔ 0 < m.writes ∧ Function.update
          (Function.update (rep m) .bActiveW (1 - m.writes + 1)) .bSem (m.writes - 1) = w := by
        simp [semStopWrite, rep]
      simp only [encoding, hcall, Inside.steps_stopWrite]
      constructor
      · rintro ⟨hw, rfl⟩
        exact ⟨_, ⟨hw, rfl⟩, hrep hw⟩
      · rintro ⟨_, ⟨hw, rfl⟩, rfl⟩
        exact ⟨hw, hrep hw⟩

end TmpWr

/-! ## The three together -/

/-- **The three encodings are equivalent.** For any number of processes and every sequence
of attempts (a stop of what was not started is no attempt and counts as failing), the same
attempts succeed in `wr.c`, `wr_old.c` and `tmp_wr.c`; and a sequence of calls is a run of
one of the programs exactly when it is a run of the other two. -/
theorem Wr.encodings_equivalent {ι : Type*} [Fintype ι] [DecidableEq ι] (as : List (ι × Call)) :
    ((WrOld.encoding.system ι).outcomes (WrOld.encoding.start ι) as =
        (Wr.encoding.system ι).outcomes (Wr.encoding.start ι) as ∧
      (TmpWr.encoding.system ι).outcomes (TmpWr.encoding.start ι) as =
        (Wr.encoding.system ι).outcomes (Wr.encoding.start ι) as) ∧
    (((WrOld.encoding.system ι).run (WrOld.encoding.start ι) as).isSome =
        ((Wr.encoding.system ι).run (Wr.encoding.start ι) as).isSome ∧
      ((TmpWr.encoding.system ι).run (TmpWr.encoding.start ι) as).isSome =
        ((Wr.encoding.system ι).run (Wr.encoding.start ι) as).isSome) := by
  rw [Wr.encoding_faithful.outcomes_eq, WrOld.encoding_faithful.outcomes_eq,
    TmpWr.encoding_faithful.outcomes_eq, Wr.encoding_faithful.run_eq,
    WrOld.encoding_faithful.run_eq, TmpWr.encoding_faithful.run_eq]
  simp only [Option.isSome_map, and_self]

end OsLabs
