import OsLabs.Winwr.Counters
import OsLabs.Concurrent.Simulation

/-!
# The readers-writers monitor on Windows events: what an entry rests on

A thread raises `active_readers` or `active_writer` on the strength of something seen
before: of its own tests of the counters, or, where it has waited, of what the thread had
seen that signalled the event. The marks below follow this along a run. The mark of a
thread tells whether a reader or a writer has entered since the thread looked at the
counters; `SetEvent` hands the mark of its caller to the event, and a wait that passes
hands the mark of the event to the thread.

The marks are history: the steps of the program do not depend on them (`tracked_run`).
-/

namespace OsLabs.Winwr

open Concurrent

/-- Whether a reader and whether a writer has entered since. -/
structure Since where
  reader : Bool
  writer : Bool
deriving DecidableEq, Repr

/-- The marks of the threads, and of the events as they were signalled last. -/
structure Marks (ι : Type) where
  thread : ι → Since
  canRead : Since
  canWrite : Since

/-- A mark after a step of some other thread: only the entries count. -/
def Since.after (k : Since) : Thread → Since
  | .reader .incActive => { k with reader := true }
  | .writer .incActive => { k with writer := true }
  | _ => k

variable {ι : Type}

/-- The mark of a thread after its own step; it was `k` before. -/
def Marks.own (m : Marks ι) (k : Since) : Thread → Since
  -- the test of `active_writer`
  | .reader .testWriter | .writer .testWriter => { k with writer := false }
  -- the test of `active_readers`
  | .reader .testZero | .writer .testReaders => { k with reader := false }
  -- a wait that passes
  | .reader .wait => m.canRead
  | .writer .wait => m.canWrite
  -- the first operation of `stop_write`: the writer has been inside up to now
  | .writer .decActive => ⟨false, false⟩
  | x => k.after x

/-- The mark of `can_read` after a step of a thread with mark `k`. -/
def Marks.onCanRead (m : Marks ι) (k : Since) : Thread → Since
  | .reader .setRead | .writer .setRead => k
  | x => m.canRead.after x

/-- The mark of `can_write` after a step of a thread with mark `k`. -/
def Marks.onCanWrite (m : Marks ι) (k : Since) : Thread → Since
  | .reader .setWrite | .writer .setWrite => k
  | x => m.canWrite.after x

variable [DecidableEq ι]

/-- The marks after a step that thread `t` makes at `x`. -/
def Marks.step (m : Marks ι) (t : ι) (x : Thread) : Marks ι where
  thread := Function.update (fun u => (m.thread u).after x) t (m.own (m.thread t) x)
  canRead := m.onCanRead (m.thread t) x
  canWrite := m.onCanWrite (m.thread t) x

@[simp] theorem Marks.step_thread_self (m : Marks ι) (t : ι) (x : Thread) :
    (m.step t x).thread t = m.own (m.thread t) x := by
  simp [Marks.step]

@[simp] theorem Marks.step_thread_of_ne {m : Marks ι} {t u : ι} (h : u ≠ t) (x : Thread) :
    (m.step t x).thread u = (m.thread u).after x := by
  simp [Marks.step, h]

def Marks.event (m : Marks ι) (t : ι) (x : Thread) : Event → Marks ι
  | .run => m.step t x
  | .ctrlC => m

/-- One step of a thread, or the console handler, with the marks. -/
def trackedStep (t : ι) (e : Event) (s : Shared ι × Marks ι) (x : Thread) :
    Option ((Shared ι × Marks ι) × Thread) :=
  (threadStep t e s.1 x).map fun p => ((p.1, s.2.event t x e), p.2)

/-- The threads of the program, interleaved, with the marks. -/
def tracked (ι : Type) [DecidableEq ι] :
    Machine (Config ι (Shared ι × Marks ι) Thread) (ι × Event) :=
  interleave trackedStep

/-- The configuration without the marks. -/
def plain (c : Config ι (Shared ι × Marks ι) Thread) : Config ι (Shared ι) Thread :=
  ⟨c.shared.1, c.loc⟩

def trackedInitial (role : ι → Role) : Config ι (Shared ι × Marks ι) Thread where
  shared := ((initial role).shared, ⟨fun _ => ⟨false, false⟩, ⟨false, false⟩, ⟨false, false⟩⟩)
  loc := (initial role).loc

/-- Where the action is the entry of a thread, no writer has entered since the look at the
counters on which the entry rests, and no reader where the thread is a writer. -/
def EntersFresh (c : Config ι (Shared ι × Marks ι) Thread) (a : ι × Event) : Prop :=
  a.2 = .run →
    (c.loc a.1 = .writer .incActive →
      (c.shared.2.thread a.1).reader = false ∧ (c.shared.2.thread a.1).writer = false) ∧
    (c.loc a.1 = .reader .incActive → (c.shared.2.thread a.1).writer = false)

instance (c : Config ι (Shared ι × Marks ι) Thread) (a : ι × Event) :
    Decidable (EntersFresh c a) :=
  inferInstanceAs (Decidable (_ = _ → (_ = _ → _ ∧ _) ∧ (_ = _ → _)))

theorem tracked_simulates : Machine.Simulates (program ι) (tracked ι) plain fun _ => True where
  next c a _ := by
    obtain ⟨t, e⟩ := a
    simp only [program, tracked, interleave, trackedStep, plain, Option.map_map]
    rfl
  keeps _ _ _ _ _ := trivial

/-- The runs with the marks are the runs of the program. -/
theorem tracked_run (role : ι → Role) (as : List (ι × Event)) :
    (program ι).run (initial role) as =
      ((tracked ι).run (trackedInitial role) as).map plain :=
  tracked_simulates.run_eq (s := trackedInitial role) trivial as

end OsLabs.Winwr
