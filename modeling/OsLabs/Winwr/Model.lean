import OsLabs.Concurrent.Machine
import OsLabs.Letters

/-!
# The readers-writers monitor on Windows events: model

The threads of `lab_win/winwr.c`, any number of readers and writers. Every Interlocked
operation, every plain read of a shared counter, every read or write of `buf` and of
`f_sigint`, and every call on an event or the mutex is one step.

`can_read` is an auto-reset event, so that a wait that it lets pass resets it; `can_write`
is a manual-reset event and stays signalled until `ResetEvent`. A wait on an event that
is not signalled, or on the mutex while a thread owns it, is not enabled. The console
handler runs in a thread of the system: its write of `f_sigint` is the event `ctrlC`,
which may happen before any step.
-/

namespace OsLabs.Winwr

open Concurrent

/-- The globals of the program. `fSigint` is true until Ctrl-C. -/
structure Shared (ι : Type) where
  writersQueue : ℤ
  readersQueue : ℤ
  activeReaders : ℤ
  activeWriter : ℤ
  canRead : Bool
  canWrite : Bool
  mutex : Option ι
  buf : Char
  fSigint : Bool

/-- The points of `reader`, with those of `start_read` and `stop_read`. -/
inductive ReaderPC
  | head
  | sleep
  | incQueue
  | testWriter
  | testQueue
  | wait
  | lock
  | decQueue
  | incActive
  | setRead
  | release
  | read
  | decActive
  | testZero
  | setWrite
  | exited
deriving DecidableEq, Repr

/-- The points of `writer`, with those of `start_write` and `stop_write`. -/
inductive WriterPC
  | head
  | sleep
  | incQueue
  | testReaders
  | testWriter
  | wait
  | decQueue
  | incActive
  | test
  | reset
  | load
  | store (c : Char)
  | print
  | decActive
  | resetWrite
  | testQueue
  | setRead
  | setWrite
  | exited
deriving DecidableEq, Repr

inductive Thread
  | reader (pc : ReaderPC)
  | writer (pc : WriterPC)
deriving DecidableEq, Repr

/-- What can happen next: a step of the thread, or Ctrl-C. -/
inductive Event
  | run
  | ctrlC
deriving DecidableEq, Repr

variable {ι : Type}

/-- One step of `reader`, with `start_read` and `stop_read` in their places. -/
def reader (t : ι) (s : Shared ι) : ReaderPC → Option (Shared ι × ReaderPC)
  | .head => some (s, if s.fSigint then .sleep else .exited)
  | .sleep => some (s, .incQueue)
  -- `start_read`: `if (active_writer || writers_queue)` before the wait
  | .incQueue => some ({ s with readersQueue := s.readersQueue + 1 }, .testWriter)
  | .testWriter => some (s, if s.activeWriter ≠ 0 then .wait else .testQueue)
  | .testQueue => some (s, if s.writersQueue ≠ 0 then .wait else .lock)
  | .wait => if s.canRead then some ({ s with canRead := false }, .lock) else none
  | .lock => if s.mutex = none then some ({ s with mutex := some t }, .decQueue) else none
  | .decQueue => some ({ s with readersQueue := s.readersQueue - 1 }, .incActive)
  | .incActive => some ({ s with activeReaders := s.activeReaders + 1 }, .setRead)
  | .setRead => some ({ s with canRead := true }, .release)
  | .release => some ({ s with mutex := none }, .read)
  | .read => some (s, .decActive)
  -- `stop_read`
  | .decActive => some ({ s with activeReaders := s.activeReaders - 1 }, .testZero)
  | .testZero => some (s, if s.activeReaders = 0 then .setWrite else .head)
  | .setWrite => some ({ s with canWrite := true }, .head)
  | .exited => none

/-- One step of `writer`, with `start_write` and `stop_write` in their places. -/
def writer (s : Shared ι) : WriterPC → Option (Shared ι × WriterPC)
  | .head => some (s, if s.fSigint then .sleep else .exited)
  | .sleep => some (s, .incQueue)
  -- `start_write`: `if (active_readers || active_writer)` before the wait
  | .incQueue => some ({ s with writersQueue := s.writersQueue + 1 }, .testReaders)
  | .testReaders => some (s, if s.activeReaders ≠ 0 then .wait else .testWriter)
  | .testWriter => some (s, if s.activeWriter ≠ 0 then .wait else .decQueue)
  | .wait => if s.canWrite then some (s, .decQueue) else none
  | .decQueue => some ({ s with writersQueue := s.writersQueue - 1 }, .incActive)
  | .incActive => some ({ s with activeWriter := s.activeWriter + 1 }, .test)
  | .test => some (s, if s.buf = 'z' then .reset else .load)
  | .reset => some ({ s with buf := 'a' }, .print)
  | .load => some (s, .store s.buf)
  | .store c => some ({ s with buf := incr c }, .print)
  | .print => some (s, .decActive)
  -- `stop_write`
  | .decActive => some ({ s with activeWriter := s.activeWriter - 1 }, .resetWrite)
  | .resetWrite => some ({ s with canWrite := false }, .testQueue)
  | .testQueue => some (s, if s.readersQueue > 0 then .setRead else .setWrite)
  | .setRead => some ({ s with canRead := true }, .head)
  | .setWrite => some ({ s with canWrite := true }, .head)
  | .exited => none

/-- One step of a thread, or the console handler. -/
def threadStep (t : ι) (e : Event) (s : Shared ι) (x : Thread) : Option (Shared ι × Thread) :=
  match e, x with
  | .ctrlC, x => some ({ s with fSigint := false }, x)
  | .run, .reader pc => (reader t s pc).map fun p => (p.1, .reader p.2)
  | .run, .writer pc => (writer s pc).map fun p => (p.1, .writer p.2)

/-- The function a thread is created with. -/
inductive Role
  | reader
  | writer
deriving DecidableEq, Repr

def Role.start : Role → Thread
  | .reader => .reader .head
  | .writer => .writer .head

/-- The state after `main` has created the events, the mutex and the threads. -/
def initial (role : ι → Role) : Config ι (Shared ι) Thread where
  shared :=
    { writersQueue := 0
      readersQueue := 0
      activeReaders := 0
      activeWriter := 0
      canRead := false
      canWrite := false
      mutex := none
      buf := 'a'
      fSigint := true }
  loc t := (role t).start

/-- The threads of the program, interleaved. -/
def program (ι : Type) [DecidableEq ι] : Machine (Config ι (Shared ι) Thread) (ι × Event) :=
  interleave threadStep

/-! ## The waits -/

variable {t : ι} {s s' : Shared ι} {x : Thread}

theorem step_wait_canRead : threadStep t .run s (.reader .wait) = some (s', x) ↔
    s.canRead = true ∧ ({ s with canRead := false }, Thread.reader .lock) = (s', x) := by
  simp only [threadStep, reader]
  split_ifs with h <;> simp [h]

theorem step_wait_mutex : threadStep t .run s (.reader .lock) = some (s', x) ↔
    s.mutex = none ∧ ({ s with mutex := some t }, Thread.reader .decQueue) = (s', x) := by
  simp only [threadStep, reader]
  split_ifs with h <;> simp [h]

theorem step_wait_canWrite : threadStep t .run s (.writer .wait) = some (s', x) ↔
    s.canWrite = true ∧ (s, Thread.writer .decQueue) = (s', x) := by
  simp only [threadStep, writer]
  split_ifs with h <;> simp [h]

end OsLabs.Winwr
