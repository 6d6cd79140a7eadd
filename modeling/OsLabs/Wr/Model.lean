import OsLabs.Concurrent.Machine
import OsLabs.Concurrent.SysV
import OsLabs.Letters

/-!
# The readers-writers monitor on System V semaphores: model

The children of `os_lab_4/wr/src/wr.c`: `reader` and `writer` loops over five semaphores
and the shared character `*buf`. One `semop` call is one step (a call that cannot be
applied puts its process to sleep), and so is every read and every write of `*buf`.

`sigint` delivers the signal to a process: the handler clears the `f_sigint` of that
process, which leaves at the head of its loop; a process that sleeps inside `semop` gets
`EINTR` and exits through its error branch. `sections` is history: the number of writer
sections completed.

No semaphore reaches `SEMVMX` here: `semop` has no upper bound on the values.
-/

namespace OsLabs.Wr

open Concurrent

/-- The semaphores of the set. -/
inductive SemNum
  | activeWriter
  | numbOfReaders
  | writersQueue
  | readersQueue
  | binSem
deriving DecidableEq, Repr

def startRead : List (SemBuf SemNum) :=
  [⟨.readersQueue, 1⟩, ⟨.activeWriter, 0⟩, ⟨.writersQueue, 0⟩, ⟨.numbOfReaders, 1⟩,
    ⟨.readersQueue, -1⟩]

def stopRead : List (SemBuf SemNum) := [⟨.numbOfReaders, -1⟩]

def startWrite : List (SemBuf SemNum) :=
  [⟨.writersQueue, 1⟩, ⟨.numbOfReaders, 0⟩, ⟨.binSem, -1⟩, ⟨.activeWriter, 1⟩,
    ⟨.writersQueue, -1⟩]

def stopWrite : List (SemBuf SemNum) := [⟨.activeWriter, -1⟩, ⟨.binSem, 1⟩]

/-- What the processes share: the semaphore set and the character in shared memory. -/
structure Shared where
  sem : SemNum → ℕ
  buf : Char
  sections : ℕ

/-- The points of `reader`; `startSleep` and `stopSleep` are inside a `semop` that
waits. -/
inductive ReaderPC
  | head
  | sleep
  | start
  | startSleep
  | read
  | stop
  | stopSleep
deriving DecidableEq, Repr

/-- The points of `writer`. -/
inductive WriterPC
  | head
  | sleep
  | start
  | startSleep
  | test
  | reset
  | load
  | store (c : Char)
  | print
  | stop
  | stopSleep
deriving DecidableEq, Repr

inductive ExitStatus
  | success
  | failure
deriving DecidableEq, Repr

inductive PC
  | reader (pc : ReaderPC)
  | writer (pc : WriterPC)
  | exited (status : ExitStatus)
deriving DecidableEq, Repr

/-- A child process: its point and its own copy of `f_sigint`. -/
structure Process where
  pc : PC
  fSigint : Bool
deriving DecidableEq, Repr

/-- What can happen to a process: it runs, or the signal is delivered to it. -/
inductive Event
  | run
  | sigint
deriving DecidableEq, Repr

/-- A `semop` call, or its retry after a wake-up: the process goes on to `next`, or it
sleeps at `asleep`; a process already asleep makes no step until it can go on. -/
def callSemop (s : Shared) (ops : List (SemBuf SemNum)) (next : PC) (asleep : Option PC)
    (done : Shared → Shared) (f : Bool) : Option (Shared × Process) :=
  match semop s.sem ops with
  | some v => some (done { s with sem := v }, ⟨next, f⟩)
  | none => asleep.map fun pc => (s, ⟨pc, f⟩)

/-- One step of `reader`. -/
def reader (s : Shared) (f : Bool) : ReaderPC → Option (Shared × Process)
  | .head => if f then some (s, ⟨.reader .sleep, f⟩) else some (s, ⟨.exited .success, f⟩)
  | .sleep => some (s, ⟨.reader .start, f⟩)
  | .start => callSemop s startRead (.reader .read) (some (.reader .startSleep)) id f
  | .startSleep => callSemop s startRead (.reader .read) none id f
  | .read => some (s, ⟨.reader .stop, f⟩)
  | .stop => callSemop s stopRead (.reader .head) (some (.reader .stopSleep)) id f
  | .stopSleep => callSemop s stopRead (.reader .head) none id f

/-- The history records that a writer section ends. -/
def Shared.endSection (s : Shared) : Shared := { s with sections := s.sections + 1 }

/-- One step of `writer`. -/
def writer (s : Shared) (f : Bool) : WriterPC → Option (Shared × Process)
  | .head => if f then some (s, ⟨.writer .sleep, f⟩) else some (s, ⟨.exited .success, f⟩)
  | .sleep => some (s, ⟨.writer .start, f⟩)
  | .start => callSemop s startWrite (.writer .test) (some (.writer .startSleep)) id f
  | .startSleep => callSemop s startWrite (.writer .test) none id f
  | .test =>
      if s.buf = 'z' then some (s, ⟨.writer .reset, f⟩) else some (s, ⟨.writer .load, f⟩)
  | .reset => some ({ s with buf := 'a' }, ⟨.writer .print, f⟩)
  | .load => some (s, ⟨.writer (.store s.buf), f⟩)
  | .store c => some ({ s with buf := incr c }, ⟨.writer .print, f⟩)
  | .print => some (s, ⟨.writer .stop, f⟩)
  | .stop =>
      callSemop s stopWrite (.writer .head) (some (.writer .stopSleep)) Shared.endSection f
  | .stopSleep => callSemop s stopWrite (.writer .head) none Shared.endSection f

/-- The process sleeps inside a `semop` call. -/
def PC.asleep : PC → Bool
  | .reader .startSleep | .reader .stopSleep => true
  | .writer .startSleep | .writer .stopSleep => true
  | _ => false

/-- Delivery of SIGINT: `handler` runs, and a sleeping `semop` returns `EINTR`. -/
def handler (s : Shared) (pc : PC) : Option (Shared × Process) :=
  match pc with
  | .exited _ => none
  | pc => some (s, ⟨if pc.asleep then .exited .failure else pc, false⟩)

/-- One step of a child process. -/
def processStep {ι : Type} (_ : ι) (e : Event) (s : Shared) (x : Process) :
    Option (Shared × Process) :=
  match e with
  | .sigint => handler s x.pc
  | .run =>
      match x.pc with
      | .reader pc => reader s x.fSigint pc
      | .writer pc => writer s x.fSigint pc
      | .exited _ => none

/-- The values `main` gives to the semaphores. -/
def initVal : SemNum → ℕ
  | .binSem => 1
  | _ => 0

inductive Role
  | reader
  | writer
deriving DecidableEq, Repr

def Role.head : Role → PC
  | .reader => .reader .head
  | .writer => .writer .head

/-- The state after the forks of `main`, with the processes in the given roles. -/
def initial {ι : Type} (role : ι → Role) : Config ι Shared Process where
  shared := ⟨initVal, 'a', 0⟩
  loc t := ⟨(role t).head, true⟩

/-- The children of `main`, interleaved. -/
def children (ι : Type) [DecidableEq ι] : Machine (Config ι Shared Process) (ι × Event) :=
  interleave processStep

end OsLabs.Wr
