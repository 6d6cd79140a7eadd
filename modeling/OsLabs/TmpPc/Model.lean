import OsLabs.Concurrent.ReadersWriters

/-!
# The readers-writers monitor without `SEM_UNDO`: model

The children of `os_lab_4/tmp_pc.c`, which count in `*number`. One `semop` is one step, which
a process that has to wait cannot make, and so is every read and every write of `*number`.
The program has no signal handler: a signal ends the process at any point (`kill`), and the
semaphores stay as it has left them. `main` removes the set when all children have been
waited for.

`increments`, the number of stores, and what a dead process was inside are history. The
number stays below `INT_MAX`.
-/

namespace OsLabs.TmpPc

open Concurrent Concurrent.ReadersWriters

/-- The semaphores of the set. -/
inductive SemNum
  | activeReaders
  | writeQueue
  | readQueue
  | activeWriter
  | binWriter
deriving DecidableEq, Repr

def startRead : List (SemBuf SemNum) :=
  [⟨.readQueue, 1⟩, ⟨.activeWriter, 0⟩, ⟨.writeQueue, 0⟩, ⟨.activeReaders, 1⟩,
    ⟨.readQueue, -1⟩]

def stopRead : List (SemBuf SemNum) := [⟨.activeReaders, -1⟩]

def startWrite : List (SemBuf SemNum) :=
  [⟨.writeQueue, 1⟩, ⟨.activeReaders, 0⟩, ⟨.binWriter, -1⟩, ⟨.activeWriter, 0⟩,
    ⟨.activeWriter, 1⟩, ⟨.writeQueue, -1⟩]

def stopWrite : List (SemBuf SemNum) := [⟨.activeWriter, -1⟩, ⟨.binWriter, 1⟩]

/-- The values that `init_monitor` gives to the semaphores. -/
def initMonitor : SemNum → ℕ
  | .binWriter => 1
  | _ => 0

structure Shared where
  sem : SemNum → ℕ
  number : ℤ
  increments : ℕ

inductive ReaderPC
  | sleep
  | start
  | print
  | stop
deriving DecidableEq, Repr

inductive WriterPC
  | sleep
  | start
  | load
  | store (v : ℤ)
  | print
  | stop
deriving DecidableEq, Repr

inductive PC
  | reader (pc : ReaderPC)
  | writer (pc : WriterPC)
  | dead (inside : Inside)
deriving DecidableEq, Repr

/-- What the process is inside, or was when it was killed. -/
def PC.inside : PC → Inside
  | .reader .print | .reader .stop => ⟨1, 0⟩
  | .writer .load | .writer (.store _) | .writer .print | .writer .stop => ⟨0, 1⟩
  | .dead i => i
  | _ => ⟨0, 0⟩

inductive Event
  | run
  | kill
deriving DecidableEq, Repr

/-- A `semop` that goes on to `next`. -/
def callSemop (s : Shared) (ops : List (SemBuf SemNum)) (next : PC) : Option (Shared × PC) :=
  (semop s.sem ops).map fun v => ({ s with sem := v }, next)

/-- One step of `reader`. -/
def reader (s : Shared) : ReaderPC → Option (Shared × PC)
  | .sleep => some (s, .reader .start)
  | .start => callSemop s startRead (.reader .print)
  | .print => some (s, .reader .stop)
  | .stop => callSemop s stopRead (.reader .sleep)

/-- One step of `writer`. -/
def writer (s : Shared) : WriterPC → Option (Shared × PC)
  | .sleep => some (s, .writer .start)
  | .start => callSemop s startWrite (.writer .load)
  | .load => some (s, .writer (.store s.number))
  | .store v =>
      some ({ s with number := v + 1, increments := s.increments + 1 }, .writer .print)
  | .print => some (s, .writer .stop)
  | .stop => callSemop s stopWrite (.writer .sleep)

/-- One step of a child. -/
def processStep {ι : Type} (_ : ι) (e : Event) (s : Shared) (x : PC) : Option (Shared × PC) :=
  match x, e with
  | .dead _, _ => none
  | x, .kill => some (s, .dead x.inside)
  | .reader pc, .run => reader s pc
  | .writer pc, .run => writer s pc

inductive Role
  | reader
  | writer
deriving DecidableEq, Repr

def Role.begin : Role → PC
  | .reader => .reader .sleep
  | .writer => .writer .sleep

/-- The state after the forks of `main`, with the children in the given roles. -/
def initial {ι : Type} (role : ι → Role) : Config ι Shared PC where
  shared := ⟨initMonitor, 0, 0⟩
  loc t := (role t).begin

/-- The children of `main`, interleaved. -/
def children (ι : Type) [DecidableEq ι] : Machine (Config ι Shared PC) (ι × Event) :=
  interleave processStep

end OsLabs.TmpPc
