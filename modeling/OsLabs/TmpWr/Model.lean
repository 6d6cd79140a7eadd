import OsLabs.Concurrent.Machine
import OsLabs.Concurrent.SysV
import OsLabs.Letters

/-!
# The readers-writers monitor with `SEM_UNDO`: model

The children of `os_lab_4/tmp_wr.c`: the monitor of readers and writers with `B_SEM` and
`B_ACTIVE_W` in swapped roles, every operation of its arrays with `SEM_UNDO`. One `semop`
call is one step (a call that cannot be applied puts its process to sleep), and so is
every read and every write of the character `*ch`.

A process terminates by `exit` or, with the event `sigkill`, at any point whatsoever; in
the same step its adjustments are added to the semaphores. `sigint` is delivered as in
the other programs: the handler clears `fl`, and a sleeping `semop` returns `EINTR`.
-/

namespace OsLabs.TmpWr

open Concurrent

/-- The semaphores of the set. -/
inductive SemNum
  | cWaitingR
  | cActiveR
  | cWaitingW
  | bActiveW
  | bSem
deriving DecidableEq, Repr

/-- The operation on `B_ACTIVE_W` is commented out in the source. -/
def semStartRead : List (SemBuf SemNum) :=
  [⟨.cWaitingR, 1⟩, ⟨.bSem, 0⟩, ⟨.cWaitingW, 0⟩, ⟨.cActiveR, 1⟩, ⟨.cWaitingR, -1⟩]

def semStopRead : List (SemBuf SemNum) := [⟨.cActiveR, -1⟩]

def semStartWrite : List (SemBuf SemNum) :=
  [⟨.cWaitingW, 1⟩, ⟨.cActiveR, 0⟩, ⟨.bSem, 1⟩, ⟨.bActiveW, -1⟩, ⟨.cWaitingW, -1⟩]

def semStopWrite : List (SemBuf SemNum) := [⟨.bActiveW, 1⟩, ⟨.bSem, -1⟩]

/-- The semaphore set and the character in shared memory. -/
structure Shared where
  sem : SemNum → ℕ
  ch : Char

/-- The points of `reader`; `startSleep` and `stopSleep` are inside a `semop` that
waits. -/
inductive ReaderPC
  | head
  | sleep
  | start
  | startSleep
  | read
  | stop
  | stopSleep
deriving DecidableEq, Repr

/-- The points of `writer`. -/
inductive WriterPC
  | head
  | sleep
  | start
  | startSleep
  | test
  | reset
  | load
  | store (c : Char)
  | print
  | stop
  | stopSleep
deriving DecidableEq, Repr

/-- How a process has terminated: by `exit(0)`, by `exit(1)`, or killed. -/
inductive End
  | success
  | failure
  | killed
deriving DecidableEq, Repr

inductive PC
  | reader (pc : ReaderPC)
  | writer (pc : WriterPC)
  | dead (how : End)
deriving DecidableEq, Repr

/-- A child process: its point, its own copy of `fl`, and its adjustments in the
kernel. -/
structure Process where
  pc : PC
  fl : Bool
  semadj : SemNum → ℤ

/-- What can happen to a process: it runs, or a signal is delivered to it. -/
inductive Event
  | run
  | sigint
  | sigkill
deriving DecidableEq, Repr

/-- The process terminates. -/
def exit (s : Shared) (x : Process) (how : End) : Shared × Process :=
  ({ s with sem := undo s.sem x.semadj }, ⟨.dead how, x.fl, fun _ => 0⟩)

/-- A `semop` call, or its retry after a wake-up: the process goes on to `next`, or it
sleeps at `asleep`; a process already asleep makes no step until it can go on. -/
def callSemop (s : Shared) (x : Process) (ops : List (SemBuf SemNum)) (next : PC)
    (asleep : Option PC) : Option (Shared × Process) :=
  match semop s.sem ops with
  | some v => some ({ s with sem := v }, { x with pc := next, semadj := adjust x.semadj ops })
  | none => asleep.map fun pc => (s, { x with pc := pc })

/-- One step of `reader`. -/
def reader (s : Shared) (x : Process) : ReaderPC → Option (Shared × Process)
  | .head => some (if x.fl then (s, { x with pc := .reader .sleep }) else exit s x .success)
  | .sleep => some (s, { x with pc := .reader .start })
  | .start => callSemop s x semStartRead (.reader .read) (some (.reader .startSleep))
  | .startSleep => callSemop s x semStartRead (.reader .read) none
  | .read => some (s, { x with pc := .reader .stop })
  | .stop => callSemop s x semStopRead (.reader .head) (some (.reader .stopSleep))
  | .stopSleep => callSemop s x semStopRead (.reader .head) none

/-- One step of `writer`. -/
def writer (s : Shared) (x : Process) : WriterPC → Option (Shared × Process)
  | .head => some (if x.fl then (s, { x with pc := .writer .sleep }) else exit s x .success)
  | .sleep => some (s, { x with pc := .writer .start })
  | .start => callSemop s x semStartWrite (.writer .test) (some (.writer .startSleep))
  | .startSleep => callSemop s x semStartWrite (.writer .test) none
  | .test => some (s, { x with pc := .writer (if s.ch = 'z' then .reset else .load) })
  -- `*ch = 'a'-1`
  | .reset => some ({ s with ch := Char.ofNat ('a'.toNat - 1) }, { x with pc := .writer .load })
  | .load => some (s, { x with pc := .writer (.store s.ch) })
  | .store c => some ({ s with ch := incr c }, { x with pc := .writer .print })
  | .print => some (s, { x with pc := .writer .stop })
  | .stop => callSemop s x semStopWrite (.writer .head) (some (.writer .stopSleep))
  | .stopSleep => callSemop s x semStopWrite (.writer .head) none

/-- The process sleeps inside a `semop` call. -/
def PC.asleep : PC → Bool
  | .reader .startSleep | .reader .stopSleep => true
  | .writer .startSleep | .writer .stopSleep => true
  | _ => false

/-- Delivery of SIGINT: `sig_handler` runs, and a sleeping `semop` returns `EINTR`. -/
def sigHandler (s : Shared) (x : Process) : Shared × Process :=
  if x.pc.asleep then exit s { x with fl := false } .failure else (s, { x with fl := false })

/-- One step of a child process. -/
def processStep {ι : Type} (_ : ι) (e : Event) (s : Shared) (x : Process) :
    Option (Shared × Process) :=
  match x.pc, e with
  | .dead _, _ => none
  | _, .sigint => some (sigHandler s x)
  | _, .sigkill => some (exit s x .killed)
  | .reader pc, .run => reader s x pc
  | .writer pc, .run => writer s x pc

/-- The values `main` gives to the semaphores. -/
def initVal : SemNum → ℕ
  | .bActiveW => 1
  | _ => 0

inductive Role
  | reader
  | writer
deriving DecidableEq, Repr

def Role.head : Role → PC
  | .reader => .reader .head
  | .writer => .writer .head

/-- The state after the forks of `main`, with the processes in the given roles. -/
def initial {ι : Type} (role : ι → Role) : Config ι Shared Process where
  shared := ⟨initVal, Char.ofNat ('a'.toNat - 1)⟩
  loc t := ⟨(role t).head, true, fun _ => 0⟩

/-- The children of `main`, interleaved. -/
def children (ι : Type) [DecidableEq ι] : Machine (Config ι Shared Process) (ι × Event) :=
  interleave processStep

end OsLabs.TmpWr
