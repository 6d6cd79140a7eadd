import OsLabs.Concurrent.Machine
import OsLabs.Concurrent.SysV
import OsLabs.Letters

/-!
# Producers and consumers with `SEM_UNDO`: model

The children of `os_lab_4/pc/src/pc.c`; `N_BUF` is the parameter `n`. One `semop` call is
one step (a call that cannot be applied puts its process to sleep), and so is every read
and every write of `*prod_ptr`, `*cons_ptr`, `*alfa` and a cell. Pointers are offsets
from the first cell; they are never wrapped, as in the source.

`sigint` delivers the signal: the handler clears the `f_sigint` of the process, which
leaves at the head of its loop, and a sleeping `semop` returns `EINTR`. When a process
terminates, its adjustments are added to the semaphores in the same step.

`stored` and `taken` are history: the cells in which letters were stored and from which
letters were taken, in order. No step reads them.
-/

namespace OsLabs.Pc

open Concurrent

/-- The semaphores of the set. -/
inductive SemNum
  | binary
  | bempty
  | bfull
deriving DecidableEq, Repr

def pProd : List (SemBuf SemNum) := [⟨.bempty, -1⟩, ⟨.binary, -1⟩]

def vProd : List (SemBuf SemNum) := [⟨.binary, 1⟩, ⟨.bfull, 1⟩]

def pCons : List (SemBuf SemNum) := [⟨.bfull, -1⟩, ⟨.binary, -1⟩]

def vCons : List (SemBuf SemNum) := [⟨.binary, 1⟩, ⟨.bempty, 1⟩]

/-- The semaphore set, the shared memory, and the history of the cells. -/
structure Shared where
  sem : SemNum → ℕ
  cell : ℕ → Char
  prodPtr : ℕ
  consPtr : ℕ
  alfa : Char
  stored : List ℕ
  taken : List ℕ

/-- The points of `producer`; `waitSleep` and `signalSleep` are inside a `semop` that
waits. -/
inductive ProdPC
  | head
  | sleep
  | wait
  | waitSleep
  | loadPtr
  | loadAlfa (p : ℕ)
  | store (p : ℕ) (a : Char)
  | printPtr
  | printCell (p : ℕ)
  | incLoad
  | incStore (p : ℕ)
  | test
  | reset
  | alfaLoad
  | alfaStore (a : Char)
  | signal
  | signalSleep
deriving DecidableEq, Repr

/-- The points of `consumer`. -/
inductive ConsPC
  | head
  | sleep
  | wait
  | waitSleep
  | loadPtr
  | take (p : ℕ)
  | incLoad
  | incStore (p : ℕ)
  | signal
  | signalSleep
deriving DecidableEq, Repr

inductive ExitStatus
  | success
  | failure
deriving DecidableEq, Repr

inductive PC
  | producer (pc : ProdPC)
  | consumer (pc : ConsPC)
  | exited (status : ExitStatus)
deriving DecidableEq, Repr

/-- A child process: its point, its own copy of `f_sigint`, and its adjustments in the
kernel. -/
structure Process where
  pc : PC
  fSigint : Bool
  semadj : SemNum → ℤ

/-- What can happen to a process: it runs, or the signal is delivered to it. -/
inductive Event
  | run
  | sigint
deriving DecidableEq, Repr

/-- The process terminates. -/
def exit (s : Shared) (x : Process) (status : ExitStatus) : Shared × Process :=
  ({ s with sem := undo s.sem x.semadj }, ⟨.exited status, x.fSigint, fun _ => 0⟩)

/-- A `semop` call, or its retry after a wake-up: the process goes on to `next`, or it
sleeps at `asleep`; a process already asleep makes no step until it can go on. -/
def callSemop (s : Shared) (x : Process) (ops : List (SemBuf SemNum)) (next : PC)
    (asleep : Option PC) : Option (Shared × Process) :=
  match semop s.sem ops with
  | some v => some ({ s with sem := v }, { x with pc := next, semadj := adjust x.semadj ops })
  | none => asleep.map fun pc => (s, { x with pc := pc })

/-- One step of `producer`. -/
def producer (s : Shared) (x : Process) : ProdPC → Option (Shared × Process)
  | .head =>
      some (if x.fSigint then (s, { x with pc := .producer .sleep }) else exit s x .success)
  | .sleep => some (s, { x with pc := .producer .wait })
  | .wait => callSemop s x pProd (.producer .loadPtr) (some (.producer .waitSleep))
  | .waitSleep => callSemop s x pProd (.producer .loadPtr) none
  | .loadPtr => some (s, { x with pc := .producer (.loadAlfa s.prodPtr) })
  | .loadAlfa p => some (s, { x with pc := .producer (.store p s.alfa) })
  -- `*(*prod_ptr) = (*alfa)`: the letter is stored here
  | .store p a =>
      some ({ s with cell := Function.update s.cell p a, stored := s.stored ++ [p] },
        { x with pc := .producer .printPtr })
  | .printPtr => some (s, { x with pc := .producer (.printCell s.prodPtr) })
  | .printCell _ => some (s, { x with pc := .producer .incLoad })
  | .incLoad => some (s, { x with pc := .producer (.incStore s.prodPtr) })
  | .incStore p => some ({ s with prodPtr := p + 1 }, { x with pc := .producer .test })
  | .test => some (s, { x with pc := .producer (if s.alfa = 'z' then .reset else .alfaLoad) })
  | .reset => some ({ s with alfa := 'a' }, { x with pc := .producer .signal })
  | .alfaLoad => some (s, { x with pc := .producer (.alfaStore s.alfa) })
  | .alfaStore a => some ({ s with alfa := incr a }, { x with pc := .producer .signal })
  | .signal => callSemop s x vProd (.producer .head) (some (.producer .signalSleep))
  | .signalSleep => callSemop s x vProd (.producer .head) none

/-- One step of `consumer`. -/
def consumer (s : Shared) (x : Process) : ConsPC → Option (Shared × Process)
  | .head =>
      some (if x.fSigint then (s, { x with pc := .consumer .sleep }) else exit s x .success)
  | .sleep => some (s, { x with pc := .consumer .wait })
  | .wait => callSemop s x pCons (.consumer .loadPtr) (some (.consumer .waitSleep))
  | .waitSleep => callSemop s x pCons (.consumer .loadPtr) none
  | .loadPtr => some (s, { x with pc := .consumer (.take s.consPtr) })
  -- `*(*cons_ptr)` is read and printed: the letter is taken here
  | .take p => some ({ s with taken := s.taken ++ [p] }, { x with pc := .consumer .incLoad })
  | .incLoad => some (s, { x with pc := .consumer (.incStore s.consPtr) })
  | .incStore p => some ({ s with consPtr := p + 1 }, { x with pc := .consumer .signal })
  | .signal => callSemop s x vCons (.consumer .head) (some (.consumer .signalSleep))
  | .signalSleep => callSemop s x vCons (.consumer .head) none

/-- The process sleeps inside a `semop` call. -/
def PC.asleep : PC → Bool
  | .producer .waitSleep | .producer .signalSleep => true
  | .consumer .waitSleep | .consumer .signalSleep => true
  | _ => false

/-- Delivery of SIGINT: `handler` runs, and a sleeping `semop` returns `EINTR`. -/
def handler (s : Shared) (x : Process) : Shared × Process :=
  if x.pc.asleep then exit s { x with fSigint := false } .failure
  else (s, { x with fSigint := false })

/-- One step of a child process. -/
def processStep {ι : Type} (_ : ι) (e : Event) (s : Shared) (x : Process) :
    Option (Shared × Process) :=
  match x.pc, e with
  | .exited _, _ => none
  | _, .sigint => some (handler s x)
  | .producer pc, .run => producer s x pc
  | .consumer pc, .run => consumer s x pc

/-- The step terminates the process. -/
def exits (e : Event) (x : Process) : Bool :=
  match e with
  | .run => (x.pc = .producer .head || x.pc = .consumer .head) && !x.fSigint
  | .sigint => x.pc.asleep

/-- The values `main` gives to the semaphores. -/
def initVal (n : ℕ) : SemNum → ℕ
  | .binary => 1
  | .bempty => n
  | .bfull => 0

inductive Role
  | producer
  | consumer
deriving DecidableEq, Repr

def Role.head : Role → PC
  | .producer => .producer .head
  | .consumer => .consumer .head

/-- The state after the forks of `main`, with the processes in the given roles; `shmget`
hands out the cells filled with zero bytes. -/
def initial {ι : Type} (n : ℕ) (role : ι → Role) : Config ι Shared Process where
  shared :=
    { sem := initVal n
      cell := fun _ => Char.ofNat 0
      prodPtr := 0
      consPtr := 0
      alfa := 'a'
      stored := []
      taken := [] }
  loc t := ⟨(role t).head, true, fun _ => 0⟩

/-- The children of `main`, interleaved. -/
def children (ι : Type) [DecidableEq ι] : Machine (Config ι Shared Process) (ι × Event) :=
  interleave processStep

end OsLabs.Pc
