import OsLabs.Bytes.Words
import OsLabs.Concurrent.BoundedBuffer
import OsLabs.Concurrent.Machine
import Mathlib.Algebra.Group.Nat.Defs

/-!
# Producers and consumers on one ring of letters: model

The children of `os_lab_4/les_pc.c`, any number of producers and consumers. One `semop`
call is one step, and so is every read and every write of `*ptr_prod`, `*ptr_cons`,
`*ptr_alpha_now` and a cell.

The shared segment is a memory of bytes, laid out as `main` lays it out: the two pointers
of 8 bytes each, the letter, and behind it the cells. The memory is a function on all
addresses, so nothing in the model itself keeps a store away from the pointers.

`sigint` delivers the signal, whose handler clears the `sig_flag` of the process; `eintr`
is a `semop` that the signal has interrupted. `stored` and `taken` are history: the letters
that were stored in cells and read from cells, in order. No step reads them.
-/

namespace OsLabs.LesPc

open Concurrent Concurrent.BoundedBuffer Bytes

/-- The semaphores of the set. -/
inductive SemNum
  | binSem
  | buffFull
  | buffEmpty
deriving DecidableEq, Repr

/-- The set is that of a bounded buffer. -/
def sems : Sems SemNum where
  mutex := .binSem
  empty := .buffEmpty
  full := .buffFull
  mutex_ne_empty := by decide
  mutex_ne_full := by decide
  empty_ne_full := by decide

def startProduce : List (SemBuf SemNum) := [⟨.buffEmpty, -1⟩, ⟨.binSem, -1⟩]

def stopProduce : List (SemBuf SemNum) := [⟨.binSem, 1⟩, ⟨.buffFull, 1⟩]

def startConsume : List (SemBuf SemNum) := [⟨.buffFull, -1⟩, ⟨.binSem, -1⟩]

def stopConsume : List (SemBuf SemNum) := [⟨.binSem, 1⟩, ⟨.buffEmpty, 1⟩]

/-- `SIZE_BUF`. -/
def sizeBuf : ℕ := 26

/-- What `shmat` returns: the address of a page. -/
structure Segment where
  addr : ℕ
  fits : addr + 4096 ≤ 2 ^ 64

namespace Segment

variable (g : Segment)

def ptrProd : ℕ := g.addr

def ptrCons : ℕ := g.ptrProd + 8

def ptrAlphaNow : ℕ := g.ptrCons + 8

end Segment

/-- `*q`, for a pointer to a pointer. -/
def loadPtr (m : ℕ → UInt8) (q : ℕ) : ℕ := loadWord m q 8

/-- `*q = p`. -/
def storePtr (m : ℕ → UInt8) (q p : ℕ) : ℕ → UInt8 := storeWord m q p 8

/-- The semaphore set, the memory, and the history of the cells. -/
structure Shared where
  sem : SemNum → ℕ
  mem : ℕ → UInt8
  stored : List UInt8
  taken : List UInt8

/-- The points of `producer`. -/
inductive ProdPC
  | head
  | sleep
  | start
  | loadPtr
  | loadAlpha (p : ℕ)
  | store (p : ℕ) (a : UInt8)
  | printPtr
  | printCell (p : ℕ)
  | test
  | decLoad
  | decStore (p : ℕ)
  | reset
  | incLoad
  | incStore (p : ℕ)
  | alphaLoad
  | alphaStore (a : UInt8)
  | stop
deriving DecidableEq, Repr

/-- The points of `consumer`. -/
inductive ConsPC
  | head
  | sleep
  | start
  | loadPtr
  | take (p : ℕ)
  | testPtr
  | testCell (p : ℕ)
  | decLoad
  | decStore (p : ℕ)
  | incLoad
  | incStore (p : ℕ)
  | stop
deriving DecidableEq, Repr

inductive PC
  | producer (pc : ProdPC)
  | consumer (pc : ConsPC)
  | exited
deriving DecidableEq, Repr

/-- A child process: its point, and its own copy of `sig_flag`. -/
structure Process where
  pc : PC
  sigFlag : Bool
deriving DecidableEq, Repr

/-- What can happen to a process. -/
inductive Event
  | run
  | sigint
  | eintr
deriving DecidableEq, Repr

/-- One step of `producer`; `flag` is `sig_flag`. -/
def producer (g : Segment) (flag : Bool) (s : Shared) : ProdPC → Option (Shared × PC)
  | .head => some (s, if flag then .producer .sleep else .exited)
  | .sleep => some (s, .producer .start)
  | .start => (semop s.sem startProduce).map fun v => ({ s with sem := v }, .producer .loadPtr)
  | .loadPtr => some (s, .producer (.loadAlpha (loadPtr s.mem g.ptrProd)))
  | .loadAlpha p => some (s, .producer (.store p (s.mem g.ptrAlphaNow)))
  -- `**ptr_prod = *ptr_alpha_now`: the letter is stored here
  | .store p a =>
      some ({ s with mem := Function.update s.mem p a, stored := s.stored ++ [a] },
        .producer .printPtr)
  | .printPtr => some (s, .producer (.printCell (loadPtr s.mem g.ptrProd)))
  | .printCell _ => some (s, .producer .test)
  | .test =>
      some (s, .producer (if s.mem g.ptrAlphaNow = 'z'.toUInt8 then .decLoad else .incLoad))
  | .decLoad => some (s, .producer (.decStore (loadPtr s.mem g.ptrProd)))
  | .decStore p =>
      some ({ s with mem := storePtr s.mem g.ptrProd (p + 2 ^ 64 - sizeBuf) }, .producer .reset)
  | .reset =>
      some ({ s with mem := Function.update s.mem g.ptrAlphaNow 'a'.toUInt8 }, .producer .stop)
  | .incLoad => some (s, .producer (.incStore (loadPtr s.mem g.ptrProd)))
  | .incStore p => some ({ s with mem := storePtr s.mem g.ptrProd (p + 1) }, .producer .alphaLoad)
  | .alphaLoad => some (s, .producer (.alphaStore (s.mem g.ptrAlphaNow)))
  | .alphaStore a =>
      some ({ s with mem := Function.update s.mem g.ptrAlphaNow (a + 1) }, .producer .stop)
  | .stop => (semop s.sem stopProduce).map fun v => ({ s with sem := v }, .producer .head)

/-- One step of `consumer`; `flag` is `sig_flag`. -/
def consumer (g : Segment) (flag : Bool) (s : Shared) : ConsPC → Option (Shared × PC)
  | .head => some (s, if flag then .consumer .sleep else .exited)
  | .sleep => some (s, .consumer .start)
  | .start => (semop s.sem startConsume).map fun v => ({ s with sem := v }, .consumer .loadPtr)
  | .loadPtr => some (s, .consumer (.take (loadPtr s.mem g.ptrCons)))
  -- `**ptr_cons` is printed: the letter is taken here
  | .take p => some ({ s with taken := s.taken ++ [s.mem p] }, .consumer .testPtr)
  | .testPtr => some (s, .consumer (.testCell (loadPtr s.mem g.ptrCons)))
  | .testCell p => some (s, .consumer (if s.mem p = 'z'.toUInt8 then .decLoad else .incLoad))
  | .decLoad => some (s, .consumer (.decStore (loadPtr s.mem g.ptrCons)))
  | .decStore p =>
      some ({ s with mem := storePtr s.mem g.ptrCons (p + 2 ^ 64 - sizeBuf) }, .consumer .stop)
  | .incLoad => some (s, .consumer (.incStore (loadPtr s.mem g.ptrCons)))
  | .incStore p => some ({ s with mem := storePtr s.mem g.ptrCons (p + 1) }, .consumer .stop)
  | .stop => (semop s.sem stopConsume).map fun v => ({ s with sem := v }, .consumer .head)

/-- The process sleeps inside the `semop` call that begins its section. -/
def asleep (s : Shared) : PC → Bool
  | .producer .start => (semop s.sem startProduce).isNone
  | .consumer .start => (semop s.sem startConsume).isNone
  | _ => false

/-- One step of a child process. -/
def processStep {ι : Type} (g : Segment) (_ : ι) (e : Event) (s : Shared) (x : Process) :
    Option (Shared × Process) :=
  match e, x.pc with
  | _, .exited => none
  | .sigint, _ => some (s, { x with sigFlag := false })
  -- `semop` fails, and the process exits
  | .eintr, pc => if asleep s pc then some (s, { x with pc := .exited }) else none
  | .run, .producer pc => (producer g x.sigFlag s pc).map fun p => (p.1, { x with pc := p.2 })
  | .run, .consumer pc => (consumer g x.sigFlag s pc).map fun p => (p.1, { x with pc := p.2 })

/-- The values `main` gives to the semaphores. -/
def initVal : SemNum → ℕ
  | .binSem => 1
  | .buffEmpty => sizeBuf
  | .buffFull => 0

/-- The memory `m` after `main` has set the two pointers and the letter. -/
def layout (g : Segment) (m : ℕ → UInt8) : ℕ → UInt8 :=
  let m := storePtr m g.ptrCons (g.ptrAlphaNow + 1)
  let m := storePtr m g.ptrProd (loadPtr m g.ptrCons)
  Function.update m g.ptrAlphaNow 'a'.toUInt8

inductive Role
  | producer
  | consumer
deriving DecidableEq, Repr

def Role.head : Role → PC
  | .producer => .producer .head
  | .consumer => .consumer .head

/-- The state after the forks of `main`, with the processes in the given roles. -/
def initial {ι : Type} (g : Segment) (m : ℕ → UInt8) (role : ι → Role) :
    Config ι Shared Process where
  shared :=
    { sem := initVal
      mem := layout g m
      stored := []
      taken := [] }
  loc t := ⟨(role t).head, true⟩

/-- The children of `main`, interleaved. -/
def children (ι : Type) [DecidableEq ι] (g : Segment) :
    Machine (Config ι Shared Process) (ι × Event) :=
  interleave (processStep g)

end OsLabs.LesPc
