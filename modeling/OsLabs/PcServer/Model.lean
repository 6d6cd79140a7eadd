import OsLabs.Concurrent.Machine
import OsLabs.Concurrent.SysV
import OsLabs.Letters

/-!
# The producer-consumer server: model

The worker threads of `os_lab_rpc/pc/pc_server.c`. A thread runs one call of
`producer_1_svc` or `consumer_1_svc`; `SIZE_BUF` is the parameter `n`. One `semop` call
is one step, and so is every read and every write of `prod_ptr`, `cons_ptr`, `alpha` and
a cell of the buffer. Pointers are offsets from `buffer`; the memory of the program is a
function, so nothing in the model itself keeps a pointer inside the buffer.

`deposited` and `taken` are history: they record, in the order of the critical
sections, which thread stored or took which letter. No step reads them.

The calls that end the process (`exit(1)` after a failed `semop`) are not steps of this
model: a `semop` that cannot be applied makes its thread wait. The printed pid is left
out with the printing; the loops that print the buffer are here as the reads they make.
-/

namespace OsLabs.PcServer

open Concurrent

/-- The semaphores of the set. -/
inductive SemNum
  | binary
  | bempty
  | bfull
deriving DecidableEq, Repr

def startProd : List (SemBuf SemNum) := [⟨.bempty, -1⟩, ⟨.binary, -1⟩]

def stopProd : List (SemBuf SemNum) := [⟨.binary, 1⟩, ⟨.bfull, 1⟩]

def startCons : List (SemBuf SemNum) := [⟨.bfull, -1⟩, ⟨.binary, -1⟩]

def stopCons : List (SemBuf SemNum) := [⟨.binary, 1⟩, ⟨.bempty, 1⟩]

/-- The globals of the server, and the history of the critical sections. -/
structure Shared (ι : Type) where
  sem : SemNum → ℕ
  buffer : ℕ → Char
  prodPtr : ℕ
  consPtr : ℕ
  alpha : Char
  deposited : List (ι × Char)
  taken : List (ι × Char)

/-- The points of `producer_1_svc`. -/
inductive ProdPC
  | start
  | loadPtr
  | loadAlpha (p : ℕ)
  | store (p : ℕ) (a : Char)
  | loadResult
  | print (cur : ℕ)
  | incLoad
  | incStore (p : ℕ)
  | wrapTest
  | wrapStore
  | alphaTest
  | alphaReset
  | alphaLoad
  | alphaStore (a : Char)
  | stop
  | done
deriving DecidableEq, Repr

/-- The points of `consumer_1_svc`. -/
inductive ConsPC
  | start
  | loadPtr
  | loadCell (p : ℕ)
  | fillPtr
  | fillStore (p : ℕ)
  | print (cur : ℕ)
  | incLoad
  | incStore (p : ℕ)
  | wrapTest
  | wrapStore
  | stop
  | done
deriving DecidableEq, Repr

/-- A worker thread: not yet created, or inside one of the two procedures with the value
of `*result` (`none` before it is assigned). -/
inductive Worker
  | idle
  | producer (pc : ProdPC) (result : Option Char)
  | consumer (pc : ConsPC) (result : Option Char)
deriving DecidableEq, Repr

/-- The procedure a request names. -/
inductive Proc
  | producer
  | consumer
deriving DecidableEq, Repr

variable {ι : Type}

/-- One step of `producer_1_svc` in thread `t`. -/
def producer1Svc (n : ℕ) (t : ι) (s : Shared ι) (result : Option Char) :
    ProdPC → Option (Shared ι × Worker)
  | .start => (semop s.sem startProd).map fun v => ({ s with sem := v }, .producer .loadPtr result)
  | .loadPtr => some (s, .producer (.loadAlpha s.prodPtr) result)
  | .loadAlpha p => some (s, .producer (.store p s.alpha) result)
  -- `*prod_ptr = alpha`: the letter is deposited here
  | .store p a =>
      some ({ s with
        buffer := Function.update s.buffer p a
        deposited := s.deposited ++ [(t, a)] }, .producer .loadResult result)
  | .loadResult => some (s, .producer (.print 0) (some s.alpha))
  | .print cur =>
      if cur < n then some (s, .producer (.print (cur + 1)) result)
      else some (s, .producer .incLoad result)
  | .incLoad => some (s, .producer (.incStore s.prodPtr) result)
  | .incStore p => some ({ s with prodPtr := p + 1 }, .producer .wrapTest result)
  | .wrapTest =>
      if s.prodPtr = n then some (s, .producer .wrapStore result)
      else some (s, .producer .alphaTest result)
  | .wrapStore => some ({ s with prodPtr := 0 }, .producer .alphaTest result)
  | .alphaTest =>
      if s.alpha = 'z' then some (s, .producer .alphaReset result)
      else some (s, .producer .alphaLoad result)
  | .alphaReset => some ({ s with alpha := 'a' }, .producer .stop result)
  | .alphaLoad => some (s, .producer (.alphaStore s.alpha) result)
  | .alphaStore a => some ({ s with alpha := incr a }, .producer .stop result)
  | .stop => (semop s.sem stopProd).map fun v => ({ s with sem := v }, .producer .done result)
  | .done => none

/-- One step of `consumer_1_svc` in thread `t`. -/
def consumer1Svc (n : ℕ) (t : ι) (s : Shared ι) (result : Option Char) :
    ConsPC → Option (Shared ι × Worker)
  | .start => (semop s.sem startCons).map fun v => ({ s with sem := v }, .consumer .loadPtr result)
  | .loadPtr => some (s, .consumer (.loadCell s.consPtr) result)
  -- `*result = *cons_ptr`: the letter is taken here
  | .loadCell p =>
      some ({ s with taken := s.taken ++ [(t, s.buffer p)] },
        .consumer .fillPtr (some (s.buffer p)))
  | .fillPtr => some (s, .consumer (.fillStore s.consPtr) result)
  | .fillStore p =>
      some ({ s with buffer := Function.update s.buffer p '-' }, .consumer (.print 0) result)
  | .print cur =>
      if cur < n then some (s, .consumer (.print (cur + 1)) result)
      else some (s, .consumer .incLoad result)
  | .incLoad => some (s, .consumer (.incStore s.consPtr) result)
  | .incStore p => some ({ s with consPtr := p + 1 }, .consumer .wrapTest result)
  | .wrapTest =>
      if s.consPtr = n then some (s, .consumer .wrapStore result)
      else some (s, .consumer .stop result)
  | .wrapStore => some ({ s with consPtr := 0 }, .consumer .stop result)
  | .stop => (semop s.sem stopCons).map fun v => ({ s with sem := v }, .consumer .done result)
  | .done => none

/-- One step of a worker thread. A thread that is not yet created starts the procedure
of the request. -/
def workerStep (n : ℕ) (t : ι) (e : Proc) (s : Shared ι) : Worker → Option (Shared ι × Worker)
  | .idle =>
      match e with
      | .producer => some (s, .producer .start none)
      | .consumer => some (s, .consumer .start none)
  | .producer pc result => producer1Svc n t s result pc
  | .consumer pc result => consumer1Svc n t s result pc

/-- The values `init_sem` gives to the semaphores. -/
def initVal (n : ℕ) : SemNum → ℕ
  | .binary => 1
  | .bempty => n
  | .bfull => 0

/-- The state `init_sem` leaves behind, with no worker thread created yet. -/
def initSem (ι : Type) (n : ℕ) : Config ι (Shared ι) Worker where
  shared :=
    { sem := initVal n
      buffer := fun _ => '-'
      prodPtr := 0
      consPtr := 0
      alpha := 'a'
      deposited := []
      taken := [] }
  loc := fun _ => .idle

/-- The server with buffer size `n`: its worker threads, interleaved. -/
def server (ι : Type) [DecidableEq ι] (n : ℕ) : Machine (Config ι (Shared ι) Worker) (ι × Proc) :=
  interleave (workerStep n)

end OsLabs.PcServer
