import OsLabs.Concurrent.Machine
import OsLabs.Concurrent.BoundedBuffer
import OsLabs.Letters

/-!
# The last producer-consumer server: model

The threads of `os_lab_rpc/pc_last/pc_server.c`, with the semaphores as `pc_svc.c` sets
them. A thread runs one call of `service_1_svc`; `SIZE_BUF` is the parameter `n`. One
`semop` call is one step, and so is every read and every write of `addr_prod`,
`addr_cons`, `letter` and a cell. Pointers are offsets from `buff`; they are advanced and
never set back. The memory from `buff` on is a function, so nothing in the model itself
keeps a pointer inside the buffer.

`puts` and `gets` are history: the letters that the calls return, in the order in which
their critical sections end. No step reads them.
-/

namespace OsLabs.PcLast

open Concurrent Concurrent.BoundedBuffer

/-- The semaphores of the set. -/
inductive SemNum
  | binSem
  | buffFull
  | buffEmpty
deriving DecidableEq, Repr

/-- The set is that of a bounded buffer. -/
def sems : Sems SemNum where
  mutex := .binSem
  empty := .buffEmpty
  full := .buffFull
  mutex_ne_empty := by decide
  mutex_ne_full := by decide
  empty_ne_full := by decide

def startProduce : List (SemBuf SemNum) := [⟨.buffEmpty, -1⟩, ⟨.binSem, -1⟩]

def stopProduce : List (SemBuf SemNum) := [⟨.binSem, 1⟩, ⟨.buffFull, 1⟩]

def startConsume : List (SemBuf SemNum) := [⟨.buffFull, -1⟩, ⟨.binSem, -1⟩]

def stopConsume : List (SemBuf SemNum) := [⟨.binSem, 1⟩, ⟨.buffEmpty, 1⟩]

/-- The globals of the server, and the history of the calls. -/
structure Shared (ι : Type) where
  sem : SemNum → ℕ
  buff : ℕ → Char
  addrProd : ℕ
  addrCons : ℕ
  letter : Char
  puts : List (ι × Char)
  gets : List (ι × Char)

/-- The points of `producer`. -/
inductive ProdPC
  | start
  | loadPtr
  | loadLetter (p : ℕ)
  | store (p : ℕ) (a : Char)
  | loadProduced
  | test (produced : Char)
  | reset (produced : Char)
  | letterLoad (produced : Char)
  | letterStore (produced a : Char)
  | ptrLoad (produced : Char)
  | ptrStore (produced : Char) (p : ℕ)
  | stop (produced : Char)
deriving DecidableEq, Repr

/-- The points of `consumer`. -/
inductive ConsPC
  | start
  | loadPtr
  | loadCell (p : ℕ)
  | ptrLoad (consumed : Char)
  | ptrStore (consumed : Char) (p : ℕ)
  | stop (consumed : Char)
deriving DecidableEq, Repr

/-- A thread: before its call, in one of the two functions, or after the call with the
value returned and `*result`. -/
inductive Thread
  | idle
  | producer (pc : ProdPC)
  | consumer (pc : ConsPC)
  | returned (ok : Bool) (result : Option Char)
deriving DecidableEq, Repr

variable {ι : Type}

/-- One step of `producer` in thread `t`. -/
def producer (t : ι) (s : Shared ι) : ProdPC → Option (Shared ι × Thread)
  | .start => (semop s.sem startProduce).map fun v => ({ s with sem := v }, .producer .loadPtr)
  | .loadPtr => some (s, .producer (.loadLetter s.addrProd))
  | .loadLetter p => some (s, .producer (.store p s.letter))
  -- `**addr_prod = *letter`
  | .store p a => some ({ s with buff := Function.update s.buff p a }, .producer .loadProduced)
  | .loadProduced => some (s, .producer (.test s.letter))
  | .test produced =>
      some (s, .producer (if produced = 'z' then .reset produced else .letterLoad produced))
  | .reset produced => some ({ s with letter := 'a' }, .producer (.ptrLoad produced))
  | .letterLoad produced => some (s, .producer (.letterStore produced s.letter))
  | .letterStore produced a => some ({ s with letter := incr a }, .producer (.ptrLoad produced))
  | .ptrLoad produced => some (s, .producer (.ptrStore produced s.addrProd))
  | .ptrStore produced p => some ({ s with addrProd := p + 1 }, .producer (.stop produced))
  | .stop produced => (semop s.sem stopProduce).map fun v =>
      ({ s with sem := v, puts := s.puts ++ [(t, produced)] }, .returned true (some produced))

/-- One step of `consumer` in thread `t`. -/
def consumer (t : ι) (s : Shared ι) : ConsPC → Option (Shared ι × Thread)
  | .start => (semop s.sem startConsume).map fun v => ({ s with sem := v }, .consumer .loadPtr)
  | .loadPtr => some (s, .consumer (.loadCell s.addrCons))
  -- `consumed = **addr_cons`
  | .loadCell p => some (s, .consumer (.ptrLoad (s.buff p)))
  | .ptrLoad consumed => some (s, .consumer (.ptrStore consumed s.addrCons))
  | .ptrStore consumed p => some ({ s with addrCons := p + 1 }, .consumer (.stop consumed))
  | .stop consumed => (semop s.sem stopConsume).map fun v =>
      ({ s with sem := v, gets := s.gets ++ [(t, consumed)] }, .returned true (some consumed))

/-- The branch of `service_1_svc` that `*argp` selects. -/
def service1Svc (argp : ℤ) : Thread :=
  if argp = 0 then .producer .start
  else if argp = 1 then .consumer .start
  else .returned false none

/-- One step of a thread; its call has an arbitrary argument. -/
def threadStep (t : ι) (argp : ℤ) (s : Shared ι) : Thread → Option (Shared ι × Thread)
  | .idle => some (s, service1Svc argp)
  | .producer pc => producer t s pc
  | .consumer pc => consumer t s pc
  | .returned _ _ => none

/-- The values `main` gives to the semaphores. -/
def initVal (n : ℕ) : SemNum → ℕ
  | .binSem => 1
  | .buffEmpty => n
  | .buffFull => 0

/-- The server before its first call. -/
def initial (ι : Type) (n : ℕ) : Config ι (Shared ι) Thread where
  shared :=
    { sem := initVal n
      buff := fun _ => Char.ofNat 0
      addrProd := 0
      addrCons := 0
      letter := 'a'
      puts := []
      gets := [] }
  loc _ := .idle

/-- The threads of the server, interleaved. -/
def server (ι : Type) [DecidableEq ι] : Machine (Config ι (Shared ι) Thread) (ι × ℤ) :=
  interleave threadStep

end OsLabs.PcLast
