import OsLabs.Concurrent.BoundedBuffer
import OsLabs.Concurrent.Machine
import OsLabs.Letters

/-!
# The dispatcher that claims the semaphores: model

The server of `os_lab_rpc/rpc_pc`. The procedures of `pc_server.c` know nothing of
semaphores; `serv_request` of `pc_svc.c` claims them before the call and gives them back
after it. It looks at `rqstp->rq_proc` twice: the `switch` chooses the procedure, and an `if`
the arrays for `semop`. The runtime has one `svc_req` for all requests, so a request that
arrives between the two looks changes what the second one sees.

Thread `none` is the main thread, thread `some t` the worker for the `t`-th request. One
`semop` is one step, and so is every read and write of `rq_proc`, `alpha`, the pointers and a
cell; `BUFF_SIZE` is the parameter `n`. The pointers are offsets from `buffer`, advanced and
never set back; the memory from `buffer` on is a function, so nothing in the model keeps
them inside the buffer, and `InBuffer` says of an access that it is. The argument that
`svc_getargs` decodes is only printed, but it may fail. `accesses` is history.
-/

namespace OsLabs.RpcPc

open Concurrent Concurrent.BoundedBuffer

/-- The semaphores of the set. -/
inductive SemNum
  | sb
  | se
  | sf
deriving DecidableEq, Repr

/-- The set is that of a bounded buffer. -/
def sems : Sems SemNum where
  mutex := .sb
  empty := .se
  full := .sf
  mutex_ne_empty := by decide
  mutex_ne_full := by decide
  empty_ne_full := by decide

def startProduce : List (SemBuf SemNum) := [⟨.se, -1⟩, ⟨.sb, -1⟩]

def stopProduce : List (SemBuf SemNum) := [⟨.sb, 1⟩, ⟨.sf, 1⟩]

def startConsume : List (SemBuf SemNum) := [⟨.sf, -1⟩, ⟨.sb, -1⟩]

def stopConsume : List (SemBuf SemNum) := [⟨.sb, 1⟩, ⟨.se, 1⟩]

def NULLPROC : ℕ := 0

def PRODUCE : ℕ := 1

def CONSUME : ℕ := 2

/-- A procedure in `local`, or a branch of the `if` around its call. -/
inductive Proc
  | produce
  | consume
deriving DecidableEq, Repr

/-- A store or a read of a cell: the branch of the `if`, the procedure, and the letter. -/
structure Access where
  guard : Proc
  proc : Proc
  letter : Char
deriving DecidableEq, Repr

/-- The globals of `pc_server.c` with the semaphores, and the history of the cells. -/
structure Globals where
  sem : SemNum → ℕ
  buffer : ℕ → Char
  producerPtr : ℕ
  consumerPtr : ℕ
  alpha : Char
  accesses : List Access

/-- The globals, the request that all threads see, and how many workers there are. -/
structure Shared where
  rqProc : ℕ
  created : ℕ
  globals : Globals

/-- The points of `produce_1_svc`. -/
inductive ProducePC
  | loadAlpha
  | loadPtr (a : Char)
  | store (a : Char) (p : ℕ)
  | ptrLoad
  | ptrStore (p : ℕ)
  | test
  | alphaLoad
  | alphaStore (a : Char)
deriving DecidableEq, Repr

/-- The points of `consume_1_svc`. -/
inductive ConsumePC
  | loadPtr
  | loadCell (p : ℕ)
  | ptrLoad
  | ptrStore (p : ℕ)
deriving DecidableEq, Repr

/-- The points of `serv_request`; `proc` is the procedure in `local`, `guard` the branch that
was taken. -/
inductive ServPC
  | switch
  | getargs (proc : Proc)
  | test (proc : Proc)
  | start (guard proc : Proc)
  | produce (guard : Proc) (pc : ProducePC) (result : Option Char)
  | consume (guard : Proc) (pc : ConsumePC) (result : Option Char)
  | stop (guard : Proc) (result : Option Char)
  | returned (result : Option Char)
deriving DecidableEq, Repr

/-- The main thread, in `svc_run` or in the dispatcher; a worker, before and after it has
started. -/
inductive PC
  | svcRun
  | dispatch
  | idle
  | serv (pc : ServPC)
deriving DecidableEq, Repr

/-- A request for procedure `p` arrives, or a thread makes a step; `ok` is what `svc_getargs`
gives. -/
inductive Event
  | receive (p : ℕ)
  | run (ok : Bool)
deriving DecidableEq, Repr

/-- One step of `produce_1_svc`. -/
def produce1Svc (guard : Proc) (g : Globals) (result : Option Char) : ProducePC → Globals × ServPC
  -- `*result = *producer_ptr = alpha`
  | .loadAlpha => (g, .produce guard (.loadPtr g.alpha) result)
  | .loadPtr a => (g, .produce guard (.store a g.producerPtr) result)
  | .store a p =>
      ({ g with
        buffer := Function.update g.buffer p a
        accesses := g.accesses ++ [⟨guard, .produce, a⟩] }, .produce guard .ptrLoad (some a))
  | .ptrLoad => (g, .produce guard (.ptrStore g.producerPtr) result)
  | .ptrStore p => ({ g with producerPtr := p + 1 }, .produce guard .test result)
  -- `alpha = alpha < 'z' ? alpha + 1 : 'a'`
  | .test =>
      if g.alpha < 'z' then (g, .produce guard .alphaLoad result)
      else (g, .produce guard (.alphaStore 'a') result)
  | .alphaLoad => (g, .produce guard (.alphaStore (incr g.alpha)) result)
  | .alphaStore a => ({ g with alpha := a }, .stop guard result)

/-- One step of `consume_1_svc`. -/
def consume1Svc (guard : Proc) (g : Globals) (result : Option Char) : ConsumePC → Globals × ServPC
  | .loadPtr => (g, .consume guard (.loadCell g.consumerPtr) result)
  -- `*result = *consumer_ptr`
  | .loadCell p =>
      ({ g with accesses := g.accesses ++ [⟨guard, .consume, g.buffer p⟩] },
        .consume guard .ptrLoad (some (g.buffer p)))
  | .ptrLoad => (g, .consume guard (.ptrStore g.consumerPtr) result)
  | .ptrStore p => ({ g with consumerPtr := p + 1 }, .stop guard result)

/-- The first array of a branch. -/
def startArray : Proc → List (SemBuf SemNum)
  | .produce => startProduce
  | .consume => startConsume

/-- The second array of a branch. -/
def stopArray : Proc → List (SemBuf SemNum)
  | .produce => stopProduce
  | .consume => stopConsume

/-- The first point of the procedure. -/
def call (guard : Proc) : Proc → ServPC
  | .produce => .produce guard .loadAlpha none
  | .consume => .consume guard .loadPtr none

/-- One step of `serv_request`. -/
def servRequest (ok : Bool) (s : Shared) : ServPC → Option (Shared × ServPC)
  -- `switch (rqstp->rq_proc)`
  | .switch =>
      if s.rqProc = NULLPROC then some (s, .returned none)
      else if s.rqProc = PRODUCE then some (s, .getargs .produce)
      else if s.rqProc = CONSUME then some (s, .getargs .consume)
      else some (s, .returned none)
  | .getargs proc => if ok then some (s, .test proc) else some (s, .returned none)
  -- `if (rqstp->rq_proc == PRODUCE)`
  | .test proc =>
      if s.rqProc = PRODUCE then some (s, .start .produce proc)
      else some (s, .start .consume proc)
  | .start guard proc => (semop s.globals.sem (startArray guard)).map fun v =>
      ({ s with globals := { s.globals with sem := v } }, call guard proc)
  | .produce guard pc result =>
      let p := produce1Svc guard s.globals result pc
      some ({ s with globals := p.1 }, p.2)
  | .consume guard pc result =>
      let p := consume1Svc guard s.globals result pc
      some ({ s with globals := p.1 }, p.2)
  | .stop guard result => (semop s.globals.sem (stopArray guard)).map fun v =>
      ({ s with globals := { s.globals with sem := v } }, .returned result)
  | .returned _ => none

/-- One step of a thread: the main thread receives a request and creates its worker. -/
def threadStep (t : Option ℕ) (e : Event) (s : Shared) (x : PC) : Option (Shared × PC) :=
  match t, e, x with
  | none, .receive p, .svcRun => some ({ s with rqProc := p }, .dispatch)
  | none, .run _, .dispatch => some ({ s with created := s.created + 1 }, .svcRun)
  | some t, .run _, .idle => if t < s.created then some (s, .serv .switch) else none
  | some _, .run ok, .serv pc => (servRequest ok s pc).map fun p => (p.1, .serv p.2)
  | _, _, _ => none

/-- The values that `main` gives to the semaphores. -/
def initVal (n : ℕ) : SemNum → ℕ
  | .sb => 1
  | .se => n
  | .sf => 0

/-- The server before its first request. -/
def initial (n : ℕ) : Config (Option ℕ) Shared PC where
  shared :=
    { rqProc := NULLPROC
      created := 0
      globals :=
        { sem := initVal n
          buffer := fun _ => Char.ofNat 0
          producerPtr := 0
          consumerPtr := 0
          alpha := 'a'
          accesses := [] } }
  loc
    | none => .svcRun
    | some _ => .idle

/-- The threads of the server, interleaved. -/
def server : Machine (Config (Option ℕ) Shared PC) (Option ℕ × Event) := interleave threadStep

/-- Where the action is a store to a cell or a read of one, the cell is in the buffer. -/
def InBuffer (n : ℕ) (c : Config (Option ℕ) Shared PC) (a : Option ℕ × Event) : Prop :=
  match c.loc a.1 with
  | .serv (.produce _ (.store _ p) _) => p < n
  | .serv (.consume _ (.loadCell p) _) => p < n
  | _ => True

instance (n : ℕ) (c : Config (Option ℕ) Shared PC) (a : Option ℕ × Event) :
    Decidable (InBuffer n c a) := by
  unfold InBuffer
  split <;> infer_instance

end OsLabs.RpcPc
