import OsLabs.PcServer.Model

/-!
# The threaded dispatcher: model

`pc_prog_1` and `serv_request` of `os_lab_rpc/pc/pc_svc.c`, for the requests that arrive
on one transport. The runtime keeps one `svc_req` and one transport object for all of
them: receiving a datagram overwrites the procedure number in the one and the reply
address and transaction id in the other. The main thread then runs `pc_prog_1`, which
copies the argument and creates a worker thread; the worker reads the procedure number
through the shared `svc_req`, once in the `switch` and once more in the `if` whose
branches are the same call, runs the procedure, and answers with `svc_sendreply`
to whatever the transport holds then.

The procedures themselves are those of the server's model, worker `t` being its thread
`t`. `request` (of a worker) and `last`, the datagram received last, are history.
-/

namespace OsLabs.PcRpc

open PcServer

/-- The value that a worker's procedure has returned. -/
def result : Worker → Option Char
  | .producer .done r => r
  | .consumer .done r => r
  | _ => none

end OsLabs.PcRpc

namespace OsLabs.PcRpc.Dispatch

open Concurrent PcServer

def NULLPROC : ℕ := 0

def PRODUCER : ℕ := 1

def CONSUMER : ℕ := 2

/-- A request datagram; `arg` is `none` where it cannot be decoded. -/
structure Datagram (κ : Type) where
  addr : κ
  xid : ℕ
  rqProc : ℕ
  arg : Option ℤ
deriving DecidableEq, Repr

/-- What a worker answers. -/
inductive Msg
  | void
  | noproc
  | letter (a : Char)
deriving DecidableEq, Repr

/-- The points of `serv_request`; `proc` is the procedure in `local`. -/
inductive ServPC (κ : Type)
  | switch
  | test (proc : Proc)
  | call (proc : Proc)
  | sendreply (proc : Option Proc) (msg : Msg)
  | returned (proc : Option Proc) (msg : Msg) (addr : κ) (xid : ℕ)
deriving DecidableEq, Repr

/-- A worker thread with the copy of the argument it was given. -/
structure Thread (κ : Type) where
  request : Datagram κ
  arg : ℤ
  pc : ServPC κ
deriving DecidableEq, Repr

/-- The main thread: in `svc_run`, or in `pc_prog_1` for the datagram just received. -/
inductive Main (κ : Type)
  | svcRun
  | pcProg1 (d : Datagram κ)
deriving DecidableEq, Repr

structure State (κ : Type) where
  /-- `rqstp->rq_proc`. -/
  rqProc : ℕ
  /-- The reply address and the transaction id in the transport. -/
  transp : Option (κ × ℕ)
  main : Main κ
  server : Config ℕ (Shared ℕ) Worker
  created : ℕ
  thread : ℕ → Option (Thread κ)
  last : Option (Datagram κ)

/-- What can happen next: a datagram arrives, the main thread dispatches it, or worker `t`
makes a step. -/
inductive Action (κ : Type)
  | receive (d : Datagram κ)
  | dispatch
  | serve (t : ℕ)

/-- The procedure that a number names. -/
def procedure (p : ℕ) : Option Proc :=
  if p = PRODUCER then some .producer else if p = CONSUMER then some .consumer else none

variable {κ : Type}

/-- `pc_prog_1`: a request that cannot be decoded gets no worker. -/
def pcProg1 (s : State κ) (d : Datagram κ) : State κ :=
  match d.arg with
  | none => { s with main := .svcRun }
  | some arg => { s with
      main := .svcRun
      created := s.created + 1
      thread := Function.update s.thread s.created (some ⟨d, arg, .switch⟩) }

/-- One step of `serv_request` in worker `t`: the state, and its next point. -/
def servRequest (n t : ℕ) (s : State κ) : ServPC κ → Option (State κ × ServPC κ)
  -- `switch (rqstp->rq_proc)`
  | .switch =>
      if s.rqProc = NULLPROC then some (s, .sendreply none .void)
      else if s.rqProc = PRODUCER then some (s, .test .producer)
      else if s.rqProc = CONSUMER then some (s, .test .consumer)
      else some (s, .sendreply none .noproc)
  -- `if (rqstp->rq_proc == PRODUCER)`, with the same call in both branches
  | .test proc => if s.rqProc = PRODUCER then some (s, .call proc) else some (s, .call proc)
  | .call proc =>
      match result (s.server.loc t) with
      | some a => some (s, .sendreply (some proc) (.letter a))
      | none => ((PcServer.server ℕ n).next s.server (t, proc)).map fun c =>
          ({ s with server := c }, .call proc)
  | .sendreply proc msg => s.transp.map fun p => (s, .returned proc msg p.1 p.2)
  | .returned .. => none

/-- One step of the server process with buffer size `n`. -/
def dispatchStep (n : ℕ) (s : State κ) : Action κ → Option (State κ)
  | .receive d =>
      match s.main with
      | .svcRun => some { s with
          rqProc := d.rqProc
          transp := some (d.addr, d.xid)
          main := .pcProg1 d
          last := some d }
      | .pcProg1 _ => none
  | .dispatch =>
      match s.main with
      | .svcRun => none
      | .pcProg1 d => some (pcProg1 s d)
  | .serve t =>
      match s.thread t with
      | none => none
      | some th => (servRequest n t s th.pc).map fun p =>
          { p.1 with thread := Function.update s.thread t (some { th with pc := p.2 }) }

def initial (κ : Type) (n : ℕ) : State κ where
  rqProc := NULLPROC
  transp := none
  main := .svcRun
  server := initSem ℕ n
  created := 0
  thread _ := none
  last := none

/-- The server process with buffer size `n`. -/
def dispatcher (κ : Type) (n : ℕ) : Machine (State κ) (Action κ) := ⟨dispatchStep n⟩

/-- The procedure that the worker has taken from the `switch`. -/
def ServPC.chosen : ServPC κ → Option (Option Proc)
  | .switch => none
  | .test proc | .call proc => some (some proc)
  | .sendreply proc _ | .returned proc _ _ _ => some proc

end OsLabs.PcRpc.Dispatch
