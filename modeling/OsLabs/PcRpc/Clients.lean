import OsLabs.PcRpc.Identity

/-!
# The producer-consumer over RPC: clients and datagrams

The clients of `os_lab_rpc/pc/pc_client.c` over UDP, and behind them the server process
with its dispatcher and its workers. A client makes one call after another; while a call
has no reply, further copies of its request may be put on the network. Every copy that
arrives is dispatched by `pc_prog_1`, which creates a worker thread for it; no record of
earlier requests is kept. A worker reads the procedure number from the `svc_req` and
replies through the transport that all requests share, so a reply goes to the client and
carries the transaction id of the datagram received last. A call returns with the first
reply that carries its transaction id; datagrams may be lost, and come in any order. A
call that fails ends its client (`break`), by a reply without a letter or without a reply.

The number of a call within its client stands for its transaction id. `returned` is
history: the calls that returned `RPC_SUCCESS`, with their results.
-/

namespace OsLabs.PcRpc

open Concurrent PcServer Dispatch

/-- A call of a client, and its transaction id. -/
structure Call (κ : Type) where
  client : κ
  num : ℕ
deriving DecidableEq, Repr

/-- A client between calls, in `clnt_call`, and after a call that failed; `num` calls have
returned before. -/
inductive Client
  | asleep (num : ℕ)
  | calling (num : ℕ)
  | stopped (num : ℕ)
deriving DecidableEq, Repr

/-- The number of the procedure in a request. -/
def number : Proc → ℕ
  | .producer => PRODUCER
  | .consumer => CONSUMER

/-- The request that client `k.client` sends for its call: it calls the procedure
`kind k.client`, with its pid as argument. -/
def requestOf {κ : Type} (kind : κ → Proc) (pid : κ → ℤ) (k : Call κ) : Datagram κ where
  addr := k.client
  xid := k.num
  rqProc := number (kind k.client)
  arg := some (pid k.client)

/-- The whole system: the server process, the clients, and the datagrams on the network.
A reply carries the client and the transaction id that it is sent to. -/
structure Net (κ : Type) where
  process : State κ
  client : κ → Client
  requests : List (Datagram κ)
  replies : List (Call κ × Msg)
  returned : List (Call κ × Char)

/-- What can happen next in the system. -/
inductive NetAction (κ : Type)
  | call (i : κ)
  | resend (i : κ)
  | loseRequest (d : Datagram κ)
  | receive (d : Datagram κ)
  | dispatch
  | serve (t : ℕ)
  | loseReply (r : Call κ × Msg)
  | complete (r : Call κ × Msg)
  | fail (i : κ)

variable {κ : Type}

/-- The reply that worker `t` puts on the network with its next step, if that is
`svc_sendreply` or `svcerr_noproc`. -/
def sent (s : State κ) (t : ℕ) : Option (Call κ × Msg) :=
  match s.thread t with
  | some ⟨_, _, .sendreply _ msg⟩ => s.transp.map fun p => (⟨p.1, p.2⟩, msg)
  | _ => none

variable [DecidableEq κ]

/-- One step of the system, with buffer size `n`. -/
def netStep (n : ℕ) (kind : κ → Proc) (pid : κ → ℤ) (s : Net κ) : NetAction κ → Option (Net κ)
  | .call i =>
      match s.client i with
      | .asleep m => some { s with
          client := Function.update s.client i (.calling m)
          requests := requestOf kind pid ⟨i, m⟩ :: s.requests }
      | _ => none
  | .resend i =>
      match s.client i with
      | .calling m => some { s with requests := requestOf kind pid ⟨i, m⟩ :: s.requests }
      | _ => none
  | .loseRequest d => some { s with requests := s.requests.erase d }
  | .receive d =>
      if d ∈ s.requests then
        (dispatchStep n s.process (.receive d)).map fun u => { s with
          process := u
          requests := s.requests.erase d }
      else none
  | .dispatch => (dispatchStep n s.process .dispatch).map fun u => { s with process := u }
  | .serve t =>
      (dispatchStep n s.process (.serve t)).map fun u => { s with
        process := u
        replies := (sent s.process t).toList ++ s.replies }
  | .loseReply r => some { s with replies := s.replies.erase r }
  | .complete r =>
      if r ∈ s.replies ∧ s.client r.1.client = .calling r.1.num then
        match r.2 with
        | .letter a => some { s with
            client := Function.update s.client r.1.client (.asleep (r.1.num + 1))
            replies := s.replies.erase r
            returned := s.returned ++ [(r.1, a)] }
        | .void | .noproc => some { s with
            client := Function.update s.client r.1.client (.stopped r.1.num)
            replies := s.replies.erase r }
      else none
  | .fail i =>
      match s.client i with
      | .calling m => some { s with client := Function.update s.client i (.stopped m) }
      | _ => none

omit [DecidableEq κ] in
/-- The server process after `init_sem`, and the clients before their first call. -/
def netInitial (κ : Type) (n : ℕ) : Net κ where
  process := initial κ n
  client _ := .asleep 0
  requests := []
  replies := []
  returned := []

/-- The system with buffer size `n` and the given clients. -/
def net (n : ℕ) (kind : κ → Proc) (pid : κ → ℤ) : Machine (Net κ) (NetAction κ) :=
  ⟨netStep n kind pid⟩

/-- The call that the worker was created for. -/
def callOf (s : Net κ) (t : ℕ) : Option (Call κ) :=
  (s.process.thread t).map fun th => ⟨th.request.addr, th.request.xid⟩

/-- The letters taken from the buffer, each with the worker that took it. -/
def taken (s : Net κ) : List (ℕ × Char) := s.process.server.shared.taken

/-- The letters taken by the workers that were created for copies of the call. -/
def removals (s : Net κ) (k : Call κ) : List (ℕ × Char) :=
  (taken s).filter fun p => callOf s p.1 = some k

/-- The number of copies of the call that were dispatched. -/
def copies (s : Net κ) (k : Call κ) : ℕ :=
  ((List.range s.process.created).filter fun t => callOf s t = some k).length

/-- The call has begun and not ended. -/
def pending (s : Net κ) (k : Call κ) : Prop := s.client k.client = .calling k.num

/-- The call has ended without a letter. -/
def failed (s : Net κ) (k : Call κ) : Prop := s.client k.client = .stopped k.num

/-- Where the action is the `switch` of a worker, the datagram received last asks for the
procedure of its request; where it is a reply, that datagram has the client and the
transaction id of its request. -/
def Identified (s : Net κ) (a : NetAction κ) : Prop :=
  match a with
  | .serve t =>
      match s.process.thread t, s.process.last with
      | some th, some d =>
          match th.pc with
          | .switch => procedure d.rqProc = procedure th.request.rqProc
          | .sendreply _ _ => d.addr = th.request.addr ∧ d.xid = th.request.xid
          | _ => True
      | _, _ => True
  | _ => True

instance (s : Net κ) (a : NetAction κ) : Decidable (Identified s a) := by
  unfold Identified
  cases a with
  | serve t =>
    dsimp only
    generalize s.process.thread t = worker
    generalize s.process.last = last
    rcases worker with - | ⟨request, arg, pc⟩
    · exact instDecidableTrue
    · rcases last with - | d
      · exact instDecidableTrue
      · cases pc <;> dsimp only <;> infer_instance
  | _ => exact instDecidableTrue

end OsLabs.PcRpc
