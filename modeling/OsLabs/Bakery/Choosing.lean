import OsLabs.Bakery.Reads
import OsLabs.Concurrent.Machine

/-!
# The bakery server with `choosing`: model

`os_lab_rpc/bakery/tmp_bakery_server.c`, the version with a flag `choosing` for each
client. As in the model of `bakery_server.c`, a client and the worker threads of its
calls are one thread here, each client calls `get_number_1_svc` and then `serve_1_svc`
any number of times, and every read or write of an entry of `choosing`, `numbers` or
`pids` is one step. There are no mutexes in this version, and the scan of `max_number`
starts its loop at `1`. The `switch (argp->op)` touches nothing shared and is one step
without its result; `counter` is the counter of the critical section.
-/

namespace OsLabs.Bakery.Choosing

open Concurrent

/-- The arrays of the server, and its counter. -/
structure Shared where
  choosing : ℕ → Bool
  numbers : ℕ → ℕ
  pids : ℕ → ℕ
  counter : ℕ

/-- The points of `get_number_1_svc`. -/
inductive GetPC
  | storePid
  | setChoosing
  | max (m : MaxPC)
  | storeNum (res : ℕ)
  | clearChoosing (num : ℕ)
deriving DecidableEq, Repr

/-- The points of `serve_1_svc`. -/
inductive ServePC
  | choose (i : ℕ)
  | test (i : ℕ) (w : WaitPC)
  | switch
  | counterLoad
  | counterStore (v : ℕ)
  | printNum
  | printPid
  | resetNum
deriving DecidableEq, Repr

/-- A client: before its `get_number`, inside it, holding its reply, inside `serve`, and
served. -/
inductive PC
  | idle
  | getNumber (pc : GetPC)
  | replied (num : ℕ)
  | serve (pc : ServePC)
  | served
deriving DecidableEq, Repr

/-- One step of `get_number_1_svc`. -/
def getNumber1Svc (n ind pid : ℕ) (s : Shared) : GetPC → Option (Shared × PC)
  | .storePid =>
      some ({ s with pids := Function.update s.pids ind pid }, .getNumber .setChoosing)
  | .setChoosing =>
      some ({ s with choosing := Function.update s.choosing ind true }, .getNumber (.max .init))
  | .max m =>
      match maxNumber n 1 s.numbers m with
      | .inl m' => some (s, .getNumber (.max m'))
      | .inr res => some (s, .getNumber (.storeNum res))
  | .storeNum res =>
      some ({ s with numbers := Function.update s.numbers ind (res + 1) },
        .getNumber (.clearChoosing (res + 1)))
  | .clearChoosing num =>
      some ({ s with choosing := Function.update s.choosing ind false }, .replied num)

/-- The head of the wait loop of `serve_1_svc`. -/
def serveNext (n i : ℕ) : PC := if i < n then .serve (.choose i) else .serve .switch

/-- One step of `serve_1_svc`. -/
def serve1Svc (n ind : ℕ) (s : Shared) : ServePC → Option (Shared × PC)
  -- `while (choosing[i]) {}`
  | .choose i => some (s, if s.choosing i then .serve (.choose i) else .serve (.test i .nonzero))
  | .test i w =>
      match waitTest s.numbers s.pids ind i w with
      | .inl w' => some (s, .serve (.test i w'))
      | .inr out => some (s, if out then .serve (.test i .nonzero) else serveNext n (i + 1))
  | .switch => some (s, .serve .counterLoad)
  | .counterLoad => some (s, .serve (.counterStore s.counter))
  | .counterStore v => some ({ s with counter := v + 1 }, .serve .printNum)
  | .printNum => some (s, .serve .printPid)
  | .printPid => some (s, .serve .resetNum)
  | .resetNum => some ({ s with numbers := Function.update s.numbers ind 0 }, .served)

/-- One step of a client or of the worker thread that runs its call. -/
def clientStep {n : ℕ} (pid : Fin n → ℕ) (t : Fin n) (_ : Unit) (s : Shared) :
    PC → Option (Shared × PC)
  | .idle => some (s, .getNumber .storePid)
  | .getNumber pc => getNumber1Svc n t (pid t) s pc
  | .replied _ => some (s, serveNext n 0)
  | .serve pc => serve1Svc n t s pc
  | .served => some (s, .idle)

/-- The server before the first request. -/
def initial (n : ℕ) : Config (Fin n) Shared PC where
  shared := ⟨fun _ => false, fun _ => 0, fun _ => 0, 0⟩
  loc _ := .idle

/-- The server with its clients, interleaved. -/
def server {n : ℕ} (pid : Fin n → ℕ) : Machine (Config (Fin n) Shared PC) (Fin n × Unit) :=
  interleave (clientStep pid)

/-- The client is past the wait loops: from the `switch` up to the reset of its entry of
`numbers`. -/
def pastWait (pc : PC) : Bool :=
  match pc with
  | .serve (.choose _) | .serve (.test _ _) => false
  | .serve _ => true
  | _ => false

/-- The client is between its two writes of `choosing`. -/
def drawing (pc : PC) : Bool :=
  match pc with
  | .getNumber (.max _) | .getNumber (.storeNum _) | .getNumber (.clearChoosing _) => true
  | _ => false

end OsLabs.Bakery.Choosing
