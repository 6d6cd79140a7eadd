import OsLabs.Obakery.Model

/-!
# The clients of the single-threaded ticket server: model

Any number of clients in `bakery_prog_1` of `os_lab_rpc/obakery/bakery_client.c`, over the
server of `bakery_server.c`. A request is handled in one step; the clients' requests reach
the server in any order. Calls that fail are left out: the client does not survive one.

`request` is a local variable of the loop body. A turn assigns four of its fields, and
`num` before the second call; the other fields hold what was on the stack, which the event
of a new turn supplies together with the values of `rand`.
-/

namespace OsLabs.Obakery.Client

open Concurrent

variable {ι F : Type}

/-- The points of `bakery_prog_1`. -/
inductive PC (F : Type)
  /-- The top of the loop. -/
  | turn
  /-- `get_number_1(&request, clnt)` is called. -/
  | getNumber (request : Bakery F)
  /-- The test of `result_1->num`. -/
  | answered (request result₁ : Bakery F)
  /-- `serve_1(&request, clnt)` is called. -/
  | serve (request result₁ : Bakery F)
  | exited

/-- What happens next: a new turn with the contents of `request` and the values assigned to
it, or a step of a turn with the clock of the server. -/
inductive Event (F : Type)
  | turn (request : Bakery F) (op : ℤ) (arg1 arg2 : F)
  | run (ticks : ℕ → ℕ)

/-- One step of `bakery_prog_1` in client `t`; `pid t` is its `getpid()`. -/
def bakeryProg1 [Add F] [Sub F] [Mul F] [Div F] (n : ℕ) (pid : ι → ℤ) (t : ι) (e : Event F)
    (s : Server F) (x : PC F) : Option (Server F × PC F) :=
  match x, e with
  | .turn, .turn request op arg1 arg2 =>
      some (s, .getNumber { request with pid := pid t, op := op, arg1 := arg1, arg2 := arg2 })
  | .getNumber request, .run _ =>
      (getNumber1Svc n s).map fun p => (p.1, .answered request p.2)
  | .answered request result₁, .run _ =>
      some (s, if result₁.num = -1 then .exited
        else .serve { request with num := result₁.num } result₁)
  | .serve request _, .run ticks => (serve1Svc n s request ticks).map fun p => (p.1, .turn)
  | _, _ => none

/-- The clients, interleaved. -/
def clients [DecidableEq ι] [Add F] [Sub F] [Mul F] [Div F] (n : ℕ) (pid : ι → ℤ) :
    Machine (Config ι (Server F) (PC F)) (ι × Event F) :=
  interleave (bakeryProg1 n pid)

/-- No client has called the server yet. -/
def start (ι F : Type) [Zero F] : Config ι (Server F) (PC F) where
  shared := (initial F).server
  loc _ := .turn

/-- The clients whose requests for a ticket have been handled, in order, each with what its
`request.ind` held then. -/
def draws (tr : List (Config ι (Server F) (PC F) × (ι × Event F))) : List (ι × ℤ) :=
  tr.filterMap fun p =>
    match p.1.loc p.2.1 with
    | .getNumber request => some (p.2.1, request.ind)
    | _ => none

end OsLabs.Obakery.Client
