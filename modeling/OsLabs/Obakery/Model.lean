import OsLabs.Concurrent.Machine
import Mathlib.Algebra.Ring.Int.Defs
import Mathlib.Data.Int.Basic

/-!
# The single-threaded ticket server: model

The server of `os_lab_rpc/obakery/bakery_server.c`, which handles one request at a time;
`COUNT_CLIENTS` is the parameter `n`. An access outside the arrays and a wait that never
ends give `none`. The two `result` structures are static: they are part of the state.

Time enters only through the waits of `serve_1_svc`: `ticks j` is the number of times the
condition of the wait for slot `j` is evaluated before its second is over, so a request
comes with an arbitrary such function. `float` is a type `F` with its four operations.
Slots and tickets are natural numbers; tickets do not overflow. The field `ind` may hold
any number: a request for a slot that does not exist is an access outside the arrays.
-/

namespace OsLabs.Obakery

open Concurrent

/-- `struct BAKERY`, the argument and the reply of both procedures. -/
structure Bakery (F : Type) where
  num : ℤ
  ind : ℤ
  pid : ℤ
  op : ℤ
  arg1 : F
  arg2 : F
  result : F

/-- A static structure before it is assigned. -/
def Bakery.zero (F : Type) [Zero F] : Bakery F := ⟨0, 0, 0, 0, 0, 0, 0⟩

/-- The globals of the server and the static results of its two procedures. -/
structure Server (F : Type) where
  choosing : ℕ → ℕ
  numbers : ℕ → ℕ
  numberLast : ℕ
  indexLast : ℕ
  numberResult : Bakery F
  serveResult : Bakery F

variable {F : Type}

/-- The scan of `max_number` over the slots. -/
def maxNumber (n : ℕ) (numbers : ℕ → ℕ) : ℕ :=
  (List.range n).foldl (fun res i => if res < numbers i then numbers i else res) 0

/-- `get_number_1_svc`. -/
def getNumber1Svc (n : ℕ) (s : Server F) : Option (Server F × Bakery F) :=
  let ind := s.indexLast
  if ind < n then
    let choosing := Function.update s.choosing ind 1
    let numbers := Function.update s.numbers ind (maxNumber n s.numbers + 1)
    let result := { s.numberResult with num := numbers ind, ind := ind }
    some ({ s with
      indexLast := ind + 1
      choosing := Function.update choosing ind 0
      numbers := numbers
      numberResult := result }, result)
  else none

/-- The condition of the wait for slot `j`, without its clock. -/
def mustWait (s : Server F) (ind j : ℕ) : Bool :=
  s.numberLast < s.numbers j &&
    (s.numbers j < s.numbers ind || (s.numbers j == s.numbers ind && j < ind))

/-- The wait for slot `j`: whether it ended because its condition was false. -/
def waitSlot (s : Server F) (ind j : ℕ) : ℕ → Bool
  | 0 => false
  | ticks + 1 => if mustWait s ind j then waitSlot s ind j ticks else true

/-- The loop over the slots: how each wait ended. The wait on `choosing` has no clock. -/
def waitSlots (s : Server F) (ind : ℕ) (ticks : ℕ → ℕ) : List ℕ → Option (List Bool)
  | [] => some []
  | j :: js =>
      if s.choosing ind = 0 then
        (waitSlots s ind ticks js).map fun ends => waitSlot s ind j (ticks j) :: ends
      else none

/-- The first test of `serve_1_svc`: a later ticket has been served. -/
def refuses (s : Server F) (ind : ℤ) : Bool := s.numbers ind.toNat < s.numberLast

section Serve

variable [Add F] [Sub F] [Mul F] [Div F]

/-- `switch (argp->op)`: an unknown operation leaves the result of the request before. -/
def calculate (argp : Bakery F) (old : F) : F :=
  if argp.op = 0 then argp.arg1 + argp.arg2
  else if argp.op = 1 then argp.arg1 - argp.arg2
  else if argp.op = 2 then argp.arg1 * argp.arg2
  else if argp.op = 3 then argp.arg1 / argp.arg2
  else old

/-- `serve_1_svc`. -/
def serve1Svc (n : ℕ) (s : Server F) (argp : Bakery F) (ticks : ℕ → ℕ) :
    Option (Server F × Bakery F) :=
  if 0 ≤ argp.ind ∧ argp.ind < n then
    let ind := argp.ind.toNat
    if refuses s argp.ind then
      let result := { s.serveResult with num := -1 }
      some ({ s with serveResult := result }, result)
    else
      (waitSlots s ind ticks (List.range n)).map fun _ =>
        let result := { s.serveResult with result := calculate argp s.serveResult.result }
        ({ s with serveResult := result, numberLast := s.numbers ind }, result)
  else none

end Serve

/-! ## Histories -/

/-- A request; the argument of `get_number` is not read. -/
inductive Request (F : Type)
  | getNumber (argp : Bakery F)
  | serve (argp : Bakery F) (ticks : ℕ → ℕ)

/-- A request that has been handled, with its reply; for `serve` also the ticket of its
slot and whether the first test refused it, both when it was handled. -/
inductive Handled (F : Type)
  | number (reply : Bakery F)
  | served (ind ticket : ℕ) (refused : Bool) (reply : Bakery F)

/-- The server with the history of its requests, which it does not read. -/
structure Service (F : Type) where
  server : Server F
  log : List (Handled F)

/-- `bakery_prog_1`: one request, from its arrival to its reply. -/
def bakeryProg1 [Add F] [Sub F] [Mul F] [Div F] (n : ℕ) (c : Service F) :
    Request F → Option (Service F)
  | .getNumber _ =>
      (getNumber1Svc n c.server).map fun p => ⟨p.1, c.log ++ [.number p.2]⟩
  | .serve argp ticks =>
      (serve1Svc n c.server argp ticks).map fun p =>
        ⟨p.1, c.log ++ [.served argp.ind.toNat (c.server.numbers argp.ind.toNat)
          (refuses c.server argp.ind) p.2]⟩

/-- The server, taking request after request. -/
def service (F : Type) [Add F] [Sub F] [Mul F] [Div F] (n : ℕ) :
    Machine (Service F) (Request F) where
  next := bakeryProg1 n

/-- The server before its first request. -/
def initial (F : Type) [Zero F] : Service F where
  server :=
    { choosing := fun _ => 0
      numbers := fun _ => 0
      numberLast := 0
      indexLast := 0
      numberResult := Bakery.zero F
      serveResult := Bakery.zero F }
  log := []

/-- The replies of the `get_number` requests, in order. -/
def issued (log : List (Handled F)) : List (Bakery F) :=
  log.filterMap fun
    | .number reply => some reply
    | .served .. => none

/-- The tickets of the `serve` requests that were accepted, in order. -/
def accepted (log : List (Handled F)) : List ℕ :=
  log.filterMap fun
    | .number _ => none
    | .served _ ticket refused _ => if refused then none else some ticket

/-- At most `n` requests for a ticket, and only issued indices are served. -/
def Allowed (n : ℕ) (c : Service F) : Request F → Prop
  | .getNumber _ => (issued c.log).length < n
  | .serve argp _ => ∃ reply ∈ issued c.log, reply.ind = argp.ind

end OsLabs.Obakery
