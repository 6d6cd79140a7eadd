import OsLabs.Concurrent.Machine
import Mathlib.Data.Fintype.Card

/-!
# The parent and its children: model

The end of `main` in `os_lab_4/pc/src/pc.c` and in `os_lab_4/wr/src/wr.c`: the loop over
`waitpid(-1, &wstatus, WUNTRACED | WCONTINUED)`, as often as children were forked, and the
calls that remove the shared memory and the semaphores. The number of children is the
number of elements of `ι`.

The children change their states at any time. A child has at most one state that its
parent has not been told of: a child that goes on is no longer a stopped one. `waitpid`
takes such a state of any child, and waits where there is none; a child that has ended is
reaped when it is told of.
-/

namespace OsLabs.Parent

open Concurrent

/-- What `waitpid` stores in `wstatus`. -/
inductive Report
  | exited (status : ℤ)
  | signaled (sig : ℕ)
  | stopped (sig : ℕ)
  | continued
deriving DecidableEq, Repr

/-- `WIFEXITED(wstatus)` or `WIFSIGNALED(wstatus)`: the child has ended. -/
def Report.ended : Report → Bool
  | .exited _ | .signaled _ => true
  | .stopped _ | .continued => false

/-- A child; `news` is true until the parent has been told. -/
inductive Child
  /-- It runs; with news, it was stopped before. -/
  | running (news : Bool)
  | stopped (sig : ℕ) (news : Bool)
  | exited (status : ℤ)
  | signaled (sig : ℕ)
  /-- It has ended, and the parent has been told. -/
  | reaped
deriving DecidableEq, Repr

/-- What the parent has not been told yet. -/
def Child.report : Child → Option Report
  | .running true => some .continued
  | .stopped sig true => some (.stopped sig)
  | .exited status => some (.exited status)
  | .signaled sig => some (.signaled sig)
  | _ => none

/-- The child once the parent has been told. -/
def Child.told : Child → Child
  | .running _ => .running false
  | .stopped sig _ => .stopped sig false
  | _ => .reaped

/-- What can happen to a child. -/
inductive Change
  | stop (sig : ℕ)
  | cont
  | exit (status : ℤ)
  | kill (sig : ℕ)
deriving DecidableEq, Repr

def Child.change : Change → Child → Option Child
  | .stop sig, .running _ => some (.stopped sig true)
  | .cont, .stopped _ _ => some (.running true)
  | .exit status, .running _ => some (.exited status)
  | .kill sig, .running _ => some (.signaled sig)
  | .kill sig, .stopped _ _ => some (.signaled sig)
  | _, _ => none

/-- The calls behind the loop. -/
inductive Call
  | shmctl
  | shmdt
  | semctl
deriving DecidableEq, Repr

/-- The clean-up of `pc.c`. -/
def pcCalls : List Call := [.shmctl, .shmdt, .semctl]

/-- The clean-up of `wr.c`. -/
def wrCalls : List Call := [.shmdt, .shmctl, .semctl]

/-- Where the parent is: in `waitpid` for the `i`-th time, or before the calls that are
left. -/
inductive PC
  | waitpid (i : ℕ)
  | cleanUp (calls : List Call)
deriving DecidableEq, Repr

/-- The head of `for (size_t i = 0; i < n; ++i)`. -/
def loop (n : ℕ) (calls : List Call) (i : ℕ) : PC :=
  if i < n then .waitpid i else .cleanUp calls

variable {ι : Type}

/-- A child changes its state, `waitpid` returns with the news of a child, or the parent
makes its next call. -/
inductive Action (ι : Type)
  | change (t : ι) (ch : Change)
  | report (t : ι)
  | call
deriving DecidableEq, Repr

variable [Fintype ι] [DecidableEq ι]

/-- `main`, with the children it has forked. -/
def main (calls : List Call) : Machine (Config ι PC Child) (Action ι) where
  next c
    | .change t ch => ((c.loc t).change ch).map fun x => c.set t c.shared x
    | .report t =>
        match c.shared, (c.loc t).report with
        | .waitpid i, some _ =>
            some (c.set t (loop (Fintype.card ι) calls (i + 1)) (c.loc t).told)
        | _, _ => none
    | .call =>
        match c.shared with
        | .cleanUp (_ :: rest) => some { c with shared := .cleanUp rest }
        | _ => none

omit [DecidableEq ι] in
/-- The children are forked. -/
def start (calls : List Call) : Config ι PC Child where
  shared := loop (Fintype.card ι) calls 0
  loc _ := .running false

end OsLabs.Parent
