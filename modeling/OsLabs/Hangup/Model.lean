import OsLabs.Concurrent.Machine
import OsLabs.Concurrent.Signals

/-!
# The daemon and its signals: model

`main` of `os_lab_3/src/daemon.c` from the return of `daemonize` on, in a run in which
`already_running` returns 0, and the handler thread `thr_fn`. Each statement of `main` and
each call of `thr_fn` is one step, and a signal can arrive between any two of them. The
signals are those that can be blocked; one that the default action discards counts as
ignored.

`daemonize` has left SIGHUP ignored. The dispositions of the other signals, the mask and
the pending signals that the process has inherited are parameters, and so is what the
variable `mask` of `main` holds before `sigfillset`. `sigaction`, `pthread_sigmask` and
`sigwait` have valid arguments and succeed; `pthread_create` can fail, with an error number
that is not the -1 that `main` looks for, and `fopen` in `reread` can.

`taken` and `rereads` are history: how many SIGHUPs `sigwait` has returned and how often
`reread` has been called. No step reads them.
-/

namespace OsLabs.Hangup

open Concurrent

inductive Sig
  | sighup
  | sigterm
  | other (n : ℕ)
deriving DecidableEq, Repr

/-- The points of `main`. -/
inductive MainPC
  | alreadyRunning
  | saHandler
  | saMask
  | saFlags
  | sigaction
  | sigfillset
  | sigmask
  | create
  | time
  | syslog
  | sleep
deriving DecidableEq, Repr

/-- The points of `thr_fn`. -/
inductive ThrPC
  | sigwait
  | switch (signo : Sig)
  | rereadLog
  | reread
  | sigtermLog
  | removeConf
  | quit
  | unexpected (signo : Sig)
deriving DecidableEq, Repr

inductive End
  | killed (signo : Sig)
  | success
  | failure
deriving DecidableEq, Repr

/-- The process: its signals in the kernel, `mask` of `main`, and the points of its two
threads, where the second one has been created. -/
structure Process where
  signals : Signals Sig
  mask : Sig → Bool
  main : MainPC
  thrFn : Option ThrPC
  ended : Option End
  taken : ℕ
  rereads : ℕ

/-- What can happen: a signal arrives, `main` makes a step (`created` is the success of
`pthread_create`), or `thr_fn` does (`signo` is what `sigwait` returns, `opened` the success
of `fopen`). -/
inductive Action
  | signal (signo : Sig)
  | main (created : Bool)
  | thrFn (signo : Sig) (opened : Bool)
deriving DecidableEq, Repr

/-- The arrival of a signal. -/
def arrive (x : Process) (signo : Sig) : Process :=
  match x.signals.send signo with
  | some k => { x with signals := k }
  | none => { x with ended := some (.killed signo) }

/-- One step of `main`. -/
def mainStep (x : Process) (created : Bool) : Process :=
  match x.main with
  | .alreadyRunning => { x with main := .saHandler }
  | .saHandler => { x with main := .saMask }
  | .saMask => { x with main := .saFlags }
  | .saFlags => { x with main := .sigaction }
  | .sigaction => { x with signals := x.signals.setDefault .sighup, main := .sigfillset }
  | .sigfillset => { x with mask := fun _ => true, main := .sigmask }
  | .sigmask => { x with signals := x.signals.block 0 x.mask, main := .create }
  -- `err == -1` is never so
  | .create =>
      if created then { x with signals := x.signals.spawn 0, thrFn := some .sigwait, main := .time }
      else { x with main := .time }
  | .time => { x with main := .syslog }
  | .syslog => { x with main := .sleep }
  | .sleep => { x with main := .time }

/-- `exit` in `thr_fn`: both threads are gone. -/
def exit (x : Process) (how : End) : Process := { x with thrFn := none, ended := some how }

/-- One step of `thr_fn` from the given point; `none` where `sigwait` waits. -/
def thrStep (x : Process) (signo : Sig) (opened : Bool) : ThrPC → Option Process
  | .sigwait =>
      (x.signals.sigwait x.mask signo).map fun k =>
        { x with
          signals := k
          thrFn := some (.switch signo)
          taken := if signo = .sighup then x.taken + 1 else x.taken }
  | .switch .sighup => some { x with thrFn := some .rereadLog }
  | .switch .sigterm => some { x with thrFn := some .sigtermLog }
  | .switch (.other n) => some { x with thrFn := some (.unexpected (.other n)) }
  | .rereadLog => some { x with thrFn := some .reread }
  -- `reread` exits where `fopen` fails
  | .reread =>
      let x := { x with rereads := x.rereads + 1 }
      some (if opened then { x with thrFn := some .sigwait } else exit x .failure)
  | .sigtermLog => some { x with thrFn := some .removeConf }
  | .removeConf => some { x with thrFn := some .quit }
  | .quit => some (exit x .success)
  | .unexpected _ => some { x with thrFn := some .sigwait }

/-- The process; nothing happens in it after its end. -/
def daemon : Machine Process Action where
  next x a :=
    match x.ended, a with
    | some _, _ => none
    | none, .signal signo => some (arrive x signo)
    | none, .main created => some (mainStep x created)
    | none, .thrFn signo opened => x.thrFn.bind (thrStep x signo opened)

/-- What the process has inherited, and what its stack holds. -/
structure Inherited where
  disposition : Sig → Disposition
  mask : Sig → Bool
  pending : Sig → Bool
  stack : Sig → Bool

/-- The process when `daemonize` has returned: SIGHUP is ignored, and so none is pending. -/
def initial (h : Inherited) : Process where
  signals :=
    { disposition := Function.update h.disposition .sighup .ignore
      masks := [h.mask]
      pending := Function.update h.pending .sighup false }
  mask := h.stack
  main := .alreadyRunning
  thrFn := none
  ended := none
  taken := 0
  rereads := 0

end OsLabs.Hangup
