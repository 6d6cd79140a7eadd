import Mathlib.Data.Fintype.Basic
import OsLabs.Bytes.CString
import OsLabs.Concurrent.Machine

/-!
# Messages through a pipe: model

`main` of `os_lab_2/prog4.c` and of `os_lab_2/prog5.c` (`pipe.c` and `signal.c` differ from
them in comments and empty lines). The parent forks a child for each text, waits for as many
children as there are texts, and then reads as many bytes as the first text has, as many as
the second has, and one more. The children of `prog4.c` write their texts to the pipe; those
of `prog5.c` do so where SIGINT has come before, to the child or to the parent before the
`fork`.

Each call is one step. `write` puts the whole text into the pipe, since it is shorter than
`PIPE_BUF`, and a write that nobody could read ends the child with SIGPIPE; `read` takes what
is there up to its count, waits on an empty pipe while somebody holds its write end, and
returns 0 when nobody does. The parent holds the read end to its end. `pipe`, `fork` and
`signal` succeed, and `wait` is restarted when a handler has run. The first value of `buf` is
what the stack of the parent holds.

`writes` and `chunks` are history: the children in the order of their writes, and what each
`read` has returned.
-/

namespace OsLabs.Pipe

open Concurrent Bytes

inductive Program
  | prog4
  | prog5
deriving DecidableEq, Repr

/-- `char *texts[2]`. -/
def texts : List (List UInt8) :=
  ["xx", "y-y-y-y-y"].map fun s => s.toList.map fun c => UInt8.ofNat c.toNat

/-- The children. -/
abbrev Index := Fin texts.length

def text (i : Index) : List UInt8 := texts[i]

/-- The points of a child; at `head` is the test of `flag` in `prog5.c`. -/
inductive ChildPC
  | head
  | closeRead
  | write
  | closeWrite
  | exit
deriving DecidableEq, Repr

/-- A child, with its copy of `flag`. -/
inductive Child
  | unborn
  | running (pc : ChildPC) (flag : Bool)
  /-- It has ended, by `exit` or by a signal. -/
  | ended (signaled : Bool)
  | reaped
deriving DecidableEq, Repr

/-- The points of the parent; `i` counts the turns of the loop. -/
inductive PC
  | fork (i : ℕ)
  | wait (i : ℕ)
  | close (i : ℕ)
  | read (i : ℕ)
  | print (i : ℕ)
  | clear (i : ℕ)
  | lastClose
  | lastRead
  | lastPrint
  | exited
  | killed
deriving DecidableEq, Repr

/-- The parent and the pipe. -/
structure Shared where
  pc : PC
  flag : Bool
  /-- The parent holds `pipefd[1]`. -/
  writeEnd : Bool
  pipe : List UInt8
  buf : ℕ → UInt8
  printed : List (List UInt8)
  writes : List Index
  chunks : List (List UInt8)

/-- The heads of the three loops of the parent. -/
def forkLoop (i : ℕ) : PC := if i < texts.length then .fork i else .wait 0

def waitLoop (i : ℕ) : PC := if i < texts.length then .wait i else .close 0

def readLoop (i : ℕ) : PC := if i < texts.length then .close i else .lastClose

/-- The child holds `pipefd[1]`. -/
def Child.writeEnd : Program → Child → Bool
  | .prog4, .running pc _ => pc != .exit
  | .prog5, .running _ _ => true
  | _, _ => false

/-- The child holds `pipefd[0]`, which matters where the parent is gone, so in `prog4.c`. -/
def Child.readEnd : Child → Bool
  | .running .head _ | .running .closeRead _ => true
  | _ => false

/-- The bytes `w` at the start of `buf`. -/
def fill (w : List UInt8) (buf : ℕ → UInt8) : ℕ → UInt8 := fun k => w[k]?.getD (buf k)

/-- `char buf[50]` as `printf` prints it with `%s`. -/
def message (buf : ℕ → UInt8) : List UInt8 := readString buf 0 50

/-- One step of a child; `readable` says that somebody holds the read end. -/
def childStep (p : Program) (i : Index) (s : Shared) (readable flag : Bool) :
    ChildPC → Shared × Child
  | .head =>
      match p with
      | .prog4 => (s, .running .closeRead flag)
      | .prog5 => (s, .running (if flag then .closeRead else .exit) flag)
  | .closeRead => (s, .running .write flag)
  | .write =>
      if readable then
        ({ s with pipe := s.pipe ++ text i, writes := s.writes ++ [i] },
          match p with
          | .prog4 => .running .closeWrite flag
          | .prog5 => .running .exit flag)
      else (s, .ended true)
  | .closeWrite => (s, .running .exit flag)
  | .exit => (s, .ended false)

/-- `read(pipefd[0], buf, count)`; `held` says that somebody holds the write end. -/
def readPipe (s : Shared) (held : Bool) (count : ℕ) : Option Shared :=
  if s.pipe = [] ∧ held = true then none
  else
    some { s with
      pipe := s.pipe.drop count
      buf := fill (s.pipe.take count) s.buf
      chunks := s.chunks ++ [s.pipe.take count] }

/-- What can happen: the parent makes a step, and `wait` returns the child `z` where it is
called; a child makes a step; SIGINT comes to the parent or to a child. -/
inductive Action
  | parent (z : Index)
  | child (i : Index)
  | sigint (t : Option Index)
deriving DecidableEq, Repr

/-- Somebody holds the write end. -/
def held (p : Program) (c : Config Index Shared Child) : Bool :=
  c.shared.writeEnd || (List.finRange texts.length).any fun i => (c.loc i).writeEnd p

/-- Somebody holds the read end. -/
def readable (c : Config Index Shared Child) : Bool :=
  c.shared.pc != .killed || (List.finRange texts.length).any fun i => (c.loc i).readEnd

/-- The parent behind its `wait`s. -/
def receive (held : Bool) (s : Shared) : Option Shared :=
  match s.pc with
  | .close i => some { s with writeEnd := false, pc := .read i }
  | .read i =>
      (readPipe s held (texts[i]?.getD []).length).map fun s => { s with pc := .print i }
  | .print i => some { s with printed := s.printed ++ [message s.buf], pc := .clear i }
  | .clear i => some { s with buf := Function.update s.buf 0 0, pc := readLoop (i + 1) }
  | .lastClose => some { s with writeEnd := false, pc := .lastRead }
  | .lastRead => (readPipe s held 1).map fun s => { s with pc := .lastPrint }
  | .lastPrint => some { s with printed := s.printed ++ [message s.buf], pc := .exited }
  | _ => none

/-- One step of the parent. -/
def parentStep (p : Program) (z : Index) (c : Config Index Shared Child) :
    Option (Config Index Shared Child) :=
  match c.shared.pc with
  | .fork i =>
      if h : i < texts.length then
        some (c.set ⟨i, h⟩ { c.shared with pc := forkLoop (i + 1) } (.running .head c.shared.flag))
      else none
  | .wait i =>
      match c.loc z with
      | .ended _ => some (c.set z { c.shared with pc := waitLoop (i + 1) } .reaped)
      | _ => none
  | _ => (receive (held p c) c.shared).map fun s => { c with shared := s }

/-- SIGINT: the handler of `prog5.c` sets `flag`, and `prog4.c` has the default action. -/
def sigintChild : Program → Child → Option Child
  | .prog4, .running _ _ => some (.ended true)
  | .prog5, .running pc _ => some (.running pc true)
  | _, _ => none

def sigintParent (p : Program) (s : Shared) : Option Shared :=
  match s.pc with
  | .exited | .killed => none
  | _ =>
      match p with
      | .prog4 => some { s with pc := .killed, writeEnd := false }
      | .prog5 => some { s with flag := true }

/-- `main`, with its children. -/
def main (p : Program) : Machine (Config Index Shared Child) Action where
  next c
    | .parent z => parentStep p z c
    | .child i =>
        match c.loc i with
        | .running pc flag =>
            let r := childStep p i c.shared (readable c) flag pc
            some (c.set i r.1 r.2)
        | _ => none
    | .sigint none => (sigintParent p c.shared).map fun s => { c with shared := s }
    | .sigint (some i) => (sigintChild p (c.loc i)).map fun x => c.set i c.shared x

/-- The pipe is there, and no child. -/
def start (stack : ℕ → UInt8) : Config Index Shared Child where
  shared :=
    { pc := forkLoop 0
      flag := false
      writeEnd := true
      pipe := []
      buf := stack
      printed := []
      writes := []
      chunks := [] }
  loc _ := .unborn

end OsLabs.Pipe
