import OsLabs.Bytes.Scan
import OsLabs.Concurrent.Machine
import OsLabs.Files.FileSystem

/-!
# The daemon and its test build: model

Start attempts and running instances of `os_lab_3/src/daemon.c` and of
`os_lab_3/src/daemon_test.c`, each in a process of its own. One call on a file is one
step: `open`, `fcntl(F_SETLK)`, `ftruncate`, `write` and `close` of `already_running`,
`remove` of the SIGTERM branch of `thr_fn`, and the exit. Calls on files succeed, but for
the lock, which fails while another process holds it; the texts fit their buffers.

The two builds differ in two places: the test build closes the descriptor of `LOCKFILE`
in `already_running`, and removes `LOCKFILE` in the SIGTERM branch.

SIGTERM terminates a process that has not yet blocked the signals (`setup` is the part
of `main` from the return of `already_running` to the mask and the thread); later it is
taken by `sigwait`, and while its branch runs it stays pending.
-/

namespace OsLabs.Daemon

open Concurrent Files

inductive Path
  | lockFile
  | confFile
deriving DecidableEq, Repr

/-- The two programs. -/
inductive Build
  | daemon
  | daemonTest
deriving DecidableEq, Repr

inductive End
  | success
  | failure
  | killed
deriving DecidableEq, Repr

/-- The points of a process: those of `already_running`, of `main` after it, and of the
SIGTERM branch. -/
inductive PC
  | start
  | lockfile (fd : Fd)
  | refused (fd : Fd)
  | returnedOne
  | truncate (fd : Fd)
  | writePid (fd : Fd)
  | closeLock (fd : Fd)
  | openConf
  | truncConf (conffd : Fd)
  | writeConf (conffd : Fd)
  | closeConf (conffd : Fd)
  | setup
  | running
  | removeLock
  | removeConf
  | quit
  | exited (how : End)
deriving DecidableEq, Repr

/-- A process, with what `getpid`, `getuid` and `getlogin` return in it. -/
structure Process where
  pc : PC
  pid : ℕ
  uid : ℕ
  login : List UInt8

/-- What can happen to a process: it runs, or SIGTERM is delivered to it. -/
inductive Event
  | run
  | sigterm
deriving DecidableEq, Repr

/-- The bytes that are written to `LOCKFILE`, the terminating zero included. -/
def Process.lockText (x : Process) : List UInt8 := Bytes.decimal x.pid ++ [0]

/-- The bytes that are written to `CONFFILE`: the uid, a line feed, the login. -/
def Process.confText (x : Process) : List UInt8 := Bytes.decimal x.uid ++ [10] ++ x.login ++ [0]

variable {ι : Type} [DecidableEq ι]

/-- `already_running`, and what `main` makes of its result. -/
def alreadyRunning (b : Build) (t : ι) (fs : FileSystem Path ι) (x : Process) :
    PC → FileSystem Path ι × PC
  | .start => ((fs.openCreate .lockFile).1, .lockfile (fs.openCreate .lockFile).2)
  | .lockfile fd =>
      match fs.setLock t fd.inode with
      | some fs' => (fs', .truncate fd)
      | none => (fs, .refused fd)
  -- `close(fd); return 1;`
  | .refused fd => (fs.close t fd.inode, .returnedOne)
  | .returnedOne => (fs.exit t, .exited .failure)
  | .truncate fd => (fs.truncate fd.inode, .writePid fd)
  | .writePid fd =>
      ((fs.write fd x.lockText).1,
        match b with
        | .daemon => .openConf
        | .daemonTest => .closeLock fd)
  | .closeLock fd => (fs.close t fd.inode, .openConf)
  | .openConf => ((fs.openCreate .confFile).1, .truncConf (fs.openCreate .confFile).2)
  | .truncConf conffd => (fs.truncate conffd.inode, .writeConf conffd)
  | .writeConf conffd => ((fs.write conffd x.confText).1, .closeConf conffd)
  -- `close(conffd); return 0;`
  | .closeConf conffd => (fs.close t conffd.inode, .setup)
  | .setup => (fs, .running)
  | pc => (fs, pc)

/-- The SIGTERM branch of `thr_fn`. -/
def thrFn (t : ι) (fs : FileSystem Path ι) : PC → FileSystem Path ι × PC
  | .removeLock => (fs.remove .lockFile, .removeConf)
  | .removeConf => (fs.remove .confFile, .quit)
  | .quit => (fs.exit t, .exited .success)
  | pc => (fs, pc)

/-- Delivery of SIGTERM. -/
def sigterm (b : Build) (t : ι) (fs : FileSystem Path ι) : PC → FileSystem Path ι × PC
  | .running =>
      (fs,
        match b with
        | .daemon => .removeConf
        | .daemonTest => .removeLock)
  | .removeLock => (fs, .removeLock)
  | .removeConf => (fs, .removeConf)
  | .quit => (fs, .quit)
  | _ => (fs.exit t, .exited .killed)

/-- The process is in the SIGTERM branch. -/
def PC.terminating : PC → Bool
  | .removeLock | .removeConf | .quit => true
  | _ => false

/-- One step of a process. -/
def processStep (b : Build) (t : ι) (e : Event) (fs : FileSystem Path ι) (x : Process) :
    Option (FileSystem Path ι × Process) :=
  match x.pc, e with
  | .exited _, _ => none
  | pc, .sigterm => some ((sigterm b t fs pc).1, { x with pc := (sigterm b t fs pc).2 })
  | pc, .run =>
      if pc.terminating then some ((thrFn t fs pc).1, { x with pc := (thrFn t fs pc).2 })
      else some ((alreadyRunning b t fs x pc).1, { x with pc := (alreadyRunning b t fs x pc).2 })

/-- What the kernel knows of each process. -/
structure Identity where
  pid : ℕ
  uid : ℕ
  login : List UInt8

/-- No process has been started; the files may be there, and nobody has locked them. -/
def initial (fs : FileSystem Path ι) (who : ι → Identity) :
    Config ι (FileSystem Path ι) Process where
  shared := { fs with lock := fun _ => none }
  loc t := ⟨.start, (who t).pid, (who t).uid, (who t).login⟩

/-- No file is there. -/
def noFiles : FileSystem Path ι where
  names _ := none
  data _ := []
  lock _ := none
  next := 0
  lt_next _ _ h := by cases h
  injective _ _ _ h := by cases h

/-- The processes 100 and 101 of the user 1000. -/
def twoProcesses (t : Fin 2) : Identity := ⟨100 + t, 1000, [117]⟩

/-- The processes of `daemon.c`. -/
def daemon (ι : Type) [DecidableEq ι] :
    Machine (Config ι (FileSystem Path ι) Process) (ι × Event) :=
  interleave (processStep .daemon)

/-- The processes of `daemon_test.c`. -/
def daemonTest (ι : Type) [DecidableEq ι] :
    Machine (Config ι (FileSystem Path ι) Process) (ι × Event) :=
  interleave (processStep .daemonTest)

/-- The process has passed `lockfile` and has not exited. -/
def PC.pastLock : PC → Bool
  | .start | .lockfile _ | .refused _ | .returnedOne | .exited _ => false
  | _ => true

/-- `already_running` has returned 0 in the process, and it has not got SIGTERM. -/
def PC.up : PC → Bool
  | .setup | .running => true
  | _ => false

end OsLabs.Daemon
