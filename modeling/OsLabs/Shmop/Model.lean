import OsLabs.Bytes.CString
import OsLabs.Concurrent.Machine
import OsLabs.Concurrent.SysV

/-!
# A string in shared memory: model

The reader `os_lab_4/shmop/svshm_string_read.c`, from its wait on, and any number of runs of
the writer `svshm_string_write.c`, each with the identifiers that the reader has printed and
an argument of its own; `MEM_SIZE` is the parameter `n`. One `semop` is one step, and so is
every byte that `memcpy` writes, in any order, and every byte that `printf` reads. A read
outside the segment is the end of the model. A writer that attaches the segment after it was
removed may still get it. Once the set is removed, `semop` fails.
-/

namespace OsLabs.Shmop

open Concurrent Bytes

/-- The segment and the set; `none` is the set after its removal. -/
structure Shared where
  mem : ℕ → UInt8
  sem : Option (Unit → ℕ)
  shmRemoved : Bool

/-- The points of `svshm_string_read.c`, with the bytes printed so far. -/
inductive ReaderPC
  | semop
  | printf (out : List UInt8)
  | shmctl (out : List UInt8)
  | semctl (out : List UInt8)
  | exited (out : List UInt8)
deriving DecidableEq, Repr

/-- The points of `svshm_string_write.c`; it exits with success or with failure, the latter
before or behind its `memcpy`. -/
inductive WriterPC
  | start
  | memcpy (copied : List ℕ)
  | semop
  | exited
  | refused
  | failed
deriving DecidableEq, Repr

inductive PC
  | reader (pc : ReaderPC)
  | writer (pc : WriterPC)
deriving DecidableEq, Repr

/-- What is left open: whether `shmat` succeeds, and which byte `memcpy` writes next. -/
inductive Event
  | run
  | shmat (ok : Bool)
  | byte (i : ℕ)
deriving DecidableEq, Repr

variable {ι : Type}

/-- The byte `argv[3][i]`, with the zero behind the string. -/
def byteAt (arg : CString) (i : ℕ) : UInt8 := arg.val[i]?.getD 0

/-- One step of the reader. -/
def reader (n : ℕ) (s : Shared) : ReaderPC → Option (Shared × ReaderPC)
  | .semop => s.sem.bind fun v => (Concurrent.semop v [⟨(), 0⟩]).map fun v =>
      ({ s with sem := some v }, .printf [])
  -- `printf("%s\n", addr)`
  | .printf out =>
      if out.length < n then
        if s.mem out.length = 0 then some (s, .shmctl out)
        else some (s, .printf (out ++ [s.mem out.length]))
      else none
  | .shmctl out => some ({ s with shmRemoved := true }, .semctl out)
  | .semctl out => some ({ s with sem := none }, .exited out)
  | .exited _ => none

/-- One step of a writer with `argv[3]`. -/
def writer (n : ℕ) (arg : CString) (e : Event) (s : Shared) (pc : WriterPC) :
    Option (Shared × WriterPC) :=
  let len := arg.val.length + 1
  match pc, e with
  | .start, .shmat ok =>
      if n < len then some (s, .refused)
      else if ok then some (s, .memcpy [])
      else if s.shmRemoved then some (s, .refused)
      else none
  | .memcpy copied, .byte i =>
      if i < len ∧ i ∉ copied then
        some ({ s with mem := Function.update s.mem i (byteAt arg i) }, .memcpy (i :: copied))
      else none
  | .memcpy copied, .run => if ∀ i < len, i ∈ copied then some (s, .semop) else none
  | .semop, .run =>
      match s.sem with
      | none => some (s, .failed)
      | some v => (Concurrent.semop v [⟨(), -1⟩]).map fun v =>
          ({ s with sem := some v }, .exited)
  | _, _ => none

/-- One step of a process: `none` is the reader. -/
def processStep (n : ℕ) (arg : ι → CString) (t : Option ι) (e : Event) (s : Shared) (x : PC) :
    Option (Shared × PC) :=
  match t, x with
  | none, .reader pc => (reader n s pc).map fun p => (p.1, .reader p.2)
  | some t, .writer pc => (writer n (arg t) e s pc).map fun p => (p.1, .writer p.2)
  | _, _ => none

/-- The reader has set the semaphore to one and printed the identifiers. -/
def initial (ι : Type) : Config (Option ι) Shared PC where
  shared := { mem := fun _ => 0, sem := some fun _ => 1, shmRemoved := false }
  loc
    | none => .reader .semop
    | some _ => .writer .start

/-- The reader and the writers, interleaved. -/
def processes [DecidableEq ι] (n : ℕ) (arg : ι → CString) :
    Machine (Config (Option ι) Shared PC) (Option ι × Event) :=
  interleave (processStep n arg)

end OsLabs.Shmop
