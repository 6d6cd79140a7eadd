import Mathlib.Data.List.Range
import Mathlib.Logic.Function.Basic
import Mathlib.Tactic.Common

/-!
# The daemon: becoming one

`daemonize` of `os_lab_3/src/daemon.c` (`daemon_test.c` has the same text). It is a function
of what the process has inherited and of what the calls return that may fail: `fork`,
`chdir`, and `open` of `/dev/null`. Descriptors are the lowest free ones below the soft limit.
The hard limit is an `int`.

Whatever was open before, `daemonize` returns exactly where these calls succeed and there is
room for three descriptors, and then with the descriptors 0, 1 and 2 at `/dev/null` and all
others below the hard limit closed (`daemonize_returns`). Where there is no hard limit, those
from 1024 on stay open.
-/

namespace OsLabs.Daemonize

inductive Disposition
  | default
  | ignore
  | handler
deriving DecidableEq, Repr

/-- What a process has that `daemonize` changes. `F` are the open files. -/
structure Process (F : Type) where
  pid : ℕ
  group : ℕ
  session : ℕ
  terminal : Option ℕ
  directory : String
  mask : ℕ
  sighup : Disposition
  fds : ℕ → Option F

/-- The limits of the number of descriptors; `max` is `none` for `RLIM_INFINITY`. -/
structure Limits where
  cur : ℕ
  max : Option ℕ
  cur_le : ∀ n, max = some n → cur ≤ n

/-- What the calls return that may fail: `fork` the pid of the child, which is that of no
group, and `open("/dev/null")` the file. -/
structure Calls (F : Type) where
  fork : Option ℕ
  chdir : Bool
  devNull : Option F

/-- How `daemonize` ends in a process. `descriptors` is the message that it logs with the
three numbers. -/
inductive Outcome (F : Type)
  | returns (p : Process F)
  | exit (status : ℤ)
  | descriptors (fd0 fd1 fd2 : ℤ)

variable {F : Type} {lim : Limits} {calls : Calls F} {p q : Process F}

/-- `setsid`; the leader of a group cannot call it. -/
def setsid (p : Process F) : Option (Process F) :=
  if p.group = p.pid then none
  else some { p with group := p.pid, session := p.pid, terminal := none }

/-- The loop over `close`, from `i` on. -/
def closeLoop (fds : ℕ → Option F) (i : ℕ) : ℕ → ℕ → Option F
  | 0 => fds
  | k + 1 => closeLoop (Function.update fds i none) (i + 1) k

/-- The lowest free descriptor gets the file; -1 where there is none, or no file. -/
def allocate (lim : Limits) (fds : ℕ → Option F) : Option F → ℤ × (ℕ → Option F)
  | none => (-1, fds)
  | some f =>
      match (List.range lim.cur).find? fun i => (fds i).isNone with
      | some i => (i, Function.update fds i (some f))
      | none => (-1, fds)

/-- `dup(fd)`. -/
def dup (lim : Limits) (fds : ℕ → Option F) (fd : ℕ) : ℤ × (ℕ → Option F) :=
  allocate lim fds (fds fd)

/-- `rl.rlim_max` behind the test. -/
def Limits.bound (lim : Limits) : ℕ := lim.max.getD 1024

/-- The descriptors: closed, and then 0, 1 and 2 attached to `/dev/null`. -/
def attach (lim : Limits) (calls : Calls F) (p : Process F) : Outcome F :=
  let fds := closeLoop p.fds 0 lim.bound
  let r0 := allocate lim fds calls.devNull
  let r1 := dup lim r0.2 0
  let r2 := dup lim r1.2 0
  if r0.1 ≠ 0 ∨ r1.1 ≠ 1 ∨ r2.1 ≠ 2 then .descriptors r0.1 r1.1 r2.1
  else .returns { p with fds := r2.2 }

/-- The child, behind `fork`. -/
def child (lim : Limits) (calls : Calls F) (p : Process F) : Outcome F :=
  match setsid p with
  | none => .exit 1
  | some p =>
      let p := { p with sighup := .ignore }
      if calls.chdir then attach lim calls { p with directory := "/" } else .exit 1

/-- `daemonize`: how it ends in the process that calls it, and in the child. -/
def daemonize (lim : Limits) (calls : Calls F) (p : Process F) : Outcome F × Option (Outcome F) :=
  let p := { p with mask := 0 }
  match calls.fork with
  | none => (.exit 1, none)
  | some pid => (.exit 0, some (child lim calls { p with pid := pid }))

/-! ## The descriptors -/

theorem closeLoop_eq (fds : ℕ → Option F) (i k j : ℕ) :
    closeLoop fds i k j = if i ≤ j ∧ j < i + k then none else fds j := by
  induction k generalizing fds i with
  | zero => rw [closeLoop, if_neg (by omega)]
  | succ k ih =>
    rw [closeLoop, ih]
    by_cases hj : j = i
    · rw [hj, Function.update_self, ite_self, if_pos (by omega)]
    · rw [Function.update_of_ne hj]
      have hiff : (i + 1 ≤ j ∧ j < i + 1 + k) ↔ (i ≤ j ∧ j < i + (k + 1)) := by omega
      simp only [hiff]

theorem allocate_full {fds : ℕ → Option F} (file : Option F)
    (htaken : ∀ i < lim.cur, fds i ≠ none) : allocate lim fds file = (-1, fds) := by
  cases file with
  | none => rfl
  | some f =>
    have hfind : (List.range lim.cur).find? (fun i => (fds i).isNone) = none := by
      rw [List.find?_eq_none]
      intro i hi
      obtain ⟨x, hx⟩ := Option.ne_none_iff_exists'.mp (htaken i (List.mem_range.mp hi))
      rw [hx]
      exact nofun
    simp only [allocate, hfind]

/-- Where the descriptors in front of `n` are taken and it is free, it is given out. -/
theorem allocate_next {fds : ℕ → Option F} {n : ℕ} (f : F) (htaken : ∀ i < n, fds i ≠ none)
    (hfree : fds n = none) (hn : n < lim.cur) :
    allocate lim fds (some f) = ((n : ℤ), Function.update fds n (some f)) := by
  have hfind : (List.range lim.cur).find? (fun i => (fds i).isNone) = some n := by
    rw [List.find?_range_eq_some]
    refine ⟨by rw [hfree]; rfl, List.mem_range.mpr hn, ?_⟩
    intro i hi
    obtain ⟨x, hx⟩ := Option.ne_none_iff_exists'.mp (htaken i hi)
    rw [hx]
    rfl
  simp only [allocate, hfind]

/-- The soft limit is not above what has been closed, or that leaves room for three. -/
theorem Limits.closed_of_lt (lim : Limits) {n : ℕ} (hn : n < lim.cur) (h3 : n < 3) :
    n < lim.bound := by
  have hle := lim.cur_le
  unfold Limits.bound
  cases hmax : lim.max with
  | none =>
    show n < 1024
    omega
  | some k => exact Nat.lt_of_lt_of_le hn (hle k hmax)

/-- `fds` with the file at all descriptors in front of `n`. -/
def filled (f : F) (fds : ℕ → Option F) (n : ℕ) : ℕ → Option F :=
  fun i => if i < n then some f else fds i

theorem filled_succ (f : F) (fds : ℕ → Option F) (n : ℕ) :
    Function.update (filled f fds n) n (some f) = filled f fds (n + 1) := by
  funext i
  unfold filled
  by_cases hi : i = n
  · rw [hi, Function.update_self, if_pos (Nat.lt_succ_self n)]
  · have hiff : i < n + 1 ↔ i < n := by omega
    rw [Function.update_of_ne hi]
    simp only [hiff]

/-- A descriptor for the file, where it stands at all in front. -/
theorem allocate_filled (lim : Limits) (f : F) (p : Process F) {n : ℕ} (h3 : n < 3) :
    allocate lim (filled f (closeLoop p.fds 0 lim.bound) n) (some f) =
      if n < lim.cur then ((n : ℤ), filled f (closeLoop p.fds 0 lim.bound) (n + 1))
      else (-1, filled f (closeLoop p.fds 0 lim.bound) n) := by
  split_ifs with hn
  · rw [← filled_succ]
    apply allocate_next f _ _ hn
    · intro i hi
      unfold filled
      rw [if_pos hi]
      exact Option.some_ne_none f
    · have hclosed := lim.closed_of_lt hn h3
      unfold filled
      rw [if_neg (Nat.lt_irrefl n), closeLoop_eq, if_pos (by omega)]
  · apply allocate_full
    intro i hi
    unfold filled
    rw [if_pos (by omega)]
    exact Option.some_ne_none f

theorem filled_zero (f : F) (fds : ℕ → Option F) : filled f fds 0 = fds := by
  funext i
  exact if_neg (Nat.not_lt_zero i)

/-- `dup(0)` with the file at 0 and what follows. -/
theorem dup_filled (lim : Limits) (f : F) (p : Process F) {n : ℕ} (hpos : 0 < n) (h3 : n < 3) :
    dup lim (filled f (closeLoop p.fds 0 lim.bound) n) 0 =
      if n < lim.cur then ((n : ℤ), filled f (closeLoop p.fds 0 lim.bound) (n + 1))
      else (-1, filled f (closeLoop p.fds 0 lim.bound) n) := by
  rw [← allocate_filled lim f p h3, dup]
  congr 1
  exact if_pos hpos

/-- The number that a call gives where `n` descriptors are taken. -/
def numberAt (lim : Limits) (n : ℕ) : ℤ := if n < lim.cur then n else -1

theorem attach_some {f : F} (h : calls.devNull = some f) :
    attach lim calls p =
      if 3 ≤ lim.cur then .returns { p with fds := filled f (closeLoop p.fds 0 lim.bound) 3 }
      else .descriptors (numberAt lim 0) (numberAt lim 1) (numberAt lim 2) := by
  have h0 : allocate lim (closeLoop p.fds 0 lim.bound) (some f) =
      if 0 < lim.cur then (0, filled f (closeLoop p.fds 0 lim.bound) 1)
      else (-1, closeLoop p.fds 0 lim.bound) := by
    have hfirst := allocate_filled lim f p (show 0 < 3 by decide)
    rw [filled_zero] at hfirst
    exact hfirst
  have h1 := dup_filled lim f p Nat.one_pos (show 1 < 3 by decide)
  have h2 := dup_filled lim f p Nat.two_pos (show 2 < 3 by decide)
  unfold attach numberAt
  rw [h]
  simp only [h0]
  by_cases hc0 : 0 < lim.cur
  · by_cases hc1 : 1 < lim.cur
    · by_cases hc2 : 2 < lim.cur
      · simp [hc0, hc1, hc2, h1, h2, Nat.succ_le_of_lt hc2]
      · have hc3 : ¬ 3 ≤ lim.cur := hc2
        simp [hc0, hc1, hc2, hc3, h1, h2]
    · have hc2 : ¬ 2 < lim.cur := by omega
      have hc3 : ¬ 3 ≤ lim.cur := hc2
      simp [hc0, hc1, hc2, hc3, h1]
  · have hc1 : ¬ 1 < lim.cur := by omega
    have hc2 : ¬ 2 < lim.cur := by omega
    have hc3 : ¬ 3 ≤ lim.cur := hc2
    have hfull : dup lim (closeLoop p.fds 0 lim.bound) 0 = (-1, closeLoop p.fds 0 lim.bound) :=
      allocate_full _ fun i hi => absurd (Nat.zero_lt_of_lt hi) hc0
    simp [hc0, hc1, hc2, hc3, hfull]

theorem attach_none (h : calls.devNull = none) :
    attach lim calls p = .descriptors (-1) (-1) (-1) := by
  have hdup : dup lim (closeLoop p.fds 0 lim.bound) 0 = (-1, closeLoop p.fds 0 lim.bound) := by
    rcases Nat.eq_zero_or_pos lim.cur with hc | hc
    · exact allocate_full _ fun i hi => by omega
    · have hclosed := lim.closed_of_lt hc (by decide)
      rw [dup, closeLoop_eq, if_pos (by omega)]
      rfl
  unfold attach
  rw [h]
  simp [allocate, hdup]

/-! ## The function -/

/-- The process that `daemonize` makes: the leader of a session of its own, without a
terminal. -/
def daemonOf (pid : ℕ) (fds : ℕ → Option F) : Process F where
  pid := pid
  group := pid
  session := pid
  terminal := none
  directory := "/"
  mask := 0
  sighup := .ignore
  fds := fds

/-- Its descriptors: three at `/dev/null`, and those that were not closed. -/
def daemonFds (lim : Limits) (fds : ℕ → Option F) (f : F) : ℕ → Option F :=
  fun i => if i < 3 then some f else if i < lim.bound then none else fds i

theorem filled_closed (lim : Limits) (fds : ℕ → Option F) (f : F) :
    filled f (closeLoop fds 0 lim.bound) 3 = daemonFds lim fds f := by
  funext i
  unfold filled daemonFds
  rw [closeLoop_eq]
  simp

theorem daemonize_fork {pid : ℕ} (hfork : calls.fork = some pid) (hpid : pid ≠ p.group) :
    (daemonize lim calls p).2 =
      some (if calls.chdir then attach lim calls (daemonOf pid p.fds) else .exit 1) := by
  have hgroup : ¬ p.group = pid := fun h => hpid h.symm
  simp [daemonize, hfork, child, setsid, hgroup, daemonOf]

theorem daemonize_no_fork (hfork : calls.fork = none) : (daemonize lim calls p).2 = none := by
  simp [daemonize, hfork]

/-- **Becoming a daemon.** Whatever the process has inherited: `daemonize` returns in the child
exactly where the calls succeed and the soft limit leaves room for three descriptors, and then
as the leader of a session without a terminal, with 0, 1 and 2 at `/dev/null` and nothing else
open below the hard limit; and it stops with its message exactly where `/dev/null` cannot be
opened or the room is missing. -/
theorem daemonize_returns (hpid : ∀ pid, calls.fork = some pid → pid ≠ p.group) :
    (∀ q, (daemonize lim calls p).2 = some (.returns q) ↔
      calls.chdir = true ∧ 3 ≤ lim.cur ∧ ∃ pid f, calls.fork = some pid ∧
        calls.devNull = some f ∧ q = daemonOf pid (daemonFds lim p.fds f)) ∧
    (∀ fd0 fd1 fd2, (daemonize lim calls p).2 = some (.descriptors fd0 fd1 fd2) ↔
      calls.chdir = true ∧ calls.fork ≠ none ∧
        (calls.devNull = none ∧ fd0 = -1 ∧ fd1 = -1 ∧ fd2 = -1 ∨
          calls.devNull ≠ none ∧ lim.cur < 3 ∧ fd0 = numberAt lim 0 ∧ fd1 = numberAt lim 1 ∧
            fd2 = -1)) := by
  cases hfork : calls.fork with
  | none =>
    rw [daemonize_no_fork hfork]
    simp
  | some pid =>
    rw [daemonize_fork hfork (hpid pid hfork)]
    cases hchdir : calls.chdir with
    | false => simp
    | true =>
      cases hnull : calls.devNull with
      | none =>
        rw [if_pos rfl, attach_none hnull]
        simp [eq_comm]
      | some f =>
        rw [if_pos rfl, attach_some hnull]
        by_cases hcur : 3 ≤ lim.cur
        · have hroom : ¬ lim.cur < 3 := Nat.not_lt.mpr hcur
          have hfds : filled f (closeLoop (daemonOf pid p.fds).fds 0 lim.bound) 3 =
              daemonFds lim p.fds f := filled_closed lim p.fds f
          rw [if_pos hcur, hfds]
          simp [hcur, hroom, eq_comm, daemonOf]
        · have hroom : lim.cur < 3 := Nat.lt_of_not_le hcur
          have hlast : numberAt lim 2 = -1 := if_neg (by omega)
          rw [if_neg hcur, hlast]
          simp [hcur, hroom, eq_comm]

/-- A shell with a log file open at 1500, and no hard limit. -/
def shell : Process ℕ where
  pid := 40
  group := 40
  session := 7
  terminal := some 1
  directory := "/home"
  mask := 18
  sighup := .default
  fds i := if i < 3 then some 1 else if i = 1500 then some 2 else none

def unlimited : Limits where
  cur := 4096
  max := none
  cur_le := nofun

/-- The log file stays open. -/
theorem daemonize_returns_shell : ∃ q : Process ℕ,
    (daemonize unlimited ⟨some 41, true, some 9⟩ shell).2 = some (.returns q) ∧
      q.fds 1500 = some 2 := by
  refine ⟨daemonOf 41 (daemonFds unlimited shell.fds 9), ?_, rfl⟩
  have hpid : ∀ pid, (⟨some 41, true, some 9⟩ : Calls ℕ).fork = some pid → pid ≠ shell.group := by
    intro pid hpid
    cases hpid
    decide
  exact ((daemonize_returns hpid).1 _).mpr ⟨rfl, by decide, 41, 9, rfl, rfl, rfl⟩

end OsLabs.Daemonize
