import Mathlib.Data.Fintype.Basic
import OsLabs.Daemon.Invariant

/-!
# The test build of the daemon: single instance

In `daemon_test.c` the function `already_running` closes `LOCKFILE` when it has written the
pid, and with that gives up the lock that `daemon.c` keeps until it exits. So a second copy
gets the lock while the first one runs. The SIGTERM branch also removes `LOCKFILE`, so an
attempt that had opened the file before can lock one that has no name any more. In the runs
where neither happens the guarantee holds.
-/

namespace OsLabs.Daemon

open Concurrent Files FileSystem

variable {ι : Type} [DecidableEq ι] {c : Config ι (FileSystem Path ι) Process}

/-- `already_running` has returned 0 in the process, and it has not exited. -/
def PC.returned0 : PC → Bool
  | .setup | .running | .removeLock | .removeConf | .quit => true
  | _ => false

theorem pastLock_of_returned0 {pc : PC} (h : pc.returned0 = true) : pc.pastLock = true := by
  cases pc with
  | setup | running | removeLock | removeConf | quit => rfl
  | _ => cases h

theorem inv_reachBy {fs : FileSystem Path ι} {who : ι → Identity}
    (h : (daemonTest ι).ReachBy (Timely .daemonTest) (initial fs who) c) :
    Inv .daemonTest c := by
  refine h.interleave_invariant (inv_initial fs who) ?_
  intro c t e fs' x' hI hc hs
  exact inv_step hI hc hs

/-- **Single instance under timely grants.** In every run of any number of start attempts
and instances that get SIGTERM, in which a lock is granted only for the file that
`LOCKFILE` names then, and only when nobody is between its `close` of `LOCKFILE` and its
exit: at most one process has returned 0 from `already_running` without having exited,
and until it gets SIGTERM `LOCKFILE` holds its pid and `CONFFILE` its uid and login. -/
theorem timely_single_instance {fs : FileSystem Path ι} {who : ι → Identity}
    (h : (daemonTest ι).ReachBy (Timely .daemonTest) (initial fs who) c) :
    (∀ t u, (c.loc t).pc.returned0 = true → (c.loc u).pc.returned0 = true → t = u) ∧
    (∀ t, (c.loc t).pc.up = true →
      c.shared.content .lockFile = some (c.loc t).lockText ∧
        c.shared.content .confFile = some (c.loc t).confText) := by
  have hI := inv_reachBy h
  refine ⟨?_, fun t hup => hI.files hup⟩
  intro t u ht hu
  exact hI.unique t u (pastLock_of_returned0 ht) (pastLock_of_returned0 hu)

/-- `t` starts, with nobody in its way. -/
def startRun {ι : Type} (t : ι) : List (ι × Event) := List.replicate 10 (t, .run)

/-- `t` gets SIGTERM and exits. -/
def stopRun {ι : Type} (t : ι) : List (ι × Event) := (t, .sigterm) :: List.replicate 3 (t, .run)

theorem timely_single_instance_restart : ∃ c : Config (Fin 2) (FileSystem Path (Fin 2)) Process,
    (c.loc 1).pc = .running ∧ c.shared.content .lockFile = some (c.loc 1).lockText := by
  have hrun : ((daemonTest (Fin 2)).exec (Timely .daemonTest) (initial noFiles twoProcesses)
      (startRun 0 ++ stopRun 0 ++ startRun 1)).any
      (fun c => (c.loc 1).pc == .running) = true := by decide
  obtain ⟨c, hc, hp⟩ := Machine.exists_reachBy_of_exec _ _ hrun
  have hpc : (c.loc 1).pc = .running := by simpa using hp
  exact ⟨c, hpc, ((timely_single_instance hc).2 1 (by rw [hpc]; rfl)).1⟩

/-- A second copy starts while the first one runs. -/
theorem second_copy : ∃ c : Config (Fin 2) (FileSystem Path (Fin 2)) Process,
    (daemonTest (Fin 2)).Reach (initial noFiles twoProcesses) c ∧
      (c.loc 0).pc = .running ∧ (c.loc 1).pc = .running := by
  have hrun : ((daemonTest (Fin 2)).run (initial noFiles twoProcesses)
      (startRun 0 ++ startRun 1)).any
      (fun c => (c.loc 0).pc == .running && (c.loc 1).pc == .running) = true := by decide
  obtain ⟨c, hc, hp⟩ := Machine.exists_reach_of_run _ _ hrun
  rw [Bool.and_eq_true] at hp
  exact ⟨c, hc, by simpa using hp.1, by simpa using hp.2⟩

end OsLabs.Daemon
