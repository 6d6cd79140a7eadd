import OsLabs.Daemon.Invariant

/-!
# The daemon: single instance

In `daemon.c` the lock of `LOCKFILE` lives as long as the process that took it, and the
name `LOCKFILE` is never removed. So every grant is timely, and the invariant holds in all
runs. A refused attempt makes all its calls before it could pass `lockfile`: it may have
created `LOCKFILE`, by the `open` that comes before the lock, but it writes nothing.
-/

namespace OsLabs.Daemon

open Concurrent Files FileSystem

variable {ι : Type} [DecidableEq ι] {c : Config ι (FileSystem Path ι) Process} {b : Build}
  {t : ι} {e : Event} {fs fs' : FileSystem Path ι} {x x' : Process}

theorem Inv.timely (hI : Inv .daemon c) (a : ι × Event) : Timely .daemon c a := by
  intro fd hfd
  obtain ⟨-, hpc, -⟩ := granted_eq_some.mp hfd
  have hstage := hI.stage a.1
  rw [hpc] at hstage
  refine ⟨hstage.2 rfl, ?_⟩
  intro hb
  cases hb

theorem inv_reach {fs : FileSystem Path ι} {who : ι → Identity}
    (h : (daemon ι).Reach (initial fs who) c) : Inv .daemon c := by
  refine Machine.ReachBy.interleave_invariant h (inv_initial fs who) ?_
  intro c t e fs' x' hI _ hs
  exact inv_step hI (hI.timely (t, e)) hs

/-! ## Refused attempts -/

/-- The start of the process failed, or is still before `lockfile`: `already_running` has
not got the lock. -/
def PC.noLock : PC → Bool
  | .start | .lockfile _ | .refused _ | .returnedOne | .exited .failure => true
  | _ => false

/-- `already_running` has returned 1 in the process. -/
def PC.returned1 : PC → Bool
  | .returnedOne | .exited .failure => true
  | _ => false

/-- The process never had the lock, if it has not got it now and was not terminated. -/
theorem step_noLock (hs : processStep b t e fs x = some (fs', x')) (hx : x'.pc.noLock = true) :
    x.pc.noLock = true ∧ x.pc.pastLock = false := by
  obtain ⟨-, ⟨-, hpc⟩ | ⟨hterm, -, hpc⟩ | ⟨-, hterm, -, hpc⟩⟩ := step_cases hs
  · rw [hpc] at hx
    generalize x.pc = pc at hx
    cases pc with
    | running => cases b <;> cases hx
    | _ => cases hx
  · rw [hpc] at hx
    generalize x.pc = pc at hterm hx
    cases pc with
    | removeLock | removeConf | quit => cases hx
    | _ => cases hterm
  · rw [hpc] at hx
    generalize x.pc = pc at hterm hx
    cases pc with
    | start | lockfile | refused | returnedOne => exact ⟨rfl, rfl⟩
    | exited how => exact ⟨hx, rfl⟩
    | writePid fd => cases b <;> cases hx
    | removeLock | removeConf | quit => cases hterm
    | _ => cases hx

theorem noLock_of_returned1 {pc : PC} (h : pc.returned1 = true) : pc.noLock = true := by
  cases pc with
  | returnedOne => rfl
  | exited how =>
    cases how with
    | failure => rfl
    | _ => cases h
  | _ => cases h

/-- The action has left `LOCKFILE` and `CONFFILE` as they were, but for an empty `LOCKFILE`
where there was none. -/
def LeavesFiles (c : Config ι (FileSystem Path ι) Process) (a : ι × Event) : Prop :=
  ∀ c', (daemon ι).next c a = some c' →
    c'.shared.content .confFile = c.shared.content .confFile ∧
      (c'.shared.content .lockFile = c.shared.content .lockFile ∨
        c.shared.content .lockFile = none ∧ c'.shared.content .lockFile = some [])

theorem leavesFiles_of_outside {a : ι × Event} (h : (c.loc a.1).pc.pastLock = false) :
    LeavesFiles c a := by
  intro c' hn
  obtain ⟨fs', x', hs, rfl⟩ := interleave_next.mp hn
  exact outside_content h hs

/-! ## Single instance -/

/-- **Single instance.** In every state of every run of any number of start attempts and
instances that get SIGTERM: one process at most has passed `lockfile` without having
exited; while `already_running` has returned 0 in a process that has not got SIGTERM,
`LOCKFILE` holds its pid and `CONFFILE` its uid and login; and where it has returned 1,
none of the calls of that process has changed one of the two files, but for the `open` that
creates an empty `LOCKFILE` where there is none. -/
theorem single_instance {fs : FileSystem Path ι} {who : ι → Identity}
    {tr : List (Config ι (FileSystem Path ι) Process × (ι × Event))}
    (h : (daemon ι).Trace (initial fs who) tr c) :
    (∀ t u, (c.loc t).pc.pastLock = true → (c.loc u).pc.pastLock = true → t = u) ∧
    (∀ t, (c.loc t).pc.up = true →
      c.shared.content .lockFile = some (c.loc t).lockText ∧
        c.shared.content .confFile = some (c.loc t).confText) ∧
    (∀ t, (c.loc t).pc.returned1 = true → ∀ p ∈ tr, p.2.1 = t → LeavesFiles p.1 p.2) := by
  have hI := inv_reach h.reach
  refine ⟨hI.unique, fun t hup => hI.files hup, ?_⟩
  intro t ht p hp hpt
  have hpast := h.history (fun _ _ _ _ _ _ hs hx => step_noLock hs hx)
    (noLock_of_returned1 ht) p hp hpt
  refine leavesFiles_of_outside ?_
  rw [hpt]
  exact hpast

/-- `t` opens `LOCKFILE`, `u` opens and locks it, and `t` is refused. -/
def createdRun {ι : Type} (t u : ι) : List (ι × Event) :=
  [(t, .run), (u, .run), (u, .run), (t, .run), (t, .run)]

theorem single_instance_refused : ∃ c : Config (Fin 2) (FileSystem Path (Fin 2)) Process,
    (c.loc 1).pc.pastLock = true ∧ (c.loc 0).pc.returned1 = true ∧
      (∀ t, (c.loc t).pc.pastLock = true → t = 1) ∧
      LeavesFiles (initial noFiles twoProcesses) (0, .run) := by
  have hrun : ((daemon (Fin 2)).run (initial noFiles twoProcesses) (createdRun 0 1)).any
      (fun c => (c.loc 1).pc.pastLock && (c.loc 0).pc.returned1) = true := by decide
  obtain ⟨c, hc, hp⟩ := (Option.any_eq_true _ _).mp hrun
  rw [Bool.and_eq_true] at hp
  obtain ⟨c₁, tr, -, htr⟩ := Machine.exists_trace_of_run_cons hc
  obtain ⟨hunique, -, hrefused⟩ := single_instance htr
  exact ⟨c, hp.1, hp.2, fun t ht => hunique t 1 ht hp.1,
    hrefused 0 hp.2 (initial noFiles twoProcesses, (0, .run)) (List.mem_cons_self ..) rfl⟩

/-- An attempt that is refused may have created `LOCKFILE`. -/
theorem refused_creates : ∃ (tr : List (Config (Fin 2) (FileSystem Path (Fin 2)) Process × _))
    (c : Config (Fin 2) (FileSystem Path (Fin 2)) Process),
    (daemon (Fin 2)).Trace (initial noFiles twoProcesses) tr c ∧
      (c.loc 0).pc.returned1 = true ∧
      ∃ p ∈ tr, p.2.1 = 0 ∧ ∃ c', (daemon (Fin 2)).next p.1 p.2 = some c' ∧
        p.1.shared.content .lockFile = none ∧ c'.shared.content .lockFile = some [] := by
  have hrun : ((daemon (Fin 2)).run (initial noFiles twoProcesses) (createdRun 0 1)).any
      (fun c => (c.loc 0).pc.returned1) = true := by decide
  have hfirst : ((daemon (Fin 2)).next (initial noFiles twoProcesses) (0, .run)).all
      (fun c => c.shared.content .lockFile == some []) = true := by decide
  obtain ⟨c, hc, hp⟩ := (Option.any_eq_true _ _).mp hrun
  obtain ⟨c₁, tr, hnext, htr⟩ := Machine.exists_trace_of_run_cons hc
  refine ⟨_, c, htr, hp, _, List.mem_cons_self .., rfl, c₁, hnext, rfl, ?_⟩
  rw [hnext] at hfirst
  simpa using hfirst

end OsLabs.Daemon
