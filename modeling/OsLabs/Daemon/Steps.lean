import OsLabs.Daemon.Model

/-!
# The daemon and its test build: steps outside the lock

A process that has not passed `lockfile` opens, tries to lock, closes and exits. So it
leaves to the others the names, the contents and the locks they rely on (`outside_calm`),
and of the two files it changes at most that a missing `LOCKFILE` is there and empty
(`outside_content`).
-/

namespace OsLabs.Daemon

open Concurrent Files FileSystem

variable {ι : Type} [DecidableEq ι] {b : Build} {t u : ι} {e : Event}
  {fs fs' : FileSystem Path ι} {x x' : Process}

/-- What a step is: SIGTERM, a call of the SIGTERM branch, or a call of the start. -/
theorem step_cases (h : processStep b t e fs x = some (fs', x')) :
    (x'.lockText = x.lockText ∧ x'.confText = x.confText) ∧
      ((fs' = (sigterm b t fs x.pc).1 ∧ x'.pc = (sigterm b t fs x.pc).2) ∨
        (x.pc.terminating = true ∧ fs' = (thrFn t fs x.pc).1 ∧ x'.pc = (thrFn t fs x.pc).2) ∨
        (e = .run ∧ x.pc.terminating = false ∧ fs' = (alreadyRunning b t fs x x.pc).1 ∧
          x'.pc = (alreadyRunning b t fs x x.pc).2)) := by
  unfold processStep at h
  split at h
  · cases h
  · cases h
    exact ⟨⟨rfl, rfl⟩, Or.inl ⟨rfl, rfl⟩⟩
  · split_ifs at h with hterm
    · cases h
      exact ⟨⟨rfl, rfl⟩, Or.inr (Or.inl ⟨hterm, rfl, rfl⟩)⟩
    · cases h
      exact ⟨⟨rfl, rfl⟩, Or.inr (Or.inr ⟨rfl, by simpa using hterm, rfl, rfl⟩)⟩

/-- The calls of a process that has not passed `lockfile`. -/
theorem outside_cases (hout : x.pc.pastLock = false)
    (h : processStep b t e fs x = some (fs', x')) :
    fs' = (fs.openCreate .lockFile).1 ∨ fs' = fs ∨ (∃ i, fs.setLock t i = some fs') ∨
      ∃ sel, fs' = fs.release t sel := by
  obtain ⟨-, ⟨hfs, -⟩ | ⟨hterm, -⟩ | ⟨-, -, hfs, -⟩⟩ := step_cases h
  · -- the default action
    right; right; right
    generalize x.pc = pc at hout hfs
    cases pc with
    | start | lockfile | refused | returnedOne | exited => exact ⟨_, hfs⟩
    | _ => cases hout
  · generalize x.pc = pc at hout hterm
    cases pc with
    | start | lockfile | refused | returnedOne | exited => cases hterm
    | _ => cases hout
  · generalize x.pc = pc at hout hfs
    cases pc with
    | start => exact Or.inl hfs
    | lockfile fd =>
      right
      simp only [alreadyRunning] at hfs
      cases hlock : fs.setLock t fd.inode with
      | none =>
        rw [hlock] at hfs
        exact Or.inl hfs
      | some fs₁ =>
        rw [hlock] at hfs
        exact Or.inr (Or.inl ⟨_, hlock.trans (congrArg some hfs.symm)⟩)
    | refused | returnedOne => exact Or.inr (Or.inr (Or.inr ⟨_, hfs⟩))
    | exited => exact Or.inr (Or.inl hfs)
    | _ => cases hout

theorem outside_calm (hout : x.pc.pastLock = false)
    (h : processStep b t e fs x = some (fs', x')) : Calm t fs fs' := by
  rcases outside_cases hout h with rfl | rfl | ⟨i, hlock⟩ | ⟨sel, rfl⟩
  · exact openCreate_calm t
  · exact Calm.refl t fs'
  · exact setLock_calm hlock
  · exact release_calm t sel

theorem outside_content (hout : x.pc.pastLock = false)
    (h : processStep b t e fs x = some (fs', x')) :
    fs'.content .confFile = fs.content .confFile ∧
      (fs'.content .lockFile = fs.content .lockFile ∨
        fs.content .lockFile = none ∧ fs'.content .lockFile = some []) := by
  rcases outside_cases hout h with rfl | rfl | ⟨i, hlock⟩ | ⟨sel, rfl⟩
  · rcases openCreate_content fs .lockFile .confFile with hc | ⟨hc, -⟩
    · rcases openCreate_content fs .lockFile .lockFile with hl | ⟨-, hl⟩
      · exact ⟨hc, Or.inl hl⟩
      · exact ⟨hc, Or.inr hl⟩
    · cases hc
  · exact ⟨rfl, Or.inl rfl⟩
  · obtain ⟨-, rfl⟩ := setLock_eq_some.mp hlock
    exact ⟨rfl, Or.inl rfl⟩
  · exact ⟨rfl, Or.inl rfl⟩

end OsLabs.Daemon
