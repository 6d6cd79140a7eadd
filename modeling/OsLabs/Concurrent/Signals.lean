import Mathlib.Logic.Function.Basic
import Mathlib.Tactic.Common

/-!
# Signals of a process with threads

`Signals σ` is what the kernel keeps about the signals `σ` of one process: the
dispositions, which all threads share, a mask of blocked signals for each thread in the
order in which the threads were created, and the signals that are pending for the process.

A signal that arrives is discarded where it is ignored, kept pending where every thread
blocks it, and terminates the process otherwise (`send`, where `none` is the termination).
A signal that is ignored or blocked by every thread is `Held`: its arrival does no harm
(`send_eq_none`). A new thread blocks what its creator blocks.
-/

namespace OsLabs.Concurrent

/-- What the process has chosen for a signal; the default is termination. -/
inductive Disposition
  | ignore
  | default
deriving DecidableEq, Repr

structure Signals (σ : Type*) where
  disposition : σ → Disposition
  masks : List (σ → Bool)
  pending : σ → Bool

namespace Signals

variable {σ : Type*} {k k' : Signals σ} {s s' : σ} {set : σ → Bool} {t : ℕ}

/-- Every thread blocks the signal. -/
def blocked (k : Signals σ) (s : σ) : Bool := k.masks.all fun mask => mask s

/-- The arrival of the signal does not terminate the process. -/
def Held (k : Signals σ) (s : σ) : Prop := k.disposition s = .ignore ∨ k.blocked s = true

/-- `pthread_sigmask(SIG_BLOCK, &set, NULL)` in thread `t`. -/
def block (k : Signals σ) (t : ℕ) (set : σ → Bool) : Signals σ :=
  { k with masks := k.masks.modify t fun mask s => mask s || set s }

/-- `pthread_create` in thread `t`: the new thread begins with the mask of its creator. -/
def spawn (k : Signals σ) (t : ℕ) : Signals σ :=
  { k with masks := k.masks ++ k.masks[t]?.toList }

section Calls

variable [DecidableEq σ]

/-- The signal arrives. -/
def send (k : Signals σ) (s : σ) : Option (Signals σ) :=
  match k.disposition s with
  | .ignore => some k
  | .default =>
      if k.blocked s then some { k with pending := Function.update k.pending s true } else none

/-- `sigaction` to the default action. -/
def setDefault (k : Signals σ) (s : σ) : Signals σ :=
  { k with disposition := Function.update k.disposition s .default }

/-- `sigwait(&set, &signo)` returns `s`, which is pending. -/
def sigwait (k : Signals σ) (set : σ → Bool) (s : σ) : Option (Signals σ) :=
  if set s && k.pending s then some { k with pending := Function.update k.pending s false }
  else none

/-! ## What an arrival and a wait change -/

theorem send_eq_none : k.send s = none ↔ ¬ k.Held s := by
  unfold send Held
  cases k.disposition s with
  | ignore => simp
  | default => simp

theorem send_spec (h : k.send s = some k') :
    k'.disposition = k.disposition ∧ k'.masks = k.masks := by
  unfold send at h
  cases hd : k.disposition s with
  | ignore =>
    rw [hd] at h
    cases h
    exact ⟨rfl, rfl⟩
  | default =>
    rw [hd] at h
    obtain ⟨-, hk⟩ := Option.ite_none_right_eq_some.mp h
    cases hk
    exact ⟨rfl, rfl⟩

theorem sigwait_spec (h : k.sigwait set s = some k') :
    k'.disposition = k.disposition ∧ k'.masks = k.masks := by
  obtain ⟨-, hk⟩ := Option.ite_none_right_eq_some.mp h
  cases hk
  exact ⟨rfl, rfl⟩

/-- An arrival takes nothing off the pending signals. -/
theorem pending_of_send (h : k.send s = some k') (hs : k.pending s' = true) :
    k'.pending s' = true := by
  unfold send at h
  cases hd : k.disposition s with
  | ignore =>
    rw [hd] at h
    cases h
    exact hs
  | default =>
    rw [hd] at h
    obtain ⟨-, hk⟩ := Option.ite_none_right_eq_some.mp h
    cases hk
    by_cases hne : s' = s
    · rw [hne]
      exact Function.update_self ..
    · exact (Function.update_of_ne hne ..).trans hs

/-- A signal that is not ignored is pending once it has come. -/
theorem pending_send (h : k.send s = some k') (hd : k.disposition s = .default) :
    k'.pending s = true := by
  unfold send at h
  rw [hd] at h
  obtain ⟨-, hk⟩ := Option.ite_none_right_eq_some.mp h
  cases hk
  exact Function.update_self ..

theorem pending_sigwait (h : k.sigwait set s = some k') (hne : s' ≠ s) :
    k'.pending s' = k.pending s' := by
  obtain ⟨-, hk⟩ := Option.ite_none_right_eq_some.mp h
  cases hk
  exact Function.update_of_ne hne ..

theorem exists_sigwait (hset : set s = true) (hs : k.pending s = true) :
    ∃ k', k.sigwait set s = some k' := by
  refine ⟨_, if_pos ?_⟩
  rw [hset, hs]
  rfl

@[simp] theorem disposition_setDefault : (k.setDefault s).disposition s = .default := by
  simp [setDefault]

end Calls

/-! ## What is blocked -/

theorem blocked_congr (h : k'.masks = k.masks) : k'.blocked s = k.blocked s := by
  rw [blocked, h, blocked]

/-- A new thread blocks what its creator blocks. -/
theorem blocked_spawn (k : Signals σ) (t : ℕ) (s : σ) : (k.spawn t).blocked s = k.blocked s := by
  have hnew : k.blocked s = true → k.masks[t]?.toList.all (fun mask => mask s) = true := by
    intro hall
    rw [List.all_eq_true]
    intro mask hmask
    exact List.all_eq_true.mp hall mask (List.mem_of_getElem? (by simpa using hmask))
  rw [blocked, spawn, List.all_append]
  cases hb : k.blocked s with
  | false =>
    have hall : k.masks.all (fun mask => mask s) = false := hb
    rw [hall, Bool.false_and]
  | true =>
    have hall : k.masks.all (fun mask => mask s) = true := hb
    rw [hall, hnew hb, Bool.true_and]

/-- A process of one thread blocks what its thread blocks. -/
theorem blocked_block {mask : σ → Bool} (h : k.masks = [mask]) (s : σ) :
    (k.block 0 set).blocked s = (mask s || set s) := by
  simp [blocked, block, h]

end Signals

end OsLabs.Concurrent
