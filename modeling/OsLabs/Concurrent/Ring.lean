import Mathlib.Data.Nat.ModEq
import Mathlib.Logic.Function.Basic
import Mathlib.Tactic.Common

/-!
# Ring buffers as windows on a sequence

A ring of `n` cells is read as a window on an infinite sequence `f`: position `k` of the
sequence lives in cell `k % n`, and `Window n buf f lo hi` says that the cells hold the
positions from `lo` up to `hi` (excluded). A producer extends the window at `hi`, a
consumer shrinks it at `lo`; the window never grows beyond `n` positions.
-/

namespace OsLabs.Concurrent.Ring

variable {α : Type*} {n lo hi k : ℕ} {buf : ℕ → α} {f : ℕ → α}

/-- The cells of the ring hold the positions `lo, …, hi - 1` of `f`. -/
def Window (n : ℕ) (buf : ℕ → α) (f : ℕ → α) (lo hi : ℕ) : Prop :=
  ∀ k, lo ≤ k → k < hi → buf (k % n) = f k

theorem window_empty (n : ℕ) (buf f : ℕ → α) (lo : ℕ) : Window n buf f lo lo := by
  intro k h1 h2
  omega

/-- Two positions less than one turn apart do not share a cell. -/
theorem mod_ne_of_lt {j : ℕ} (hjk : j < k) (hkj : k < j + n) : j % n ≠ k % n := by
  intro h
  have hdvd : n ∣ k - j := (Nat.modEq_iff_dvd' hjk.le).mp h
  have := Nat.le_of_dvd (by omega) hdvd
  omega

/-- Storing position `hi` extends a window that is not full. -/
theorem Window.push (h : Window n buf f lo hi) (hroom : hi < lo + n) :
    Window n (Function.update buf (hi % n) (f hi)) f lo (hi + 1) := by
  intro k h1 h2
  by_cases hk : k = hi
  · subst hk
    exact Function.update_self ..
  · have hne : k % n ≠ hi % n := mod_ne_of_lt (by omega) (by omega)
    rw [Function.update_of_ne hne]
    exact h k h1 (by omega)

/-- Dropping position `lo` leaves a window. -/
theorem Window.pop (h : Window n buf f lo hi) : Window n buf f (lo + 1) hi := by
  intro k h1 h2
  exact h k (by omega) h2

/-- The cell of a dropped position may be overwritten. -/
theorem Window.clear (h : Window n buf f (lo + 1) hi) (hroom : hi ≤ lo + n) (x : α) :
    Window n (Function.update buf (lo % n) x) f (lo + 1) hi := by
  intro k h1 h2
  have hne : k % n ≠ lo % n := (mod_ne_of_lt (by omega) (by omega)).symm
  rw [Function.update_of_ne hne]
  exact h k h1 h2

/-- Advancing a cell pointer: one step on, or back to the first cell from the last. -/
theorem succ_mod (hn : 0 < n) (k : ℕ) :
    (k + 1) % n = if k % n + 1 = n then 0 else k % n + 1 := by
  have hlt := Nat.mod_lt k hn
  have hdiv := Nat.div_add_mod k n
  split_ifs with h
  · have hk : k + 1 = n * (k / n + 1) := by rw [Nat.mul_add]; omega
    rw [hk, Nat.mul_mod_right]
  · have hk : k + 1 = k % n + 1 + n * (k / n) := by omega
    rw [hk, Nat.add_mul_mod_self_left, Nat.mod_eq_of_lt (by omega)]

end OsLabs.Concurrent.Ring
