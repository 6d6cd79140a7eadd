import Mathlib.Algebra.Group.Nat.Defs
import Mathlib.Data.Nat.Basic
import Mathlib.Logic.Function.Basic
import Mathlib.Tactic.Common

/-!
# Words in memory

The memory is a function from addresses to bytes. A word of `k` bytes stands at an address
with its least significant byte first. `loadWord_storeWord` reads back a word that was
stored, and `storeWord_outside` and `loadWord_congr` say what the rest of the memory has to
do with it.
-/

namespace OsLabs.Bytes

variable {m m' : ℕ → UInt8} {a i k : ℕ}

/-- The number in the `k` bytes from `a` on. -/
def loadWord (m : ℕ → UInt8) (a : ℕ) : ℕ → ℕ
  | 0 => 0
  | k + 1 => (m a).toNat + 256 * loadWord m (a + 1) k

/-- The memory with `w` in the `k` bytes from `a` on. -/
def storeWord (m : ℕ → UInt8) (a w : ℕ) : ℕ → ℕ → UInt8
  | 0 => m
  | k + 1 => Function.update (storeWord m (a + 1) (w / 256) k) a (UInt8.ofNat w)

/-- A word depends on its own bytes only. -/
theorem loadWord_congr (h : ∀ i, a ≤ i → i < a + k → m' i = m i) :
    loadWord m' a k = loadWord m a k := by
  induction k generalizing a with
  | zero => rfl
  | succ k ih =>
    rw [loadWord, loadWord, h a (le_refl _) (by omega)]
    rw [ih fun i hi hlt => h i (by omega) (by omega)]

/-- The bytes outside a word that is stored stay as they are. -/
theorem storeWord_outside (w : ℕ) (h : i < a ∨ a + k ≤ i) : storeWord m a w k i = m i := by
  induction k generalizing a w with
  | zero => rfl
  | succ k ih =>
    rw [storeWord, Function.update_of_ne (by omega)]
    exact ih _ (by omega)

theorem loadWord_storeWord (m : ℕ → UInt8) (a w k : ℕ) :
    loadWord (storeWord m a w k) a k = w % 256 ^ k := by
  induction k generalizing a w with
  | zero => simp [loadWord, Nat.mod_one]
  | succ k ih =>
    have hrest : loadWord (storeWord m a w (k + 1)) (a + 1) k = w / 256 % 256 ^ k := by
      rw [← ih (a + 1) (w / 256)]
      apply loadWord_congr
      intro i hi _
      exact Function.update_of_ne (by omega) ..
    have hfirst : (storeWord m a w (k + 1) a).toNat = w % 256 := by
      rw [storeWord, Function.update_self]
      simp
    rw [loadWord, hfirst, hrest, Nat.pow_succ', Nat.mod_mul]

/-- Another word that is stored does not change a word it does not overlap. -/
theorem loadWord_storeWord_of_disjoint {b w : ℕ} {j : ℕ} (h : a + k ≤ b ∨ b + j ≤ a) :
    loadWord (storeWord m b w j) a k = loadWord m a k := by
  apply loadWord_congr
  intro i hi hlt
  exact storeWord_outside w (by omega)

/-- A byte that is stored does not change a word it does not belong to. -/
theorem loadWord_update {c : UInt8} (h : i < a ∨ a + k ≤ i) :
    loadWord (Function.update m i c) a k = loadWord m a k := by
  apply loadWord_congr
  intro j hj hlt
  exact Function.update_of_ne (by omega) ..

end OsLabs.Bytes
