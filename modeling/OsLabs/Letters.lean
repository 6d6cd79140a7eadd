import Mathlib.Tactic.Common
import Mathlib.Tactic.IntervalCases

/-!
# The cycle of letters

The producers and the writers of these programs step a `char` through the alphabet:
after `'z'` comes `'a'`, after any other letter the next code. `letter k` is the letter
after `k` such steps from `'a'`.
-/

namespace OsLabs

/-- `c + 1` on a character code. -/
def incr (c : Char) : Char := Char.ofNat (c.toNat + 1)

/-- The `k`-th letter of the cycle, counted from `0`. -/
def letter (k : ℕ) : Char := Char.ofNat ('a'.toNat + k % 26)

theorem letter_cases (P : ℕ → Prop) (k : ℕ) (h : ∀ r < 26, P r) : P (k % 26) :=
  h _ (Nat.mod_lt _ (by omega))

theorem letter_eq_z_iff (k : ℕ) : letter k = 'z' ↔ k % 26 = 25 := by
  unfold letter
  refine letter_cases (fun r => Char.ofNat ('a'.toNat + r) = 'z' ↔ r = 25) k ?_
  decide

/-- After `'z'` the cycle starts again. -/
theorem letter_succ_of_z {k : ℕ} (h : letter k = 'z') : letter (k + 1) = 'a' := by
  have hk := (letter_eq_z_iff k).mp h
  have hs : (k + 1) % 26 = 0 := by omega
  rw [letter, hs]
  rfl

/-- After any other letter comes the next code. -/
theorem letter_succ_of_ne_z {k : ℕ} (h : letter k ≠ 'z') : letter (k + 1) = incr (letter k) := by
  have hk : k % 26 ≠ 25 := fun he => h ((letter_eq_z_iff k).mpr he)
  have hs : (k + 1) % 26 = k % 26 + 1 := by omega
  rw [letter, letter, hs]
  revert hk
  refine letter_cases
    (fun r => r ≠ 25 → Char.ofNat ('a'.toNat + (r + 1)) = incr (Char.ofNat ('a'.toNat + r))) k ?_
  decide

theorem letter_ne_filler (k : ℕ) : letter k ≠ '-' := by
  unfold letter
  refine letter_cases (fun r => Char.ofNat ('a'.toNat + r) ≠ '-') k ?_
  decide

theorem letter_mem_range (k : ℕ) : 'a' ≤ letter k ∧ letter k ≤ 'z' := by
  unfold letter
  refine letter_cases
    (fun r => 'a' ≤ Char.ofNat ('a'.toNat + r) ∧ Char.ofNat ('a'.toNat + r) ≤ 'z') k ?_
  decide

theorem letter_eq_iff (j k : ℕ) : letter j = letter k ↔ j % 26 = k % 26 := by
  unfold letter
  refine letter_cases
    (fun r => Char.ofNat ('a'.toNat + r) = Char.ofNat ('a'.toNat + k % 26) ↔ r = k % 26) j ?_
  exact letter_cases (fun q => ∀ r < 26,
    (Char.ofNat ('a'.toNat + r) = Char.ofNat ('a'.toNat + q) ↔ r = q)) k (by decide)

/-- A letter follows `letter k` in the cycle only if it is reached from that letter. -/
theorem letter_succ_eq_iff (j k : ℕ) : letter (j + 1) = letter (k + 1) ↔ letter j = letter k := by
  rw [letter_eq_iff, letter_eq_iff]
  omega

theorem incr_z_ne_letter (k : ℕ) : incr 'z' ≠ letter k := by
  unfold letter
  refine letter_cases (fun r => incr 'z' ≠ Char.ofNat ('a'.toNat + r)) k ?_
  decide

/-- The first `n` letters of the cycle. -/
def letters (n : ℕ) : List Char := (List.range n).map letter

@[simp] theorem letters_zero : letters 0 = [] := rfl

@[simp] theorem letters_succ (n : ℕ) : letters (n + 1) = letters n ++ [letter n] := by
  simp [letters, List.range_succ]

@[simp] theorem length_letters (n : ℕ) : (letters n).length = n := by
  simp [letters]

theorem letters_prefix {m n : ℕ} (h : m ≤ n) : letters m <+: letters n := by
  induction n with
  | zero =>
    obtain rfl : m = 0 := by omega
    exact List.prefix_refl _
  | succ n ih =>
    by_cases hm : m = n + 1
    · subst hm
      exact List.prefix_refl _
    · rw [letters_succ]
      exact (ih (by omega)).trans (List.prefix_append ..)

theorem getElem_letters {n k : ℕ} (h : k < (letters n).length) : (letters n)[k] = letter k := by
  simp [letters]

end OsLabs
