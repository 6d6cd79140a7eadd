import Mathlib.Algebra.BigOperators.Fin
import Mathlib.Algebra.Order.BigOperators.Group.Finset

/-!
# Counting threads at given points

`count p loc` is the number of threads whose local state satisfies `p`. When one thread
moves, the count changes by what the old and the new state of that thread contribute
(`count_update`); this is how a counter of the program is tied to the program points of
an unbounded number of threads.
-/

namespace OsLabs.Concurrent

open Finset

variable {ι l : Type*} [Fintype ι] {p : l → Bool} {loc : ι → l}

/-- The number of threads whose local state satisfies `p`. -/
def count (p : l → Bool) (loc : ι → l) : ℕ := ∑ t, (p (loc t)).toNat

/-- The sum over all threads when one of them moves. -/
theorem sum_update {G : Type*} [AddCommMonoid G] [DecidableEq ι] (g : l → G) (loc : ι → l)
    (t : ι) (x : l) :
    ∑ u, g (Function.update loc t x u) + g (loc t) = ∑ u, g (loc u) + g x := by
  have hrest : ∑ u ∈ univ.erase t, g (Function.update loc t x u) =
      ∑ u ∈ univ.erase t, g (loc u) := by
    apply sum_congr rfl
    intro u hu
    rw [Function.update_of_ne (ne_of_mem_erase hu)]
  rw [← add_sum_erase _ _ (mem_univ t), ← add_sum_erase univ (fun u => g (loc u)) (mem_univ t),
    hrest, Function.update_self, add_right_comm, add_comm (g x), add_right_comm _ _ (g x)]

theorem count_update [DecidableEq ι] (p : l → Bool) (loc : ι → l) (t : ι) (x : l) :
    count p (Function.update loc t x) + (p (loc t)).toNat = count p loc + (p x).toNat :=
  sum_update (fun y => (p y).toNat) loc t x

theorem count_eq_zero_iff : count p loc = 0 ↔ ∀ t, p (loc t) = false := by
  simp [count, Finset.sum_eq_zero_iff]

theorem count_pos_iff : 0 < count p loc ↔ ∃ t, p (loc t) = true := by
  rw [Nat.pos_iff_ne_zero, ne_eq, count_eq_zero_iff]
  simp

theorem count_pos {t : ι} (h : p (loc t) = true) : 0 < count p loc :=
  count_pos_iff.mpr ⟨t, h⟩

/-- Where each thread counts in `r` what it counts in `p` and in `q` together, so do all. -/
theorem count_add {q r : l → Bool} (h : ∀ x, (p x).toNat + (q x).toNat = (r x).toNat)
    (loc : ι → l) : count p loc + count q loc = count r loc := by
  unfold count
  rw [← sum_add_distrib]
  exact sum_congr rfl fun t _ => h (loc t)

theorem count_eq_card_iff : count p loc = Fintype.card ι ↔ ∀ t, p (loc t) = true := by
  have hadd : count p loc + count (fun x => !p x) loc = count (fun _ => true) loc :=
    count_add (fun x => by cases p x <;> rfl) loc
  have hcard : count (fun _ => true) loc = Fintype.card ι := by simp [count]
  rw [hcard] at hadd
  have hzero : count (fun x => !p x) loc = 0 ↔ ∀ t, p (loc t) = true := by
    rw [count_eq_zero_iff]
    simp
  rw [← hzero]
  omega

end OsLabs.Concurrent
