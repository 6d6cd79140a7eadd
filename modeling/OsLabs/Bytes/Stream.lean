import Mathlib.Algebra.BigOperators.Group.List.Basic
import Mathlib.Algebra.Ring.Nat

/-!
# Reading a stream in pieces

`cut ns w` are the pieces that reads of at most `n` elements each, for the `n` in `ns`, take
from `w`: a read takes what is there up to its count, and nothing behind the end.
-/

namespace OsLabs.Bytes

variable {α : Type*}

def cut : List ℕ → List α → List (List α)
  | [], _ => []
  | n :: ns, w => w.take n :: cut ns (w.drop n)

theorem cut_append (ns ms : List ℕ) (w : List α) :
    cut (ns ++ ms) w = cut ns w ++ cut ms (w.drop ns.sum) := by
  induction ns generalizing w with
  | nil => simp [cut]
  | cons n ns ih =>
    rw [List.cons_append, cut, cut, ih, List.sum_cons, List.drop_drop]
    rfl

theorem cut_snoc (ns : List ℕ) (n : ℕ) (w : List α) :
    cut (ns ++ [n]) w = cut ns w ++ [(w.drop ns.sum).take n] := cut_append ns [n] w

/-- Nothing is lost, doubled or out of order. -/
theorem flatten_cut (ns : List ℕ) (w : List α) : (cut ns w).flatten = w.take ns.sum := by
  induction ns generalizing w with
  | nil => simp [cut]
  | cons n ns ih => rw [cut, List.flatten_cons, ih, List.sum_cons, List.take_add]

end OsLabs.Bytes
