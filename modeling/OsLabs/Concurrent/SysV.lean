import Mathlib.Data.Int.Basic
import Mathlib.Logic.Function.Basic
import Mathlib.Tactic.Common

/-!
# System V semaphore arrays

`semop v ops` is one call of semop(2) on the semaphore values `v`: the operations are
tried in array order on tentative values, and the call is applied as a whole or, where
one of them would have to wait, not at all (`none`: the caller sleeps and the set keeps
its values). An operation `0` waits for the value zero, a negative one waits until the
value is large enough and subtracts, a positive one adds. The bound `SEMVMX` on the
values is not part of this model.

With `SEM_UNDO` the kernel keeps for each process an adjustment `adj k` of every
semaphore: an applied operation subtracts its `semOp` from it, and when the process
terminates, however it does, the adjustments are added to the values, none of which goes
below zero (`undo`). In `adjust` every operation of a call carries the flag.
-/

namespace OsLabs.Concurrent

/-- One entry of a `semop` array; `κ` names the semaphores of the set. -/
structure SemBuf (κ : Type*) where
  semNum : κ
  semOp : Int
deriving DecidableEq, Repr

variable {κ : Type*} [DecidableEq κ]

/-- One operation on the tentative values. -/
def semopOne (v : κ → ℕ) (b : SemBuf κ) : Option (κ → ℕ) :=
  if b.semOp = 0 then
    if v b.semNum = 0 then some v else none
  else if 0 ≤ (v b.semNum : Int) + b.semOp then
    some (Function.update v b.semNum ((v b.semNum : Int) + b.semOp).toNat)
  else none

/-- One call of semop: all operations in order, or none of them. -/
def semop (v : κ → ℕ) : List (SemBuf κ) → Option (κ → ℕ)
  | [] => some v
  | b :: bs => (semopOne v b).bind fun v' => semop v' bs

@[simp] theorem semop_nil (v : κ → ℕ) : semop v [] = some v := rfl

/-- An operation that waits for zero passes the values on. -/
@[simp] theorem semop_zero_cons (v w : κ → ℕ) (k : κ) (bs : List (SemBuf κ)) :
    semop v (⟨k, 0⟩ :: bs) = some w ↔ v k = 0 ∧ semop v bs = some w := by
  simp only [semop, semopOne, if_true]
  split_ifs with h <;> simp [h]

/-- `V`: the value grows by one, and the operation never waits. -/
@[simp] theorem semop_up_cons (v w : κ → ℕ) (k : κ) (bs : List (SemBuf κ)) :
    semop v (⟨k, 1⟩ :: bs) = some w ↔ semop (Function.update v k (v k + 1)) bs = some w := by
  have h0 : 0 ≤ (v k : Int) + 1 := by omega
  have h1 : ((v k : Int) + 1).toNat = v k + 1 := by omega
  simp [semop, semopOne, h0, h1]

/-- `P`: the operation waits for a positive value and takes one from it. -/
@[simp] theorem semop_down_cons (v w : κ → ℕ) (k : κ) (bs : List (SemBuf κ)) :
    semop v (⟨k, -1⟩ :: bs) = some w ↔
      0 < v k ∧ semop (Function.update v k (v k - 1)) bs = some w := by
  have hne : ¬ (-1 : Int) = 0 := by omega
  have hnat : ((v k : Int) + -1).toNat = v k - 1 := by omega
  simp only [semop, semopOne, hne, if_false, hnat]
  by_cases h : 0 < v k
  · have h0 : 0 ≤ (v k : Int) + -1 := by omega
    simp only [h0, if_true, Option.bind_some, h, true_and]
  · have h0 : ¬ 0 ≤ (v k : Int) + -1 := by omega
    simp [h0, h]

/-! ## Adjustments -/

/-- The adjustments of a process after an applied call. -/
def adjust (adj : κ → ℤ) : List (SemBuf κ) → κ → ℤ
  | [] => adj
  | b :: bs => adjust (Function.update adj b.semNum (adj b.semNum - b.semOp)) bs

omit [DecidableEq κ]

/-- The values after a process with adjustments `adj` has terminated. -/
def undo (v : κ → ℕ) (adj : κ → ℤ) : κ → ℕ := fun k => ((v k : ℤ) + adj k).toNat

theorem undo_of_eq_zero {v : κ → ℕ} {adj : κ → ℤ} {k : κ} (h : adj k = 0) :
    undo v adj k = v k := by
  unfold undo
  omega

end OsLabs.Concurrent
