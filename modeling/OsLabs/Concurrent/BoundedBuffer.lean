import OsLabs.Concurrent.SysV

/-!
# The three semaphores of a bounded buffer

Dijkstra's producers and consumers over a buffer of `n` cells: `empty` counts the free
cells, `full` the letters, and `mutex` lets one of them in. A producer claims a free cell
and enters, stores its letter, and leaves; a consumer does the same the other way round.
`Accounts` says what each semaphore lacks while a section is in one of its phases.
-/

namespace OsLabs.Concurrent.BoundedBuffer

/-- The semaphores of a bounded buffer in a set. -/
structure Sems (κ : Type*) where
  mutex : κ
  empty : κ
  full : κ
  mutex_ne_empty : mutex ≠ empty
  mutex_ne_full : mutex ≠ full
  empty_ne_full : empty ≠ full

variable {κ : Type*}

namespace Sems

variable (k : Sems κ)

def startProduce : List (SemBuf κ) := [⟨k.empty, -1⟩, ⟨k.mutex, -1⟩]

def stopProduce : List (SemBuf κ) := [⟨k.mutex, 1⟩, ⟨k.full, 1⟩]

def startConsume : List (SemBuf κ) := [⟨k.full, -1⟩, ⟨k.mutex, -1⟩]

def stopConsume : List (SemBuf κ) := [⟨k.mutex, 1⟩, ⟨k.empty, 1⟩]

end Sems

/-- How far the section has come. -/
inductive Phase
  | outside
  | cellClaimed
  | stored
  | letterClaimed
  | taken
deriving DecidableEq, Repr

namespace Phase

/-- `mutex` is taken. -/
def busy : Phase → ℕ
  | .outside => 0
  | _ => 1

/-- A cell claimed and still free, or free and not yet counted. -/
def emptyDebt : Phase → ℕ
  | .cellClaimed | .taken => 1
  | _ => 0

/-- A letter stored and not yet counted, or claimed and still there. -/
def fullDebt : Phase → ℕ
  | .stored | .letterClaimed => 1
  | _ => 0

end Phase

/-- The values of the semaphores after `stored` stores and `taken` takes in a buffer of `n`
cells, in a phase of the section. -/
structure Accounts (k : Sems κ) (n : ℕ) (v : κ → ℕ) (g : Phase) (stored taken : ℕ) : Prop where
  mutex : v k.mutex + g.busy = 1
  empty : v k.empty + g.emptyDebt + stored = n + taken
  full : v k.full + g.fullDebt + taken = stored

namespace Accounts

variable {k : Sems κ} {n stored taken : ℕ} {v w : κ → ℕ} {g : Phase}

theorem taken_le (h : Accounts k n v g stored taken) : taken ≤ stored := by
  have := h.full
  omega

/-- A consumer in its section has a letter to take. -/
theorem taken_lt (h : Accounts k n v .letterClaimed stored taken) : taken < stored := by
  have := h.full
  simp only [Phase.fullDebt] at this
  omega

theorem store (h : Accounts k n v .cellClaimed stored taken) :
    Accounts k n v .stored (stored + 1) taken where
  mutex := h.mutex
  empty := by
    have := h.empty
    simp only [Phase.emptyDebt] at this ⊢
    omega
  full := by
    have := h.full
    simp only [Phase.fullDebt] at this ⊢
    omega

theorem take (h : Accounts k n v .letterClaimed stored taken) :
    Accounts k n v .taken stored (taken + 1) where
  mutex := h.mutex
  empty := by
    have := h.empty
    simp only [Phase.emptyDebt] at this ⊢
    omega
  full := by
    have := h.full
    simp only [Phase.fullDebt] at this ⊢
    omega

/-- `mutex` is free only where nobody is in the section. -/
theorem eq_outside (h : Accounts k n v g stored taken) (hpos : 0 < v k.mutex) : g = .outside := by
  have hmutex := h.mutex
  cases g with
  | outside => rfl
  | _ =>
    simp only [Phase.busy] at hmutex
    omega

variable [DecidableEq κ]

/-- A producer enters: nobody is inside, and a cell is free. -/
theorem startProduce (h : Accounts k n v g stored taken) (hv : semop v k.startProduce = some w) :
    g = .outside ∧ Accounts k n w .cellClaimed stored taken := by
  simp only [Sems.startProduce, semop_down_cons, semop_nil, Option.some.injEq,
    Function.update_of_ne k.mutex_ne_empty] at hv
  obtain ⟨hcell, hfree, rfl⟩ := hv
  obtain rfl := h.eq_outside hfree
  refine ⟨rfl, ?_⟩
  obtain ⟨hmutex, hempty, hfull⟩ := h
  constructor
  · simp [Phase.busy] at hmutex ⊢
    omega
  · simp [Phase.emptyDebt, Function.update_of_ne k.mutex_ne_empty.symm] at hempty ⊢
    omega
  · simpa [Phase.fullDebt, Function.update_of_ne k.mutex_ne_full.symm,
      Function.update_of_ne k.empty_ne_full.symm] using hfull

theorem stopProduce (h : Accounts k n v .stored stored taken)
    (hv : semop v k.stopProduce = some w) : Accounts k n w .outside stored taken := by
  simp only [Sems.stopProduce, semop_up_cons, semop_nil, Option.some.injEq] at hv
  obtain rfl := hv
  obtain ⟨hmutex, hempty, hfull⟩ := h
  constructor
  · simpa [Phase.busy, Function.update_of_ne k.mutex_ne_full] using hmutex
  · simpa [Phase.emptyDebt, Function.update_of_ne k.mutex_ne_empty.symm,
      Function.update_of_ne k.empty_ne_full] using hempty
  · simpa [Phase.fullDebt, Function.update_of_ne k.mutex_ne_full.symm] using hfull

/-- A consumer enters: nobody is inside, and there is a letter. -/
theorem startConsume (h : Accounts k n v g stored taken) (hv : semop v k.startConsume = some w) :
    g = .outside ∧ Accounts k n w .letterClaimed stored taken := by
  simp only [Sems.startConsume, semop_down_cons, semop_nil, Option.some.injEq,
    Function.update_of_ne k.mutex_ne_full] at hv
  obtain ⟨hletter, hfree, rfl⟩ := hv
  obtain rfl := h.eq_outside hfree
  refine ⟨rfl, ?_⟩
  obtain ⟨hmutex, hempty, hfull⟩ := h
  constructor
  · simp [Phase.busy] at hmutex ⊢
    omega
  · simpa [Phase.emptyDebt, Function.update_of_ne k.mutex_ne_empty.symm,
      Function.update_of_ne k.empty_ne_full] using hempty
  · simp [Phase.fullDebt, Function.update_of_ne k.mutex_ne_full.symm] at hfull ⊢
    omega

theorem stopConsume (h : Accounts k n v .taken stored taken)
    (hv : semop v k.stopConsume = some w) : Accounts k n w .outside stored taken := by
  simp only [Sems.stopConsume, semop_up_cons, semop_nil, Option.some.injEq] at hv
  obtain rfl := hv
  obtain ⟨hmutex, hempty, hfull⟩ := h
  constructor
  · simpa [Phase.busy, Function.update_of_ne k.mutex_ne_empty] using hmutex
  · simpa [Phase.emptyDebt, Function.update_of_ne k.mutex_ne_empty.symm] using hempty
  · simpa [Phase.fullDebt, Function.update_of_ne k.mutex_ne_full.symm,
      Function.update_of_ne k.empty_ne_full.symm] using hfull

/-! ### What does not wait -/

/-- A producer outside can enter, where nobody is inside and a cell is free. -/
theorem can_startProduce (h : Accounts k n v .outside stored taken) (hlt : stored < n + taken) :
    ∃ w, semop v k.startProduce = some w := by
  have hmutex := h.mutex
  have hempty := h.empty
  simp only [Phase.busy, Phase.emptyDebt] at hmutex hempty
  refine ⟨_, (semop_down_cons ..).mpr ⟨by omega, (semop_down_cons ..).mpr ⟨?_, rfl⟩⟩⟩
  rw [Function.update_of_ne k.mutex_ne_empty]
  omega

/-- A consumer outside can enter, where nobody is inside and there is a letter. -/
theorem can_startConsume (h : Accounts k n v .outside stored taken) (hlt : taken < stored) :
    ∃ w, semop v k.startConsume = some w := by
  have hmutex := h.mutex
  have hfull := h.full
  simp only [Phase.busy, Phase.fullDebt] at hmutex hfull
  refine ⟨_, (semop_down_cons ..).mpr ⟨by omega, (semop_down_cons ..).mpr ⟨?_, rfl⟩⟩⟩
  rw [Function.update_of_ne k.mutex_ne_full]
  omega

theorem can_stopProduce (k : Sems κ) (v : κ → ℕ) : ∃ w, semop v k.stopProduce = some w :=
  ⟨_, (semop_up_cons ..).mpr ((semop_up_cons ..).mpr rfl)⟩

theorem can_stopConsume (k : Sems κ) (v : κ → ℕ) : ∃ w, semop v k.stopConsume = some w :=
  ⟨_, (semop_up_cons ..).mpr ((semop_up_cons ..).mpr rfl)⟩

end Accounts

end OsLabs.Concurrent.BoundedBuffer
