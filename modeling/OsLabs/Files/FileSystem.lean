import Mathlib.Data.List.Basic
import Mathlib.Logic.Function.Basic
import Mathlib.Order.Basic
import Mathlib.Tactic.Common

/-!
# Files, names and exclusive locks

A directory gives names to inodes, and an inode has contents and at most one owner of its
exclusive lock. A descriptor refers to an inode, so it stays valid when the name is
removed, and the file that a later `open` creates under the same name is another one.
A process loses its lock on an inode when it closes any descriptor of it, and all its
locks when it exits.

`Calm w` says what the calls by which the process `w` only opens, locks and closes keep
for everybody else: names and contents that exist, and the locks of the others.
-/

namespace OsLabs.Files

/-- The state of the file system: names `κ`, lock owners `ω`. Names refer to existing
inodes, and two names to different ones. -/
structure FileSystem (κ ω : Type*) where
  names : κ → Option ℕ
  data : ℕ → List UInt8
  lock : ℕ → Option ω
  next : ℕ
  lt_next : ∀ p i, names p = some i → i < next
  injective : ∀ p q i, names p = some i → names q = some i → p = q

/-- An open file description. -/
structure Fd where
  inode : ℕ
  offset : ℕ
deriving DecidableEq, Repr

variable {κ ω : Type*} {fs fs' : FileSystem κ ω} {p : κ} {w : ω} {i : ℕ} {fd : Fd}
  {bytes : List UInt8}

namespace FileSystem

/-- The contents of the file with the name `p`, where there is one. -/
def content (fs : FileSystem κ ω) (p : κ) : Option (List UInt8) := (fs.names p).map fs.data

theorem content_of_names (h : fs.names p = some i) : fs.content p = some (fs.data i) := by
  rw [content, h, Option.map_some]

section Calls

variable [DecidableEq κ] [DecidableEq ω]

/-- A new empty file under a name that is free. -/
def create (fs : FileSystem κ ω) (p : κ) : FileSystem κ ω where
  names := Function.update fs.names p (some fs.next)
  data := Function.update fs.data fs.next []
  lock := fs.lock
  next := fs.next + 1
  lt_next := by
    intro q i hq
    by_cases hqp : q = p
    · rw [hqp, Function.update_self] at hq
      cases hq
      omega
    · rw [Function.update_of_ne hqp] at hq
      have := fs.lt_next q i hq
      omega
  injective := by
    intro q r i hq hr
    by_cases hqp : q = p
    · by_cases hrp : r = p
      · rw [hqp, hrp]
      · rw [hqp, Function.update_self] at hq
        rw [Function.update_of_ne hrp] at hr
        cases hq
        exact absurd (fs.lt_next r _ hr) (by omega)
    · rw [Function.update_of_ne hqp] at hq
      by_cases hrp : r = p
      · rw [hrp, Function.update_self] at hr
        cases hr
        exact absurd (fs.lt_next q _ hq) (by omega)
      · rw [Function.update_of_ne hrp] at hr
        exact fs.injective q r i hq hr

/-- `open(p, O_RDWR | O_CREAT)`. -/
def openCreate (fs : FileSystem κ ω) (p : κ) : FileSystem κ ω × Fd :=
  match fs.names p with
  | some i => (fs, ⟨i, 0⟩)
  | none => (fs.create p, ⟨fs.next, 0⟩)

/-- `fcntl(fd, F_SETLK)` for a write lock on the whole file; `none` is `EAGAIN`. -/
def setLock (fs : FileSystem κ ω) (w : ω) (i : ℕ) : Option (FileSystem κ ω) :=
  if fs.lock i = none ∨ fs.lock i = some w then
    some { fs with lock := Function.update fs.lock i (some w) }
  else none

/-- `ftruncate(fd, 0)`. -/
def truncate (fs : FileSystem κ ω) (i : ℕ) : FileSystem κ ω :=
  { fs with data := Function.update fs.data i [] }

/-- `bytes` over `old` at an offset; a gap is filled with zeros. -/
def overwrite (old : List UInt8) (offset : ℕ) (bytes : List UInt8) : List UInt8 :=
  old.take offset ++ List.replicate (offset - old.length) 0 ++ bytes ++
    old.drop (offset + bytes.length)

/-- `write`, which moves the offset of its descriptor on. -/
def write (fs : FileSystem κ ω) (fd : Fd) (bytes : List UInt8) : FileSystem κ ω × Fd :=
  let new := overwrite (fs.data fd.inode) fd.offset bytes
  ({ fs with data := Function.update fs.data fd.inode new },
    ⟨fd.inode, fd.offset + bytes.length⟩)

/-- The process gives up the locks that `p` selects. -/
def release (fs : FileSystem κ ω) (w : ω) (p : ℕ → Bool) : FileSystem κ ω :=
  { fs with lock := fun i => if fs.lock i = some w ∧ p i = true then none else fs.lock i }

/-- `close`: the locks of the process on that file are gone. -/
def close (fs : FileSystem κ ω) (w : ω) (i : ℕ) : FileSystem κ ω := fs.release w (· == i)

/-- The process exits: all its locks are gone. -/
def exit (fs : FileSystem κ ω) (w : ω) : FileSystem κ ω := fs.release w fun _ => true

/-- `remove(p)`. -/
def remove (fs : FileSystem κ ω) (p : κ) : FileSystem κ ω :=
  { fs with
    names := Function.update fs.names p none
    lt_next := by
      intro q i hq
      by_cases hqp : q = p
      · rw [hqp, Function.update_self] at hq
        cases hq
      · rw [Function.update_of_ne hqp] at hq
        exact fs.lt_next q i hq
    injective := by
      intro q r i hq hr
      by_cases hqp : q = p
      · rw [hqp, Function.update_self] at hq
        cases hq
      · by_cases hrp : r = p
        · rw [hrp, Function.update_self] at hr
          cases hr
        · rw [Function.update_of_ne hqp] at hq
          rw [Function.update_of_ne hrp] at hr
          exact fs.injective q r i hq hr }

end Calls

/-! ## What the others keep -/

/-- The change is one of `w` that leaves names, contents and the locks of the others. -/
structure Calm (w : ω) (fs fs' : FileSystem κ ω) : Prop where
  names : ∀ p i, fs.names p = some i → fs'.names p = some i
  data : ∀ i, i < fs.next → fs'.data i = fs.data i
  lock : ∀ i u, u ≠ w → fs.lock i = some u → fs'.lock i = some u

theorem Calm.refl (w : ω) (fs : FileSystem κ ω) : Calm w fs fs :=
  ⟨fun _ _ h => h, fun _ _ => rfl, fun _ _ _ h => h⟩

theorem Calm.data_eq (h : Calm w fs fs') (hp : fs.names p = some i) : fs'.data i = fs.data i :=
  h.data i (fs.lt_next p i hp)

theorem Calm.content (h : Calm w fs fs') {d : List UInt8} (hp : fs.content p = some d) :
    fs'.content p = some d := by
  obtain ⟨i, hi, rfl⟩ := Option.map_eq_some_iff.mp hp
  rw [content_of_names (h.names p i hi), h.data_eq hi]

theorem openCreate_names [DecidableEq κ] :
    (fs.openCreate p).1.names p = some (fs.openCreate p).2.inode := by
  unfold openCreate
  cases h : fs.names p with
  | some i => exact h
  | none => exact Function.update_self ..

theorem openCreate_offset [DecidableEq κ] : (fs.openCreate p).2.offset = 0 := by
  unfold openCreate
  cases fs.names p <;> rfl

theorem openCreate_calm [DecidableEq κ] (w : ω) : Calm w fs (fs.openCreate p).1 := by
  unfold openCreate
  cases h : fs.names p with
  | some i => exact Calm.refl w fs
  | none =>
    constructor
    · intro q i hq
      have hqp : q ≠ p := by
        rintro rfl
        rw [h] at hq
        cases hq
      exact (Function.update_of_ne hqp _ _).trans hq
    · intro i hi
      exact Function.update_of_ne (by omega) _ _
    · intro i u _ hu
      exact hu

theorem openCreate_lock [DecidableEq κ] : (fs.openCreate p).1.lock = fs.lock := by
  unfold openCreate
  cases fs.names p <;> rfl

/-- Opening creates at most the file itself, empty. -/
theorem openCreate_content [DecidableEq κ] (fs : FileSystem κ ω) (p q : κ) :
    (fs.openCreate p).1.content q = fs.content q ∨
      (q = p ∧ fs.content p = none ∧ (fs.openCreate p).1.content p = some []) := by
  unfold openCreate
  cases h : fs.names p with
  | some i => exact Or.inl rfl
  | none =>
    by_cases hqp : q = p
    · refine Or.inr ⟨hqp, by rw [content, h, Option.map_none], ?_⟩
      simp [content, create]
    · left
      simp only [content, create, Function.update_of_ne hqp]
      cases hq : fs.names q with
      | none => rfl
      | some i =>
        have := fs.lt_next q i hq
        simp only [Option.map_some]
        rw [Function.update_of_ne (by omega)]

theorem remove_names_of_ne [DecidableEq κ] {q : κ} (h : q ≠ p) :
    (fs.remove p).names q = fs.names q :=
  Function.update_of_ne h ..

theorem setLock_eq_some [DecidableEq ω] : fs.setLock w i = some fs' ↔
    (fs.lock i = none ∨ fs.lock i = some w) ∧
      { fs with lock := Function.update fs.lock i (some w) } = fs' := by
  simp only [setLock, Option.ite_none_right_eq_some, Option.some.injEq]

theorem setLock_calm [DecidableEq ω] (h : fs.setLock w i = some fs') : Calm w fs fs' := by
  obtain ⟨hfree, rfl⟩ := setLock_eq_some.mp h
  refine ⟨fun _ _ hp => hp, fun _ _ => rfl, ?_⟩
  intro j u hu hj
  have hji : j ≠ i := by
    rintro rfl
    rcases hfree with hnone | hself
    · rw [hnone] at hj
      cases hj
    · rw [hself] at hj
      exact hu (Option.some.inj hj).symm
  exact (Function.update_of_ne hji _ _).trans hj

theorem release_calm [DecidableEq ω] (w : ω) (sel : ℕ → Bool) : Calm w fs (fs.release w sel) := by
  refine ⟨fun _ _ hp => hp, fun _ _ => rfl, ?_⟩
  intro j u hu hj
  have hne : ¬ (fs.lock j = some w ∧ sel j = true) := by
    rintro ⟨hw, -⟩
    rw [hj] at hw
    exact hu (Option.some.inj hw)
  exact (if_neg hne).trans hj

/-! ## What the owner writes -/

theorem overwrite_nil (bytes : List UInt8) : overwrite [] 0 bytes = bytes := by
  simp [overwrite]

theorem truncate_data (fs : FileSystem κ ω) (i : ℕ) : (fs.truncate i).data i = [] :=
  Function.update_self ..

/-- A write into a truncated file through a fresh descriptor. -/
theorem write_data (hdata : fs.data fd.inode = []) (hoff : fd.offset = 0) :
    (fs.write fd bytes).1.data fd.inode = bytes := by
  simp only [write, Function.update_self, hdata, hoff, overwrite_nil]

theorem write_content (hp : fs.names p = some fd.inode) (hdata : fs.data fd.inode = [])
    (hoff : fd.offset = 0) : (fs.write fd bytes).1.content p = some bytes := by
  have hp' : (fs.write fd bytes).1.names p = some fd.inode := hp
  rw [content_of_names hp', write_data hdata hoff]

/-- Writing to one file leaves the others. -/
theorem content_update {new : List UInt8} (h : fs.names p ≠ some i) :
    { fs with data := Function.update fs.data i new }.content p = fs.content p := by
  unfold content
  cases hp : fs.names p with
  | none => rfl
  | some j =>
    have hji : j ≠ i := by
      rintro rfl
      exact h hp
    simp [hji]

end FileSystem

end OsLabs.Files
