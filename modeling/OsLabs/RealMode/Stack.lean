import Mathlib.Logic.Function.Basic
import OsLabs.RealMode.Refinement

/-!
# A stack in memory

`Ram` is the memory as it is, with the stack somewhere among its bytes. `Tower` is the same
memory as a program sees it that keeps to its stack: a list of words, the innermost first, and
the bytes outside the `Window` that the stack may fill. `Held` relates them, and `simulates`
says that a program that runs over the second memory runs over the first.
-/

namespace OsLabs.RealMode

/-- The memory. -/
structure Ram where
  ss : Word
  sp : Word
  bytes : ℕ → Byte

instance : Store Ram where
  ss := Ram.ss
  sp := Ram.sp
  push w m :=
    some
      { m with
        sp := m.sp - 2
        bytes := Function.update
          (Function.update m.bytes (linear m.ss (m.sp - 2)) (lowByte w))
          (linear m.ss (m.sp - 2 + 1)) (highByte w) }
  pop m :=
    some (m.bytes (linear m.ss (m.sp + 1)) ++ m.bytes (linear m.ss m.sp),
      { m with sp := m.sp + 2 })
  release n m := some { m with sp := m.sp + n }
  load x m := some (m.bytes x)
  store x b m := some { m with bytes := Function.update m.bytes x b }

/-- The room for `room` words below `ss:top`, above the address `floor`. -/
structure Window (floor : ℕ) where
  ss : Word
  top : Word
  room : ℕ
  fits : 2 * room ≤ top.toNat
  above : floor + 2 * room ≤ linear ss top

variable {floor : ℕ}

namespace Window

/-- The address behind the window. -/
def high (W : Window floor) : ℕ := linear W.ss W.top

def low (W : Window floor) : ℕ := W.high - 2 * W.room

/-- The address of the innermost of `n` words. -/
def base (W : Window floor) (n : ℕ) : ℕ := W.high - 2 * n

/-- The stack pointer with `n` words on the stack. -/
def sp (W : Window floor) (n : ℕ) : Word := W.top - BitVec.ofNat 16 (2 * n)

/-- An address in the window. -/
def Has (W : Window floor) (x : ℕ) : Prop := W.low ≤ x ∧ x < W.high

variable {W : Window floor} {n : ℕ}

theorem floor_le_low : floor ≤ W.low := Nat.le_sub_of_add_le W.above

theorem room_le_high : 2 * W.room ≤ W.high := Nat.le_trans (Nat.le_add_left _ _) W.above

theorem sp_toNat (hn : n ≤ W.room) : (W.sp n).toNat = W.top.toNat - 2 * n := by
  have hfits := W.fits
  have htop := W.top.isLt
  unfold sp
  rw [BitVec.toNat_sub_of_le]
  · rw [BitVec.toNat_ofNat, Nat.mod_eq_of_lt (by omega)]
  · rw [BitVec.le_def, BitVec.toNat_ofNat, Nat.mod_eq_of_lt (by omega)]
    omega

theorem linear_sp (hn : n ≤ W.room) : linear W.ss (W.sp n) = W.base n := by
  have hfits := W.fits
  have hsp := sp_toNat hn
  unfold linear base high linear
  omega

theorem sp_succ : W.sp (n + 1) = W.sp n - 2 := by
  unfold sp
  rw [show 2 * (n + 1) = 2 * n + 2 by omega, BitVec.ofNat_add]
  exact (BitVec.sub_sub _ _ _).symm

theorem sp_add (n i : ℕ) : W.sp (n + i) + BitVec.ofNat 16 (2 * i) = W.sp n := by
  unfold sp
  rw [Nat.mul_add, BitVec.ofNat_add, ← BitVec.sub_sub]
  exact BitVec.sub_add_cancel _ _

/-- The high byte of a word on the stack is behind its low byte. -/
theorem linear_sp_add_one (hn : n + 1 ≤ W.room) :
    linear W.ss (W.sp (n + 1) + 1) = W.base (n + 1) + 1 := by
  have hfits := W.fits
  have htop := W.top.isLt
  have hsp := sp_toNat hn
  have hadd : (W.sp (n + 1) + 1).toNat = (W.sp (n + 1)).toNat + 1 := by
    rw [BitVec.toNat_add]
    exact Nat.mod_eq_of_lt (by simp; omega)
  unfold linear base high linear
  omega

end Window

/-- The words on the stack, the innermost first, the number of words that it has room for,
and the bytes; of them the program may use those below the floor. -/
@[ext]
structure Tower (W : Window floor) where
  words : List Word
  free : ℕ
  data : ℕ → Byte

namespace Tower

variable {W : Window floor}

/-- The byte `d` of the words. -/
def byteAt (ws : List Word) (d : ℕ) : Option Byte :=
  (ws[d / 2]?).map fun w => if d % 2 = 0 then lowByte w else highByte w

def load (x : ℕ) (t : Tower W) : Option Byte :=
  if x < floor then some (t.data x)
  else if W.base t.words.length ≤ x then byteAt t.words (x - W.base t.words.length) else none

def push (w : Word) (t : Tower W) : Option (Tower W) :=
  match t.free with
  | 0 => none
  | k + 1 => some { t with words := w :: t.words, free := k }

def pop (t : Tower W) : Option (Word × Tower W) :=
  match t.words with
  | [] => none
  | w :: ws => some (w, { t with words := ws, free := t.free + 1 })

/-- `n` more bytes leave the stack. -/
def release (n : Word) (t : Tower W) : Option (Tower W) :=
  if n.toNat % 2 = 0 ∧ n.toNat / 2 ≤ t.words.length then
    some { t with words := t.words.drop (n.toNat / 2), free := t.free + n.toNat / 2 }
  else none

def store (x : ℕ) (b : Byte) (t : Tower W) : Option (Tower W) :=
  if x < floor then some { t with data := Function.update t.data x b } else none

end Tower

instance (W : Window floor) : Store (Tower W) where
  ss _ := W.ss
  sp t := W.sp t.words.length
  push := Tower.push
  pop := Tower.pop
  release := Tower.release
  load := Tower.load
  store := Tower.store

/-- The memory holds the words in the window, and the data outside. -/
structure Held {W : Window floor} (t : Tower W) (m : Ram) : Prop where
  ss : m.ss = W.ss
  sp : m.sp = W.sp t.words.length
  room : t.words.length + t.free = W.room
  words : ∀ i w, t.words[i]? = some w →
    m.bytes (W.base t.words.length + 2 * i) = lowByte w ∧
      m.bytes (W.base t.words.length + 2 * i + 1) = highByte w
  data : ∀ x, ¬W.Has x → m.bytes x = t.data x

namespace Held

variable {W : Window floor} {t t' : Tower W} {m : Ram}

/-- A memory with an empty stack. -/
theorem empty {m : Ram} (hss : m.ss = W.ss) (htop : m.sp = W.top) :
    Held (W := W) { words := [], free := W.room, data := m.bytes } m where
  ss := hss
  sp := by
    rw [htop]
    exact (BitVec.sub_zero _).symm
  room := Nat.zero_add _
  words := by simp
  data _ _ := rfl

theorem not_has {x : ℕ} (hx : x < floor) : ¬W.Has x := by
  have := Window.floor_le_low (W := W)
  unfold Window.Has
  omega

theorem base_add (h : Held t m) {i : ℕ} (hi : i < t.words.length) :
    W.base t.words.length + 2 * i + 2 ≤ W.high ∧ W.low ≤ W.base t.words.length := by
  have hroom := h.room
  have hhigh := Window.room_le_high (W := W)
  unfold Window.base Window.low
  omega

/-- The stack pointer is at the innermost word. -/
theorem linear_sp (h : Held t m) : linear m.ss m.sp = W.base t.words.length := by
  rw [h.ss, h.sp]
  exact Window.linear_sp (Nat.le_of_add_right_le (Nat.le_of_eq h.room))

theorem push (h : Held t m) {k : ℕ} (hfree : t.free = k + 1) (w : Word) :
    ∃ m', Store.push w m = some m' ∧
      Held (W := W) { t with words := w :: t.words, free := k } m' := by
  have hroom := h.room
  have hroomHigh := Window.room_le_high (W := W)
  have hsp : m.sp - 2 = W.sp (t.words.length + 1) := by
    rw [h.sp, Window.sp_succ]
  have hlow : linear m.ss (m.sp - 2) = W.base (t.words.length + 1) := by
    rw [hsp, h.ss]
    exact Window.linear_sp (by omega)
  have hhigh : linear m.ss (m.sp - 2 + 1) = W.base (t.words.length + 1) + 1 := by
    rw [hsp, h.ss]
    exact Window.linear_sp_add_one (by omega)
  have hbase : W.base t.words.length = W.base (t.words.length + 1) + 2 := by
    unfold Window.base
    omega
  have hin : W.low ≤ W.base (t.words.length + 1) ∧ W.base (t.words.length + 1) + 2 ≤ W.high := by
    unfold Window.base Window.low
    omega
  refine ⟨_, rfl, h.ss, hsp, ?_, ?_, ?_⟩
  · show (w :: t.words).length + k = W.room
    rw [List.length_cons]
    omega
  · intro i v hv
    show Function.update (Function.update _ _ _) _ _ _ = _ ∧ Function.update _ _ _ _ = _
    rw [hlow, hhigh, List.length_cons]
    cases i with
    | zero =>
      cases hv
      simp
    | succ i =>
      obtain ⟨hl, hh⟩ := h.words i v hv
      rw [hbase] at hl hh
      rw [Function.update_of_ne (by omega), Function.update_of_ne (by omega)]
      rw [Function.update_of_ne (by omega), Function.update_of_ne (by omega)]
      rw [show W.base (t.words.length + 1) + 2 * (i + 1) =
        W.base (t.words.length + 1) + 2 + 2 * i by omega]
      exact ⟨hl, hh⟩
  · intro x hx
    have hne : x ≠ W.base (t.words.length + 1) ∧ x ≠ W.base (t.words.length + 1) + 1 := by
      unfold Window.Has at hx
      omega
    show Function.update (Function.update _ _ _) _ _ x = _
    rw [hlow, hhigh, Function.update_of_ne hne.2, Function.update_of_ne hne.1]
    exact h.data x hx

/-- The words below the innermost `n`. -/
theorem drop (h : Held t m) {n : ℕ} (hn : n ≤ t.words.length) :
    Held (W := W) { t with words := t.words.drop n, free := t.free + n }
      { m with sp := W.sp (t.words.length - n) } where
  ss := h.ss
  sp := by simp
  room := by
    have := h.room
    simp
    omega
  words i w hw := by
    have hroom := h.room
    have hhigh := Window.room_le_high (W := W)
    simp only [List.getElem?_drop] at hw
    obtain ⟨hl, hh⟩ := h.words (n + i) w hw
    have hbase : W.base (t.words.length - n) + 2 * i =
        W.base t.words.length + 2 * (n + i) := by
      unfold Window.base
      omega
    simp only [List.length_drop]
    rw [hbase]
    exact ⟨hl, hh⟩
  data := h.data

/-- A memory where `n` words are off the stack, and the words below them are as they were. -/
theorem dropped (h : Held t m) {n : ℕ} (hn : n ≤ t.words.length) {m' : Ram} (hss : m'.ss = m.ss)
    (hsp : m'.sp = W.sp (t.words.length - n))
    (hbytes : ∀ x, W.base (t.words.length - n) ≤ x → x < W.high → m'.bytes x = m.bytes x) :
    Held (W := W) { words := t.words.drop n, free := t.free + n, data := m'.bytes } m' where
  ss := hss.trans h.ss
  sp := by simpa using hsp
  room := (h.drop hn).room
  words i w hw := by
    have hi : i < (t.words.drop n).length := (List.getElem?_eq_some_iff.mp hw).1
    have hin := (h.drop hn).base_add hi
    obtain ⟨hl, hh⟩ := (h.drop hn).words i w hw
    simp only [List.length_drop] at hin hl hh ⊢
    rw [hbytes _ (by omega) (by omega), hbytes _ (by omega) (by omega)]
    exact ⟨hl, hh⟩
  data _ _ := rfl

theorem pop (h : Held t m) {w : Word} {ws : List Word} (hw : t.words = w :: ws) :
    ∃ m', Store.pop m = some (w, m') ∧
      Held (W := W) { t with words := ws, free := t.free + 1 } m' := by
  have hlen : t.words.length = ws.length + 1 := by simp [hw]
  have hroom := h.room
  obtain ⟨hl, hh⟩ := h.words 0 w (by simp [hw])
  have hsp : m.sp = W.sp (ws.length + 1) := by rw [h.sp, hlen]
  have hlow : linear m.ss m.sp = W.base t.words.length := by
    rw [h.ss, h.sp]
    exact Window.linear_sp (by omega)
  have hhigh : linear m.ss (m.sp + 1) = W.base t.words.length + 1 := by
    rw [h.ss, hsp, hlen]
    exact Window.linear_sp_add_one (by omega)
  have hd := h.drop (n := 1) (by omega)
  refine ⟨{ m with sp := m.sp + 2 }, ?_, ?_⟩
  · show some (m.bytes (linear m.ss (m.sp + 1)) ++ m.bytes (linear m.ss m.sp), _) = _
    rw [hlow, hhigh]
    rw [Nat.mul_zero, Nat.add_zero] at hl hh
    rw [hl, hh, append_bytes]
  · have hadd : W.sp (ws.length + 1) + 2 = W.sp ws.length := Window.sp_add ws.length 1
    rw [hsp, hadd]
    simpa [hw] using hd

theorem release (h : Held t m) {n : Word} (heven : n.toNat % 2 = 0)
    (hle : n.toNat / 2 ≤ t.words.length) :
    ∃ m', Store.release n m = some m' ∧
      Held (W := W)
        { t with words := t.words.drop (n.toNat / 2), free := t.free + n.toNat / 2 } m' := by
  refine ⟨{ m with sp := m.sp + n }, rfl, ?_⟩
  have hsp : m.sp + n = W.sp (t.words.length - n.toNat / 2) := by
    have hn : BitVec.ofNat 16 (2 * (n.toNat / 2)) = n := by
      rw [show 2 * (n.toNat / 2) = n.toNat by omega]
      simp
    have hsub := Window.sp_add (W := W) (t.words.length - n.toNat / 2) (n.toNat / 2)
    rw [Nat.sub_add_cancel hle, hn, ← h.sp] at hsub
    exact hsub
  rw [hsp]
  exact h.drop hle

theorem load (h : Held t m) {x : ℕ} {b : Byte} (hx : Tower.load x t = some b) :
    m.bytes x = b := by
  unfold Tower.load at hx
  split at hx
  next hlt =>
    cases hx
    exact h.data x (not_has hlt)
  next hge =>
    obtain ⟨hbase, hx⟩ := Option.ite_none_right_eq_some.mp hx
    obtain ⟨w, hw, hb⟩ := Option.map_eq_some_iff.mp hx
    obtain ⟨hl, hh⟩ := h.words _ w hw
    cases hb
    split
    next heven =>
      rw [← hl]
      congr 1
      omega
    next hodd =>
      rw [← hh]
      congr 1
      omega

theorem store (h : Held t m) {x : ℕ} (b : Byte) (hx : x < floor) :
    Held (W := W) { t with data := Function.update t.data x b }
      { m with bytes := Function.update m.bytes x b } where
  ss := h.ss
  sp := h.sp
  room := h.room
  words i w hw := by
    have hi : i < t.words.length := (List.getElem?_eq_some_iff.mp hw).1
    have hin := h.base_add hi
    have hlow := Window.floor_le_low (W := W)
    obtain ⟨hl, hh⟩ := h.words i w hw
    have hout : ∀ y, floor ≤ y → Function.update m.bytes x b y = m.bytes y := by
      intro y hy
      exact Function.update_of_ne (by omega) ..
    show Function.update m.bytes x b (W.base t.words.length + 2 * i) = _ ∧
      Function.update m.bytes x b (W.base t.words.length + 2 * i + 1) = _
    rw [hout _ (by omega), hout _ (by omega)]
    exact ⟨hl, hh⟩
  data y hy := by
    show Function.update _ _ _ y = Function.update _ _ _ y
    by_cases hxy : y = x
    · rw [hxy, Function.update_self, Function.update_self]
    · rw [Function.update_of_ne hxy, Function.update_of_ne hxy]
      exact h.data y hy

end Held

/-- What the processor does with a stack of its own it does with the memory as it is. -/
theorem simulates (W : Window floor) : Simulates (Held (W := W)) where
  ss h := h.ss
  sp h := h.sp
  push {n n' m w} h hn := by
    change Tower.push w n = some n' at hn
    unfold Tower.push at hn
    split at hn
    next => contradiction
    next k hk =>
      cases hn
      exact h.push hk w
  pop {n n' m w} h hn := by
    change Tower.pop n = some (w, n') at hn
    unfold Tower.pop at hn
    split at hn
    next => contradiction
    next v ws hw =>
      cases hn
      exact h.pop hw
  release {n n' m w} h hn := by
    obtain ⟨hle, hn'⟩ := Option.ite_none_right_eq_some.mp hn
    cases hn'
    exact h.release hle.1 hle.2
  load h hn := congrArg some (h.load hn)
  store {n n' m x b} h hn := by
    obtain ⟨hx, hn'⟩ := Option.ite_none_right_eq_some.mp hn
    cases hn'
    exact ⟨_, rfl, h.store b hx⟩

end OsLabs.RealMode
