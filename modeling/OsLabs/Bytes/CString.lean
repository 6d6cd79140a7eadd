import Mathlib.Data.Int.Basic
import Mathlib.Data.List.Basic
import Mathlib.Logic.Function.Basic
import Mathlib.Tactic.Common

/-!
# C strings in a block of bytes

A block of `size` bytes is a function on offsets; an access outside the block gives
`none`. `Holds m a w` says that the bytes from `a` on are the string `w` with its
terminating zero. `strcpy` and `strcmp` take a string from outside the block, `strmove`
copies one string of the block over another place of it, byte after byte upwards.
-/

namespace OsLabs.Bytes

/-- A C string: its bytes without the terminating zero. -/
abbrev CString := { bytes : List UInt8 // 0 ∉ bytes }

variable {size : ℕ} {m : ℕ → UInt8}

def load (size : ℕ) (m : ℕ → UInt8) (a : ℕ) : Option UInt8 :=
  if a < size then some (m a) else none

def store (size : ℕ) (m : ℕ → UInt8) (a : ℕ) (c : UInt8) : Option (ℕ → UInt8) :=
  if a < size then some (Function.update m a c) else none

/-- `strcpy(dst, w)`: the bytes and the terminating zero. -/
def strcpy (size : ℕ) (m : ℕ → UInt8) (dst : ℕ) : List UInt8 → Option (ℕ → UInt8)
  | [] => store size m dst 0
  | c :: w => (store size m dst c).bind fun m => strcpy size m (dst + 1) w

/-- `strcmp(w, src)`: the difference at the first place where the strings differ. -/
def strcmp (size : ℕ) (m : ℕ → UInt8) : List UInt8 → ℕ → Option ℤ
  | [], src => (load size m src).map fun d => 0 - (d.toNat : ℤ)
  | c :: w, src => (load size m src).bind fun d =>
      if c = d then strcmp size m w (src + 1) else some ((c.toNat : ℤ) - (d.toNat : ℤ))

/-- `strcpy(dst, src)` within the block, for at most `fuel` bytes. -/
def strmove (size : ℕ) (m : ℕ → UInt8) (dst src : ℕ) : ℕ → Option (ℕ → UInt8)
  | 0 => none
  | fuel + 1 => (load size m src).bind fun c => (store size m dst c).bind fun m =>
      if c = 0 then some m else strmove size m (dst + 1) (src + 1) fuel

/-- `strlen(src)`, for at most `fuel` bytes. -/
def strlen (size : ℕ) (m : ℕ → UInt8) (src : ℕ) : ℕ → Option ℕ
  | 0 => none
  | fuel + 1 => (load size m src).bind fun c =>
      if c = 0 then some 0 else (strlen size m (src + 1) fuel).map (· + 1)

/-- `snprintf(dst, n, ...)` where the text to be printed is `w`. -/
def snprintf (size : ℕ) (m : ℕ → UInt8) (dst n : ℕ) (w : List UInt8) : Option (ℕ → UInt8) :=
  if n = 0 then some m else strcpy size m dst (w.take (n - 1))

/-- The string that starts at `a`, up to its zero or for `fuel` bytes. -/
def readString (m : ℕ → UInt8) (a : ℕ) : ℕ → List UInt8
  | 0 => []
  | fuel + 1 => if m a = 0 then [] else m a :: readString m (a + 1) fuel

/-- The bytes from `a` on are `w` and a zero. -/
def Holds (m : ℕ → UInt8) : ℕ → List UInt8 → Prop
  | a, [] => m a = 0
  | a, c :: w => m a = c ∧ Holds m (a + 1) w

/-! ## What a place holds -/

/-- A string is not touched by changes elsewhere. -/
theorem Holds.congr {m' : ℕ → UInt8} {a : ℕ} {w : List UInt8} (h : Holds m a w)
    (hm : ∀ b, a ≤ b → b ≤ a + w.length → m' b = m b) : Holds m' a w := by
  induction w generalizing a with
  | nil => exact (hm a (le_refl a) (by simp)).trans h
  | cons c w ih =>
    obtain ⟨hc, hw⟩ := h
    refine ⟨(hm a (le_refl a) (by omega)).trans hc, ih hw ?_⟩
    intro b hlo hhi
    apply hm b (by omega)
    rw [List.length_cons]
    omega

/-- What stands in front of a zero byte of a string is a string. -/
theorem Holds.of_append_zero {a : ℕ} {w : List UInt8} (h : Holds m a (w ++ [0])) :
    Holds m a w := by
  induction w generalizing a with
  | nil => exact h.1
  | cons c w ih => exact ⟨h.1, ih h.2⟩

theorem readString_eq {a : ℕ} {w : List UInt8} (h : Holds m a w) (hw : 0 ∉ w) {fuel : ℕ}
    (hf : w.length < fuel) : readString m a fuel = w := by
  induction w generalizing a fuel with
  | nil =>
    obtain ⟨fuel, rfl⟩ := Nat.exists_eq_add_of_lt hf
    have hzero : m a = 0 := h
    rw [readString, if_pos hzero]
  | cons c w ih =>
    obtain ⟨hc, hrest⟩ := h
    rw [List.mem_cons, not_or] at hw
    obtain ⟨fuel, rfl⟩ := Nat.exists_eq_add_of_lt hf
    rw [readString, hc, if_neg (Ne.symm hw.1), ih hrest hw.2 (by simp; omega)]

/-- The bytes in front of the first zero begin with those that are known. -/
theorem prefix_readString {a : ℕ} {w : List UInt8} {fuel : ℕ}
    (h : ∀ k b, w[k]? = some b → m (a + k) = b) (hw : 0 ∉ w) (hf : w.length ≤ fuel) :
    w <+: readString m a fuel := by
  induction w generalizing a fuel with
  | nil => exact List.nil_prefix
  | cons c w ih =>
    obtain ⟨fuel, rfl⟩ : ∃ n, fuel = n + 1 := Nat.exists_eq_succ_of_ne_zero (by
      rw [List.length_cons] at hf
      omega)
    rw [List.mem_cons, not_or] at hw
    have hc : m a = c := h 0 c rfl
    rw [readString, hc, if_neg (Ne.symm hw.1)]
    apply List.prefix_cons_inj c |>.mpr
    apply ih _ hw.2 (Nat.le_of_succ_le_succ hf)
    intro k b hb
    rw [show a + 1 + k = a + (k + 1) by omega]
    exact h (k + 1) b hb

theorem not_mem_readString (a fuel : ℕ) : 0 ∉ readString m a fuel := by
  induction fuel generalizing a with
  | zero => exact List.not_mem_nil
  | succ fuel ih =>
    rw [readString]
    split_ifs with h
    · exact List.not_mem_nil
    · rw [List.mem_cons, not_or]
      exact ⟨Ne.symm h, ih (a + 1)⟩

/-! ## Copying and comparing -/

theorem strcpy_spec {a : ℕ} {w : List UInt8} (h : a + w.length < size) :
    ∃ m', strcpy size m a w = some m' ∧ Holds m' a w ∧
      ∀ b, (b < a ∨ a + w.length < b) → m' b = m b := by
  induction w generalizing m a with
  | nil =>
    refine ⟨Function.update m a 0, ?_, ?_, ?_⟩
    · rw [strcpy, store, if_pos (by simpa using h)]
    · exact Function.update_self ..
    · intro b hb
      rw [List.length_nil] at hb
      exact Function.update_of_ne (by omega) _ _
  | cons c w ih =>
    rw [List.length_cons] at h
    obtain ⟨m', hm', hholds, hframe⟩ := ih (m := Function.update m a c) (a := a + 1) (by omega)
    refine ⟨m', ?_, ⟨?_, hholds⟩, ?_⟩
    · rw [strcpy, store, if_pos (by omega), Option.bind_some, hm']
    · rw [hframe a (by omega), Function.update_self]
    · intro b hb
      rw [List.length_cons] at hb
      rw [hframe b (by omega), Function.update_of_ne (by omega)]

/-- A string that does not fit is stored outside the block. -/
theorem strcpy_outside {a : ℕ} {w : List UInt8} (h : size ≤ a + w.length) :
    strcpy size m a w = none := by
  induction w generalizing m a with
  | nil => exact if_neg (Nat.not_lt.mpr h)
  | cons c w ih =>
    rw [List.length_cons] at h
    have hrest (m' : ℕ → UInt8) : strcpy size m' (a + 1) w = none := ih (by omega)
    rw [strcpy]
    cases store size m a c with
    | none => rfl
    | some m' => exact hrest m'

theorem load_eq {a : ℕ} (h : a < size) : load size m a = some (m a) := if_pos h

theorem strlen_spec {a fuel : ℕ} {w : List UInt8} (h : Holds m a w) (hw : 0 ∉ w)
    (hsize : a + w.length < size) (hf : w.length < fuel) :
    strlen size m a fuel = some w.length := by
  induction w generalizing a fuel with
  | nil =>
    obtain ⟨fuel, rfl⟩ := Nat.exists_eq_add_of_lt hf
    have hzero : m a = 0 := h
    have hload : load size m a = some (m a) := load_eq hsize
    rw [strlen, hload, Option.bind_some, if_pos hzero]
    rfl
  | cons c w ih =>
    obtain ⟨hc, hrest⟩ := h
    rw [List.mem_cons, not_or] at hw
    rw [List.length_cons] at hsize hf
    obtain ⟨fuel, rfl⟩ := Nat.exists_eq_add_of_lt hf
    have hne : m a ≠ 0 := by
      rw [hc]
      exact Ne.symm hw.1
    rw [strlen, load_eq (by omega), Option.bind_some, if_neg hne,
      ih hrest hw.2 (by omega) (by omega)]
    rfl

/-- A string is two strings, one behind the other. -/
theorem Holds.append {a : ℕ} {v w : List UInt8} (h : ∀ k b, v[k]? = some b → m (a + k) = b)
    (hw : Holds m (a + v.length) w) : Holds m a (v ++ w) := by
  induction v generalizing a with
  | nil => exact hw
  | cons c v ih =>
    refine ⟨h 0 c rfl, ih ?_ ?_⟩
    · intro k b hb
      rw [show a + 1 + k = a + (k + 1) by omega]
      exact h (k + 1) b hb
    · rw [show a + 1 + v.length = a + (v.length + 1) by omega]
      exact hw

theorem Holds.getElem? {a : ℕ} {w : List UInt8} (h : Holds m a w) {k : ℕ} {b : UInt8}
    (hb : w[k]? = some b) : m (a + k) = b := by
  induction w generalizing a k with
  | nil => cases hb
  | cons c w ih =>
    cases k with
    | zero =>
      cases hb
      exact h.1
    | succ k =>
      rw [show a + (k + 1) = a + 1 + k by omega]
      exact ih h.2 hb

/-- `strcpy` to the end of a string puts the second behind the first. -/
theorem strcpy_behind {a : ℕ} {v w : List UInt8} (h : Holds m a v)
    (hsize : a + (v.length + w.length) < size) :
    ∃ m', strcpy size m (a + v.length) w = some m' ∧ Holds m' a (v ++ w) := by
  obtain ⟨m', hm', hholds, hframe⟩ :=
    strcpy_spec (m := m) (a := a + v.length) (w := w) (show _ < size by omega)
  refine ⟨m', hm', Holds.append ?_ hholds⟩
  intro k b hb
  obtain ⟨hk, -⟩ := List.getElem?_eq_some_iff.mp hb
  rw [hframe (a + k) (Or.inl (by omega))]
  exact h.getElem? hb

theorem toNat_ne {c d : UInt8} (h : c ≠ d) : (c.toNat : ℤ) - (d.toNat : ℤ) ≠ 0 := by
  have hne : c.toNat ≠ d.toNat := fun heq => h (UInt8.toNat_inj.mp heq)
  omega

/-- Strings compare equal exactly when they are equal. -/
theorem strcmp_spec {a : ℕ} {v w : List UInt8} (h : Holds m a w) (hv : 0 ∉ v) (hw : 0 ∉ w)
    (hsize : a + w.length < size) :
    ∃ d, strcmp size m v a = some d ∧ (d = 0 ↔ v = w) := by
  have hload := load_eq (m := m) (show a < size by omega)
  induction v generalizing a w with
  | nil =>
    refine ⟨_, by rw [strcmp, hload, Option.map_some], ?_⟩
    rcases w with _ | ⟨c, w⟩
    · have hzero : m a = 0 := h
      rw [hzero]
      decide
    · rw [List.mem_cons, not_or] at hw
      rw [h.1]
      exact ⟨fun hd => absurd hd (toNat_ne hw.1), nofun⟩
  | cons c v ih =>
    rw [List.mem_cons, not_or] at hv
    rw [strcmp, hload, Option.bind_some]
    rcases w with _ | ⟨c', w⟩
    · have hzero : m a = 0 := h
      rw [hzero, if_neg (Ne.symm hv.1)]
      exact ⟨_, rfl, fun hd => absurd hd (toNat_ne (Ne.symm hv.1)), nofun⟩
    · obtain ⟨hc, hrest⟩ := h
      rw [List.mem_cons, not_or] at hw
      rw [List.length_cons] at hsize
      rw [hc]
      by_cases heq : c = c'
      · obtain ⟨d, hd, hiff⟩ := ih hrest hv.2 hw.2 (by omega) (load_eq (by omega))
        rw [if_pos heq]
        refine ⟨d, hd, ?_⟩
        rw [hiff, heq, List.cons_inj_right]
      · rw [if_neg heq]
        refine ⟨_, rfl, fun hd => absurd hd (toNat_ne heq), ?_⟩
        intro hcons
        exact absurd (List.cons.inj hcons).1 heq

/-- Outside the block nothing is copied. -/
theorem strmove_outside {dst src : ℕ} (h : size ≤ src) (fuel : ℕ) :
    strmove size m dst src fuel = none := by
  cases fuel with
  | zero => rfl
  | succ fuel => rw [strmove, load, if_neg (by omega), Option.bind_none]

/-- The fuel does not matter where it outlasts the block. -/
theorem strmove_fuel {dst src fuel fuel' : ℕ} (h : size ≤ src + fuel) (h' : size ≤ src + fuel') :
    strmove size m dst src fuel = strmove size m dst src fuel' := by
  induction fuel generalizing m dst src fuel' with
  | zero =>
    have hsrc : size ≤ src := h
    rw [strmove_outside hsrc, strmove_outside hsrc]
  | succ fuel ih =>
    cases fuel' with
    | zero =>
      have hsrc : size ≤ src := h'
      rw [strmove_outside hsrc, strmove_outside hsrc]
    | succ fuel' =>
      rw [strmove, strmove]
      congr 1
      funext c
      congr 1
      funext m'
      split_ifs
      · rfl
      · apply ih
        · omega
        · omega

/-- A string is copied to a place not above it. -/
theorem strmove_spec {dst src fuel : ℕ} {w : List UInt8} (h : Holds m src w) (hw : 0 ∉ w)
    (hle : dst ≤ src) (hsize : src + w.length < size) (hf : w.length < fuel) :
    ∃ m', strmove size m dst src fuel = some m' ∧ Holds m' dst w ∧
      ∀ b, (b < dst ∨ dst + w.length < b) → m' b = m b := by
  induction w generalizing m dst src fuel with
  | nil =>
    have hzero : m src = 0 := h
    rw [List.length_nil] at hsize
    obtain ⟨fuel, rfl⟩ := Nat.exists_eq_add_of_lt hf
    refine ⟨Function.update m dst 0, ?_, Function.update_self .., ?_⟩
    · rw [strmove, load, if_pos (by omega), Option.bind_some, hzero, store, if_pos (by omega),
        Option.bind_some, if_pos rfl]
    · intro b hb
      rw [List.length_nil] at hb
      exact Function.update_of_ne (by omega) _ _
  | cons c w ih =>
    obtain ⟨hc, hrest⟩ := h
    rw [List.mem_cons, not_or] at hw
    rw [List.length_cons] at hsize hf
    obtain ⟨fuel, rfl⟩ := Nat.exists_eq_add_of_lt hf
    have hrest' : Holds (Function.update m dst c) (src + 1) w := by
      apply hrest.congr
      intro b hlo _
      exact Function.update_of_ne (by omega) _ _
    obtain ⟨m', hm', hholds, hframe⟩ :=
      ih hrest' hw.2 (show dst + 1 ≤ src + 1 by omega) (by omega)
        (show w.length < w.length + 1 + fuel by omega)
    refine ⟨m', ?_, ⟨?_, hholds⟩, ?_⟩
    · rw [strmove, load, if_pos (by omega), Option.bind_some, hc, store, if_pos (by omega),
        Option.bind_some, if_neg (Ne.symm hw.1), hm']
    · rw [hframe dst (by omega), Function.update_self]
    · intro b hb
      rw [List.length_cons] at hb
      rw [hframe b (by omega), Function.update_of_ne (by omega)]

end OsLabs.Bytes
