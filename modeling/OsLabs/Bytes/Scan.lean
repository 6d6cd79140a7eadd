import Mathlib.Algebra.Group.Int.Defs
import Mathlib.Algebra.Group.Nat.Defs
import Mathlib.Data.Int.Basic
import Mathlib.Data.List.TakeWhile
import Mathlib.Tactic.Common

/-!
# Scanning bytes

The conversions of `scanf` in the C locale over a list of bytes: a white-space directive
(`skipSpace`), `%d` (`scanInt`) and `%s` (`scanWord`). A conversion that finds nothing
returns `none` and leaves the rest from the byte it stopped at. A number that is printed
in decimal (`decimal`) and a word without white space are scanned back
(`scanInt_decimal`, `scanWord_word`).
-/

namespace OsLabs.Bytes

/-- `isspace` of a byte. -/
def isSpace (c : UInt8) : Bool := c.toNat = 32 ∨ (9 ≤ c.toNat ∧ c.toNat ≤ 13)

def isDigit (c : UInt8) : Bool := 48 ≤ c.toNat ∧ c.toNat ≤ 57

def skipSpace (s : List UInt8) : List UInt8 := s.dropWhile isSpace

/-- An optional sign: whether it is a minus, and the rest. -/
def scanSign : List UInt8 → Bool × List UInt8
  | 45 :: s => (true, s)
  | 43 :: s => (false, s)
  | s => (false, s)

/-- The number with the given digits, after `v`. -/
def digitsValue (v : ℕ) (s : List UInt8) : ℕ := s.foldl (fun v c => 10 * v + (c.toNat - 48)) v

/-- `%d`, without the conversion to `int`. -/
def scanInt (s : List UInt8) : Option ℤ × List UInt8 :=
  let signed := scanSign (skipSpace s)
  let digits := signed.2.takeWhile isDigit
  let v : ℤ := digitsValue 0 digits
  if digits = [] then (none, signed.2)
  else (some (if signed.1 then -v else v), signed.2.dropWhile isDigit)

/-- The bytes up to the first white space, or to the end. -/
def word (s : List UInt8) : List UInt8 := s.takeWhile (!isSpace ·)

def afterWord (s : List UInt8) : List UInt8 := s.dropWhile (!isSpace ·)

/-- `%s`, without the copy to its buffer. -/
def scanWord (s : List UInt8) : Option (List UInt8) × List UInt8 :=
  if word (skipSpace s) = [] then (none, skipSpace s)
  else (some (word (skipSpace s)), afterWord (skipSpace s))

/-- The `int` for a number: where the number does not fit, C leaves it open. -/
def toInt32 (overflow : ℤ → Int32) (v : ℤ) : Int32 :=
  if -2 ^ 31 ≤ v ∧ v < 2 ^ 31 then Int32.ofInt v else overflow v

/-- `%d` of a number that is not negative. -/
def decimal (n : ℕ) : List UInt8 := (Nat.toDigits 10 n).map fun c => UInt8.ofNat c.toNat

variable {c : UInt8} {s w : List UInt8} {n : ℕ}

/-! ## White space and signs -/

theorem isSpace_of_isDigit (h : isDigit c = true) : isSpace c = false := by
  simp only [isDigit, isSpace, decide_eq_true_eq, decide_eq_false_iff_not] at h ⊢
  omega

/-- The scan does not go past a byte that is not white space. -/
theorem skipSpace_cons (h : isSpace c = false) (s : List UInt8) :
    skipSpace (c :: s) = c :: s := by
  simp [skipSpace, h]

theorem skipSpace_append (h : ∀ c ∈ w, isSpace c = true) (s : List UInt8) :
    skipSpace (w ++ s) = skipSpace s :=
  List.dropWhile_append_of_pos h

theorem skipSpace_space (h : isSpace c = true) (s : List UInt8) :
    skipSpace (c :: s) = skipSpace s :=
  skipSpace_append (List.forall_mem_singleton.mpr h) s

/-- The scan stops at a byte that is not white space. -/
theorem not_space_of_skipSpace {t : List UInt8} (h : skipSpace s = c :: t) :
    isSpace c = false := by
  induction s with
  | nil => cases h
  | cons b s ih =>
    cases hb : isSpace b with
    | false =>
      rw [skipSpace_cons hb] at h
      cases h
      exact hb
    | true =>
      rw [skipSpace_space hb] at h
      exact ih h

theorem scanSign_of_isDigit (h : isDigit c = true) (s : List UInt8) :
    scanSign (c :: s) = (false, c :: s) := by
  unfold scanSign
  split
  · rename_i heq
    cases heq
    exact absurd h (by decide)
  · rename_i heq
    cases heq
    exact absurd h (by decide)
  · rfl

/-! ## Numbers -/

theorem toNat_digit {d : Char} (h : d.isDigit = true) :
    (UInt8.ofNat d.toNat).toNat = d.toNat ∧ 48 ≤ d.toNat ∧ d.toNat ≤ 57 := by
  have hd : 48 ≤ d.toNat ∧ d.toNat ≤ 57 := Char.isDigit_iff_toNat.mp h
  refine ⟨?_, hd⟩
  rw [UInt8.toNat_ofNat']
  exact Nat.mod_eq_of_lt (by omega)

/-- The digits of a number as bytes and as characters have the same value. -/
theorem digitsValue_map {ds : List Char} (h : ∀ d ∈ ds, d.isDigit = true) (v : ℕ) :
    digitsValue v (ds.map fun d => UInt8.ofNat d.toNat) = Nat.ofDigitChars 10 ds v := by
  induction ds generalizing v with
  | nil => rfl
  | cons d ds ih =>
    rw [List.forall_mem_cons] at h
    rw [Nat.ofDigitChars_cons, ← ih h.2, List.map_cons, digitsValue, List.foldl_cons,
      (toNat_digit h.1).1]
    rfl

theorem digitsValue_decimal (n : ℕ) : digitsValue 0 (decimal n) = n := by
  rw [decimal, digitsValue_map fun d hd => Nat.isDigit_of_mem_toDigits (by omega) (by omega) hd]
  exact Nat.ofDigitChars_ten_toDigits

theorem isDigit_of_mem_decimal (h : c ∈ decimal n) : isDigit c = true := by
  obtain ⟨d, hd, rfl⟩ := List.mem_map.mp h
  have hdigit := toNat_digit (Nat.isDigit_of_mem_toDigits (by omega) (by omega) hd)
  simp only [isDigit, decide_eq_true_eq]
  omega

theorem decimal_ne_nil (n : ℕ) : decimal n ≠ [] := by
  simp [decimal, Nat.toDigits_ne_nil]

/-- A number is printed with at most `k` digits exactly below `10 ^ k`. -/
theorem length_decimal_le {k : ℕ} (hk : 0 < k) : (decimal n).length ≤ k ↔ n < 10 ^ k := by
  rw [decimal, List.length_map, Nat.length_toDigits_le_iff (by omega) hk]

/-- `%d` reads a printed number back, up to the first byte that is no digit. -/
theorem scanInt_decimal (h : isDigit c = false) (s : List UInt8) :
    scanInt (decimal n ++ c :: s) = (some (n : ℤ), c :: s) := by
  have hdigits : ∀ d ∈ decimal n, isDigit d = true := fun d hd => isDigit_of_mem_decimal hd
  have hsigned : scanSign (skipSpace (decimal n ++ c :: s)) = (false, decimal n ++ c :: s) := by
    cases hcons : decimal n with
    | nil => exact absurd hcons (decimal_ne_nil n)
    | cons d ds =>
      have hd : isDigit d = true := hdigits d (by rw [hcons]; exact List.mem_cons_self)
      rw [List.cons_append, skipSpace_cons (isSpace_of_isDigit hd), scanSign_of_isDigit hd]
  have htake : (decimal n ++ c :: s).takeWhile isDigit = decimal n := by
    rw [List.takeWhile_append_of_pos hdigits, List.takeWhile_cons_of_neg (by simp [h]),
      List.append_nil]
  have hdrop : (decimal n ++ c :: s).dropWhile isDigit = c :: s := by
    rw [List.dropWhile_append_of_pos hdigits, List.dropWhile_cons_of_neg (by simp [h])]
  simp only [scanInt, hsigned, htake, hdrop, if_neg (decimal_ne_nil n), digitsValue_decimal,
    Bool.false_eq_true, if_false]

/-! ## Words -/

theorem word_cons (hc : isSpace c = false) (s : List UInt8) : word (c :: s) = c :: word s := by
  simp [word, hc]

theorem afterWord_cons (hc : isSpace c = false) (s : List UInt8) :
    afterWord (c :: s) = afterWord s := by
  simp [afterWord, hc]

theorem word_space (hc : isSpace c = true) (s : List UInt8) : word (c :: s) = [] := by
  simp [word, hc]

theorem afterWord_space (hc : isSpace c = true) (s : List UInt8) :
    afterWord (c :: s) = c :: s := by
  simp [afterWord, hc]

/-- A word is found up to white space, or to the end of the input. -/
theorem word_append (hw : ∀ b ∈ w, isSpace b = false) (hs : ∀ b ∈ s.head?, isSpace b = true) :
    word (w ++ s) = w ∧ afterWord (w ++ s) = s := by
  have hinside : ∀ b ∈ w, (!isSpace b) = true := by
    intro b hb
    rw [hw b hb, Bool.not_false]
  rw [word, afterWord, List.takeWhile_append_of_pos hinside, List.dropWhile_append_of_pos hinside]
  cases s with
  | nil => exact ⟨List.append_nil w, rfl⟩
  | cons b s =>
    have hb : isSpace b = true := hs b rfl
    have hword : (b :: s).takeWhile (!isSpace ·) = [] := word_space hb s
    rw [hword, List.append_nil]
    exact ⟨rfl, afterWord_space hb s⟩

/-- `%s` reads a word back, up to the end of the input. -/
theorem scanWord_word (hne : w ≠ []) (hw : ∀ b ∈ w, isSpace b = false) :
    scanWord w = (some w, []) := by
  have hskip : skipSpace w = w := by
    cases w with
    | nil => rfl
    | cons c w => exact skipSpace_cons (hw c List.mem_cons_self) w
  have hend : ∀ b ∈ ([] : List UInt8).head?, isSpace b = true := fun b hb => by cases hb
  obtain ⟨hword, hafter⟩ := word_append hw hend
  rw [List.append_nil] at hword hafter
  rw [scanWord, hskip, hword, hafter, if_neg hne]

/-! ## Integers -/

theorem toInt_toInt32 {overflow : ℤ → Int32} {v : ℤ} (h : -2 ^ 31 ≤ v ∧ v < 2 ^ 31) :
    (toInt32 overflow v).toInt = v := by
  rw [toInt32, if_pos h]
  exact Int32.toInt_ofInt_of_le h.1 h.2

/-- An `int` keeps exactly the numbers that fit, whatever it gets for the others. -/
theorem toInt_toInt32_iff (overflow : ℤ → Int32) (v : ℤ) :
    (toInt32 overflow v).toInt = v ↔ -2 ^ 31 ≤ v ∧ v < 2 ^ 31 := by
  constructor
  · intro h
    rw [← h]
    exact ⟨Int32.le_toInt _, Int32.toInt_lt _⟩
  · exact toInt_toInt32

end OsLabs.Bytes
