import Mathlib.Tactic.Common

/-!
# Words and flags of a real mode processor

The flags are kept one by one. `Flags.toWord` is the word that an interrupt pushes, with bit
1 set and the other reserved bits clear, and `Flags.low` its low byte, the one of `lahf`.
Where the manual leaves AF undefined, behind a logical operation, it reads as clear.
-/

namespace OsLabs.RealMode

abbrev Byte := BitVec 8

abbrev Word := BitVec 16

def lowByte (w : Word) : Byte := w.setWidth 8

def highByte (w : Word) : Byte := w.extractLsb' 8 8

section Bytes

variable (h l : Byte) (w : Word)

@[simp]
theorem lowByte_append : lowByte (h ++ l) = l := BitVec.setWidth_append_eq_right

@[simp]
theorem highByte_append : highByte (h ++ l) = h := BitVec.extractLsb'_append_eq_left

@[simp]
theorem append_bytes : (highByte w ++ lowByte w : BitVec (8 + 8)) = w := by
  apply BitVec.eq_of_getLsbD_eq
  intro i hi
  rw [BitVec.getLsbD_append]
  unfold highByte lowByte
  by_cases hlow : i < 8
  · simp [hlow]
  · simp only [hlow, if_false, BitVec.getLsbD_extractLsb']
    rw [show 8 + (i - 8) = i by omega]
    simp [show i - 8 < 8 by omega]

end Bytes

/-- `test` with a mask of one bit finds that bit. -/
theorem and_twoPow_eq_zero {n : ℕ} (w : BitVec n) {i : ℕ} (hi : i < n) :
    w &&& BitVec.twoPow n i = 0#n ↔ w.getLsbD i = false := by
  rw [BitVec.and_twoPow]
  cases w.getLsbD i with
  | false => simp
  | true =>
    have hne : BitVec.twoPow n i ≠ 0#n := by
      intro h0
      have hbit := congrArg (fun v => v.getLsbD i) h0
      simp [hi] at hbit
    simpa using hne

/-- CF, PF, AF, ZF, SF, TF, IF, DF and OF. -/
structure Flags where
  carry : Bool
  parity : Bool
  aux : Bool
  zero : Bool
  sign : Bool
  trap : Bool
  interrupt : Bool
  direction : Bool
  overflow : Bool
deriving DecidableEq, Repr

/-- PF is set for an even number of ones. -/
def evenParity (b : Byte) : Bool := (List.range 8).foldl (fun p i => p != b.getLsbD i) true

namespace Flags

/-- The byte `SF:ZF:0:AF:0:PF:1:CF`. -/
def low (f : Flags) : Byte :=
  BitVec.ofBoolListLE [f.carry, true, f.parity, false, f.aux, false, f.zero, f.sign]

/-- The byte `0:0:0:0:OF:DF:IF:TF`. -/
def high (f : Flags) : Byte :=
  BitVec.ofBoolListLE
    [f.trap, f.interrupt, f.direction, f.overflow, false, false, false, false]

def toWord (f : Flags) : Word := f.high ++ f.low

/-- What `sahf` takes from `ah`. -/
def withLow (f : Flags) (b : Byte) : Flags :=
  { f with
    carry := b.getLsbD 0
    parity := b.getLsbD 2
    aux := b.getLsbD 4
    zero := b.getLsbD 6
    sign := b.getLsbD 7 }

/-- What `iret` takes from the high byte on the stack. -/
def withHigh (f : Flags) (b : Byte) : Flags :=
  { f with
    trap := b.getLsbD 0
    interrupt := b.getLsbD 1
    direction := b.getLsbD 2
    overflow := b.getLsbD 3 }

/-- The flags behind `iret`, from the word on the stack. -/
def popped (f : Flags) (w : Word) : Flags := (f.withLow (lowByte w)).withHigh (highByte w)

variable (f g : Flags)

/-- `sahf` behind `lahf` gives back the five flags of the low byte and no other. -/
@[simp]
theorem withLow_low :
    g.withLow f.low =
      { f with
        trap := g.trap
        interrupt := g.interrupt
        direction := g.direction
        overflow := g.overflow } := by
  simp only [withLow, low, BitVec.getLsbD_ofBoolListLE]
  rfl

@[simp]
theorem withHigh_high :
    g.withHigh f.high =
      { g with
        trap := f.trap
        interrupt := f.interrupt
        direction := f.direction
        overflow := f.overflow } := by
  simp only [withHigh, high, BitVec.getLsbD_ofBoolListLE]
  rfl

@[simp]
theorem lowByte_toWord : lowByte f.toWord = f.low := lowByte_append f.high f.low

@[simp]
theorem highByte_toWord : highByte f.toWord = f.high := highByte_append f.high f.low

theorem toWord_getLsbD_high (i : ℕ) : f.toWord.getLsbD (i + 8) = f.high.getLsbD i := by
  unfold toWord
  rw [BitVec.getLsbD_append, if_neg (by omega), Nat.add_sub_cancel]

theorem toWord_and_trap : f.toWord &&& 0x100#16 = 0#16 ↔ f.trap = false := by
  rw [show 0x100#16 = BitVec.twoPow 16 8 from rfl, and_twoPow_eq_zero f.toWord (by omega)]
  rw [toWord_getLsbD_high f 0, high, BitVec.getLsbD_ofBoolListLE]
  rfl

theorem toWord_and_interrupt : f.toWord &&& 0x200#16 = 0#16 ↔ f.interrupt = false := by
  rw [show 0x200#16 = BitVec.twoPow 16 9 from rfl, and_twoPow_eq_zero f.toWord (by omega)]
  rw [toWord_getLsbD_high f 1, high, BitVec.getLsbD_ofBoolListLE]
  rfl

theorem high_and_direction : f.high &&& 4#8 = 0#8 ↔ f.direction = false := by
  rw [show 4#8 = BitVec.twoPow 8 2 from rfl, and_twoPow_eq_zero f.high (by omega)]
  rw [high, BitVec.getLsbD_ofBoolListLE]
  rfl

theorem high_and_overflow : f.high &&& 8#8 = 0#8 ↔ f.overflow = false := by
  rw [show 8#8 = BitVec.twoPow 8 3 from rfl, and_twoPow_eq_zero f.high (by omega)]
  rw [high, BitVec.getLsbD_ofBoolListLE]
  rfl

/-- `iret` gives back the flags that an interrupt has pushed. -/
@[simp]
theorem popped_toWord : g.popped f.toWord = f := by
  simp [popped]

/-- The flags that show the result alone. -/
def ofResult {n : ℕ} (r : BitVec n) : Flags :=
  { f with zero := r == 0, sign := r.msb, parity := evenParity (r.setWidth 8) }

/-- The flags behind `test`, `and`, `or` and `xor`. -/
def logic {n : ℕ} (r : BitVec n) : Flags :=
  { f.ofResult r with carry := false, overflow := false, aux := false }

/-- The flags behind `add`. -/
def add {n : ℕ} (a b : BitVec n) : Flags :=
  { f.ofResult (a + b) with
    carry := BitVec.uaddOverflow a b
    overflow := BitVec.saddOverflow a b
    aux := BitVec.uaddOverflow (a.setWidth 4) (b.setWidth 4) }

/-- The flags behind `sub` and `cmp`. -/
def sub {n : ℕ} (a b : BitVec n) : Flags :=
  { f.ofResult (a - b) with
    carry := BitVec.usubOverflow a b
    overflow := BitVec.ssubOverflow a b
    aux := BitVec.usubOverflow (a.setWidth 4) (b.setWidth 4) }

/-- `inc` and `dec` leave CF as it is. -/
def inc {n : ℕ} (a : BitVec n) : Flags := { f.add a 1 with carry := f.carry }

def dec {n : ℕ} (a : BitVec n) : Flags := { f.sub a 1 with carry := f.carry }

section Untouched

variable {n : ℕ} (r a b : BitVec n)

@[simp]
theorem logic_zero : (f.logic r).zero = (r == 0) := rfl

@[simp]
theorem logic_overflow : (f.logic r).overflow = false := rfl

/-- `cmp` sets ZF exactly for equal operands. -/
@[simp]
theorem sub_zero : (f.sub a b).zero = (a == b) := by
  show (a - b == 0) = (a == b)
  rw [Bool.eq_iff_iff, beq_iff_eq, beq_iff_eq, BitVec.sub_eq_iff_eq_add]
  simp

@[simp]
theorem inc_zero : (f.inc a).zero = (a + 1 == 0) := rfl

@[simp]
theorem dec_zero : (f.dec a).zero = (a - 1 == 0) := rfl

@[simp]
theorem logic_trap : (f.logic r).trap = f.trap := by
  unfold logic ofResult
  rfl

@[simp]
theorem logic_interrupt : (f.logic r).interrupt = f.interrupt := by
  unfold logic ofResult
  rfl

@[simp]
theorem logic_direction : (f.logic r).direction = f.direction := by
  unfold logic ofResult
  rfl

@[simp]
theorem add_trap : (f.add a b).trap = f.trap := by
  unfold add ofResult
  rfl

@[simp]
theorem add_interrupt : (f.add a b).interrupt = f.interrupt := by
  unfold add ofResult
  rfl

@[simp]
theorem add_direction : (f.add a b).direction = f.direction := by
  unfold add ofResult
  rfl

@[simp]
theorem add_overflow : (f.add a b).overflow = BitVec.saddOverflow a b := by
  unfold add ofResult
  rfl

/-- Neither TF nor IF is set, and no arithmetic sets them. -/
def masked : Bool := !f.trap && !f.interrupt

@[simp]
theorem logic_masked : (f.logic r).masked = f.masked := by
  unfold masked logic ofResult
  rfl

@[simp]
theorem add_masked : (f.add a b).masked = f.masked := by
  unfold masked add ofResult
  rfl

@[simp]
theorem sub_masked : (f.sub a b).masked = f.masked := by
  unfold masked sub ofResult
  rfl

@[simp]
theorem inc_masked : (f.inc a).masked = f.masked := by
  unfold masked inc add ofResult
  rfl

@[simp]
theorem dec_masked : (f.dec a).masked = f.masked := by
  unfold masked dec sub ofResult
  rfl

end Untouched

end Flags

end OsLabs.RealMode
