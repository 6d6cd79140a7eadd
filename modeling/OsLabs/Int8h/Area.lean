import OsLabs.Int8h.Ending

/-!
# The timer interrupt: the data area

What the handler keeps in memory as a record of numbers, with what each part of the handler
makes of it, and `handled` for the whole of it. The bytes of the memory stand for such a
record, and every part of the handler changes it as the record says (`area_handled`).
-/

namespace OsLabs.Int8h

open RealMode

/-- The counter at `40:6C`, the byte `40:70`, the motor counter and the motor flags at `40:40`
and `40:3F`, and the word `40:314`. -/
@[ext]
structure Area where
  low : Word
  high : Word
  overflow : Byte
  motor : Byte
  status : Byte
  state : Word
deriving DecidableEq, Repr

def area (d : ℕ → Byte) : Area where
  low := wordAt d 0x46C
  high := wordAt d 0x46E
  overflow := d 0x470
  motor := d 0x440
  status := d 0x43F
  state := wordAt d 0x714

/-- The address of a byte of the area. -/
def Cell (x : ℕ) : Prop :=
  x = 0x43F ∨ x = 0x440 ∨ 0x46C ≤ x ∧ x ≤ 0x470 ∨ x = 0x714 ∨ x = 0x715

namespace Area

variable (a : Area)

def masked : Area :=
  if a.state &&& 0x2400 = 0 then { a with state := a.state &&& 0xFDFF } else a

def ticked : Area :=
  if a.low + 1 = 0 then { a with low := a.low + 1, high := a.high + 1 }
  else { a with low := a.low + 1 }

def rolled : Area :=
  if a.high = 0x18 ∧ a.low = 0xB0 then { a with low := 0, high := 0, overflow := 1 } else a

def motored : Area :=
  if a.motor - 1 = 0 then { a with motor := a.motor - 1, status := a.status &&& 0xF0 }
  else { a with motor := a.motor - 1 }

def handedBack (f : Flags) : Area :=
  if a.state &&& 0x2400 = 0 ∧ f.trap = false then
    { a with state := if f.interrupt then a.state ||| 0x200 else a.state &&& 0xFDFF }
  else a

/-- One interrupt, of a program with the flags `f`. -/
def handled (f : Flags) : Area := a.masked.ticked.rolled.motored.masked.handedBack f

/-- The way out is the one without `iret`. -/
def Emulated (f : Flags) : Prop :=
  a.state &&& 0x2400 = 0 ∧ f.trap = false ∧ (f.interrupt = true → a.state &&& 3 = 0)

instance (f : Flags) : Decidable (a.Emulated f) := inferInstanceAs (Decidable (_ ∧ _ ∧ _))

section Emulated

variable {a} (f : Flags)

theorem emulated_masked : a.masked.Emulated f ↔ a.Emulated f := by
  unfold masked
  by_cases h : a.state &&& 0x2400 = 0
  · rw [if_pos h]
    unfold Emulated
    rw [BitVec.and_assoc, BitVec.and_assoc]
    rfl
  · rw [if_neg h]

theorem emulated_ticked : a.ticked.Emulated f ↔ a.Emulated f := by
  unfold ticked
  split <;> rfl

theorem emulated_rolled : a.rolled.Emulated f ↔ a.Emulated f := by
  unfold rolled
  split <;> rfl

theorem emulated_motored : a.motored.Emulated f ↔ a.Emulated f := by
  unfold motored
  split <;> rfl

end Emulated

theorem motor_masked : a.masked.motor = a.motor := by
  unfold masked
  split <;> rfl

theorem motor_ticked : a.ticked.motor = a.motor := by
  unfold ticked
  split <;> rfl

theorem motor_rolled : a.rolled.motor = a.motor := by
  unfold rolled
  split <;> rfl

/-- What is written to the disk controller. -/
def motorOff : List (Word × Byte) := if a.motor - 1 = 0 then [(0x03F2, 0x0C)] else []

/-- The ticks since midnight. -/
def clock : ℕ := a.high.toNat * 65536 + a.low.toNat

/-- A day in ticks. -/
def day : ℕ := 0x1800B0

theorem clock_masked : a.masked.clock = a.clock := by
  unfold masked clock
  split <;> rfl

theorem clock_motored : a.motored.clock = a.clock := by
  unfold motored clock
  split <;> rfl

theorem clock_handedBack (f : Flags) : (a.handedBack f).clock = a.clock := by
  unfold handedBack clock
  split <;> rfl

theorem clock_ticked : a.ticked.clock = (a.clock + 1) % 2 ^ 32 := by
  have hl := a.low.isLt
  have hh := a.high.isLt
  unfold ticked clock
  by_cases h : a.low + 1 = 0
  · rw [if_pos h]
    have hlow : a.low.toNat = 65535 := by
      have := congrArg BitVec.toNat h
      rw [BitVec.toNat_add] at this
      simp at this
      omega
    simp only [h, BitVec.toNat_add]
    simp
    omega
  · rw [if_neg h]
    have hlow : (a.low + 1).toNat = a.low.toNat + 1 := by
      bv_omega
    simp only [hlow]
    omega

/-- The two comparisons find the end of the day. -/
theorem clock_eq_day : a.clock = day ↔ a.high = 0x18 ∧ a.low = 0xB0 := by
  have hl := a.low.isLt
  have hh := a.high.isLt
  unfold clock day
  constructor
  · intro h
    constructor
    · bv_omega
    · bv_omega
  · rintro ⟨h, l⟩
    rw [h, l]
    rfl

theorem clock_rolled : a.rolled.clock = if a.clock = day then 0 else a.clock := by
  unfold rolled
  simp only [← clock_eq_day]
  split
  · simp [clock]
  · rfl

theorem overflow_rolled : a.rolled.overflow = if a.clock = day then 1 else a.overflow := by
  unfold rolled
  simp only [← clock_eq_day]
  split
  · rfl
  · rfl

/-- The counter does not wrap around to the end of the day. -/
theorem clock_ticked_eq_day : a.ticked.clock = day ↔ a.clock + 1 = day := by
  have hl := a.low.isLt
  have hh := a.high.isLt
  rw [clock_ticked]
  unfold clock day
  omega

/-- The interrupt counts, and starts again at midnight. -/
theorem clock_handled (f : Flags) :
    (a.handled f).clock = if a.clock + 1 = day then 0 else (a.clock + 1) % 2 ^ 32 := by
  unfold handled
  rw [clock_handedBack, clock_masked, clock_motored, clock_rolled]
  simp only [clock_ticked_eq_day]
  rw [clock_ticked, clock_masked]

theorem overflow_handled (f : Flags) :
    (a.handled f).overflow = if a.clock + 1 = day then 1 else a.overflow := by
  have hmasked : ∀ b : Area, b.masked.overflow = b.overflow := by
    intro b
    unfold masked
    split <;> rfl
  have hback : ∀ b : Area, (b.handedBack f).overflow = b.overflow := by
    intro b
    unfold handedBack
    split <;> rfl
  have hmotored : ∀ b : Area, b.motored.overflow = b.overflow := by
    intro b
    unfold motored
    split <;> rfl
  have hticked : a.masked.ticked.overflow = a.overflow := by
    unfold ticked
    split <;> exact hmasked a
  unfold handled
  rw [hback, hmasked, hmotored, overflow_rolled, hticked]
  simp only [clock_ticked_eq_day, clock_masked]

/-- It keeps the time of the day. -/
theorem clock_handled_of_lt (f : Flags) (h : a.clock < day) :
    (a.handled f).clock = (a.clock + 1) % day := by
  rw [clock_handled]
  unfold day at *
  split
  next heq => rw [heq]
  next hne => omega

end Area

section Bytes

variable (d : ℕ → Byte)

theorem area_masked : area (masked d) = (area d).masked := by
  by_cases h : state d &&& 0x2400 = 0
  · have ha : (area d).masked = { area d with state := state d &&& 0xFDFF } := if_pos h
    rw [show masked d = putWord d 0x714 (state d &&& 0xFDFF) from if_pos h, ha]
    apply Area.ext <;> simp [area, wordAt_putWord_of_ne, putWord_of_ne]
  · rw [show masked d = d from if_neg h, show (area d).masked = area d from if_neg h]

theorem area_ticked : area (ticked d) = (area d).ticked := by
  let d₁ := putWord d 0x46C (wordAt d 0x46C + 1)
  by_cases h : wordAt d 0x46C + 1 = 0
  · have hd : ticked d = putWord d₁ 0x46E (wordAt d 0x46E + 1) := if_pos h
    have ha : (area d).ticked =
        { area d with low := wordAt d 0x46C + 1, high := wordAt d 0x46E + 1 } := if_pos h
    rw [hd, ha]
    apply Area.ext <;> simp [area, d₁, wordAt_putWord_of_ne, putWord_of_ne]
  · have ha : (area d).ticked = { area d with low := wordAt d 0x46C + 1 } := if_neg h
    rw [show ticked d = d₁ from if_neg h, ha]
    apply Area.ext <;> simp [area, d₁, wordAt_putWord_of_ne, putWord_of_ne]

theorem area_rolled : area (rolled d) = (area d).rolled := by
  by_cases h : Midnight d
  · have hd : rolled d =
        Function.update (putWord (putWord d 0x46E 0) 0x46C 0) 0x470 1 := if_pos h
    have ha : (area d).rolled = { area d with low := 0, high := 0, overflow := 1 } := if_pos h
    rw [hd, ha]
    apply Area.ext <;> simp [area, wordAt_putWord_of_ne, putWord_of_ne, wordAt_update_of_ne]
  · rw [show rolled d = d from if_neg h, show (area d).rolled = area d from if_neg h]

theorem area_motored : area (motored d) = (area d).motored := by
  let d₁ := Function.update d 0x440 (d 0x440 - 1)
  by_cases h : d 0x440 - 1 = 0
  · have hd : motored d = Function.update d₁ 0x43F (d 0x43F &&& 0xF0) := if_pos h
    have ha : (area d).motored =
        { area d with motor := d 0x440 - 1, status := d 0x43F &&& 0xF0 } := if_pos h
    rw [hd, ha]
    apply Area.ext <;> simp [area, d₁, wordAt_update_of_ne]
  · have ha : (area d).motored = { area d with motor := d 0x440 - 1 } := if_neg h
    rw [show motored d = d₁ from if_neg h, ha]
    apply Area.ext <;> simp [area, d₁, wordAt_update_of_ne]

theorem area_handedBack (f : Flags) : area (handedBack f d) = (area d).handedBack f := by
  let w := if f.interrupt then state d ||| 0x200 else state d &&& 0xFDFF
  by_cases h : state d &&& 0x2400 = 0 ∧ f.trap = false
  · have ha : (area d).handedBack f = { area d with state := w } := if_pos h
    rw [show handedBack f d = putWord d 0x714 w from if_pos h, ha]
    apply Area.ext <;> simp [area, wordAt_putWord_of_ne, putWord_of_ne]
  · rw [show handedBack f d = d from if_neg h, show (area d).handedBack f = area d from if_neg h]

variable {d} {d' : ℕ → Byte}

/-- The area is in its own bytes. -/
theorem area_congr (h : ∀ x, Cell x → d' x = d x) : area d' = area d := by
  have hword : ∀ x, Cell x → Cell (x + 1) → wordAt d' x = wordAt d x := fun x hx hx' =>
    wordAt_congr d (h x hx) (h (x + 1) hx')
  apply Area.ext
  all_goals simp only [area]
  · rw [hword _ (by unfold Cell; omega) (by unfold Cell; omega)]
  · rw [hword _ (by unfold Cell; omega) (by unfold Cell; omega)]
  · rw [h _ (by unfold Cell; omega)]
  · rw [h _ (by unfold Cell; omega)]
  · rw [h _ (by unfold Cell; omega)]
  · rw [hword _ (by unfold Cell; omega) (by unfold Cell; omega)]

section Outside

variable (d) {x : ℕ} (hx : ¬Cell x)
include hx

theorem masked_outside : masked d x = d x := by
  unfold masked
  split
  · exact putWord_of_ne d _ (by unfold Cell at hx; omega)
  · rfl

theorem ticked_outside : ticked d x = d x := by
  unfold Cell at hx
  unfold ticked
  have hlow : putWord d 0x46C (wordAt d 0x46C + 1) x = d x := putWord_of_ne d _ (by omega)
  split
  · rw [putWord_of_ne _ _ (by omega), hlow]
  · exact hlow

theorem rolled_outside : rolled d x = d x := by
  unfold Cell at hx
  unfold rolled
  split
  · rw [Function.update_of_ne (by omega), putWord_of_ne _ _ (by omega)]
    exact putWord_of_ne d _ (by omega)
  · rfl

theorem motored_outside : motored d x = d x := by
  unfold Cell at hx
  unfold motored
  have hmotor : Function.update d 0x440 (d 0x440 - 1) x = d x :=
    Function.update_of_ne (by omega) ..
  split
  · rw [Function.update_of_ne (by omega), hmotor]
  · exact hmotor

theorem handedBack_outside (f : Flags) : handedBack f d x = d x := by
  unfold handedBack
  split
  · exact putWord_of_ne d _ (by unfold Cell at hx; omega)
  · rfl

end Outside

end Bytes

end OsLabs.Int8h
