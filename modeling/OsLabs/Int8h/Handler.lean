import OsLabs.Int8h.Listing
import OsLabs.RealMode.Sweep

/-!
# The timer interrupt: the handler

What each block of the listing makes of the registers, the flags and the data, over a stack
and a data area that are kept apart (`Tower`): the registers are saved, the counter goes one
on (`ticked`) and starts again at 24 hours (`rolled`), the motor counter goes one down
(`motored`), and the user's routine is reached with a return address in the handler
(`hooked_spec`). Behind it the registers are restored (`restored_spec`). `sub_1` is called
before and behind all this (`sub_1_spec`).
-/

namespace OsLabs.Int8h

open RealMode StateTransition Handler

variable {W : Window 0x716}

/-- The processor at `seg:ip`, over another memory. -/
def here (s : Cpu (Tower W)) (ip : Word) (t : Tower W) : Cpu (Tower W) :=
  { s with cs := seg, ip := ip, mem := t }

/-- A run of the listing. -/
def Run {M : Type} [Store M] (s s' : Cpu M) : Prop := Reaches (step seg listing) s s'

namespace Run

variable {M : Type} [Store M] {s s' s'' : Cpu M}

theorem trans (h : Run s s') (h' : Run s' s'') : Run s s'' := Relation.ReflTransGen.trans h h'

theorem of_eq (h : Run s s') (he : s' = s'') : Run s s'' := he ▸ h

theorem of_sweep (ls : List Line) (hls : ∀ l ∈ ls, l ∈ listing)
    (h : sweep seg ls s = some s') : Run s s' :=
  reaches_of_sweep (fun l hl => fetch_of_mem l (hls l hl)) h

end Run

/-- The word `ds:[314h]`. -/
abbrev state (d : ℕ → Byte) : Word := wordAt d 0x714

/-- What `sub_1` makes of the data. -/
def masked (d : ℕ → Byte) : ℕ → Byte :=
  if state d &&& 0x2400 = 0 then putWord d 0x714 (state d &&& 0xFDFF) else d

/-- What `sub_1` makes of the flags. -/
def maskedFlags (f : Flags) (d : ℕ → Byte) : Flags :=
  if state d &&& 0x2400 = 0 then { f with overflow := false }
  else { f with overflow := false, interrupt := false }

/-- `sub_1` from `loc_6` on. -/
theorem sub_1_leave (s : Cpu (Tower W)) (a b r : Word) (ws : List Word) (k : ℕ)
    (d : ℕ → Byte) :
    Run (here s loc_6 ⟨a :: b :: r :: ws, k, d⟩)
      (here
        { s with
          regs := { s.regs.set a .ax with ds := b }
          flags := s.flags.withLow s.regs.ah }
        r ⟨ws, k + 3, d⟩) := by
  apply Run.of_sweep (block_6 ++ block_8) (by decide +kernel)
  simp [here, block_6, block_8, loc_6, loc_8]

theorem sub_1_spec (s : Cpu (Tower W)) (r : Word) (ws : List Word) (k : ℕ) (d : ℕ → Byte) :
    Run (here s sub_1 ⟨r :: ws, k + 2, d⟩)
      (here { s with flags := maskedFlags s.flags d } r ⟨ws, k + 3, masked d⟩) := by
  let entered : Regs := { s.regs with al := lowByte 0x40, ah := s.flags.low, ds := 0x40 }
  let tested : Flags := s.flags.logic (state d &&& 0x2400)
  by_cases h : state d &&& 0x2400#16 = 0#16
  · have hdown : Run (here s sub_1 ⟨r :: ws, k + 2, d⟩)
        (here { s with regs := entered, flags := tested.logic (state d &&& 0xFDFF) } loc_6
          ⟨s.regs.ax :: s.regs.ds :: r :: ws, k, masked d⟩) := by
      apply Run.of_sweep block_sub_1 (by decide +kernel)
      simp [here, sub_1, block_sub_1, h, loc_6, entered, tested, masked]
    apply hdown.trans
    have hup := sub_1_leave (W := W)
      { s with regs := entered, flags := tested.logic (state d &&& 0xFDFF) }
      s.regs.ax s.regs.ds r ws k (masked d)
    apply hup.of_eq
    simp [entered, tested, maskedFlags, h]
  · have hdown : Run (here s sub_1 ⟨r :: ws, k + 2, d⟩)
        (here { s with regs := entered, flags := { tested with interrupt := false } } loc_6
          ⟨s.regs.ax :: s.regs.ds :: r :: ws, k, masked d⟩) := by
      apply Run.of_sweep (block_sub_1 ++ block_7)
        (by decide +kernel)
      simp [here, sub_1, block_sub_1, block_7, h, loc_6, loc_7, entered, tested, masked]
    apply hdown.trans
    have hup := sub_1_leave (W := W)
      { s with regs := entered, flags := { tested with interrupt := false } }
      s.regs.ax s.regs.ds r ws k (masked d)
    apply hup.of_eq
    simp [entered, tested, maskedFlags, h]

/-- `020A:0749` to `020A:0756`: the registers are saved, and `ds` and `es` set. -/
theorem save_spec (s : Cpu (Tower W)) (ws : List Word) (k : ℕ) (d : ℕ → Byte) :
    Run (here s 0x0749 ⟨ws, k + 4, d⟩)
      (here
        { s with
          regs := { s.regs.set 0 .ax with ds := 0x40, es := 0 }
          flags := s.flags.logic (0 : Word) }
        0x0756 ⟨s.regs.dx :: s.regs.ax :: s.regs.ds :: s.regs.es :: ws, k, d⟩) := by
  apply Run.of_sweep (block_0.take 9) (by decide +kernel)
  simp [here, block_0]

/-- The counter one further, without an end. -/
def ticked (d : ℕ → Byte) : ℕ → Byte :=
  let d₁ := putWord d 0x46C (wordAt d 0x46C + 1)
  if wordAt d 0x46C + 1 = 0 then putWord d₁ 0x46E (wordAt d 0x46E + 1) else d₁

def tickedFlags (f : Flags) (d : ℕ → Byte) : Flags :=
  if wordAt d 0x46C + 1 = 0 then (f.inc (wordAt d 0x46C)).inc (wordAt d 0x46E)
  else f.inc (wordAt d 0x46C)

/-- `020A:0756` to `loc_1`. -/
theorem ticked_spec (s : Cpu (Tower W)) (hds : s.regs.ds = 0x40#16) (ws : List Word) (k : ℕ)
    (d : ℕ → Byte) :
    Run (here s 0x0756 ⟨ws, k, d⟩)
      (here { s with flags := tickedFlags s.flags d } loc_1 ⟨ws, k, ticked d⟩) := by
  have hhigh : ∀ w, wordAt (putWord d 0x46C w) 0x46E = wordAt d 0x46E := fun w =>
    wordAt_putWord_of_ne d w (by omega)
  apply Run.of_sweep (block_0.drop 9) (by decide +kernel)
  by_cases h : wordAt d 0x46C + 1#16 = 0#16
  · simp [here, block_0, loc_1, hds, h, hhigh, ticked, tickedFlags]
  · simp [here, block_0, loc_1, hds, h, ticked, tickedFlags]

/-- The counter has come to 24 hours. -/
def Midnight (d : ℕ → Byte) : Prop := wordAt d 0x46E = 0x18 ∧ wordAt d 0x46C = 0xB0

instance (d : ℕ → Byte) : Decidable (Midnight d) := inferInstanceAs (Decidable (_ ∧ _))

/-- The counter starts again at midnight, and the byte `ds:[70h]` says so. -/
def rolled (d : ℕ → Byte) : ℕ → Byte :=
  if Midnight d then Function.update (putWord (putWord d 0x46E 0) 0x46C 0) 0x470 1 else d

def rolledFlags (f : Flags) (d : ℕ → Byte) : Flags :=
  if wordAt d 0x46E = 0x18 then
    if wordAt d 0x46C = 0xB0 then
      ((f.sub (wordAt d 0x46E) 0x18).sub (wordAt d 0x46C) 0xB0).logic (8 : Byte)
    else (f.sub (wordAt d 0x46E) 0x18).sub (wordAt d 0x46C) 0xB0
  else f.sub (wordAt d 0x46E) 0x18

/-- `loc_1` to `loc_2`. -/
theorem rolled_spec (s : Cpu (Tower W)) (hds : s.regs.ds = 0x40#16) (hal : s.regs.al = 0)
    (hah : s.regs.ah = 0) (ws : List Word) (k : ℕ) (d : ℕ → Byte) :
    Run (here s loc_1 ⟨ws, k, d⟩)
      (here
        { s with
          regs := { s.regs with al := if Midnight d then 8 else 0 }
          flags := rolledFlags s.flags d }
        loc_2 ⟨ws, k, rolled d⟩) := by
  have hal' : s.regs.al = 0#8 := hal
  apply Run.of_sweep block_1 (by decide +kernel)
  by_cases hh : wordAt d 0x46E = 24#16
  · by_cases hl : wordAt d 0x46C = 176#16
    · simp [here, block_1, loc_1, loc_2, hds, hal, hah, hh, hl, rolled, rolledFlags, Midnight]
    · simp [here, block_1, loc_1, loc_2, hds, hh, hl, rolled, rolledFlags, Midnight]
      rw [← hal', ← hds]
  · simp [here, block_1, loc_1, loc_2, hds, hh, rolled, rolledFlags, Midnight]
    rw [← hal', ← hds]

/-- The motor counter one down; at zero the motor is switched off. -/
def motored (d : ℕ → Byte) : ℕ → Byte :=
  let d₁ := Function.update d 0x440 (d 0x440 - 1)
  if d 0x440 - 1 = 0 then Function.update d₁ 0x43F (d 0x43F &&& 0xF0) else d₁

/-- What is written to the controller at port `3F2h`. -/
def motorOff (d : ℕ → Byte) : List (Word × Byte) :=
  if d 0x440 - 1 = 0 then [(0x03F2, 0x0C)] else []

def motoredFlags (f : Flags) (d : ℕ → Byte) : Flags :=
  if d 0x440 - 1 = 0 then (f.dec (d 0x440)).logic (d 0x43F &&& 0xF0) else f.dec (d 0x440)

/-- `loc_2` to `loc_3` and the `pop` there. -/
theorem motored_spec (s : Cpu (Tower W)) (hds : s.regs.ds = 0x40#16) (ws : List Word) (k : ℕ)
    (d : ℕ → Byte) :
    Run (here s loc_2 ⟨ws, k + 1, d⟩)
      (here
        { s with
          regs := { s.regs with dx := if d 0x440 - 1 = 0 then 0x03F2 else s.regs.dx }
          flags := motoredFlags s.flags d
          out := s.out ++ motorOff d }
        0x078F ⟨ws, k + 1, motored d⟩) := by
  apply Run.of_sweep (block_2 ++ block_3.take 1) (by decide +kernel)
  by_cases h : d 0x440 - 1#8 = 0#8
  · simp [here, block_2, block_3, loc_2, hds, h, motored, motorOff, motoredFlags]
  · simp [here, block_2, block_3, loc_2, loc_3, hds, h, motored, motorOff, motoredFlags]

/-- The word `ds:[314h]` says that the user's routine is called by `int 1Ch`. -/
def ByInt (d : ℕ → Byte) : Prop := state d &&& 4 ≠ 0

instance (d : ℕ → Byte) : Decidable (ByInt d) := inferInstanceAs (Decidable (_ ≠ _))

/-- Where the user's routine returns to. -/
def back (d : ℕ → Byte) : Word := if ByInt d then loc_5 else 0x07A0

/-- The flags that the user's routine finds on the stack. -/
def image (s : Cpu (Tower W)) (d : ℕ → Byte) : Word :=
  if ByInt d then (s.flags.logic (state d &&& 4)).toWord
  else s.regs.al ++ (s.flags.logic (state d &&& 4)).low

/-- The user's routine is reached, with the return address and the flags on the stack. -/
theorem hooked_spec (s : Cpu (Tower W)) (hds : s.regs.ds = 0x40#16) (hes : s.regs.es = 0#16)
    (ws : List Word) (k : ℕ) (d : ℕ → Byte) :
    ∃ (f : Flags) (l h : Byte),
      Run (here s 0x078F ⟨ws, k + 3, d⟩)
        { s with
          regs := { s.regs with al := l, ah := h }
          cs := wordAt d 0x72
          ip := wordAt d 0x70
          flags := f
          mem := ⟨back d :: seg :: image s d :: ws, k, d⟩ } := by
  by_cases h : state d &&& 4#16 = 0#16
  · refine ⟨s.flags.logic (0 : Word), (s.flags.logic (0 : Word)).low, s.regs.al, ?_⟩
    apply Run.of_sweep ((block_3.drop 1).take 6) (by decide +kernel)
    simp [here, block_3, hds, hes, h, back, image, ByInt]
  · refine ⟨{ s.flags.logic (state d &&& 4) with trap := false, interrupt := false },
      s.regs.al, s.regs.ah, ?_⟩
    apply Run.of_sweep (block_3.drop 1 ++ block_4) (by decide +kernel)
    simp [here, block_3, block_4, loc_4, loc_5, hds, h, back, image, ByInt]
    rw [← hds]

/-- The user's routine is called with TF and IF clear. -/
theorem image_masked (s : Cpu (Tower W)) (hf : s.flags.masked)
    (hal : s.regs.al = 0 ∨ s.regs.al = 8) (d : ℕ → Byte) (f : Flags) :
    (f.popped (image s d)).masked := by
  unfold image
  split
  next =>
    rw [Flags.popped_toWord, Flags.logic_masked]
    exact hf
  next =>
    unfold Flags.popped
    rw [highByte_append, lowByte_append]
    rcases hal with hal | hal
    · rw [hal]
      rfl
    · rw [hal]
      rfl

section Flags

variable {f : Flags} (hf : f.masked) (d : ℕ → Byte)
include hf

theorem maskedFlags_masked : (maskedFlags f d).masked := by
  unfold maskedFlags
  unfold Flags.masked at hf ⊢
  split
  · exact hf
  · simp at hf ⊢
    exact hf.1

theorem tickedFlags_masked : (tickedFlags f d).masked := by
  unfold tickedFlags
  split <;> simpa using hf

theorem rolledFlags_masked : (rolledFlags f d).masked := by
  unfold rolledFlags
  split
  · split <;> simpa using hf
  · simpa using hf

theorem motoredFlags_masked : (motoredFlags f d).masked := by
  unfold motoredFlags
  split <;> simpa using hf

end Flags

/-- Behind the user's routine: the controller is told, and the registers are back. -/
theorem restored_spec (s : Cpu (Tower W)) (d₀ : ℕ → Byte) (dx ax ds es : Word)
    (ws : List Word) (k : ℕ) (d : ℕ → Byte) :
    Run (here s (back d₀) ⟨dx :: ax :: ds :: es :: ws, k + 3, d⟩)
      (here
        { s with
          regs := { s.regs.set ax .ax with dx := dx, ds := ds, es := es }
          flags := maskedFlags s.flags d
          out := s.out ++ [(0x20, 0x20)] }
        Ending.start ⟨ws, k + 7, masked d⟩) := by
  have hto : Run (here s (back d₀) ⟨dx :: ax :: ds :: es :: ws, k + 3, d⟩)
      (here s sub_1 ⟨0x07A8 :: dx :: ax :: ds :: es :: ws, k + 2, d⟩) := by
    by_cases h : ByInt d₀
    · apply Run.of_sweep (block_5.take 1) (by decide +kernel)
      simp [here, back, h, block_5, loc_5, sub_1]
    · apply Run.of_sweep (block_3.drop 7 ++ block_5.take 1) (by decide +kernel)
      simp [here, back, h, block_3, block_5, loc_5, sub_1]
  apply hto.trans
  apply (sub_1_spec s 0x07A8 (dx :: ax :: ds :: es :: ws) k d).trans
  apply Run.of_sweep (block_5.drop 1) (by decide +kernel)
  simp [here, block_5, Ending.start]

end OsLabs.Int8h
