import OsLabs.Int8h.Handler

/-!
# The timer interrupt: the way out

Behind the handler the interrupted program gets its flags back either by `iret` or, where the
word `ds:[314h]` allows it, one by one: `sahf` and `cld` or `std`, an addition that overflows
or a `test` that does not, and then a `retf` that drops the flags on the stack. The interrupt
flag is then bit 9 of `ds:[314h]`.
-/

namespace OsLabs.Int8h

open RealMode Ending

variable {W : Window 0x716}

/-- `loc_8`: out by `iret`. -/
theorem iret_spec (s : Cpu (Tower W)) (ax ds ip cs w : Word) (ws : List Word) (k : ℕ)
    (d : ℕ → Byte) :
    Run (here s loc_8 ⟨ax :: ds :: ip :: cs :: w :: ws, k, d⟩)
      { s with
        regs := { s.regs.set ax .ax with ds := ds }
        cs := cs
        ip := ip
        flags := s.flags.popped w
        mem := ⟨ws, k + 5, d⟩ } := by
  apply Run.of_sweep block_8 (by decide +kernel)
  simp [here, loc_8, block_8]

/-- `loc_3`: out by `retf`. -/
theorem retf_spec (s : Cpu (Tower W)) (ax ds ip cs w : Word) (ws : List Word) (k : ℕ)
    (d : ℕ → Byte) :
    Run (here s loc_3 ⟨ax :: ds :: ip :: cs :: w :: ws, k, d⟩)
      { s with
        regs := { s.regs.set ax .ax with ds := ds }
        cs := cs
        ip := ip
        flags := s.flags.withLow s.regs.ah
        mem := ⟨ws, k + 5, d⟩ } := by
  apply Run.of_sweep block_3 (by decide +kernel)
  have hrelease : Store.release 2#16 (⟨w :: ws, k + 4, d⟩ : Tower W) = some ⟨ws, k + 5, d⟩ := rfl
  simp [here, loc_3, block_3, hrelease]

/-- `020A:064C` to `020A:065B`, with the test of `ds:[314h]`. -/
theorem entered_spec (s : Cpu (Tower W)) (ws : List Word) (k : ℕ) (d : ℕ → Byte) :
    Run (here s start ⟨ws, k + 2, d⟩)
      (here
        { s with
          regs := { s.regs.set 0x40 .ax with ds := 0x40 }
          flags := s.flags.logic (state d &&& 0x2400) }
        (if state d &&& 0x2400 = 0 then 0x065B else loc_8)
        ⟨s.regs.ax :: s.regs.ds :: ws, k, d⟩) := by
  apply Run.of_sweep (block_0.take 6) (by decide +kernel)
  by_cases h : state d &&& 0x2400#16 = 0#16
  · simp [here, start, block_0, h]
  · simp [here, start, block_0, h]

/-- `020A:065B` to `020A:0662`: the flags of the interrupted program come into `ax`. -/
theorem loaded_spec (s : Cpu (Tower W)) (ax ds ip cs w : Word) (ws : List Word) (k : ℕ)
    (d : ℕ → Byte) (hroom : ws.length + 6 ≤ W.room) :
    Run (here s 0x065B ⟨ax :: ds :: ip :: cs :: w :: ws, k + 1, d⟩)
      (here { s with regs := s.regs.set w .ax } 0x0662
        ⟨ax :: ds :: ip :: cs :: w :: ws, k + 1, d⟩) := by
  -- `[bp+0Ah]` is the sixth word: behind `bp`, `ax`, `ds`, `ip` and `cs`.
  let t : Tower W := ⟨s.regs.bp :: ax :: ds :: ip :: cs :: w :: ws, k, d⟩
  have hload : ∀ r c i f o,
      (⟨r, c, i, f, o, t⟩ : Cpu (Tower W)).loadWord (Store.ss t) (Store.sp t + 10#16) =
        some w := by
    intro r c i f o
    apply loadWord_stack (i := 5)
    · rfl
    · rfl
    · exact hroom
    · rfl
  apply Run.of_sweep ((block_0.drop 6).take 4) (by decide +kernel)
  simp [here, block_0, hload, t]

/-- The word `ds:[314h]` where the interrupted program goes on. -/
def handedBack (f : Flags) (d : ℕ → Byte) : ℕ → Byte :=
  if state d &&& 0x2400 = 0 ∧ f.trap = false then
    putWord d 0x714 (if f.interrupt then state d ||| 0x200 else state d &&& 0xFDFF)
  else d

/-- The way out is the one without `iret`. -/
def Emulated (f : Flags) (d : ℕ → Byte) : Prop :=
  state d &&& 0x2400 = 0 ∧ f.trap = false ∧ (f.interrupt = true → state d &&& 3 = 0)

instance (f : Flags) (d : ℕ → Byte) : Decidable (Emulated f d) :=
  inferInstanceAs (Decidable (_ ∧ _ ∧ _))

/-- `020A:0662` to `loc_1` or `loc_8`. -/
theorem chosen_spec (s : Cpu (Tower W)) (f : Flags) (hds : s.regs.ds = 0x40#16)
    (hax : s.regs.ax = f.toWord) (ws : List Word) (k : ℕ) (d : ℕ → Byte)
    (hd : state d &&& 0x2400#16 = 0#16) :
    ∃ g : Flags, g.trap = s.flags.trap ∧ g.interrupt = s.flags.interrupt ∧
      Run (here s 0x0662 ⟨ws, k, d⟩)
        (here { s with flags := g } (if Emulated f d then loc_1 else loc_8)
          ⟨ws, k, handedBack f d⟩) := by
  have hax' : (s.regs.ah ++ s.regs.al : Word) = f.toWord := hax
  let g₁ := s.flags.logic (f.toWord &&& 0x100)
  by_cases ht : f.trap = false
  · have ht' := f.toWord_and_trap.mpr ht
    let g₂ := g₁.logic (f.toWord &&& 0x200)
    by_cases hi : f.interrupt = false
    · have hi' := f.toWord_and_interrupt.mpr hi
      refine ⟨g₂.logic (state d &&& 0xFDFF), by simp [g₁, g₂], by simp [g₁, g₂], ?_⟩
      apply Run.of_sweep (block_0.drop 10 ++ block_4) (by decide +kernel)
      simp [here, block_0, block_4, loc_1, loc_4, hax', ht', hi', ht, hi, hds, hd, g₁, g₂,
        handedBack, Emulated]
    · have hi' := mt f.toWord_and_interrupt.mp hi
      have hlow : (state d ||| 0x200#16) &&& 3#16 = state d &&& 3#16 := by
        rw [BitVec.and_or_distrib_right]
        simp
      let g₃ := (g₂.logic (state d ||| 0x200)).logic (state d &&& 3)
      refine ⟨g₃, by simp [g₁, g₂, g₃], by simp [g₁, g₂, g₃], ?_⟩
      apply Run.of_sweep (block_0.drop 10) (by decide +kernel)
      by_cases hlast : state d &&& 3#16 = 0#16
      · simp [here, block_0, loc_1, hax', ht', hi', ht, hi, hds, hd, hlow, hlast, g₁, g₂, g₃,
          handedBack, Emulated]
      · simp [here, block_0, loc_8, hax', ht', hi', ht, hi, hds, hd, hlow, hlast, g₁, g₂, g₃,
          handedBack, Emulated]
  · have ht' := mt f.toWord_and_trap.mp ht
    refine ⟨g₁, by simp [g₁], by simp [g₁], ?_⟩
    apply Run.of_sweep ((block_0.drop 10).take 2) (by decide +kernel)
    simp [here, block_0, loc_8, hax', ht', ht, g₁, handedBack, Emulated]

/-- `loc_1` to `loc_2`: DF is as on the stack, and the bytes of the flags change places. -/
theorem direction_spec (s : Cpu (Tower W)) (f : Flags) (hal : s.regs.al = f.low)
    (hah : s.regs.ah = f.high) (ws : List Word) (k : ℕ) (d : ℕ → Byte) :
    ∃ g : Flags, g.trap = s.flags.trap ∧ g.interrupt = s.flags.interrupt ∧
      g.direction = f.direction ∧
      Run (here s loc_1 ⟨ws, k, d⟩)
        (here { s with regs := { s.regs with al := f.high, ah := f.low }, flags := g } loc_2
          ⟨ws, k, d⟩) := by
  let g₁ := { s.flags with direction := false }.logic (f.high &&& 4)
  by_cases h : f.direction = false
  · have h' := f.high_and_direction.mpr h
    refine ⟨g₁, by simp [g₁], by simp [g₁], by simp [g₁, h], ?_⟩
    apply Run.of_sweep block_1 (by decide +kernel)
    simp [here, block_1, loc_1, loc_2, hal, hah, h', g₁]
  · have h' := mt f.high_and_direction.mp h
    refine ⟨{ g₁ with direction := true }, by simp [g₁], by simp [g₁], by simp [h], ?_⟩
    apply Run.of_sweep (block_1 ++ block_7) (by decide +kernel)
    simp [here, block_1, block_7, loc_1, loc_2, loc_7, hal, hah, h', g₁]

/-- `loc_2` to `loc_3`: OF is as on the stack. The two `jo` never jump, for `test` has cleared
OF. -/
theorem overflow_spec (s : Cpu (Tower W)) (f : Flags) (hal : s.regs.al = f.high)
    (ws : List Word) (k : ℕ) (d : ℕ → Byte) :
    ∃ g : Flags, g.trap = s.flags.trap ∧ g.interrupt = s.flags.interrupt ∧
      g.direction = s.flags.direction ∧ g.overflow = f.overflow ∧
      Run (here s loc_2 ⟨ws, k + 1, d⟩) (here { s with flags := g } loc_3 ⟨ws, k + 1, d⟩) := by
  let g₁ := s.flags.logic (f.high &&& 8)
  by_cases h : f.overflow = false
  · have h' := f.high_and_overflow.mpr h
    refine ⟨g₁, by simp [g₁], by simp [g₁], by simp [g₁], by simp [g₁, h], ?_⟩
    apply Run.of_sweep block_2 (by decide +kernel)
    simp [here, block_2, loc_2, loc_3, hal, h', g₁]
  · have h' := mt f.high_and_overflow.mp h
    have hadd : BitVec.saddOverflow 0x7F#8 2#8 = true := by decide
    refine ⟨g₁.add (0x7F : Byte) 2, by simp [g₁], by simp [g₁], by simp [g₁],
      by simp [h, hadd], ?_⟩
    apply Run.of_sweep (block_2 ++ block_5) (by decide +kernel)
    simp [here, block_2, block_5, loc_2, loc_3, loc_5, hal, h', g₁]
    rw [← hal]

/-- The flags that the interrupted program goes on with. -/
def returned (f g : Flags) (d : ℕ → Byte) : Flags :=
  if Emulated f d then { f with trap := g.trap, interrupt := g.interrupt } else f

theorem returned_masked {f g : Flags} {d : ℕ → Byte} (hg : g.masked) :
    returned f g d = if Emulated f d then { f with interrupt := false } else f := by
  unfold returned
  by_cases h : Emulated f d
  · rw [if_pos h, if_pos h]
    simp only [Flags.masked, Bool.and_eq_true, Bool.not_eq_true'] at hg
    rw [hg.1, hg.2, ← h.2.1]
  · rw [if_neg h, if_neg h]

/-- From `020A:064C` back to the interrupted program. -/
theorem ending_spec (s : Cpu (Tower W)) (f : Flags) (ip cs : Word) (ws : List Word) (k : ℕ)
    (d : ℕ → Byte) (hroom : ws.length + 6 ≤ W.room) :
    Run (here s start ⟨ip :: cs :: f.toWord :: ws, k + 3, d⟩)
      { s with
        cs := cs
        ip := ip
        flags := returned f s.flags d
        mem := ⟨ws, k + 6, handedBack f d⟩ } := by
  apply (entered_spec s (ip :: cs :: f.toWord :: ws) (k + 1) d).trans
  by_cases h : state d &&& 0x2400#16 = 0#16
  · let r : Regs := { s.regs.set f.toWord .ax with ds := 0x40 }
    let s₁ : Cpu (Tower W) :=
      { s with regs := r, flags := s.flags.logic (state d &&& 0x2400) }
    have hloaded := loaded_spec { s₁ with regs := { s.regs.set 0x40 .ax with ds := 0x40 } }
      s.regs.ax s.regs.ds ip cs f.toWord ws k d hroom
    obtain ⟨g, htrap, hint, hchosen⟩ := chosen_spec s₁ f rfl (append_bytes f.toWord)
      (s.regs.ax :: s.regs.ds :: ip :: cs :: f.toWord :: ws) (k + 1) d h
    have hto : Run
        (here { s₁ with regs := { s.regs.set 0x40 .ax with ds := 0x40 } } 0x065B
          ⟨s.regs.ax :: s.regs.ds :: ip :: cs :: f.toWord :: ws, k + 1, d⟩)
        (here { s₁ with flags := g } (if Emulated f d then loc_1 else loc_8)
          ⟨s.regs.ax :: s.regs.ds :: ip :: cs :: f.toWord :: ws, k + 1, handedBack f d⟩) := by
      apply hloaded.trans
      exact hchosen
    have hstart : (if state d &&& 0x2400 = 0 then 0x065B else loc_8) = 0x065B := if_pos h
    rw [hstart]
    apply hto.trans
    by_cases hem : Emulated f d
    · rw [if_pos hem]
      obtain ⟨g₂, htrap₂, hint₂, hdir₂, hdown⟩ := direction_spec { s₁ with flags := g } f
        (f.lowByte_toWord) (f.highByte_toWord)
        (s.regs.ax :: s.regs.ds :: ip :: cs :: f.toWord :: ws) (k + 1) (handedBack f d)
      let s₂ : Cpu (Tower W) :=
        { s₁ with regs := { r with al := f.high, ah := f.low }, flags := g₂ }
      obtain ⟨g₃, htrap₃, hint₃, hdir₃, hover₃, hout⟩ := overflow_spec s₂ f rfl
        (s.regs.ax :: s.regs.ds :: ip :: cs :: f.toWord :: ws) k (handedBack f d)
      apply hdown.trans
      apply hout.trans
      apply (retf_spec _ _ _ ip cs f.toWord ws (k + 1) _).of_eq
      simp [s₁, s₂, r, returned, hem, htrap, hint, htrap₂, hint₂, hdir₂, htrap₃, hint₃, hdir₃,
        hover₃]
    · rw [if_neg hem]
      apply (iret_spec _ _ _ ip cs f.toWord ws (k + 1) _).of_eq
      simp [s₁, r, returned, hem]
  · have hem : ¬Emulated f d := fun hem => h hem.1
    have hstart : (if state d &&& 0x2400 = 0 then 0x065B else loc_8) = loc_8 := if_neg h
    have hdata : handedBack f d = d := if_neg fun hd => h hd.1
    rw [hstart, hdata]
    apply (iret_spec _ _ _ ip cs f.toWord ws (k + 1) d).of_eq
    simp [returned, hem]

end OsLabs.Int8h
