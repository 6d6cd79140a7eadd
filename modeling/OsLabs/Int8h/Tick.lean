import OsLabs.Int8h.Area

/-!
# The timer interrupt: one tick

The two halves of the handler, with the user's routine between them: `called_spec` up to its
call, and `resumed_spec` from its return to the interrupted program.
-/

namespace OsLabs.Int8h

open RealMode Handler

/-- The registers that the handler leaves alone and so asks the user's routine to keep. -/
structure Kept (r r' : Regs) : Prop where
  bx : r'.bx = r.bx
  cx : r'.cx = r.cx
  si : r'.si = r.si
  di : r'.di = r.di
  bp : r'.bp = r.bp

theorem Kept.trans {r r' r'' : Regs} (h : Kept r r') (h' : Kept r' r'') : Kept r r'' where
  bx := h'.bx.trans h.bx
  cx := h'.cx.trans h.cx
  si := h'.si.trans h.si
  di := h'.di.trans h.di
  bp := h'.bp.trans h.bp

variable {W : Window 0x716}

/-- The data when the user's routine is called. -/
def counted (d : ℕ → Byte) : ℕ → Byte := motored (rolled (ticked (masked d)))

/-- From the entry to the user's routine. -/
theorem called_spec (s : Cpu (Tower W)) (hf : s.flags.masked) (ws : List Word) (k : ℕ)
    (d : ℕ → Byte) :
    ∃ (r : Regs) (f : Flags) (w : Word),
      Kept s.regs r ∧ (∀ g : Flags, (g.popped w).masked) ∧
      Run (here s entry ⟨ws, k + 7, d⟩)
        { s with
          regs := r
          cs := wordAt (counted d) 0x72
          ip := wordAt (counted d) 0x70
          flags := f
          out := s.out ++ (area d).motorOff
          mem := ⟨back (counted d) :: seg :: w :: s.regs.dx :: s.regs.ax :: s.regs.ds ::
            s.regs.es :: ws, k, counted d⟩ } := by
  let ws' := s.regs.dx :: s.regs.ax :: s.regs.ds :: s.regs.es :: ws
  let s₁ : Cpu (Tower W) := { s with flags := maskedFlags s.flags d }
  let s₂ : Cpu (Tower W) :=
    { s₁ with
      regs := { s.regs.set 0 .ax with ds := 0x40, es := 0 }
      flags := s₁.flags.logic (0 : Word) }
  let s₃ : Cpu (Tower W) := { s₂ with flags := tickedFlags s₂.flags (masked d) }
  let d₃ := ticked (masked d)
  let s₄ : Cpu (Tower W) :=
    { s₃ with
      regs := { s₃.regs with al := if Midnight d₃ then 8 else 0 }
      flags := rolledFlags s₃.flags d₃ }
  let d₄ := rolled d₃
  let s₅ : Cpu (Tower W) :=
    { s₄ with
      regs := { s₄.regs with dx := if d₄ 0x440 - 1 = 0 then 0x03F2 else s₄.regs.dx }
      flags := motoredFlags s₄.flags d₄
      out := s₄.out ++ motorOff d₄ }
  have hcall : Run (here s entry ⟨ws, k + 7, d⟩) (here s sub_1 ⟨0x0749 :: ws, k + 6, d⟩) := by
    apply Run.of_sweep (block_0.take 1) (by decide +kernel)
    simp [here, entry, sub_1, block_0]
  have hsaved : Run (here s entry ⟨ws, k + 7, d⟩) (here s₂ 0x0756 ⟨ws', k + 3, masked d⟩) :=
    (hcall.trans (sub_1_spec s 0x0749 ws (k + 4) d)).trans (save_spec s₁ ws (k + 3) (masked d))
  have hticked : Run (here s₂ 0x0756 ⟨ws', k + 3, masked d⟩) (here s₃ loc_1 ⟨ws', k + 3, d₃⟩) :=
    ticked_spec s₂ rfl ws' (k + 3) (masked d)
  have hrolled : Run (here s₃ loc_1 ⟨ws', k + 3, d₃⟩) (here s₄ loc_2 ⟨ws', k + 3, d₄⟩) :=
    rolled_spec s₃ rfl rfl rfl ws' (k + 3) d₃
  have hmotored : Run (here s₄ loc_2 ⟨ws', k + 3, d₄⟩)
      (here s₅ 0x078F ⟨ws', k + 3, counted d⟩) :=
    motored_spec s₄ rfl ws' (k + 2) d₄
  obtain ⟨f, l, h, hhooked⟩ := hooked_spec s₅ rfl rfl ws' k (counted d)
  refine ⟨{ s₅.regs with al := l, ah := h }, f, image s₅ (counted d), ?_, ?_, ?_⟩
  · exact ⟨rfl, rfl, rfl, rfl, rfl⟩
  · apply image_masked s₅
    · apply motoredFlags_masked
      apply rolledFlags_masked
      apply tickedFlags_masked
      rw [Flags.logic_masked]
      exact maskedFlags_masked hf d
    · show (if Midnight d₃ then 8 else 0 : Byte) = 0 ∨ (if Midnight d₃ then 8 else 0 : Byte) = 8
      split
      · exact Or.inr rfl
      · exact Or.inl rfl
  · have hmotor : motorOff d₄ = (area d).motorOff := by
      show (area d₄).motorOff = (area d).motorOff
      rw [area_rolled, area_ticked, area_masked]
      unfold Area.motorOff
      rw [Area.motor_rolled, Area.motor_ticked, Area.motor_masked]
    rw [← hmotor]
    exact ((hsaved.trans hticked).trans hrolled).trans (hmotored.trans hhooked)

/-- From behind the user's routine to the interrupted program. -/
theorem resumed_spec (s : Cpu (Tower W)) (hf : s.flags.masked) (d₀ : ℕ → Byte)
    (dx ax ds es ip cs : Word) (f : Flags) (k : ℕ) (d : ℕ → Byte) (hroom : 6 ≤ W.room) :
    Run (here s (back d₀) ⟨dx :: ax :: ds :: es :: ip :: cs :: f.toWord :: [], k + 3, d⟩)
      { s with
        regs := { s.regs.set ax .ax with dx := dx, ds := ds, es := es }
        cs := cs
        ip := ip
        flags := if Emulated f (masked d) then { f with interrupt := false } else f
        out := s.out ++ [(0x20, 0x20)]
        mem := ⟨[], k + 10, handedBack f (masked d)⟩ } := by
  apply (restored_spec s d₀ dx ax ds es (ip :: cs :: f.toWord :: []) k d).trans
  apply (ending_spec _ f ip cs [] (k + 4) (masked d) hroom).of_eq
  rw [returned_masked (maskedFlags_masked hf d)]

end OsLabs.Int8h
