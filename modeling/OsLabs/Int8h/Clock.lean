import OsLabs.Int8h.Interrupt

/-!
# The timer interrupt: the time of the day

Programs run, and the timer interrupts them. As long as the programs leave the counter and the
byte `40:70` alone, the counter is the time of the day in ticks, and the byte says that a
midnight has gone by.
-/

namespace OsLabs.Int8h

open RealMode

/-- `n` interrupts, with programs running between them. -/
inductive Ticks (k : ℕ) (own : ℕ → Prop) (hook : Cpu Ram → Cpu Ram) : ℕ → Cpu Ram → Cpu Ram → Prop
  | start (s : Cpu Ram) : Ticks k own hook 0 s s
  | program {n : ℕ} {s s' s'' : Cpu Ram} : Ticks k own hook n s s' →
      (∀ x, 0x46C ≤ x → x ≤ 0x470 → s''.mem.bytes x = s'.mem.bytes x) → Ticks k own hook n s s''
  | timer {n : ℕ} {s s' s'' : Cpu Ram} : Ticks k own hook n s s' →
      Ready k own s' → Interrupted hook s' s'' → Ticks k own hook (n + 1) s s''

/-- The counter, and the byte that says that it has started again. -/
theorem time_of_day {k : ℕ} {own : ℕ → Prop} {hook : Cpu Ram → Cpu Ram} (hs : Sound k own hook)
    {n : ℕ} {s s' : Cpu Ram} (h : Ticks k own hook n s s')
    (hday : (area s.mem.bytes).clock < Area.day) :
    (area s'.mem.bytes).clock = ((area s.mem.bytes).clock + n) % Area.day ∧
      (area s'.mem.bytes).overflow =
        if (area s.mem.bytes).clock + n < Area.day then (area s.mem.bytes).overflow else 1 := by
  induction h with
  | start s =>
    rw [Nat.add_zero, if_pos hday]
    exact ⟨(Nat.mod_eq_of_lt hday).symm, rfl⟩
  | @program n s s' s'' _ hkept ih =>
    have hlow : wordAt s''.mem.bytes 0x46C = wordAt s'.mem.bytes 0x46C :=
      wordAt_congr _ (hkept _ (by omega) (by omega)) (hkept _ (by omega) (by omega))
    have hhigh : wordAt s''.mem.bytes 0x46E = wordAt s'.mem.bytes 0x46E :=
      wordAt_congr _ (hkept _ (by omega) (by omega)) (hkept _ (by omega) (by omega))
    have hclock : (area s''.mem.bytes).clock = (area s'.mem.bytes).clock := by
      unfold Area.clock area
      rw [hlow, hhigh]
    have hbyte : (area s''.mem.bytes).overflow = (area s'.mem.bytes).overflow :=
      hkept _ (by omega) (by omega)
    rw [hclock, hbyte]
    exact ih hday
  | @timer n s s' s'' _ hready hint ih =>
    obtain ⟨hclock, hbyte⟩ := ih hday
    have hlt : (area s'.mem.bytes).clock < Area.day := by
      rw [hclock]
      exact Nat.mod_lt _ (by decide)
    rw [(hready.of_interrupted hs hint).data]
    constructor
    · rw [Area.clock_handled_of_lt _ _ hlt, hclock, ← Nat.add_assoc]
      exact Nat.mod_add_mod _ _ _
    · rw [Area.overflow_handled, hbyte, hclock]
      by_cases hn : (area s.mem.bytes).clock + n < Area.day
      · rw [Nat.mod_eq_of_lt hn, if_pos hn]
        split
        next hend => rw [if_neg (by omega)]
        next hend => rw [if_pos (by omega)]
      · rw [if_neg hn, ite_self, if_neg (by omega)]

/-- The last tick of the day. -/
theorem time_of_day_eve :
    ∃ s', Interrupted bare eve s' ∧ (area s'.mem.bytes).clock = 0 ∧
      (area s'.mem.bytes).overflow = 1 := by
  obtain ⟨s₀, s', hint, heval, _⟩ := eve_ready.resumes bare_sound
  have hi : Interrupted bare eve s' := ⟨s₀, hint, heval⟩
  have hclock : (area eve.mem.bytes).clock = 0x1800AF := by decide
  obtain ⟨hzero, hone⟩ := time_of_day bare_sound (.timer (.start eve) eve_ready hi)
    (by rw [hclock]; decide)
  rw [hclock] at hzero hone
  exact ⟨s', hi, hzero, hone⟩

end OsLabs.Int8h
