import OsLabs.Int8h.Tick

/-!
# The timer interrupt: the interrupted program

A whole interrupt over the memory as it is. The user's routine behind the vector of int 1Ch is
not in the listing: it is any `hook` that goes back to where it was called from (`Returned`).
`handed_back` says what the interrupted program goes on with.
-/

namespace OsLabs.Int8h

open RealMode StateTransition Handler

/-- The address in the vector of an interrupt. -/
def vector (d : ℕ → Byte) (n : ℕ) : Word × Word := (wordAt d (4 * n + 2), wordAt d (4 * n))

/-- One step, until the control is outside the handler; the routine behind int 1Ch is one
step. -/
def next (hook : Cpu Ram → Cpu Ram) (s : Cpu Ram) : Option (Cpu Ram) :=
  match step seg listing s with
  | some s' => some s'
  | none => if (s.cs, s.ip) = vector s.mem.bytes 0x1C then some (hook s) else none

/-- The address of the top of the stack. -/
def top (m : Ram) : ℕ := linear m.ss m.sp

/-- What a routine has to do that is called at `s` and goes back at `t`, with a stack of `k`
words and bytes of its own: it need not keep `ax`, `dx`, `ds` and `es`. -/
structure Returned (k : ℕ) (own : ℕ → Prop) (s t : Cpu Ram) : Prop where
  ip : t.ip = wordAt s.mem.bytes (top s.mem)
  cs : t.cs = wordAt s.mem.bytes (top s.mem + 2)
  flags : t.flags = s.flags.popped (wordAt s.mem.bytes (top s.mem + 4))
  regs : Kept s.regs t.regs
  ss : t.mem.ss = s.mem.ss
  sp : t.mem.sp = s.mem.sp + 6
  bytes : ∀ x, x + 2 * k < top s.mem ∨ top s.mem + 6 ≤ x → ¬own x →
    t.mem.bytes x = s.mem.bytes x
  out : ∃ l, t.out = s.out ++ l

/-- The routine goes back from wherever it has room. -/
def Sound (k : ℕ) (own : ℕ → Prop) (hook : Cpu Ram → Cpu Ram) : Prop :=
  ∀ s : Cpu Ram, 2 * k ≤ s.mem.sp.toNat → s.mem.sp.toNat + 6 ≤ 2 ^ 16 → Returned k own s (hook s)

/-- A program that int 8h may interrupt: its stack has room above the data area, the vectors
are set, and the control is outside the handler. -/
structure Ready (k : ℕ) (own : ℕ → Prop) (s : Cpu Ram) : Prop where
  room : 2 * (k + 10) ≤ s.mem.sp.toNat
  above : 0x716 + 2 * (k + 10) ≤ top s.mem
  timer : vector s.mem.bytes 8 = (seg, entry)
  user : fetch seg listing (vector s.mem.bytes 0x1C).1 (vector s.mem.bytes 0x1C).2 = none
  control : fetch seg listing s.cs s.ip = none
  apart : (s.cs, s.ip) ≠ vector s.mem.bytes 0x1C
  own : ∀ x, own x → ¬Cell x ∧ (x < 0x70 ∨ 0x74 ≤ x) ∧
    (x + 2 * (k + 10) < top s.mem ∨ top s.mem ≤ x)

/-- The interrupted program goes on at `s'` where it was interrupted at `s`. -/
structure HandedBack (k : ℕ) (own : ℕ → Prop) (s s' : Cpu Ram) : Prop where
  regs : s'.regs = s.regs
  cs : s'.cs = s.cs
  ip : s'.ip = s.ip
  ss : s'.mem.ss = s.mem.ss
  sp : s'.mem.sp = s.mem.sp
  flags : s'.flags =
    if (area s.mem.bytes).Emulated s.flags then { s.flags with interrupt := false } else s.flags
  data : area s'.mem.bytes = (area s.mem.bytes).handled s.flags
  bytes : ∀ x, x + 2 * (k + 10) < top s.mem ∨ top s.mem ≤ x → ¬Cell x → ¬own x →
    s'.mem.bytes x = s.mem.bytes x
  out : ∃ l, s'.out = s.out ++ (area s.mem.bytes).motorOff ++ l ++ [(0x20, 0x20)]

section Machine

variable {hook : Cpu Ram → Cpu Ram} {s s' : Cpu Ram}

/-- What the listing does the machine does. -/
theorem reaches_next (h : Run s s') : Reaches (next hook) s s' := by
  induction h with
  | refl => exact Relation.ReflTransGen.refl
  | tail _ hstep ih =>
    apply ih.tail
    unfold next
    rw [Option.mem_def.mp hstep]
    rfl

theorem next_outside (hcode : fetch seg listing s.cs s.ip = none) :
    next hook s = if (s.cs, s.ip) = vector s.mem.bytes 0x1C then some (hook s) else none := by
  have hstep : step seg listing s = none := by
    unfold step
    rw [hcode]
    rfl
  unfold next
  rw [hstep]

theorem next_hook (hcode : fetch seg listing s.cs s.ip = none)
    (hat : (s.cs, s.ip) = vector s.mem.bytes 0x1C) : next hook s = some (hook s) := by
  rw [next_outside hcode, if_pos hat]

theorem next_stop (hcode : fetch seg listing s.cs s.ip = none)
    (hat : (s.cs, s.ip) ≠ vector s.mem.bytes 0x1C) : next hook s = none := by
  rw [next_outside hcode, if_neg hat]

end Machine

namespace Ready

variable {k : ℕ} {own : ℕ → Prop} {s : Cpu Ram} (h : Ready k own s)

/-- The part of the interrupted stack that the interrupt may use. -/
def window : Window 0x716 where
  ss := s.mem.ss
  top := s.mem.sp
  room := k + 10
  fits := h.room
  above := h.above

theorem not_has {x : ℕ} (hx : x + 2 * (k + 10) < top s.mem ∨ top s.mem ≤ x) :
    ¬h.window.Has x := by
  unfold Window.Has Window.low Window.high
  change x + 2 * (k + 10) < linear s.mem.ss s.mem.sp ∨ linear s.mem.ss s.mem.sp ≤ x at hx
  show ¬(linear s.mem.ss s.mem.sp - 2 * (k + 10) ≤ x ∧ x < linear s.mem.ss s.mem.sp)
  omega

/-- The interrupted program, with the stack as a tower. -/
def interrupted (words : List Word) (free : ℕ) : Cpu (Tower h.window) :=
  s.onto ⟨words, free, s.mem.bytes⟩

/-- The interrupt itself. -/
theorem interrupt_spec :
    ∃ m, s.interrupt 8 = some
        ((here { h.interrupted [] 0 with
            flags := { s.flags with trap := false, interrupt := false } } entry
          ⟨s.ip :: s.cs :: s.flags.toWord :: [], k + 7, s.mem.bytes⟩).onto m) ∧
      Held (W := h.window) ⟨s.ip :: s.cs :: s.flags.toWord :: [], k + 7, s.mem.bytes⟩ m := by
  have htimer := Prod.ext_iff.mp h.timer
  have hcs : wordAt s.mem.bytes 0x22 = seg := htimer.1
  have hip : wordAt s.mem.bytes 0x20 = entry := htimer.2
  have hentry : (h.interrupted [] (k + 10)).interrupt 8 = some
      (here { h.interrupted [] 0 with
          flags := { s.flags with trap := false, interrupt := false } } entry
        ⟨s.ip :: s.cs :: s.flags.toWord :: [], k + 7, s.mem.bytes⟩) := by
    simp [interrupted, here, Cpu.onto, hcs, hip]
  obtain ⟨m, hm, hR⟩ := (simulates h.window).interrupt (Held.empty rfl rfl) 8 _ hentry
  exact ⟨m, hm, hR⟩

end Ready

/-- The user's routine over a stack in a window. -/
theorem Sound.spec {k : ℕ} {own : ℕ → Prop} {hook : Cpu Ram → Cpu Ram} (hs : Sound k own hook)
    {W : Window 0x716} (hown : ∀ x, own x → ¬W.Has x) {ip w : Word} {ws : List Word}
    {d : ℕ → Byte} {s : Cpu Ram} (hR : Held (W := W) ⟨ip :: seg :: w :: ws, k, d⟩ s.mem) :
    ∃ c : Cpu (Tower W),
      hook s = (here c ip ⟨ws, k + 3, (hook s).mem.bytes⟩).onto (hook s).mem ∧
      c.flags = s.flags.popped w ∧ Kept s.regs c.regs ∧
      Held (W := W) ⟨ws, k + 3, (hook s).mem.bytes⟩ (hook s).mem ∧
      (∀ x, ¬W.Has x → ¬own x → (hook s).mem.bytes x = d x) ∧ ∃ l, c.out = s.out ++ l := by
  have hroom := hR.room
  have hfits := W.fits
  have hhigh := Window.room_le_high (W := W)
  have hlt := W.top.isLt
  simp only [List.length_cons] at hroom
  have hsp : s.mem.sp.toNat = W.top.toNat - 2 * (ws.length + 3) := by
    rw [hR.sp]
    exact Window.sp_toNat (by simp only [List.length_cons]; omega)
  have htop : top s.mem = W.base (ws.length + 3) := hR.linear_sp
  have hret := hs s (by omega) (by omega)
  have hip : (hook s).ip = ip := by
    rw [hret.ip]
    exact hR.wordAt (i := 0) rfl
  have hcs : (hook s).cs = seg := by
    rw [hret.cs]
    exact hR.wordAt (i := 1) rfl
  have hflags : (hook s).flags = s.flags.popped w := by
    rw [hret.flags]
    exact congrArg _ (hR.wordAt (i := 2) rfl)
  have hbytes : ∀ x, W.base ws.length ≤ x → x < W.high →
      (hook s).mem.bytes x = s.mem.bytes x := by
    intro x hx hx'
    apply hret.bytes
    · right
      rw [htop]
      unfold Window.base at hx ⊢
      omega
    · intro hx''
      apply hown x hx''
      unfold Window.Has Window.low
      unfold Window.base at hx
      omega
  have hheld : Held (W := W) ⟨ws, k + 3, (hook s).mem.bytes⟩ (hook s).mem := by
    apply hR.dropped (n := 3) (by simp) hret.ss
    · rw [hret.sp, hR.sp]
      exact Window.sp_add ws.length 3
    · exact hbytes
  refine ⟨(hook s).onto ⟨ws, k + 3, (hook s).mem.bytes⟩, ?_, hflags, hret.regs, hheld, ?_,
    hret.out⟩
  · show hook s = { hook s with cs := seg, ip := ip }
    rw [← hcs, ← hip]
  intro x hx hx'
  have hd : s.mem.bytes x = d x := hR.data x hx
  rw [← hd]
  apply hret.bytes x _ hx'
  rw [htop]
  unfold Window.Has Window.low at hx
  unfold Window.base
  omega

section Data

variable (d : ℕ → Byte)

theorem area_counted :
    area (counted d) = (area d).masked.ticked.rolled.motored := by
  unfold counted
  rw [area_motored, area_rolled, area_ticked, area_masked]

theorem counted_outside {x : ℕ} (hx : ¬Cell x) : counted d x = d x := by
  unfold counted
  rw [motored_outside _ hx, rolled_outside _ hx, ticked_outside _ hx, masked_outside _ hx]

end Data

namespace Ready

variable {k : ℕ} {own : ℕ → Prop} {s : Cpu Ram} (h : Ready k own s)

/-- The user's routine is called at `c`. -/
structure Called (c : Cpu Ram) : Prop where
  regs : Kept s.regs c.regs
  at_vector : (c.cs, c.ip) = vector (counted s.mem.bytes) 0x1C
  out : c.out = s.out ++ (area s.mem.bytes).motorOff
  held : ∃ w : Word, (∀ g : Flags, (g.popped w).masked) ∧
    Held (W := h.window)
      ⟨back (counted s.mem.bytes) :: seg :: w :: s.regs.dx :: s.regs.ax :: s.regs.ds ::
        s.regs.es :: s.ip :: s.cs :: s.flags.toWord :: [], k, counted s.mem.bytes⟩ c.mem

theorem called : ∃ s₀ c, s.interrupt 8 = some s₀ ∧ Run s₀ c ∧ h.Called c := by
  obtain ⟨m₀, hint, hR₀⟩ := h.interrupt_spec
  obtain ⟨r, f, w, hkept, hw, hcalled⟩ := called_spec
    { h.interrupted [] 0 with flags := { s.flags with trap := false, interrupt := false } } rfl
    (s.ip :: s.cs :: s.flags.toWord :: []) k s.mem.bytes
  obtain ⟨m₁, hrun, hR₁⟩ := (simulates h.window).reaches hR₀ hcalled
  exact ⟨_, _, hint, hrun, hkept, rfl, rfl, w, hw, hR₁⟩

variable {h} {hook : Cpu Ram → Cpu Ram} {c : Cpu Ram}

theorem not_has_cell {x : ℕ} (hx : Cell x) : ¬h.window.Has x := by
  apply Held.not_has
  unfold Cell at hx
  omega

include h in
/-- Neither the interrupt nor the user's routine has touched the vector of int 1Ch. -/
theorem vector_eq {d : ℕ → Byte}
    (hd : ∀ x < 0x716, ¬Cell x → ¬own x → d x = s.mem.bytes x) :
    vector d 0x1C = vector s.mem.bytes 0x1C := by
  have hcell : ∀ x, 0x70 ≤ x → x < 0x74 → d x = s.mem.bytes x := by
    intro x hx hx'
    apply hd
    · omega
    · unfold Cell
      omega
    · intro hown
      have := (h.own x hown).2.1
      omega
  unfold vector
  rw [wordAt_congr _ (hcell _ (by omega) (by omega)) (hcell _ (by omega) (by omega))]
  rw [wordAt_congr _ (hcell _ (by omega) (by omega)) (hcell _ (by omega) (by omega))]

/-- The handler restores what the user's routine need not keep. -/
theorem regs_eq {r : Regs} (hr : Kept s.regs r) :
    { r.set s.regs.ax .ax with dx := s.regs.dx, ds := s.regs.ds, es := s.regs.es } = s.regs := by
  apply Regs.ext
  case al => exact lowByte_append s.regs.ah s.regs.al
  case ah => exact highByte_append s.regs.ah s.regs.al
  case bx => exact hr.bx
  case cx => exact hr.cx
  case si => exact hr.si
  case di => exact hr.di
  case bp => exact hr.bp
  all_goals rfl

theorem resumed (hs : Sound k own hook) (hc : h.Called c) :
    ∃ s', Run (hook c) s' ∧ HandedBack k own s s' := by
  have hown : ∀ x, own x → ¬h.window.Has x := fun x hx => h.not_has (h.own x hx).2.2
  obtain ⟨w, hw, hR⟩ := hc.held
  obtain ⟨e, he, hflags, hkept, hR₂, hdata, l, hout⟩ := hs.spec hown hR
  obtain ⟨m, hrun, hR₃⟩ := (simulates h.window).reaches hR₂
    (resumed_spec e (by rw [hflags]; exact hw _) (counted s.mem.bytes) s.regs.dx s.regs.ax
      s.regs.ds s.regs.es s.ip s.cs s.flags k (hook c).mem.bytes (Nat.le_add_left 6 _))
  rw [← he] at hrun
  have harea : area (masked (hook c).mem.bytes) =
      (area s.mem.bytes).masked.ticked.rolled.motored.masked := by
    rw [area_masked, ← area_counted]
    congr 1
    apply area_congr
    intro x hx
    apply hdata x (not_has_cell hx)
    intro hx'
    exact (h.own x hx').1 hx
  refine ⟨_, hrun, ?_, rfl, rfl, hR₃.ss, ?_, ?_, ?_, ?_, ?_⟩
  · exact regs_eq (hc.regs.trans hkept)
  · exact hR₃.sp.trans (BitVec.sub_zero _)
  · show (if (area (masked (hook c).mem.bytes)).Emulated s.flags then _ else _) = _
    simp only [harea, Area.emulated_masked, Area.emulated_motored, Area.emulated_rolled,
      Area.emulated_ticked]
  · have hm : area m.bytes = area (handedBack s.flags (masked (hook c).mem.bytes)) :=
      area_congr fun x hx => hR₃.data x (not_has_cell hx)
    show area m.bytes = _
    rw [hm, area_handedBack, harea]
    rfl
  · intro x hx hx' hx''
    show m.bytes x = _
    have hout := h.not_has hx
    have hm : m.bytes x = handedBack s.flags (masked (hook c).mem.bytes) x := hR₃.data x hout
    rw [hm, handedBack_outside _ hx', masked_outside _ hx', hdata x hout hx'']
    exact counted_outside _ hx'
  · refine ⟨l, ?_⟩
    show e.out ++ _ = _
    rw [hout, hc.out]

end Ready

/-- The interrupt comes to an end, at the interrupted program. -/
theorem Ready.resumes {k : ℕ} {own : ℕ → Prop} {hook : Cpu Ram → Cpu Ram}
    (hs : Sound k own hook) {s : Cpu Ram} (h : Ready k own s) :
    ∃ s₀ s', s.interrupt 8 = some s₀ ∧ s' ∈ StateTransition.eval (next hook) s₀ ∧
      HandedBack k own s s' := by
  obtain ⟨s₀, c, hint, hrun, hc⟩ := h.called
  obtain ⟨s', hrun', hback⟩ := Ready.resumed hs hc
  obtain ⟨w, hw, hR⟩ := hc.held
  have hcounted : vector (counted s.mem.bytes) 0x1C = vector s.mem.bytes 0x1C :=
    h.vector_eq fun x _ hx _ => counted_outside _ hx
  have hcalled : vector c.mem.bytes 0x1C = vector s.mem.bytes 0x1C := by
    apply h.vector_eq
    intro x hlt hx _
    rw [hR.data x (Held.not_has hlt)]
    exact counted_outside _ hx
  have hafter : vector s'.mem.bytes 0x1C = vector s.mem.bytes 0x1C := by
    apply h.vector_eq
    intro x hlt
    have habove := h.above
    exact hback.bytes x (Or.inl (by omega))
  refine ⟨s₀, s', hint, StateTransition.mem_eval.mpr ⟨?_, ?_⟩, hback⟩
  · have hat : (c.cs, c.ip) = vector s.mem.bytes 0x1C := hc.at_vector.trans hcounted
    have hcode : fetch seg listing c.cs c.ip = none := by
      have huser := h.user
      rw [← hat] at huser
      exact huser
    have hthere : next hook c = some (hook c) := next_hook hcode (hat.trans hcalled.symm)
    apply (reaches_next hrun).trans
    exact Relation.ReflTransGen.head hthere (reaches_next hrun')
  · apply next_stop
    · rw [hback.cs, hback.ip]
      exact h.control
    · rw [hback.cs, hback.ip, hafter]
      exact h.apart

/-- The machine is at `s'` behind an interrupt at `s`. -/
def Interrupted (hook : Cpu Ram → Cpu Ram) (s s' : Cpu Ram) : Prop :=
  ∃ s₀, s.interrupt 8 = some s₀ ∧ s' ∈ StateTransition.eval (next hook) s₀

theorem Ready.of_interrupted {k : ℕ} {own : ℕ → Prop} {hook : Cpu Ram → Cpu Ram}
    (hs : Sound k own hook) {s s' : Cpu Ram} (h : Ready k own s) (hi : Interrupted hook s s') :
    HandedBack k own s s' := by
  obtain ⟨s₀, hint, heval⟩ := hi
  obtain ⟨s₁, s₂, hint', heval', hback⟩ := h.resumes hs
  have hs₀ : s₁ = s₀ := Option.some.inj (hint'.symm.trans hint)
  rw [hs₀] at heval'
  rw [Part.mem_unique heval heval']
  exact hback

/-- A program that is interrupted gets back its registers, its stack and its flags, but for IF
where the way out is the one without `iret`; and the handler comes to an end. -/
theorem handed_back {k : ℕ} {own : ℕ → Prop} {hook : Cpu Ram → Cpu Ram}
    (hs : Sound k own hook) {s : Cpu Ram} (h : Ready k own s) :
    (∃ s', Interrupted hook s s') ∧ ∀ s', Interrupted hook s s' → HandedBack k own s s' := by
  refine ⟨?_, fun s' => h.of_interrupted hs⟩
  obtain ⟨s₀, s', hint, heval, _⟩ := h.resumes hs
  exact ⟨s', s₀, hint, heval⟩

/-- The routine that is one `iret`. -/
def bare (s : Cpu Ram) : Cpu Ram := (exec s .iret).getD s

theorem bare_sound : Sound 0 (fun _ => False) bare := by
  intro s _ hsp
  let w : Word → Word := fun p =>
    s.mem.bytes (linear s.mem.ss (p + 1)) ++ s.mem.bytes (linear s.mem.ss p)
  have hw : ∀ i : Word, i.toNat < 5 →
      w (s.mem.sp + i) = wordAt s.mem.bytes (top s.mem + i.toNat) := by
    intro i hi
    have hlow : linear s.mem.ss (s.mem.sp + i) = top s.mem + i.toNat := by
      unfold top linear
      rw [BitVec.toNat_add]
      omega
    have hhigh : linear s.mem.ss (s.mem.sp + i + 1) = top s.mem + i.toNat + 1 := by
      unfold top linear
      rw [BitVec.toNat_add, BitVec.toNat_add]
      simp
      omega
    simp only [w, hlow, hhigh]
    rfl
  have htwo : s.mem.sp + 2 + 2 = s.mem.sp + 4 := BitVec.add_assoc _ _ _
  have hfour : s.mem.sp + 4 + 2 = s.mem.sp + 6 := BitVec.add_assoc _ _ _
  have hip : (bare s).ip = w s.mem.sp := rfl
  have hcs : (bare s).cs = w (s.mem.sp + 2) := rfl
  have hflags : (bare s).flags = s.flags.popped (w (s.mem.sp + 2 + 2)) := rfl
  have hback : (bare s).mem.sp = s.mem.sp + 2 + 2 + 2 := rfl
  constructor
  case ip =>
    rw [hip, ← BitVec.add_zero s.mem.sp]
    exact hw 0 (by decide)
  case cs =>
    rw [hcs]
    exact hw 2 (by decide)
  case flags =>
    rw [hflags, htwo]
    exact congrArg _ (hw 4 (by decide))
  case sp => rw [hback, htwo, hfour]
  case regs => exact ⟨rfl, rfl, rfl, rfl, rfl⟩
  case ss => rfl
  case bytes =>
    intro x _ _
    rfl
  case out => exact ⟨[], (List.append_nil _).symm⟩

/-- A program at the last tick of the day, with the motor to be switched off. -/
def eve : Cpu Ram where
  regs := ⟨1, 2, 3, 4, 5, 6, 7, 8, 9, 10⟩
  cs := 0x1000
  ip := 0x0100
  flags := ⟨true, false, false, true, false, false, true, true, false⟩
  out := []
  mem :=
    { ss := 0x2000
      sp := 0x0100
      bytes := fun
        | 0x20 => 0x46
        | 0x21 => 0x07
        | 0x22 => 0x0A
        | 0x23 => 0x02
        | 0x70 => 0x53
        | 0x71 => 0xFF
        | 0x73 => 0xF0
        | 0x440 => 1
        | 0x46C => 0xAF
        | 0x46E => 0x18
        | _ => 0 }

theorem eve_ready : Ready 0 (fun _ => False) eve where
  room := by decide
  above := by decide
  timer := by decide
  user := by decide
  control := by decide
  apart := by decide
  own _ hx := hx.elim

theorem handed_back_eve :
    (∃ s', Interrupted bare eve s') ∧
      ∀ s', Interrupted bare eve s' → HandedBack 0 (fun _ => False) eve s' :=
  handed_back bare_sound eve_ready

end OsLabs.Int8h
