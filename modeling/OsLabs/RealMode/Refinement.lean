import OsLabs.RealMode.Machine

/-!
# One processor over two memories

A relation between two memories that every operation of the first keeps is kept by every
instruction, and so by every run: what the processor does over the first memory it does over
the second, register by register.
-/

namespace OsLabs.RealMode

variable {N M : Type}

/-- The same processor over another memory. -/
def Cpu.onto (s : Cpu N) (m : M) : Cpu M where
  regs := s.regs
  cs := s.cs
  ip := s.ip
  flags := s.flags
  out := s.out
  mem := m

variable [Store N] [Store M] {R : N → M → Prop}

/-- What the operations do over the first memory, they do over the second. -/
structure Simulates (R : N → M → Prop) : Prop where
  ss {n m} : R n m → Store.ss m = Store.ss n
  sp {n m} : R n m → Store.sp m = Store.sp n
  push {n n' m w} : R n m → Store.push w n = some n' → ∃ m', Store.push w m = some m' ∧ R n' m'
  pop {n n' m w} : R n m → Store.pop n = some (w, n') →
    ∃ m', Store.pop m = some (w, m') ∧ R n' m'
  release {n n' m w} : R n m → Store.release w n = some n' →
    ∃ m', Store.release w m = some m' ∧ R n' m'
  load {n m x b} : R n m → Store.load x n = some b → Store.load x m = some b
  store {n n' m x b} : R n m → Store.store x b n = some n' →
    ∃ m', Store.store x b m = some m' ∧ R n' m'

/-- The second computation has every result that the first one has. -/
def Below (R : N → M → Prop) (x : Option (Cpu N)) (y : Option (Cpu M)) : Prop :=
  ∀ s, x = some s → ∃ m, y = some (s.onto m) ∧ R s.mem m

namespace Below

omit [Store N] [Store M] in
theorem pure {s : Cpu N} {m : M} (h : R s.mem m) : Below R (some s) (some (s.onto m)) := by
  intro s' hs
  cases hs
  exact ⟨m, rfl, h⟩

omit [Store N] [Store M] in
theorem bind {x : Option (Cpu N)} {y : Option (Cpu M)} {f : Cpu N → Option (Cpu N)}
    {g : Cpu M → Option (Cpu M)} (h : Below R x y)
    (hf : ∀ s m, R s.mem m → Below R (f s) (g (s.onto m))) :
    Below R (x.bind f) (y.bind g) := by
  intro s' hs
  obtain ⟨s, hx, hfs⟩ := Option.bind_eq_some_iff.mp hs
  obtain ⟨m, hy, hR⟩ := h s hx
  rw [hy]
  exact hf s m hR s' hfs

omit [Store N] [Store M] in
/-- A value that the first computation reads. -/
theorem read {α : Type} {x y : Option α} {f : α → Option (Cpu N)} {g : α → Option (Cpu M)}
    (h : ∀ a, x = some a → y = some a) (hf : ∀ a, Below R (f a) (g a)) :
    Below R (x.bind f) (y.bind g) := by
  intro s' hs
  obtain ⟨a, hx, hfa⟩ := Option.bind_eq_some_iff.mp hs
  rw [h a hx]
  exact hf a s' hfa

end Below

namespace Simulates

variable (h : Simulates R) {s : Cpu N} {m : M} (hR : R s.mem m)
include h hR

theorem pushWord (w : Word) : Below R (s.pushWord w) ((s.onto m).pushWord w) := by
  intro s' hs
  obtain ⟨n', hn, hs'⟩ := Option.bind_eq_some_iff.mp hs
  obtain ⟨m', hm, hR'⟩ := h.push hR hn
  cases hs'
  refine ⟨m', ?_, hR'⟩
  show (Store.push w m).bind _ = _
  rw [hm]
  rfl

theorem popWord {f : Word × Cpu N → Option (Cpu N)} {g : Word × Cpu M → Option (Cpu M)}
    (hf : ∀ w s m, R s.mem m → Below R (f (w, s)) (g (w, s.onto m))) :
    Below R (s.popWord.bind f) ((s.onto m).popWord.bind g) := by
  intro s' hs
  obtain ⟨p, hp, hfp⟩ := Option.bind_eq_some_iff.mp hs
  obtain ⟨⟨w, n'⟩, hn, hp'⟩ := Option.bind_eq_some_iff.mp hp
  obtain ⟨m', hm, hR'⟩ := h.pop hR hn
  cases hp'
  have hpop : (s.onto m).popWord = some (w, { s.onto m with mem := m' }) := by
    show (Store.pop m).bind _ = _
    rw [hm]
    rfl
  rw [hpop]
  exact hf w { s with mem := n' } m' hR' s' hfp

theorem loadByte (seg off : Word) (b : Byte) (hb : s.loadByte seg off = some b) :
    (s.onto m).loadByte seg off = some b := h.load hR hb

theorem loadWord (seg off w : Word) (hw : s.loadWord seg off = some w) :
    (s.onto m).loadWord seg off = some w := by
  obtain ⟨l, hl, hw⟩ := Option.bind_eq_some_iff.mp hw
  obtain ⟨b, hb, hw⟩ := Option.bind_eq_some_iff.mp hw
  show ((s.onto m).loadByte seg off).bind _ = _
  rw [h.loadByte hR seg off l hl]
  show ((s.onto m).loadByte seg (off + 1)).bind _ = _
  rw [h.loadByte hR seg (off + 1) b hb]
  exact hw

theorem loadFar (seg off : Word) (p : Word × Word) (hp : s.loadFar seg off = some p) :
    (s.onto m).loadFar seg off = some p := by
  obtain ⟨ip, hip, hp⟩ := Option.bind_eq_some_iff.mp hp
  obtain ⟨cs, hcs, hp⟩ := Option.bind_eq_some_iff.mp hp
  show ((s.onto m).loadWord seg off).bind _ = _
  rw [h.loadWord hR seg off ip hip]
  show ((s.onto m).loadWord seg (off + 2)).bind _ = _
  rw [h.loadWord hR seg (off + 2) cs hcs]
  exact hp

theorem storeByte (seg off : Word) (b : Byte) :
    Below R (s.storeByte seg off b) ((s.onto m).storeByte seg off b) := by
  intro s' hs
  obtain ⟨n', hn, hs'⟩ := Option.bind_eq_some_iff.mp hs
  obtain ⟨m', hm, hR'⟩ := h.store hR hn
  cases hs'
  refine ⟨m', ?_, hR'⟩
  show (Store.store (linear seg off) b m).bind _ = _
  rw [hm]
  rfl

theorem storeWord (seg off w : Word) :
    Below R (s.storeWord seg off w) ((s.onto m).storeWord seg off w) := by
  apply Below.bind (h.storeByte hR seg off (lowByte w))
  intro s m hR
  exact h.storeByte hR seg (off + 1) (highByte w)

theorem pushFar : Below R s.pushFar (s.onto m).pushFar := by
  apply Below.bind (h.pushWord hR s.cs)
  intro s' m' hR'
  exact h.pushWord hR' s.ip

theorem interrupt (n : Byte) : Below R (s.interrupt n) ((s.onto m).interrupt n) := by
  apply Below.bind (h.pushWord hR s.flags.toWord)
  intro s₁ m₁ hR₁
  have hfar := h.pushFar
    (s := { s₁ with flags := { s.flags with trap := false, interrupt := false } }) hR₁
  apply Below.bind hfar
  intro s₂ m₂ hR₂
  apply Below.read (h.loadFar hR₂ 0 (n.setWidth 16 * 4))
  intro p
  exact Below.pure (s := { s₂ with cs := p.1, ip := p.2 }) hR₂

theorem viewWord (off : Word) (f : Flags → Word → Flags) :
    Below R (s.viewWord off f) ((s.onto m).viewWord off f) := by
  apply Below.read (h.loadWord hR s.regs.ds off)
  intro w
  exact Below.pure (s := { s with flags := f s.flags w }) hR

theorem changeWord (off : Word) (g : Word → Word) (f : Flags → Word → Flags) :
    Below R (s.changeWord off g f) ((s.onto m).changeWord off g f) := by
  apply Below.read (h.loadWord hR s.regs.ds off)
  intro w
  exact h.storeWord (s := { s with flags := f s.flags w }) hR s.regs.ds off (g w)

theorem changeByte (off : Word) (g : Byte → Byte) (f : Flags → Byte → Flags) :
    Below R (s.changeByte off g f) ((s.onto m).changeByte off g f) := by
  apply Below.read (h.loadByte hR s.regs.ds off)
  intro b
  exact h.storeByte (s := { s with flags := f s.flags b }) hR s.regs.ds off (g b)

omit [Store N] [Store M] h in
theorem goto (c : Bool) (target : Word) :
    Below R (some (s.goto c target)) (some ((s.onto m).goto c target)) := by
  cases c
  · exact Below.pure hR
  · exact Below.pure (s := { s with ip := target }) hR

/-- Every instruction keeps the relation. -/
theorem exec (i : Instr) : Below R (exec s i) (RealMode.exec (s.onto m) i) := by
  cases i with
  | call target =>
    apply Below.bind (h.pushWord hR s.ip)
    intro s m hR
    exact Below.pure (s := { s with ip := target }) hR
  | callFarES off =>
    apply Below.read (h.loadFar hR s.regs.es off)
    intro p
    apply Below.bind (h.pushFar hR)
    intro s m hR
    exact Below.pure (s := { s with cs := p.1, ip := p.2 }) hR
  | int n => exact h.interrupt hR n
  | ret =>
    apply h.popWord hR
    intro w s m hR
    exact Below.pure (s := { s with ip := w }) hR
  | retf n =>
    apply h.popWord hR
    intro ip s m hR
    apply h.popWord hR
    intro cs s m hR s' hs
    obtain ⟨n', hn, hs'⟩ := Option.bind_eq_some_iff.mp hs
    obtain ⟨m', hm, hR'⟩ := h.release hR hn
    cases hs'
    refine ⟨m', ?_, hR'⟩
    show (Store.release n m).bind _ = _
    rw [hm]
    rfl
  | iret =>
    apply h.popWord hR
    intro ip s m hR
    apply h.popWord hR
    intro cs s m hR
    apply h.popWord hR
    intro w s m hR
    exact Below.pure (s := { s with cs := cs, ip := ip, flags := s.flags.popped w }) hR
  | jmp target => exact Below.pure (s := { s with ip := target }) hR
  | jz target => exact goto hR s.flags.zero target
  | jnz target => exact goto hR (!s.flags.zero) target
  | jo target => exact goto hR s.flags.overflow target
  | push r => exact h.pushWord hR (s.regs.get r)
  | pop r =>
    apply h.popWord hR
    intro w s m hR
    exact Below.pure (s := s.set w r) hR
  | mov r w => exact Below.pure (s := s.set w r) hR
  | movAL b => exact Below.pure (s := { s with regs := { s.regs with al := b } }) hR
  | movFromAX r => exact Below.pure (s := s.set s.regs.ax r) hR
  | movBPSP =>
    show Below R _ (some ((s.onto m).set (Store.sp m) .bp))
    rw [h.sp hR]
    exact Below.pure (s := s.set (Store.sp s.mem) .bp) hR
  | movAXBP d =>
    show Below R _ (((s.onto m).loadWord (Store.ss m) (s.regs.bp + d)).bind _)
    rw [h.ss hR]
    apply Below.read (h.loadWord hR (Store.ss s.mem) (s.regs.bp + d))
    intro w
    exact Below.pure (s := s.set w .ax) hR
  | movWordAX off => exact h.storeWord hR s.regs.ds off s.regs.ax
  | movByte off b => exact h.storeByte hR s.regs.ds off b
  | xorAX =>
    exact Below.pure (s := { s.set 0 .ax with flags := s.flags.logic (0 : Word) }) hR
  | xorAL =>
    exact Below.pure
      (s := { s with regs := { s.regs with al := 0 }, flags := s.flags.logic (0 : Byte) }) hR
  | orAL b =>
    exact Below.pure
      (s :=
        { s with
          regs := { s.regs with al := s.regs.al ||| b }
          flags := s.flags.logic (s.regs.al ||| b) }) hR
  | addAL b =>
    exact Below.pure
      (s :=
        { s with
          regs := { s.regs with al := s.regs.al + b }
          flags := s.flags.add s.regs.al b }) hR
  | testAX w =>
    exact Below.pure (s := { s with flags := s.flags.logic (s.regs.ax &&& w) }) hR
  | testAL b =>
    exact Below.pure (s := { s with flags := s.flags.logic (s.regs.al &&& b) }) hR
  | incWord off => exact h.changeWord hR off (· + 1) (fun f v => f.inc v)
  | cmpWord off w => exact h.viewWord hR off (fun f v => f.sub v w)
  | testWord off w => exact h.viewWord hR off (fun f v => f.logic (v &&& w))
  | andWord off w => exact h.changeWord hR off (· &&& w) (fun f v => f.logic (v &&& w))
  | orWord off w => exact h.changeWord hR off (· ||| w) (fun f v => f.logic (v ||| w))
  | decByte off => exact h.changeByte hR off (· - 1) (fun f v => f.dec v)
  | andByte off b => exact h.changeByte hR off (· &&& b) (fun f v => f.logic (v &&& b))
  | xchg =>
    exact Below.pure
      (s := { s with regs := { s.regs with al := s.regs.ah, ah := s.regs.al } }) hR
  | lahf => exact Below.pure (s := { s with regs := { s.regs with ah := s.flags.low } }) hR
  | sahf => exact Below.pure (s := { s with flags := s.flags.withLow s.regs.ah }) hR
  | cli => exact Below.pure (s := { s with flags := { s.flags with interrupt := false } }) hR
  | cld => exact Below.pure (s := { s with flags := { s.flags with direction := false } }) hR
  | std => exact Below.pure (s := { s with flags := { s.flags with direction := true } }) hR
  | outDX => exact Below.pure (s := { s with out := s.out ++ [(s.regs.dx, s.regs.al)] }) hR
  | outImm port =>
    exact Below.pure (s := { s with out := s.out ++ [(port.setWidth 16, s.regs.al)] }) hR
  | nop => exact Below.pure hR

/-- One instruction of a listing keeps the relation. -/
theorem step (seg : Word) (listing : List Line) :
    Below R (step seg listing s) (RealMode.step seg listing (s.onto m)) := by
  apply Below.read (fun _ hl => hl)
  intro line
  exact h.exec (s := { s with ip := s.ip + line.size }) hR line.instr

omit hR in
/-- A run over the first memory is one over the second. -/
theorem reaches {seg : Word} {listing : List Line} {s s' : Cpu N} {m : M} (hR : R s.mem m)
    (hs : StateTransition.Reaches (RealMode.step seg listing) s s') :
    ∃ m', StateTransition.Reaches (RealMode.step seg listing) (s.onto m) (s'.onto m') ∧
      R s'.mem m' := by
  induction hs with
  | refl => exact ⟨m, .refl, hR⟩
  | tail _ hstep ih =>
    obtain ⟨m₁, hrun, hR₁⟩ := ih
    obtain ⟨m₂, hm, hR₂⟩ := h.step hR₁ seg listing _ hstep
    exact ⟨m₂, hrun.tail hm, hR₂⟩

end Simulates

end OsLabs.RealMode
