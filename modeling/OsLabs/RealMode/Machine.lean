import Mathlib.Computability.StateTransition
import OsLabs.RealMode.Flags

/-!
# A real mode processor

The registers, the flags and the port writes, over a memory with a stack of its own, which
`Store` leaves open: `push` and the others may fail. `exec` carries out one instruction with
`ip` already behind it, and `step` fetches one from the code, which is not part of the
memory. A load or a store of a word goes byte by byte, the low byte first.
-/

namespace OsLabs.RealMode

/-- The address of `seg:off`. -/
def linear (seg off : Word) : ℕ := seg.toNat * 16 + off.toNat

/-- A memory, with the stack segment and the stack pointer. -/
class Store (M : Type) where
  ss : M → Word
  sp : M → Word
  push : Word → M → Option M
  pop : M → Option (Word × M)
  release : Word → M → Option M
  load : ℕ → M → Option Byte
  store : ℕ → Byte → M → Option M

/-- The registers, with `ax` in its two halves. -/
@[ext]
structure Regs where
  al : Byte
  ah : Byte
  bx : Word
  cx : Word
  dx : Word
  si : Word
  di : Word
  bp : Word
  ds : Word
  es : Word

/-- The processor; `out` are the port writes, the oldest first. -/
structure Cpu (M : Type) where
  regs : Regs
  cs : Word
  ip : Word
  flags : Flags
  out : List (Word × Byte)
  mem : M

inductive Reg
  | ax
  | dx
  | bp
  | ds
  | es
deriving DecidableEq, Repr

/-- The instructions, with a memory operand at an offset from `ds` where no other segment is
named. -/
inductive Instr
  | call (target : Word)
  | callFarES (off : Word)
  | int (n : Byte)
  | ret
  | retf (n : Word)
  | iret
  | jmp (target : Word)
  | jz (target : Word)
  | jnz (target : Word)
  | jo (target : Word)
  | push (r : Reg)
  | pop (r : Reg)
  | mov (r : Reg) (w : Word)
  | movAL (b : Byte)
  | movFromAX (r : Reg)
  | movBPSP
  | movAXBP (d : Word)
  | movWordAX (off : Word)
  | movByte (off : Word) (b : Byte)
  | xorAX
  | xorAL
  | orAL (b : Byte)
  | addAL (b : Byte)
  | testAX (w : Word)
  | testAL (b : Byte)
  | incWord (off : Word)
  | cmpWord (off w : Word)
  | testWord (off w : Word)
  | andWord (off w : Word)
  | orWord (off w : Word)
  | decByte (off : Word)
  | andByte (off : Word) (b : Byte)
  | xchg
  | lahf
  | sahf
  | cli
  | cld
  | std
  | outDX
  | outImm (port : Byte)
  | nop
deriving DecidableEq, Repr

namespace Regs

variable (r : Regs)

def ax : Word := r.ah ++ r.al

def get : Reg → Word
  | .ax => r.ax
  | .dx => r.dx
  | .bp => r.bp
  | .ds => r.ds
  | .es => r.es

def set (w : Word) : Reg → Regs
  | .ax => { r with al := lowByte w, ah := highByte w }
  | .dx => { r with dx := w }
  | .bp => { r with bp := w }
  | .ds => { r with ds := w }
  | .es => { r with es := w }

end Regs

namespace Cpu

variable {M : Type}

def set (s : Cpu M) (w : Word) (r : Reg) : Cpu M := { s with regs := s.regs.set w r }

def goto (s : Cpu M) (c : Bool) (target : Word) : Cpu M := if c then { s with ip := target } else s

variable [Store M]

def pushWord (s : Cpu M) (w : Word) : Option (Cpu M) := do
  let m ← Store.push w s.mem
  pure { s with mem := m }

def popWord (s : Cpu M) : Option (Word × Cpu M) := do
  let (w, m) ← Store.pop s.mem
  pure (w, { s with mem := m })

def loadByte (s : Cpu M) (seg off : Word) : Option Byte := Store.load (linear seg off) s.mem

def loadWord (s : Cpu M) (seg off : Word) : Option Word := do
  let l ← s.loadByte seg off
  let h ← s.loadByte seg (off + 1)
  pure (h ++ l)

def storeByte (s : Cpu M) (seg off : Word) (b : Byte) : Option (Cpu M) := do
  let m ← Store.store (linear seg off) b s.mem
  pure { s with mem := m }

def storeWord (s : Cpu M) (seg off w : Word) : Option (Cpu M) := do
  let s ← s.storeByte seg off (lowByte w)
  s.storeByte seg (off + 1) (highByte w)

/-- The far pointer at `seg:off`, its offset first. -/
def loadFar (s : Cpu M) (seg off : Word) : Option (Word × Word) := do
  let ip ← s.loadWord seg off
  let cs ← s.loadWord seg (off + 2)
  pure (cs, ip)

/-- The return address of a far call. -/
def pushFar (s : Cpu M) : Option (Cpu M) := do
  let s' ← s.pushWord s.cs
  s'.pushWord s.ip

/-- An interrupt: the flags, `cs` and `ip` go on the stack, TF and IF are cleared, and the
routine is the one of the vector. -/
def interrupt (s : Cpu M) (n : Byte) : Option (Cpu M) := do
  let s' ← s.pushWord s.flags.toWord
  let s' ← { s' with flags := { s.flags with trap := false, interrupt := false } }.pushFar
  let (cs, ip) ← s'.loadFar 0 (n.setWidth 16 * 4)
  pure { s' with cs := cs, ip := ip }

/-- An instruction that looks at the word at `ds:off`. -/
def viewWord (s : Cpu M) (off : Word) (f : Flags → Word → Flags) : Option (Cpu M) := do
  let w ← s.loadWord s.regs.ds off
  pure { s with flags := f s.flags w }

/-- An instruction that changes the word at `ds:off`. -/
def changeWord (s : Cpu M) (off : Word) (g : Word → Word) (f : Flags → Word → Flags) :
    Option (Cpu M) := do
  let w ← s.loadWord s.regs.ds off
  { s with flags := f s.flags w }.storeWord s.regs.ds off (g w)

/-- An instruction that changes the byte at `ds:off`. -/
def changeByte (s : Cpu M) (off : Word) (g : Byte → Byte) (f : Flags → Byte → Flags) :
    Option (Cpu M) := do
  let b ← s.loadByte s.regs.ds off
  { s with flags := f s.flags b }.storeByte s.regs.ds off (g b)

end Cpu

variable {M : Type} [Store M]

/-- One instruction, with `ip` behind it. -/
def exec (s : Cpu M) : Instr → Option (Cpu M)
  | .call target => do
    let s ← s.pushWord s.ip
    pure { s with ip := target }
  | .callFarES off => do
    let (cs, ip) ← s.loadFar s.regs.es off
    let s ← s.pushFar
    pure { s with cs := cs, ip := ip }
  | .int n => s.interrupt n
  | .ret => do
    let (ip, s) ← s.popWord
    pure { s with ip := ip }
  | .retf n => do
    let (ip, s) ← s.popWord
    let (cs, s) ← s.popWord
    let m ← Store.release n s.mem
    pure { s with cs := cs, ip := ip, mem := m }
  | .iret => do
    let (ip, s) ← s.popWord
    let (cs, s) ← s.popWord
    let (w, s) ← s.popWord
    pure { s with cs := cs, ip := ip, flags := s.flags.popped w }
  | .jmp target => some { s with ip := target }
  | .jz target => some (s.goto s.flags.zero target)
  | .jnz target => some (s.goto (!s.flags.zero) target)
  | .jo target => some (s.goto s.flags.overflow target)
  | .push r => s.pushWord (s.regs.get r)
  | .pop r => do
    let (w, s) ← s.popWord
    pure (s.set w r)
  | .mov r w => some (s.set w r)
  | .movAL b => some { s with regs := { s.regs with al := b } }
  | .movFromAX r => some (s.set s.regs.ax r)
  | .movBPSP => some (s.set (Store.sp s.mem) .bp)
  | .movAXBP d => do
    let w ← s.loadWord (Store.ss s.mem) (s.regs.bp + d)
    pure (s.set w .ax)
  | .movWordAX off => s.storeWord s.regs.ds off s.regs.ax
  | .movByte off b => s.storeByte s.regs.ds off b
  | .xorAX => some { s.set 0 .ax with flags := s.flags.logic (0 : Word) }
  | .xorAL => some { s with regs := { s.regs with al := 0 }, flags := s.flags.logic (0 : Byte) }
  | .orAL b =>
    some
      { s with
        regs := { s.regs with al := s.regs.al ||| b }
        flags := s.flags.logic (s.regs.al ||| b) }
  | .addAL b =>
    some
      { s with
        regs := { s.regs with al := s.regs.al + b }
        flags := s.flags.add s.regs.al b }
  | .testAX w => some { s with flags := s.flags.logic (s.regs.ax &&& w) }
  | .testAL b => some { s with flags := s.flags.logic (s.regs.al &&& b) }
  | .incWord off => s.changeWord off (· + 1) (fun f v => f.inc v)
  | .cmpWord off w => s.viewWord off (fun f v => f.sub v w)
  | .testWord off w => s.viewWord off (fun f v => f.logic (v &&& w))
  | .andWord off w => s.changeWord off (· &&& w) (fun f v => f.logic (v &&& w))
  | .orWord off w => s.changeWord off (· ||| w) (fun f v => f.logic (v ||| w))
  | .decByte off => s.changeByte off (· - 1) (fun f v => f.dec v)
  | .andByte off b => s.changeByte off (· &&& b) (fun f v => f.logic (v &&& b))
  | .xchg => some { s with regs := { s.regs with al := s.regs.ah, ah := s.regs.al } }
  | .lahf => some { s with regs := { s.regs with ah := s.flags.low } }
  | .sahf => some { s with flags := s.flags.withLow s.regs.ah }
  | .cli => some { s with flags := { s.flags with interrupt := false } }
  | .cld => some { s with flags := { s.flags with direction := false } }
  | .std => some { s with flags := { s.flags with direction := true } }
  | .outDX => some { s with out := s.out ++ [(s.regs.dx, s.regs.al)] }
  | .outImm port => some { s with out := s.out ++ [(port.setWidth 16, s.regs.al)] }
  | .nop => some s

/-- One line of a listing: its offset, the number of its bytes, and its instruction. -/
structure Line where
  ip : Word
  size : Word
  instr : Instr
deriving DecidableEq, Repr

/-- The line at `cs:ip`, of a listing of the segment `seg`. -/
def fetch (seg : Word) (listing : List Line) (cs ip : Word) : Option Line :=
  if cs = seg then listing.find? (·.ip == ip) else none

/-- One instruction of the listing. -/
def step (seg : Word) (listing : List Line) (s : Cpu M) : Option (Cpu M) := do
  let line ← fetch seg listing s.cs s.ip
  exec { s with ip := s.ip + line.size } line.instr

end OsLabs.RealMode
