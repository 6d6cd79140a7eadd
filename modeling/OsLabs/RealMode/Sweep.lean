import OsLabs.RealMode.Stack

/-!
# Running a listing from top to bottom

`sweep` goes through lines of a listing once and carries out those that `ip` comes to: a
forward jump skips the lines that it jumps over. What a sweep does, the processor does. The
lemmas before it say what the operations of a `Tower` are where they succeed.
-/

namespace OsLabs.RealMode

open StateTransition

variable {floor : ℕ}

/-- The word at `x`. -/
def wordAt (d : ℕ → Byte) (x : ℕ) : Word := d (x + 1) ++ d x

def putWord (d : ℕ → Byte) (x : ℕ) (w : Word) : ℕ → Byte :=
  Function.update (Function.update d x (lowByte w)) (x + 1) (highByte w)

section Cells

variable (d : ℕ → Byte) (x : ℕ) (w : Word)

@[simp]
theorem wordAt_putWord_self : wordAt (putWord d x w) x = w := by
  unfold wordAt putWord
  rw [Function.update_self, Function.update_of_ne (by omega), Function.update_self]
  exact append_bytes w

variable {x} {y : ℕ}

theorem putWord_of_ne (h : y < x ∨ x + 2 ≤ y) : putWord d x w y = d y := by
  unfold putWord
  rw [Function.update_of_ne (by omega), Function.update_of_ne (by omega)]

theorem wordAt_congr {d' : ℕ → Byte} (h : d' x = d x) (h' : d' (x + 1) = d (x + 1)) :
    wordAt d' x = wordAt d x := by
  unfold wordAt
  rw [h, h']

theorem wordAt_putWord_of_ne (h : y + 2 ≤ x ∨ x + 2 ≤ y) :
    wordAt (putWord d x w) y = wordAt d y := by
  apply wordAt_congr
  · exact putWord_of_ne d w (by omega)
  · exact putWord_of_ne d w (by omega)

theorem wordAt_update_of_ne (b : Byte) (h : y + 2 ≤ x ∨ x < y) :
    wordAt (Function.update d x b) y = wordAt d y := by
  apply wordAt_congr
  · exact Function.update_of_ne (by omega) ..
  · exact Function.update_of_ne (by omega) ..

end Cells

/-- A word on the stack, in the memory as it is. -/
theorem Held.wordAt {W : Window floor} {t : Tower W} {m : Ram} (h : Held t m) {i : ℕ} {w : Word}
    (hw : t.words[i]? = some w) : wordAt m.bytes (linear m.ss m.sp + 2 * i) = w := by
  obtain ⟨hl, hh⟩ := h.words i w hw
  unfold RealMode.wordAt
  rw [h.linear_sp, hl, hh]
  exact append_bytes w

section Operations

variable {W : Window floor} {w : Word} {ws : List Word} {k : ℕ} {d : ℕ → Byte}

@[simp]
theorem push_mk :
    Store.push w ({ words := ws, free := k + 1, data := d } : Tower W) =
      some { words := w :: ws, free := k, data := d } := rfl

@[simp]
theorem pop_mk :
    Store.pop ({ words := w :: ws, free := k, data := d } : Tower W) =
      some (w, { words := ws, free := k + 1, data := d }) := rfl

variable {s : Cpu (Tower W)} {sg off : Word}

@[simp]
theorem load_of_lt {x : ℕ} (h : x < floor) :
    Store.load x ({ words := ws, free := k, data := d } : Tower W) = some (d x) := if_pos h

/-- A word below the floor. -/
@[simp]
theorem loadWord_of_lt (hnext : linear sg (off + 1) = linear sg off + 1)
    (h : linear sg off + 1 < floor) :
    s.loadWord sg off = some (wordAt s.mem.data (linear sg off)) := by
  have hl : s.loadByte sg off = some (s.mem.data (linear sg off)) := if_pos (by omega)
  have hh : s.loadByte sg (off + 1) = some (s.mem.data (linear sg off + 1)) := by
    show Tower.load (linear sg (off + 1)) s.mem = _
    rw [hnext]
    exact if_pos h
  show (s.loadByte sg off).bind _ = _
  rw [hl]
  show (s.loadByte sg (off + 1)).bind _ = _
  rw [hh]
  rfl

@[simp]
theorem storeByte_of_lt {b : Byte} (h : linear sg off < floor) :
    s.storeByte sg off b =
      some { s with mem :=
        { s.mem with data := Function.update s.mem.data (linear sg off) b } } := by
  have hstore : Store.store (linear sg off) b s.mem =
      some { s.mem with data := Function.update s.mem.data (linear sg off) b } := if_pos h
  show (Store.store (linear sg off) b s.mem).bind _ = _
  rw [hstore]
  rfl

@[simp]
theorem storeWord_of_lt (hnext : linear sg (off + 1) = linear sg off + 1)
    (h : linear sg off + 1 < floor) :
    s.storeWord sg off w =
      some { s with mem := { s.mem with data := putWord s.mem.data (linear sg off) w } } := by
  show (s.storeByte sg off (lowByte w)).bind _ = _
  rw [storeByte_of_lt (by omega)]
  show Cpu.storeByte _ sg (off + 1) (highByte w) = _
  rw [storeByte_of_lt (by omega), hnext]
  rfl

/-- A word on the stack. -/
theorem loadWord_stack {i : ℕ} {v : Word} (hsg : sg = W.ss)
    (hoff : off = W.sp s.mem.words.length + BitVec.ofNat 16 (2 * i))
    (hroom : s.mem.words.length ≤ W.room) (hv : s.mem.words[i]? = some v) :
    s.loadWord sg off = some v := by
  have hi : i < s.mem.words.length := (List.getElem?_eq_some_iff.mp hv).1
  have hfits := W.fits
  have habove := W.above
  have htop := W.top.isLt
  have hsp := Window.sp_toNat hroom
  have hbase := Window.linear_sp hroom
  have hlow : linear sg off = W.base s.mem.words.length + 2 * i := by
    rw [← hbase, hsg, hoff]
    unfold linear
    rw [BitVec.toNat_add, BitVec.toNat_ofNat, Nat.mod_eq_of_lt (a := 2 * i) (by omega)]
    rw [Nat.mod_eq_of_lt (by omega)]
    omega
  have hnext : linear sg (off + 1) = linear sg off + 1 := by
    unfold linear
    rw [hoff, BitVec.toNat_add, BitVec.toNat_add, BitVec.toNat_ofNat]
    rw [Nat.mod_eq_of_lt (a := 2 * i) (by omega)]
    rw [Nat.mod_eq_of_lt (a := _ + 2 * i) (by omega)]
    rw [Nat.mod_eq_of_lt (by simp; omega)]
    rfl
  have hfloor : floor ≤ W.base s.mem.words.length := by
    have hhigh := Window.room_le_high (W := W)
    have := Window.floor_le_low (W := W)
    unfold Window.low at this
    unfold Window.base
    omega
  have hbyte : ∀ b < 2, Tower.load (W.base s.mem.words.length + 2 * i + b) s.mem =
      some (if b = 0 then lowByte v else highByte v) := by
    intro b hb
    unfold Tower.load Tower.byteAt
    rw [if_neg (by omega), if_pos (by omega)]
    rw [show W.base s.mem.words.length + 2 * i + b - W.base s.mem.words.length = 2 * i + b by
      omega]
    rw [show (2 * i + b) / 2 = i by omega, hv, show (2 * i + b) % 2 = b by omega]
    rfl
  have hl : s.loadByte sg off = some (lowByte v) := by
    show Tower.load (linear sg off) s.mem = _
    rw [hlow]
    exact hbyte 0 (by omega)
  have hh : s.loadByte sg (off + 1) = some (highByte v) := by
    show Tower.load (linear sg (off + 1)) s.mem = _
    rw [hnext, hlow]
    exact hbyte 1 (by omega)
  show (s.loadByte sg off).bind _ = _
  rw [hl]
  show (s.loadByte sg (off + 1)).bind _ = _
  rw [hh]
  exact congrArg some (append_bytes v)

end Operations

attribute [simp] exec linear Regs.ax Regs.get Regs.set Cpu.set Cpu.goto Cpu.pushWord
  Cpu.popWord Cpu.pushFar Cpu.loadFar Cpu.interrupt Cpu.viewWord Cpu.changeWord Cpu.changeByte
  Cpu.loadByte

section Sweep

variable {M : Type} [Store M]

/-- One line, if `ip` is there. -/
def pass (sg : Word) (l : Line) (s : Cpu M) : Option (Cpu M) :=
  if s.cs = sg ∧ s.ip = l.ip then exec { s with ip := s.ip + l.size } l.instr else some s

/-- One pass over the lines `ls`, in the segment `sg`. -/
def sweep (sg : Word) : List Line → Cpu M → Option (Cpu M)
  | [], s => some s
  | l :: ls, s => (pass sg l s).bind (sweep sg ls)

attribute [simp] pass sweep

/-- A pass over lines of a listing is a run. -/
theorem reaches_of_sweep {sg : Word} {listing ls : List Line} {s s' : Cpu M}
    (hls : ∀ l ∈ ls, fetch sg listing sg l.ip = some l) (h : sweep sg ls s = some s') :
    Reaches (step sg listing) s s' := by
  induction ls generalizing s with
  | nil =>
    cases h
    exact Relation.ReflTransGen.refl
  | cons l ls ih =>
    have htail := fun m hm => hls m (List.mem_cons_of_mem l hm)
    obtain ⟨s₁, hpass, h⟩ := Option.bind_eq_some_iff.mp h
    unfold pass at hpass
    split at hpass
    next hat =>
      have hfetch : fetch sg listing s.cs s.ip = some l := by
        rw [hat.1, hat.2]
        exact hls l List.mem_cons_self
      apply Relation.ReflTransGen.head _ (ih htail h)
      show (fetch sg listing s.cs s.ip).bind _ = _
      rw [hfetch]
      exact hpass
    next =>
      cases hpass
      exact ih htail h

end Sweep

end OsLabs.RealMode
