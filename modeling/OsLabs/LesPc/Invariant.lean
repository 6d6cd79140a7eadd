import OsLabs.Concurrent.Section
import OsLabs.LesPc.Model

/-!
# Producers and consumers on one ring of letters: invariant

While no more letters are stored than the ring has cells, cell `k` holds the `k`-th letter
of the alphabet, and the pointers stand where the numbers of letters stored and taken put
them: `pos g 26` is not a cell any more, but `ptr_alpha_now`. `Holds` says so of the bytes
of the segment, `Shape` adds the semaphores and the history, and `ProdInside` and
`ConsInside` give the shape at each point of a section.
-/

namespace OsLabs.LesPc

open Concurrent Concurrent.BoundedBuffer Bytes

variable {g : Segment} {s s' : Shared}

/-! ## Cells and letters -/

/-- The address of a cell of the ring. -/
def cell (g : Segment) (k : ℕ) : ℕ := g.ptrAlphaNow + 1 + k

/-- Where a pointer stands after `k` letters of the first round. -/
def pos (g : Segment) (k : ℕ) : ℕ := if k < sizeBuf then cell g k else g.ptrAlphaNow

/-- The `k`-th letter of the alphabet. -/
def code (k : ℕ) : UInt8 := UInt8.ofNat ('a'.toNat + k)

/-- The first `n` letters of the alphabet. -/
def codes (n : ℕ) : List UInt8 := (List.range n).map code

@[simp] theorem codes_succ (n : ℕ) : codes (n + 1) = codes n ++ [code n] := by
  simp [codes, List.range_succ]

theorem codes_prefix {m n : ℕ} (h : m ≤ n) : codes m <+: codes n := by
  obtain ⟨k, rfl⟩ := Nat.exists_eq_add_of_le h
  unfold codes
  rw [List.range_add, List.map_append]
  exact List.prefix_append ..

theorem code_eq_z_iff {k : ℕ} (h : k < sizeBuf) : code k = 'z'.toUInt8 ↔ k = 25 := by
  have hall : ∀ k < sizeBuf, code k = 'z'.toUInt8 ↔ k = 25 := by decide
  exact hall k h

theorem lt_last {k : ℕ} (h : k < sizeBuf) (hz : k ≠ 25) : k < 25 := by
  simp only [sizeBuf] at h
  omega

theorem code_succ (k : ℕ) : code k + 1 = code (k + 1) :=
  (UInt8.ofNat_add ('a'.toNat + k) 1).symm

theorem pos_of_lt {k : ℕ} (h : k < sizeBuf) : pos g k = cell g k := if_pos h

theorem pos_lt (g : Segment) (k : ℕ) : pos g k < 2 ^ 64 := by
  have := g.fits
  unfold pos
  split_ifs with hk
  · simp only [cell, Segment.ptrAlphaNow, Segment.ptrCons, Segment.ptrProd, sizeBuf] at hk ⊢
    omega
  · simp only [Segment.ptrAlphaNow, Segment.ptrCons, Segment.ptrProd]
    omega

/-- One cell further, within the first round. -/
theorem pos_succ {k : ℕ} (h : k < 25) : pos g (k + 1) = pos g k + 1 := by
  have hs : k + 1 < sizeBuf := by simp only [sizeBuf]; omega
  rw [pos_of_lt hs, pos_of_lt (Nat.lt_of_succ_lt hs)]
  rfl

/-- From the last cell, `SIZE_BUF` back: that is `ptr_alpha_now`. -/
theorem pos_back (g : Segment) : (pos g 25 + 2 ^ 64 - sizeBuf) % 2 ^ 64 = pos g 26 := by
  have := g.fits
  rw [pos_of_lt (by decide), pos, if_neg (by decide)]
  simp only [cell, sizeBuf, Segment.ptrAlphaNow, Segment.ptrCons, Segment.ptrProd]
  omega

/-! ## The memory -/

/-- The pointers stand after `i` stores and `q` takes, the letter is the one after `j`
stores, and the first `d` cells hold their letters. -/
structure Holds (g : Segment) (m : ℕ → UInt8) (d i q j : ℕ) : Prop where
  cells : ∀ k, k < d → m (cell g k) = code k
  ptrProd : loadPtr m g.ptrProd = pos g i
  ptrCons : loadPtr m g.ptrCons = pos g q
  alpha : m g.ptrAlphaNow = code (j % sizeBuf)

namespace Holds

variable {m : ℕ → UInt8} {d i q j : ℕ}

theorem setProd (h : Holds g m d i q j) {p k : ℕ} (hp : p % 2 ^ 64 = pos g k) :
    Holds g (storePtr m g.ptrProd p) d k q j := by
  have hout : ∀ b, g.ptrProd + 8 ≤ b → storePtr m g.ptrProd p b = m b := by
    intro b hb
    exact storeWord_outside p (Or.inr hb)
  constructor
  · intro k hk
    rw [hout _ (by simp only [cell, Segment.ptrAlphaNow, Segment.ptrCons]; omega)]
    exact h.cells k hk
  · rw [← hp]
    exact loadWord_storeWord m g.ptrProd p 8
  · rw [← h.ptrCons]
    exact loadWord_storeWord_of_disjoint (Or.inr (le_refl _))
  · rw [hout _ (by simp only [Segment.ptrAlphaNow, Segment.ptrCons]; omega)]
    exact h.alpha

theorem setCons (h : Holds g m d i q j) {p k : ℕ} (hp : p % 2 ^ 64 = pos g k) :
    Holds g (storePtr m g.ptrCons p) d i k j := by
  have hout : ∀ b, g.ptrCons + 8 ≤ b → storePtr m g.ptrCons p b = m b := by
    intro b hb
    exact storeWord_outside p (Or.inr hb)
  constructor
  · intro k hk
    rw [hout _ (by simp only [cell, Segment.ptrAlphaNow]; omega)]
    exact h.cells k hk
  · rw [← h.ptrProd]
    exact loadWord_storeWord_of_disjoint (Or.inl (le_refl _))
  · rw [← hp]
    exact loadWord_storeWord m g.ptrCons p 8
  · exact (hout g.ptrAlphaNow (le_refl _)).trans h.alpha

/-- A byte behind the pointers leaves them as they are. -/
theorem loadPtr_update {a : ℕ} {c : UInt8} (ha : g.ptrAlphaNow ≤ a) :
    loadPtr (Function.update m a c) g.ptrProd = loadPtr m g.ptrProd ∧
      loadPtr (Function.update m a c) g.ptrCons = loadPtr m g.ptrCons := by
  simp only [Segment.ptrAlphaNow, Segment.ptrCons] at ha ⊢
  exact ⟨loadWord_update (Or.inr (by omega)), loadWord_update (Or.inr (by omega))⟩

theorem setAlpha (h : Holds g m d i q j) {c : UInt8} {k : ℕ} (hc : c = code (k % sizeBuf)) :
    Holds g (Function.update m g.ptrAlphaNow c) d i q k := by
  obtain ⟨hprod, hcons⟩ := loadPtr_update (g := g) (m := m) (c := c) (le_refl g.ptrAlphaNow)
  constructor
  · intro k hk
    rw [Function.update_of_ne (by simp only [cell]; omega)]
    exact h.cells k hk
  · rw [hprod]
    exact h.ptrProd
  · rw [hcons]
    exact h.ptrCons
  · rw [Function.update_self]
    exact hc

/-- The next letter in the next cell. -/
theorem setCell (h : Holds g m d i q j) :
    Holds g (Function.update m (cell g d) (code d)) (d + 1) i q j := by
  have hle : g.ptrAlphaNow ≤ cell g d := by simp only [cell]; omega
  obtain ⟨hprod, hcons⟩ := loadPtr_update (g := g) (m := m) (c := code d) hle
  constructor
  · intro k hk
    by_cases hkd : k = d
    · rw [hkd]
      exact Function.update_self ..
    · rw [Function.update_of_ne (by simp only [cell]; omega)]
      exact h.cells k (by omega)
  · rw [hprod]
    exact h.ptrProd
  · rw [hcons]
    exact h.ptrCons
  · rw [Function.update_of_ne (by simp only [cell]; omega)]
    exact h.alpha

end Holds

theorem holds_layout (g : Segment) (m : ℕ → UInt8) : Holds g (layout g m) 0 0 0 0 := by
  have hstored (m : ℕ → UInt8) (q : ℕ) : loadPtr (storePtr m q (pos g 0)) q = pos g 0 :=
    (loadWord_storeWord m q _ 8).trans (Nat.mod_eq_of_lt (pos_lt g 0))
  have hcons : loadPtr (storePtr m g.ptrCons (g.ptrAlphaNow + 1)) g.ptrCons = pos g 0 :=
    hstored m g.ptrCons
  constructor
  · intro k hk
    cases hk
  · unfold layout
    rw [(Holds.loadPtr_update (le_refl g.ptrAlphaNow)).1, hcons]
    exact hstored _ _
  · unfold layout
    rw [(Holds.loadPtr_update (le_refl g.ptrAlphaNow)).2, ← hcons]
    exact loadWord_storeWord_of_disjoint (Or.inr (le_refl _))
  · exact Function.update_self ..

/-! ## The section -/

/-- The semaphores in phase `h` of a section, the history, and the memory. -/
structure Shape (g : Segment) (s : Shared) (h : Phase) (i q j : ℕ) : Prop where
  accounts : Accounts sems sizeBuf s.sem h s.stored.length s.taken.length
  room : s.stored.length ≤ sizeBuf
  stored : s.stored = codes s.stored.length
  taken : s.taken = codes s.taken.length
  holds : Holds g s.mem s.stored.length i q j

/-- Nobody is inside. -/
def Quiet (g : Segment) (s : Shared) : Prop :=
  Shape g s .outside s.stored.length s.taken.length s.stored.length

/-- The process is between its two calls of `semop`. -/
def inSection (x : Process) : Bool :=
  match x.pc with
  | .producer .head | .producer .sleep | .producer .start => false
  | .consumer .head | .consumer .sleep | .consumer .start => false
  | .producer _ | .consumer _ => true
  | .exited => false

/-- The globals while a producer is inside; behind its store, letter `k` was the last. -/
def ProdInside (g : Segment) (s : Shared) (pc : ProdPC) : Prop :=
  let d := s.stored.length
  let e := s.taken.length
  match pc with
  | .head | .sleep | .start => False
  | .loadPtr => Shape g s .cellClaimed d e d
  | .loadAlpha p => Shape g s .cellClaimed d e d ∧ p = pos g d
  | .store p a => Shape g s .cellClaimed d e d ∧ p = pos g d ∧ a = code (d % sizeBuf)
  | .printPtr | .test => ∃ k, d = k + 1 ∧ Shape g s .stored k e k
  | .printCell p => ∃ k, d = k + 1 ∧ Shape g s .stored k e k ∧ p = pos g k
  | .decLoad => ∃ k, d = k + 1 ∧ Shape g s .stored k e k ∧ k = 25
  | .decStore p => ∃ k, d = k + 1 ∧ Shape g s .stored k e k ∧ k = 25 ∧ p = pos g k
  | .reset => ∃ k, d = k + 1 ∧ Shape g s .stored d e k ∧ k = 25
  | .incLoad => ∃ k, d = k + 1 ∧ Shape g s .stored k e k ∧ k < 25
  | .incStore p => ∃ k, d = k + 1 ∧ Shape g s .stored k e k ∧ k < 25 ∧ p = pos g k
  | .alphaLoad => ∃ k, d = k + 1 ∧ Shape g s .stored d e k ∧ k < 25
  | .alphaStore a => ∃ k, d = k + 1 ∧ Shape g s .stored d e k ∧ k < 25 ∧ a = code k
  | .stop => Shape g s .stored d e d

/-- The globals while a consumer is inside; behind its read, letter `k` was the last. -/
def ConsInside (g : Segment) (s : Shared) (pc : ConsPC) : Prop :=
  let d := s.stored.length
  let e := s.taken.length
  match pc with
  | .head | .sleep | .start => False
  | .loadPtr => Shape g s .letterClaimed d e d
  | .take p => Shape g s .letterClaimed d e d ∧ p = pos g e
  | .testPtr => ∃ k, e = k + 1 ∧ Shape g s .taken d k d
  | .testCell p => ∃ k, e = k + 1 ∧ Shape g s .taken d k d ∧ p = pos g k
  | .decLoad => ∃ k, e = k + 1 ∧ Shape g s .taken d k d ∧ k = 25
  | .decStore p => ∃ k, e = k + 1 ∧ Shape g s .taken d k d ∧ k = 25 ∧ p = pos g k
  | .incLoad => ∃ k, e = k + 1 ∧ Shape g s .taken d k d ∧ k < 25
  | .incStore p => ∃ k, e = k + 1 ∧ Shape g s .taken d k d ∧ k < 25 ∧ p = pos g k
  | .stop => Shape g s .taken d e d

def Inside {ι : Type} (g : Segment) (_ : ι) (s : Shared) (x : Process) : Prop :=
  match x.pc with
  | .producer pc => ProdInside g s pc
  | .consumer pc => ConsInside g s pc
  | .exited => False

namespace Shape

variable {h h' : Phase} {i q j : ℕ}

theorem setMem (hS : Shape g s h i q j) {m : ℕ → UInt8} {i' q' j' : ℕ}
    (hm : Holds g m s.stored.length i' q' j') : Shape g { s with mem := m } h i' q' j' :=
  { hS with holds := hm }

theorem setSem (hS : Shape g s h i q j) {v : SemNum → ℕ}
    (hv : Accounts sems sizeBuf v h' s.stored.length s.taken.length) :
    Shape g { s with sem := v } h' i q j :=
  { hS with accounts := hv }

/-- The store of the next letter in the next cell, while there is one. -/
theorem store (hS : Shape g s .cellClaimed i q j) (hroom : s.stored.length < sizeBuf) :
    Shape g { s with
      mem := Function.update s.mem (cell g s.stored.length) (code s.stored.length)
      stored := s.stored ++ [code s.stored.length] } .stored i q j := by
  have hlen : (s.stored ++ [code s.stored.length]).length = s.stored.length + 1 := by simp
  constructor
  · rw [hlen]
    exact hS.accounts.store
  · rw [hlen]
    exact hroom
  · rw [hlen, codes_succ, ← hS.stored]
  · exact hS.taken
  · rw [hlen]
    exact hS.holds.setCell

/-- The read of the next letter, which has been stored. -/
theorem take (hS : Shape g s .letterClaimed i q j) :
    s.mem (pos g s.taken.length) = code s.taken.length ∧
      Shape g { s with taken := s.taken ++ [code s.taken.length] } .taken i q j := by
  have hlt := hS.accounts.taken_lt
  have hlen : (s.taken ++ [code s.taken.length]).length = s.taken.length + 1 := by simp
  refine ⟨?_, ?_, hS.room, hS.stored, ?_, hS.holds⟩
  · rw [pos_of_lt (Nat.lt_of_lt_of_le hlt hS.room)]
    exact hS.holds.cells _ hlt
  · rw [hlen]
    exact hS.accounts.take
  · rw [hlen, codes_succ, ← hS.taken]

end Shape

variable {ι : Type} {t : ι} {x x' : Process}

theorem producer_step {pc : ProdPC} {y : PC} {flag : Bool} (hin : ProdInside g s pc)
    (hroom : ∀ p a, pc = .store p a → s.stored.length < sizeBuf)
    (h : producer g flag s pc = some (s', y)) :
    Leaves (fun x => inSection x = true) (Quiet g) (Inside g) t s' ⟨y, flag⟩ := by
  cases pc with
  | head | sleep | start => exact hin.elim
  | loadPtr =>
    cases h
    exact Or.inl ⟨rfl, hin, hin.holds.ptrProd⟩
  | loadAlpha p =>
    cases h
    exact Or.inl ⟨rfl, hin.1, hin.2, hin.1.holds.alpha⟩
  | store p a =>
    cases h
    obtain ⟨hS, rfl, rfl⟩ := hin
    have hlt : s.stored.length < sizeBuf := hroom _ _ rfl
    rw [pos_of_lt hlt, Nat.mod_eq_of_lt hlt]
    exact Or.inl ⟨rfl, s.stored.length, by simp, hS.store hlt⟩
  | printPtr =>
    cases h
    obtain ⟨k, hk, hS⟩ := hin
    exact Or.inl ⟨rfl, k, hk, hS, hS.holds.ptrProd⟩
  | printCell p =>
    cases h
    obtain ⟨k, hk, hS, -⟩ := hin
    exact Or.inl ⟨rfl, k, hk, hS⟩
  | test =>
    cases h
    obtain ⟨k, hk, hS⟩ := hin
    have hlt : k < sizeBuf := by
      have := hS.room
      omega
    rw [hS.holds.alpha, Nat.mod_eq_of_lt hlt]
    by_cases hz : k = 25
    · rw [if_pos ((code_eq_z_iff hlt).mpr hz)]
      exact Or.inl ⟨rfl, k, hk, hS, hz⟩
    · rw [if_neg (fun h => hz ((code_eq_z_iff hlt).mp h))]
      exact Or.inl ⟨rfl, k, hk, hS, lt_last hlt hz⟩
  | decLoad =>
    cases h
    obtain ⟨k, hk, hS, hz⟩ := hin
    exact Or.inl ⟨rfl, k, hk, hS, hz, hS.holds.ptrProd⟩
  | decStore p =>
    cases h
    obtain ⟨k, hk, hS, rfl, rfl⟩ := hin
    refine Or.inl ⟨rfl, 25, hk, hS.setMem (hS.holds.setProd ?_), rfl⟩
    rw [pos_back, hk]
  | reset =>
    cases h
    obtain ⟨k, hk, hS, rfl⟩ := hin
    refine Or.inl ⟨rfl, hS.setMem (hS.holds.setAlpha ?_)⟩
    rw [hk]
    rfl
  | incLoad =>
    cases h
    obtain ⟨k, hk, hS, hz⟩ := hin
    exact Or.inl ⟨rfl, k, hk, hS, hz, hS.holds.ptrProd⟩
  | incStore p =>
    cases h
    obtain ⟨k, hk, hS, hz, rfl⟩ := hin
    refine Or.inl ⟨rfl, k, hk, hS.setMem (hS.holds.setProd ?_), hz⟩
    rw [hk, ← pos_succ hz]
    exact Nat.mod_eq_of_lt (pos_lt g _)
  | alphaLoad =>
    cases h
    obtain ⟨k, hk, hS, hz⟩ := hin
    refine Or.inl ⟨rfl, k, hk, hS, hz, ?_⟩
    rw [hS.holds.alpha, Nat.mod_eq_of_lt (by simp only [sizeBuf]; omega)]
  | alphaStore a =>
    cases h
    obtain ⟨k, hk, hS, hz, rfl⟩ := hin
    refine Or.inl ⟨rfl, hS.setMem (hS.holds.setAlpha ?_)⟩
    rw [hk, code_succ, Nat.mod_eq_of_lt (by simp only [sizeBuf]; omega)]
  | stop =>
    simp only [producer, Option.map_eq_some_iff] at h
    obtain ⟨v, hv, he⟩ := h
    cases he
    exact Or.inr ⟨Bool.false_ne_true, hin.setSem (hin.accounts.stopProduce hv)⟩

theorem consumer_step {pc : ConsPC} {y : PC} {flag : Bool} (hin : ConsInside g s pc)
    (h : consumer g flag s pc = some (s', y)) :
    Leaves (fun x => inSection x = true) (Quiet g) (Inside g) t s' ⟨y, flag⟩ := by
  cases pc with
  | head | sleep | start => exact hin.elim
  | loadPtr =>
    cases h
    exact Or.inl ⟨rfl, hin, hin.holds.ptrCons⟩
  | take p =>
    cases h
    obtain ⟨hS, rfl⟩ := hin
    obtain ⟨hread, hS'⟩ := hS.take
    rw [hread]
    exact Or.inl ⟨rfl, s.taken.length, by simp, hS'⟩
  | testPtr =>
    cases h
    obtain ⟨k, hk, hS⟩ := hin
    exact Or.inl ⟨rfl, k, hk, hS, hS.holds.ptrCons⟩
  | testCell p =>
    cases h
    obtain ⟨k, hk, hS, rfl⟩ := hin
    have hle := hS.accounts.taken_le
    have hlt : k < sizeBuf := by
      have := hS.room
      omega
    rw [pos_of_lt hlt, hS.holds.cells k (by omega)]
    by_cases hz : k = 25
    · rw [if_pos ((code_eq_z_iff hlt).mpr hz)]
      exact Or.inl ⟨rfl, k, hk, hS, hz⟩
    · rw [if_neg (fun h => hz ((code_eq_z_iff hlt).mp h))]
      exact Or.inl ⟨rfl, k, hk, hS, lt_last hlt hz⟩
  | decLoad =>
    cases h
    obtain ⟨k, hk, hS, hz⟩ := hin
    exact Or.inl ⟨rfl, k, hk, hS, hz, hS.holds.ptrCons⟩
  | decStore p =>
    cases h
    obtain ⟨k, hk, hS, rfl, rfl⟩ := hin
    refine Or.inl ⟨rfl, hS.setMem (hS.holds.setCons ?_)⟩
    rw [pos_back, hk]
  | incLoad =>
    cases h
    obtain ⟨k, hk, hS, hz⟩ := hin
    exact Or.inl ⟨rfl, k, hk, hS, hz, hS.holds.ptrCons⟩
  | incStore p =>
    cases h
    obtain ⟨k, hk, hS, hz, rfl⟩ := hin
    refine Or.inl ⟨rfl, hS.setMem (hS.holds.setCons ?_)⟩
    rw [hk, ← pos_succ hz]
    exact Nat.mod_eq_of_lt (pos_lt g _)
  | stop =>
    simp only [consumer, Option.map_eq_some_iff] at h
    obtain ⟨v, hv, he⟩ := h
    cases he
    exact Or.inr ⟨Bool.false_ne_true, hin.setSem (hin.accounts.stopConsume hv)⟩

/-- A step of the process inside. A signal finds it awake. -/
theorem inside_step {e : Event} (hsec : inSection x = true) (hin : Inside g t s x)
    (hroom : e = .run → ∀ p a, x.pc = .producer (.store p a) → s.stored.length < sizeBuf)
    (h : processStep g t e s x = some (s', x')) :
    Leaves (fun x => inSection x = true) (Quiet g) (Inside g) t s' x' := by
  obtain ⟨pc, flag⟩ := x
  cases e with
  | run =>
    cases pc with
    | exited => cases hsec
    | producer pc =>
      obtain ⟨⟨s₁, y⟩, hs, hx⟩ := Option.map_eq_some_iff.mp h
      cases hx
      refine producer_step hin ?_ hs
      rintro p a rfl
      exact hroom rfl p a rfl
    | consumer pc =>
      obtain ⟨⟨s₁, y⟩, hs, hx⟩ := Option.map_eq_some_iff.mp h
      cases hx
      exact consumer_step hin hs
  | sigint =>
    cases pc with
    | exited => cases hsec
    | producer pc | consumer pc =>
      cases h
      exact Or.inl ⟨hsec, hin⟩
  | eintr =>
    cases pc with
    | exited => cases hsec
    | producer pc =>
      cases pc with
      | start => cases hsec
      | _ => cases h
    | consumer pc =>
      cases pc with
      | start => cases hsec
      | _ => cases h

/-- At every point inside, the section is in one of its phases. -/
theorem inside_shape (hin : Inside g t s x) : ∃ h i q j, h ≠ .outside ∧ Shape g s h i q j := by
  obtain ⟨pc, flag⟩ := x
  cases pc with
  | exited => exact hin.elim
  | producer pc =>
    cases pc with
    | head | sleep | start => exact hin.elim
    | loadPtr => exact ⟨.cellClaimed, _, _, _, nofun, hin⟩
    | loadAlpha | store => exact ⟨.cellClaimed, _, _, _, nofun, hin.1⟩
    | stop => exact ⟨.stored, _, _, _, nofun, hin⟩
    | printPtr | test =>
      obtain ⟨k, -, hS⟩ := hin
      exact ⟨.stored, _, _, _, nofun, hS⟩
    | _ =>
      obtain ⟨k, -, hS, -⟩ := hin
      exact ⟨.stored, _, _, _, nofun, hS⟩
  | consumer pc =>
    cases pc with
    | head | sleep | start => exact hin.elim
    | loadPtr => exact ⟨.letterClaimed, _, _, _, nofun, hin⟩
    | take => exact ⟨.letterClaimed, _, _, _, nofun, hin.1⟩
    | stop => exact ⟨.taken, _, _, _, nofun, hin⟩
    | testPtr =>
      obtain ⟨k, -, hS⟩ := hin
      exact ⟨.taken, _, _, _, nofun, hS⟩
    | _ =>
      obtain ⟨k, -, hS, -⟩ := hin
      exact ⟨.taken, _, _, _, nofun, hS⟩

/-- Nobody can enter while a process is inside. -/
theorem not_inside_of_outside (u : ι) {y : Process}
    (h : ∀ p d e, Accounts sems sizeBuf s.sem p d e → p = .outside) : ¬ Inside g u s y := by
  intro hy
  obtain ⟨p, i, q, j, hp, hS⟩ := inside_shape hy
  exact hp (h p _ _ hS.accounts)

/-- A process outside changes nothing, or it enters, which `BIN_SEM` allows only when nobody
is inside. -/
theorem outside_step {e : Event} (hout : ¬ inSection x = true)
    (h : processStep g t e s x = some (s', x')) :
    (s' = s ∧ ¬ inSection x' = true) ∨
      ((∀ (u : ι) y, inSection y = true → ¬ Inside g u s y) ∧
        (Quiet g s → inSection x' = true ∧ Inside g t s' x')) := by
  obtain ⟨pc, flag⟩ := x
  cases e with
  | sigint =>
    cases pc with
    | exited => cases h
    | producer pc | consumer pc =>
      cases h
      exact Or.inl ⟨rfl, hout⟩
  | eintr =>
    cases pc with
    | exited => cases h
    | producer pc | consumer pc =>
      simp only [processStep, Option.ite_none_right_eq_some] at h
      obtain ⟨-, he⟩ := h
      cases he
      exact Or.inl ⟨rfl, Bool.false_ne_true⟩
  | run =>
    cases pc with
    | exited => cases h
    | producer pc =>
      cases pc with
      | head =>
        cases h
        cases flag <;> exact Or.inl ⟨rfl, Bool.false_ne_true⟩
      | sleep =>
        cases h
        exact Or.inl ⟨rfl, Bool.false_ne_true⟩
      | start =>
        simp only [processStep, producer, Option.map_map, Option.map_eq_some_iff] at h
        obtain ⟨v, hv, he⟩ := h
        cases he
        refine Or.inr ⟨fun u y _ => ?_, fun hQ => ⟨rfl, ?_⟩⟩
        · exact not_inside_of_outside u fun p d e hacc => (hacc.startProduce hv).1
        · exact Shape.setSem hQ (hQ.accounts.startProduce hv).2
      | _ => exact absurd rfl hout
    | consumer pc =>
      cases pc with
      | head =>
        cases h
        cases flag <;> exact Or.inl ⟨rfl, Bool.false_ne_true⟩
      | sleep =>
        cases h
        exact Or.inl ⟨rfl, Bool.false_ne_true⟩
      | start =>
        simp only [processStep, consumer, Option.map_map, Option.map_eq_some_iff] at h
        obtain ⟨v, hv, he⟩ := h
        cases he
        refine Or.inr ⟨fun u y _ => ?_, fun hQ => ⟨rfl, ?_⟩⟩
        · exact not_inside_of_outside u fun p d e hacc => (hacc.startConsume hv).1
        · exact Shape.setSem hQ (hQ.accounts.startConsume hv).2
      | _ => exact absurd rfl hout

end OsLabs.LesPc
