import OsLabs.Concurrent.Section
import OsLabs.PcLast.Model

/-!
# The last producer-consumer server: the end of the buffer

The semaphores let at most `n` letters wait in the buffer, but they say nothing about
where the pointers stand: `addr_prod` and `addr_cons` count all puts and all gets. So the
server is a queue of capacity `n` exactly as long as each letter is stored with fewer
than `n` puts before it (`queue_iff`); the next store is behind the buffer, however many
letters were taken in between.
-/

namespace OsLabs.PcLast

open Concurrent Concurrent.BoundedBuffer

variable {ι : Type} {n : ℕ} {s s' : Shared ι} {t : ι} {x x' : Thread}

/-! ## The section -/

/-- The globals after `d` stores and `e` reads, with the pointers at `p` and `q` and
`letter` at the `a`-th letter. -/
structure Shape (n : ℕ) (s : Shared ι) (g : Phase) (d e p q a : ℕ) : Prop where
  accounts : Accounts sems n s.sem g d e
  room : d ≤ n
  cells : ∀ k, k < d → s.buff k = letter k
  addrProd : s.addrProd = p
  addrCons : s.addrCons = q
  letter : s.letter = letter a
  puts : s.puts.map Prod.snd = letters s.puts.length
  gets : s.gets.map Prod.snd = letters s.gets.length

namespace Shape

variable {g g' : Phase} {d e p q a : ℕ}

theorem setSem (hS : Shape n s g d e p q a) {v : SemNum → ℕ} (hv : Accounts sems n v g' d e) :
    Shape n { s with sem := v } g' d e p q a :=
  { hS with accounts := hv }

theorem setLetter (hS : Shape n s g d e p q a) {l : Char} {b : ℕ} (hl : l = OsLabs.letter b) :
    Shape n { s with letter := l } g d e p q b :=
  { hS with letter := hl }

theorem setProd (hS : Shape n s g d e p q a) (k : ℕ) :
    Shape n { s with addrProd := k } g d e k q a :=
  { hS with addrProd := rfl }

theorem setCons (hS : Shape n s g d e p q a) (k : ℕ) :
    Shape n { s with addrCons := k } g d e p k a :=
  { hS with addrCons := rfl }

/-- The store of the next letter, while there is room in the buffer. -/
theorem store (hS : Shape n s .cellClaimed d e p q a) (hroom : d < n) :
    Shape n { s with buff := Function.update s.buff d (OsLabs.letter d) } .stored (d + 1) e p q
      a := by
  have hcells (k : ℕ) (hk : k < d + 1) :
      Function.update s.buff d (OsLabs.letter d) k = OsLabs.letter k := by
    by_cases hlast : k = d
    · rw [hlast]
      exact Function.update_self ..
    · rw [Function.update_of_ne hlast]
      exact hS.cells k (by omega)
  exact { hS with accounts := hS.accounts.store, room := hroom, cells := hcells }

/-- The read of the next letter, which has been stored. -/
theorem take (hS : Shape n s .letterClaimed d e p q a) :
    s.buff e = OsLabs.letter e ∧ Shape n s .taken d (e + 1) p q a :=
  ⟨hS.cells e hS.accounts.taken_lt, { hS with accounts := hS.accounts.take }⟩

/-- A put returns its letter. -/
theorem put (hS : Shape n s g d e p q a) (t : ι) :
    Shape n { s with puts := s.puts ++ [(t, OsLabs.letter s.puts.length)] } g d e p q a :=
  { hS with puts := by simp [hS.puts] }

/-- A get returns its letter. -/
theorem get (hS : Shape n s g d e p q a) (t : ι) :
    Shape n { s with gets := s.gets ++ [(t, OsLabs.letter s.gets.length)] } g d e p q a :=
  { hS with gets := by simp [hS.gets] }

end Shape

/-- Nobody is inside. -/
def Quiet (n : ℕ) (s : Shared ι) : Prop :=
  Shape n s .outside s.puts.length s.gets.length s.puts.length s.gets.length s.puts.length

/-- The thread is between its two calls of `semop`. -/
def inSection : Thread → Bool
  | .producer .start | .consumer .start => false
  | .producer _ | .consumer _ => true
  | _ => false

/-- The globals while a producer is inside. -/
def ProdInside (n : ℕ) (s : Shared ι) (pc : ProdPC) : Prop :=
  let d := s.puts.length
  let e := s.gets.length
  match pc with
  | .start => False
  | .loadPtr => Shape n s .cellClaimed d e d e d
  | .loadLetter p => Shape n s .cellClaimed d e d e d ∧ p = d
  | .store p a => Shape n s .cellClaimed d e d e d ∧ p = d ∧ a = letter d
  | .loadProduced => Shape n s .stored (d + 1) e d e d
  | .test b => Shape n s .stored (d + 1) e d e d ∧ b = letter d
  | .reset b => Shape n s .stored (d + 1) e d e d ∧ b = letter d ∧ b = 'z'
  | .letterLoad b => Shape n s .stored (d + 1) e d e d ∧ b = letter d ∧ b ≠ 'z'
  | .letterStore b a => Shape n s .stored (d + 1) e d e d ∧ b = letter d ∧ b ≠ 'z' ∧ a = letter d
  | .ptrLoad b => Shape n s .stored (d + 1) e d e (d + 1) ∧ b = letter d
  | .ptrStore b p => Shape n s .stored (d + 1) e d e (d + 1) ∧ b = letter d ∧ p = d
  | .stop b => Shape n s .stored (d + 1) e (d + 1) e (d + 1) ∧ b = letter d

/-- The globals while a consumer is inside. -/
def ConsInside (n : ℕ) (s : Shared ι) (pc : ConsPC) : Prop :=
  let d := s.puts.length
  let e := s.gets.length
  match pc with
  | .start => False
  | .loadPtr => Shape n s .letterClaimed d e d e d
  | .loadCell p => Shape n s .letterClaimed d e d e d ∧ p = e
  | .ptrLoad b => Shape n s .taken d (e + 1) d e d ∧ b = letter e
  | .ptrStore b p => Shape n s .taken d (e + 1) d e d ∧ b = letter e ∧ p = e
  | .stop b => Shape n s .taken d (e + 1) d (e + 1) d ∧ b = letter e

def Inside (n : ℕ) (_ : ι) (s : Shared ι) : Thread → Prop
  | .producer pc => ProdInside n s pc
  | .consumer pc => ConsInside n s pc
  | _ => False

/-- At most one thread is inside, and the globals are in the shape of its point. -/
def Inv (n : ℕ) (c : Config ι (Shared ι) Thread) : Prop :=
  Guarded (fun x => inSection x = true) (Quiet n) (Inside n) c

theorem producer_step {pc : ProdPC} (hin : ProdInside n s pc)
    (hroom : ∀ p a, pc = .store p a → s.puts.length < n) (h : producer t s pc = some (s', x')) :
    Leaves (fun x => inSection x = true) (Quiet n) (Inside n) t s' x' := by
  cases pc with
  | start => exact hin.elim
  | loadPtr =>
    cases h
    exact Or.inl ⟨rfl, hin, hin.addrProd⟩
  | loadLetter p =>
    cases h
    exact Or.inl ⟨rfl, hin.1, hin.2, hin.1.letter⟩
  | store p a =>
    cases h
    obtain ⟨hS, rfl, rfl⟩ := hin
    exact Or.inl ⟨rfl, hS.store (hroom _ _ rfl)⟩
  | loadProduced =>
    cases h
    exact Or.inl ⟨rfl, hin, hin.letter⟩
  | test b =>
    obtain ⟨hS, hb⟩ := hin
    cases h
    by_cases hz : b = 'z'
    · rw [if_pos hz]
      exact Or.inl ⟨rfl, hS, hb, hz⟩
    · rw [if_neg hz]
      exact Or.inl ⟨rfl, hS, hb, hz⟩
  | reset b =>
    cases h
    obtain ⟨hS, hb, hz⟩ := hin
    refine Or.inl ⟨rfl, hS.setLetter ?_, hb⟩
    exact (letter_succ_of_z (hb.symm.trans hz)).symm
  | letterLoad b =>
    cases h
    obtain ⟨hS, hb, hz⟩ := hin
    exact Or.inl ⟨rfl, hS, hb, hz, hS.letter⟩
  | letterStore b a =>
    cases h
    obtain ⟨hS, hb, hz, rfl⟩ := hin
    refine Or.inl ⟨rfl, hS.setLetter ?_, hb⟩
    exact (letter_succ_of_ne_z (hb ▸ hz)).symm
  | ptrLoad b =>
    cases h
    exact Or.inl ⟨rfl, hin.1, hin.2, hin.1.addrProd⟩
  | ptrStore b p =>
    cases h
    obtain ⟨hS, hb, rfl⟩ := hin
    exact Or.inl ⟨rfl, hS.setProd _, hb⟩
  | stop b =>
    simp only [producer, Option.map_eq_some_iff] at h
    obtain ⟨v, hv, he⟩ := h
    cases he
    obtain ⟨hS, rfl⟩ := hin
    have hlen : (s.puts ++ [(t, letter s.puts.length)]).length = s.puts.length + 1 := by simp
    refine Or.inr ⟨Bool.false_ne_true, ?_⟩
    simp only [Quiet, hlen]
    exact (hS.setSem (hS.accounts.stopProduce hv)).put t

theorem consumer_step {pc : ConsPC} (hin : ConsInside n s pc)
    (h : consumer t s pc = some (s', x')) :
    Leaves (fun x => inSection x = true) (Quiet n) (Inside n) t s' x' := by
  cases pc with
  | start => exact hin.elim
  | loadPtr =>
    cases h
    exact Or.inl ⟨rfl, hin, hin.addrCons⟩
  | loadCell p =>
    cases h
    obtain ⟨hS, rfl⟩ := hin
    obtain ⟨hread, htaken⟩ := hS.take
    exact Or.inl ⟨rfl, htaken, hread⟩
  | ptrLoad b =>
    cases h
    exact Or.inl ⟨rfl, hin.1, hin.2, hin.1.addrCons⟩
  | ptrStore b p =>
    cases h
    obtain ⟨hS, hb, rfl⟩ := hin
    exact Or.inl ⟨rfl, hS.setCons _, hb⟩
  | stop b =>
    simp only [consumer, Option.map_eq_some_iff] at h
    obtain ⟨v, hv, he⟩ := h
    cases he
    obtain ⟨hS, rfl⟩ := hin
    have hlen : (s.gets ++ [(t, letter s.gets.length)]).length = s.gets.length + 1 := by simp
    refine Or.inr ⟨Bool.false_ne_true, ?_⟩
    simp only [Quiet, hlen]
    exact (hS.setSem (hS.accounts.stopConsume hv)).get t

/-- A letter stored by a put that has not returned. -/
def putsAhead : Phase → ℕ
  | .stored => 1
  | _ => 0

/-- A letter taken by a get that has not returned. -/
def getsAhead : Phase → ℕ
  | .taken => 1
  | _ => 0

/-- The globals in phase `g` of a section. -/
def InPhase (n : ℕ) (s : Shared ι) (g : Phase) : Prop :=
  ∃ p q a, Shape n s g (s.puts.length + putsAhead g) (s.gets.length + getsAhead g) p q a

/-- At every point inside, the section is in one of its phases. -/
theorem inside_phase (hin : Inside n t s x) : ∃ g, g ≠ .outside ∧ InPhase n s g := by
  cases x with
  | idle | returned => exact hin.elim
  | producer pc =>
    cases pc with
    | start => exact hin.elim
    | loadPtr => exact ⟨.cellClaimed, nofun, _, _, _, hin⟩
    | loadLetter | store => exact ⟨.cellClaimed, nofun, _, _, _, hin.1⟩
    | loadProduced => exact ⟨.stored, nofun, _, _, _, hin⟩
    | _ => exact ⟨.stored, nofun, _, _, _, hin.1⟩
  | consumer pc =>
    cases pc with
    | start => exact hin.elim
    | loadPtr => exact ⟨.letterClaimed, nofun, _, _, _, hin⟩
    | loadCell => exact ⟨.letterClaimed, nofun, _, _, _, hin.1⟩
    | _ => exact ⟨.taken, nofun, _, _, _, hin.1⟩

/-- Nobody can enter while a thread is inside. -/
theorem not_inside_of_outside (u : ι) {y : Thread}
    (h : ∀ g d e, Accounts sems n s.sem g d e → g = .outside) : ¬ Inside n u s y := by
  intro hy
  obtain ⟨g, hg, p, q, a, hS⟩ := inside_phase hy
  exact hg (h g _ _ hS.accounts)

/-- A thread outside changes nothing, or it enters, which `BIN_SEM` allows only when nobody
is inside. -/
theorem outside_step {argp : ℤ} (hout : ¬ inSection x = true)
    (h : threadStep t argp s x = some (s', x')) :
    (s' = s ∧ ¬ inSection x' = true) ∨
      ((∀ u y, inSection y = true → ¬ Inside n u s y) ∧
        (Quiet n s → inSection x' = true ∧ Inside n t s' x')) := by
  cases x with
  | idle =>
    cases h
    refine Or.inl ⟨rfl, ?_⟩
    unfold service1Svc
    split_ifs <;> exact Bool.false_ne_true
  | returned => cases h
  | producer pc =>
    cases pc with
    | start =>
      simp only [threadStep, producer, Option.map_eq_some_iff] at h
      obtain ⟨v, hv, he⟩ := h
      cases he
      refine Or.inr ⟨fun u y _ => ?_, fun hQ => ⟨rfl, ?_⟩⟩
      · exact not_inside_of_outside u fun g d e hacc => (hacc.startProduce hv).1
      · exact Shape.setSem hQ (hQ.accounts.startProduce hv).2
    | _ => exact absurd rfl hout
  | consumer pc =>
    cases pc with
    | start =>
      simp only [threadStep, consumer, Option.map_eq_some_iff] at h
      obtain ⟨v, hv, he⟩ := h
      cases he
      refine Or.inr ⟨fun u y _ => ?_, fun hQ => ⟨rfl, ?_⟩⟩
      · exact not_inside_of_outside u fun g d e hacc => (hacc.startConsume hv).1
      · exact Shape.setSem hQ (hQ.accounts.startConsume hv).2
    | _ => exact absurd rfl hout

/-! ## Whole runs -/

section Runs

variable {c : Config ι (Shared ι) Thread}

/-- The step of a thread at `x` follows `addr_prod` or `addr_cons` inside the buffer. -/
def InBuffer (n : ℕ) : Thread → Prop
  | .producer (.store p _) | .consumer (.loadCell p) => p < n
  | _ => True

/-- The puts have returned the cycle of letters, the gets a prefix of what the puts have
returned, and at most `n` letters wait. -/
structure Fifo (n : ℕ) (s : Shared ι) : Prop where
  puts : s.puts.map Prod.snd = letters s.puts.length
  gets : s.gets.map Prod.snd <+: s.puts.map Prod.snd
  waiting : s.puts.length ≤ n + s.gets.length

/-- A letter is stored with fewer than `n` puts before it. -/
def StoresInRoom (n : ℕ) (c : Config ι (Shared ι) Thread) (a : ι × ℤ) : Prop :=
  ∀ p b, c.loc a.1 = .producer (.store p b) → c.shared.puts.length < n

theorem inv_initial (n : ℕ) : Inv n (initial ι n) := by
  refine Or.inl ⟨⟨⟨rfl, rfl, rfl⟩, Nat.zero_le n, ?_, rfl, rfl, rfl, rfl, rfl⟩,
    fun _ => Bool.false_ne_true⟩
  intro k hk
  cases hk

theorem inv_reach [DecidableEq ι] (h : (server ι).ReachBy (StoresInRoom n) (initial ι n) c) :
    Inv n c := by
  apply h.interleave_invariant (inv_initial n)
  intro c t argp s x hI hc hs
  apply Guarded.step hI
  · intro ht hin
    cases hx : c.loc t with
    | idle | returned =>
      rw [hx] at hin
      exact hin.elim
    | producer pc =>
      rw [hx] at hin hs
      refine producer_step hin ?_ hs
      rintro p a rfl
      exact hc p a hx
    | consumer pc =>
      rw [hx] at hin hs
      exact consumer_step hin hs
  · intro hout
    exact outside_step hout hs

theorem InPhase.fifo {g : Phase} (h : InPhase n s g) : Fifo n s := by
  obtain ⟨p, q, a, hS⟩ := h
  have hfull := hS.accounts.full
  have hempty := hS.accounts.empty
  have hle : s.gets.length ≤ s.puts.length ∧ s.puts.length ≤ n + s.gets.length := by
    cases g <;>
      simp only [Phase.fullDebt, Phase.emptyDebt, putsAhead, getsAhead] at hfull hempty <;> omega
  refine ⟨hS.puts, ?_, hle.2⟩
  rw [hS.puts, hS.gets]
  exact letters_prefix hle.1

theorem Inv.fifo (hI : Inv n c) : Fifo n c.shared := by
  rcases hI with ⟨hQ, -⟩ | ⟨t, hin, -⟩
  · have hphase : InPhase n c.shared .outside := ⟨_, _, _, hQ⟩
    exact hphase.fifo
  · obtain ⟨g, -, hphase⟩ := inside_phase hin
    exact hphase.fifo

/-- Only a store can leave the buffer: a letter that is taken was stored in it. -/
theorem Inv.inBuffer_iff (hI : Inv n c) (argp : ℤ) :
    InBuffer n (c.loc t) ↔ StoresInRoom n c (t, argp) := by
  have hin := hI.owner (t := t)
  unfold StoresInRoom
  cases hx : c.loc t with
  | idle | returned => exact iff_of_true trivial nofun
  | producer pc =>
    cases pc with
    | store p a =>
      rw [hx] at hin
      obtain ⟨-, rfl, -⟩ := hin rfl
      constructor
      · intro hlt _ _ _
        exact hlt
      · intro hroom
        exact hroom _ _ rfl
    | _ => exact iff_of_true trivial nofun
  | consumer pc =>
    cases pc with
    | loadCell p =>
      rw [hx] at hin
      obtain ⟨hS, rfl⟩ := hin rfl
      exact iff_of_true (Nat.lt_of_lt_of_le hS.accounts.taken_lt hS.room) nofun
    | _ => exact iff_of_true trivial nofun

/-- **The buffer is used once.** In every run of any number of calls, with any arguments:
`addr_prod` and `addr_cons` stay inside the buffer wherever they are followed, and the
calls work as a queue of capacity `n`, if and only if each letter is stored with fewer
than `n` puts before it. -/
theorem queue_iff [DecidableEq ι] {tr : List (Config ι (Shared ι) Thread × (ι × ℤ))}
    (h : (server ι).Trace (initial ι n) tr c) :
    ((∀ p ∈ tr, InBuffer n (p.1.loc p.2.1)) ∧ Fifo n c.shared) ↔
      ∀ p ∈ tr, StoresInRoom n p.1 p.2 := by
  have hiff : (∀ p ∈ tr, InBuffer n (p.1.loc p.2.1)) ↔ ∀ p ∈ tr, StoresInRoom n p.1 p.2 := by
    apply h.forall_iff (R := fun c a => InBuffer n (c.loc a.1))
    intro c a c' hc _
    exact (inv_reach hc).inBuffer_iff a.2
  rw [hiff]
  constructor
  · intro hall
    exact hall.1
  · intro hall
    exact ⟨hall, (inv_reach (h.reachBy hall)).fifo⟩

end Runs

/-! ## One put too many -/

section Alone

variable {d e : ℕ}

/-- A put comes to its store, with the pointer it finds. -/
theorem put_stores (hs : Accounts sems n s.sem .outside d e) (hlt : d < n + e) :
    ∃ v, Accounts sems n v .cellClaimed d e ∧ Solo threadStep (fun _ => True) t s .idle
      { s with sem := v } (.producer (.store s.addrProd s.letter)) := by
  obtain ⟨v, hv⟩ := hs.can_startProduce hlt
  have hstart : threadStep t 0 s (.producer .start) =
      some ({ s with sem := v }, .producer .loadPtr) := by
    have hv : semop s.sem startProduce = some v := hv
    simp only [threadStep, producer, hv, Option.map_some]
  refine ⟨v, (hs.startProduce hv).2, .head (e := 0) trivial rfl (.head trivial hstart ?_)⟩
  exact .head (e := 0) trivial rfl (.single (e := 0) trivial rfl)

/-- A put goes on from its store to its end, and leaves `addr_prod` one cell further. -/
theorem put_ends (hs : Accounts sems n s.sem .cellClaimed d e) {p : ℕ} {a : Char} :
    ∃ s' x, Solo threadStep (fun _ => True) t s (.producer (.store p a)) s' x ∧
      s'.addrProd = s.addrProd + 1 ∧ Accounts sems n s'.sem .outside (d + 1) e := by
  let s₁ : Shared ι := { s with buff := Function.update s.buff p a }
  have htest : Solo threadStep (fun _ => True) t s (.producer (.store p a)) s₁
      (.producer (.test s.letter)) :=
    .head (e := 0) trivial rfl (.single (e := 0) trivial rfl)
  -- either way, the next letter is set
  obtain ⟨l, hl⟩ : ∃ l, Solo threadStep (fun _ => True) t s₁ (.producer (.test s.letter))
      { s₁ with letter := l } (.producer (.ptrLoad s.letter)) := by
    by_cases hz : s.letter = 'z'
    · have hreset : threadStep t 0 s₁ (.producer (.test s.letter)) =
          some (s₁, .producer (.reset s.letter)) := by simp [threadStep, producer, hz]
      exact ⟨'a', .head trivial hreset (.single (e := 0) trivial rfl)⟩
    · have hload : threadStep t 0 s₁ (.producer (.test s.letter)) =
          some (s₁, .producer (.letterLoad s.letter)) := by simp [threadStep, producer, hz]
      exact ⟨incr s.letter, .head trivial hload
        (.head (e := 0) trivial rfl (.single (e := 0) trivial rfl))⟩
  let s₂ : Shared ι := { s₁ with letter := l, addrProd := s.addrProd + 1 }
  have hptr : Solo threadStep (fun _ => True) t { s₁ with letter := l }
      (.producer (.ptrLoad s.letter)) s₂ (.producer (.stop s.letter)) :=
    .head (e := 0) trivial rfl (.single (e := 0) trivial rfl)
  obtain ⟨v, hv⟩ := Accounts.can_stopProduce sems s.sem
  have hstop : threadStep t 0 s₂ (.producer (.stop s.letter)) =
      some ({ s₂ with sem := v, puts := s₂.puts ++ [(t, s.letter)] },
        .returned true (some s.letter)) := by
    have hv : semop s₂.sem stopProduce = some v := hv
    simp only [threadStep, producer, hv, Option.map_some]
  exact ⟨_, _, htest.trans (hl.trans (hptr.trans (.single trivial hstop))), rfl,
    hs.store.stopProduce hv⟩

/-- A get runs from its start to its end, and leaves `addr_prod` where it is. -/
theorem get_ends (hs : Accounts sems n s.sem .outside d e) (hlt : e < d) :
    ∃ s' x, Solo threadStep (fun _ => True) t s .idle s' x ∧
      s'.addrProd = s.addrProd ∧ Accounts sems n s'.sem .outside d (e + 1) := by
  obtain ⟨v, hv⟩ := hs.can_startConsume hlt
  let s₁ : Shared ι := { s with sem := v }
  have hstart : threadStep t 0 s (.consumer .start) = some (s₁, .consumer .loadPtr) := by
    have hv : semop s.sem startConsume = some v := hv
    simp only [threadStep, consumer, hv, Option.map_some, s₁]
  let s₂ : Shared ι := { s₁ with addrCons := s.addrCons + 1 }
  have hbody : Solo threadStep (fun _ => True) t s₁ (.consumer .loadPtr) s₂
      (.consumer (.stop (s.buff s.addrCons))) :=
    .head (e := 0) trivial rfl (.head (e := 0) trivial rfl
      (.head (e := 0) trivial rfl (.single (e := 0) trivial rfl)))
  obtain ⟨w, hw⟩ := Accounts.can_stopConsume sems v
  have hstop : threadStep t 0 s₂ (.consumer (.stop (s.buff s.addrCons))) =
      some ({ s₂ with sem := w, gets := s₂.gets ++ [(t, s.buff s.addrCons)] },
        .returned true (some (s.buff s.addrCons))) := by
    have hw : semop s₂.sem stopConsume = some w := hw
    simp only [threadStep, consumer, hw, Option.map_some]
  exact ⟨_, _, .head (e := 1) trivial rfl (.head trivial hstart
    (hbody.trans (.single trivial hstop))), rfl, (hs.startConsume hv).2.take.stopConsume hw⟩

end Alone

/-- Puts and gets by turns: the buffer is empty again and again, and `addr_prod` goes on. -/
theorem rounds {n : ℕ} (hn : 0 < n) (k : ℕ) : ∃ c : Config ℕ (Shared ℕ) Thread,
    (server ℕ).Reach (initial ℕ n) c ∧ c.shared.addrProd = k ∧
      Accounts sems n c.shared.sem .outside k k ∧ ∀ t, 2 * k ≤ t → c.loc t = .idle := by
  induction k with
  | zero => exact ⟨initial ℕ n, .refl, rfl, ⟨rfl, rfl, rfl⟩, fun _ _ => rfl⟩
  | succ k ih =>
    obtain ⟨c, hc, haddr, hsem, hidle⟩ := ih
    obtain ⟨v, hv, hstore⟩ := put_stores (t := 2 * k) hsem (by omega)
    obtain ⟨s₁, x₁, hend, haddr₁, hsem₁⟩ : ∃ s' x, Solo threadStep (fun _ => True) (2 * k)
        { c.shared with sem := v } (.producer (.store c.shared.addrProd c.shared.letter)) s' x ∧
        s'.addrProd = c.shared.addrProd + 1 ∧ Accounts sems n s'.sem .outside (k + 1) k :=
      put_ends hv
    obtain ⟨s₂, x₂, hget, haddr₂, hsem₂⟩ := get_ends (t := 2 * k + 1) hsem₁ (by omega)
    have hput : Solo threadStep (fun _ => True) (2 * k) c.shared (c.loc (2 * k)) s₁ x₁ := by
      rw [hidle (2 * k) (le_refl _)]
      exact hstore.trans hend
    have hget : Solo threadStep (fun _ => True) (2 * k + 1) (c.set (2 * k) s₁ x₁).shared
        ((c.set (2 * k) s₁ x₁).loc (2 * k + 1)) s₂ x₂ := by
      rw [Config.set_shared, Config.set_loc_of_ne (by omega), hidle (2 * k + 1) (by omega)]
      exact hget
    have hc₁ := hc.trans (hput.reachBy fun _ _ _ _ => trivial)
    refine ⟨_, hc₁.trans (hget.reachBy fun _ _ _ _ => trivial), ?_, hsem₂, fun t ht => ?_⟩
    · rw [Config.set_shared, haddr₂, haddr₁, haddr]
    · rw [Config.set_loc_of_ne (by omega), Config.set_loc_of_ne (by omega)]
      exact hidle t (by omega)

/-- The put after as many puts as the buffer has cells, each of them followed by a get,
stores behind the buffer of 4096 cells. -/
theorem overruns : ¬ ∀ (tr : List (Config ℕ (Shared ℕ) Thread × (ℕ × ℤ)))
    (c : Config ℕ (Shared ℕ) Thread), (server ℕ).Trace (initial ℕ 4096) tr c →
      (∀ p ∈ tr, InBuffer 4096 (p.1.loc p.2.1)) ∧ Fifo 4096 c.shared := by
  intro h
  obtain ⟨c, hc, haddr, hsem, hidle⟩ := rounds (n := 4096) (by omega) 4096
  obtain ⟨v, -, hstores⟩ := put_stores (t := 2 * 4096) hsem (by omega)
  let s₁ : Shared ℕ := { c.shared with sem := v }
  let x₁ : Thread := .producer (.store c.shared.addrProd c.shared.letter)
  have hput : Solo threadStep (fun _ => True) (2 * 4096) c.shared (c.loc (2 * 4096)) s₁ x₁ := by
    rw [hidle (2 * 4096) (le_refl _)]
    exact hstores
  obtain ⟨tr, htr, -⟩ := (hc.trans (hput.reachBy fun _ _ _ _ => trivial)).exists_trace
  let s₂ : Shared ℕ :=
    { s₁ with buff := Function.update s₁.buff c.shared.addrProd c.shared.letter }
  have hstore : threadStep (2 * 4096) 0 (c.set (2 * 4096) s₁ x₁).shared
      ((c.set (2 * 4096) s₁ x₁).loc (2 * 4096)) = some (s₂, .producer .loadProduced) := by
    rw [Config.set_loc_self]
    rfl
  have hin := (h _ _ (htr.snoc_interleave hstore)).1 _
    (List.mem_append_right _ (List.mem_singleton.mpr rfl))
  rw [Config.set_loc_self] at hin
  have hlt : c.shared.addrProd < 4096 := hin
  omega

/-- One put and one get, with the 4096 cells of the program. -/
theorem queue_iff_one : ∃ (tr : List (Config (Fin 2) (Shared (Fin 2)) Thread × (Fin 2 × ℤ)))
    (c : Config (Fin 2) (Shared (Fin 2)) Thread),
    (server (Fin 2)).Trace (initial (Fin 2) 4096) tr c ∧ c.shared.gets = [(1, 'a')] ∧
      Fifo 4096 c.shared := by
  have hrun : ((server (Fin 2)).record (initial (Fin 2) 4096)
      (List.replicate 12 (0, 0) ++ List.replicate 7 (1, 1))).any (fun q =>
        (q.1.all fun p => p.1.shared.puts.length < 4096) &&
          q.2.shared.gets = [(1, 'a')]) = true := by
    decide +kernel
  obtain ⟨tr, c, htr, hp⟩ := Machine.exists_trace_of_record _
    (fun tr (c : Config (Fin 2) (Shared (Fin 2)) Thread) =>
      (tr.all fun p => p.1.shared.puts.length < 4096) && c.shared.gets = [(1, 'a')]) hrun
  simp only [Bool.and_eq_true, List.all_eq_true, decide_eq_true_eq] at hp
  exact ⟨tr, c, htr, hp.2, ((queue_iff htr).mpr fun p hmem _ _ _ => hp.1 p hmem).2⟩

end OsLabs.PcLast
