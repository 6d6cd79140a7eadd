import OsLabs.PcServer.Model
import OsLabs.Concurrent.Ring
import OsLabs.Concurrent.Section
import Mathlib.Data.List.Nodup

/-!
# The producer-consumer server: invariant

At most one worker is inside a critical section (`InSection`), and the globals are then
determined by its program point, the number `D` of letters deposited and the number `T`
of letters taken: `Shape` fixes the semaphores, both pointers and `alpha`. A step of the
worker inside leads from the shape of its point to the shape of the next one
(`producer_step`, `consumer_step`); a worker outside can only enter, and only when
nobody is inside. The cells are a window on the cycle of letters (`Ring`), and `Logged`
ties each worker's result to its entry in the history.
-/

namespace OsLabs.PcServer

open Concurrent Concurrent.Ring

variable {ι : Type} {n : ℕ} {s s' : Shared ι} {t : ι}

/-- The histories are the cycle of letters, and the cells hold the letters deposited and
not yet taken. -/
structure Stored (n : ℕ) (s : Shared ι) : Prop where
  deposited : s.deposited.map Prod.snd = letters s.deposited.length
  taken : s.taken.map Prod.snd = letters s.taken.length
  le : s.taken.length ≤ s.deposited.length
  window : Window n s.buffer letter s.taken.length s.deposited.length

/-- The globals at one program point: `e` free cells and `f` full cells are claimed by
the worker inside, the pointers are at `p` and `c`, and `alpha` is letter `a`. -/
structure Shape (n : ℕ) (s : Shared ι) (b e f p c a : ℕ) : Prop where
  binary : s.sem .binary = b
  bempty : s.sem .bempty + e + s.deposited.length = n + s.taken.length
  bfull : s.sem .bfull + f + s.taken.length = s.deposited.length
  prodPtr : s.prodPtr = p
  consPtr : s.consPtr = c
  alpha : s.alpha = letter a

/-- Nobody is inside. -/
def Quiet (n : ℕ) (s : Shared ι) : Prop :=
  Shape n s 1 0 0 (s.deposited.length % n) (s.taken.length % n) s.deposited.length

/-- The point lies between `start_prod` and `stop_prod`, or `start_cons` and
`stop_cons`. -/
def InSection : Worker → Prop
  | .idle => False
  | .producer pc _ => pc ≠ .start ∧ pc ≠ .done
  | .consumer pc _ => pc ≠ .start ∧ pc ≠ .done

/-- The globals while a producer is inside. Up to the store the letter `D` is still to
come; after it the letter `k` was the last one, and the pointer and `alpha` lag behind. -/
def ProdInside (n : ℕ) (s : Shared ι) (t : ι) : ProdPC → Prop
  | .start | .done => False
  | .loadPtr =>
      Shape n s 0 1 0 (s.deposited.length % n) (s.taken.length % n) s.deposited.length
  | .loadAlpha p =>
      Shape n s 0 1 0 (s.deposited.length % n) (s.taken.length % n) s.deposited.length ∧
        p = s.deposited.length % n
  | .store p a =>
      Shape n s 0 1 0 (s.deposited.length % n) (s.taken.length % n) s.deposited.length ∧
        p = s.deposited.length % n ∧ a = letter s.deposited.length
  | .loadResult =>
      ∃ k, s.deposited.length = k + 1 ∧ Shape n s 0 0 1 (k % n) (s.taken.length % n) k ∧
        (t, letter k) ∈ s.deposited
  | .print _ | .incLoad =>
      ∃ k, s.deposited.length = k + 1 ∧ Shape n s 0 0 1 (k % n) (s.taken.length % n) k
  | .incStore p =>
      ∃ k, s.deposited.length = k + 1 ∧ Shape n s 0 0 1 (k % n) (s.taken.length % n) k ∧ p = k % n
  | .wrapTest =>
      ∃ k, s.deposited.length = k + 1 ∧ Shape n s 0 0 1 (k % n + 1) (s.taken.length % n) k
  | .wrapStore =>
      ∃ k, s.deposited.length = k + 1 ∧ Shape n s 0 0 1 (k % n + 1) (s.taken.length % n) k ∧
        k % n + 1 = n
  | .alphaTest =>
      ∃ k, s.deposited.length = k + 1 ∧ Shape n s 0 0 1 ((k + 1) % n) (s.taken.length % n) k
  | .alphaReset =>
      ∃ k, s.deposited.length = k + 1 ∧ Shape n s 0 0 1 ((k + 1) % n) (s.taken.length % n) k ∧
        letter k = 'z'
  | .alphaLoad =>
      ∃ k, s.deposited.length = k + 1 ∧ Shape n s 0 0 1 ((k + 1) % n) (s.taken.length % n) k ∧
        letter k ≠ 'z'
  | .alphaStore a =>
      ∃ k, s.deposited.length = k + 1 ∧ Shape n s 0 0 1 ((k + 1) % n) (s.taken.length % n) k ∧
        letter k ≠ 'z' ∧ a = letter k
  | .stop =>
      Shape n s 0 0 1 (s.deposited.length % n) (s.taken.length % n) s.deposited.length

/-- The globals while a consumer is inside. After the letter `k` is taken its cell is
free, but still claimed. -/
def ConsInside (n : ℕ) (s : Shared ι) : ConsPC → Prop
  | .start | .done => False
  | .loadPtr =>
      Shape n s 0 0 1 (s.deposited.length % n) (s.taken.length % n) s.deposited.length
  | .loadCell p =>
      Shape n s 0 0 1 (s.deposited.length % n) (s.taken.length % n) s.deposited.length ∧
        p = s.taken.length % n
  | .fillPtr | .print _ | .incLoad =>
      ∃ k, s.taken.length = k + 1 ∧
        Shape n s 0 1 0 (s.deposited.length % n) (k % n) s.deposited.length
  | .fillStore p | .incStore p =>
      ∃ k, s.taken.length = k + 1 ∧
        Shape n s 0 1 0 (s.deposited.length % n) (k % n) s.deposited.length ∧ p = k % n
  | .wrapTest =>
      ∃ k, s.taken.length = k + 1 ∧
        Shape n s 0 1 0 (s.deposited.length % n) (k % n + 1) s.deposited.length
  | .wrapStore =>
      ∃ k, s.taken.length = k + 1 ∧
        Shape n s 0 1 0 (s.deposited.length % n) (k % n + 1) s.deposited.length ∧ k % n + 1 = n
  | .stop =>
      Shape n s 0 1 0 (s.deposited.length % n) (s.taken.length % n) s.deposited.length

def Inside (n : ℕ) (s : Shared ι) (t : ι) : Worker → Prop
  | .idle => False
  | .producer pc _ => ProdInside n s t pc
  | .consumer pc _ => ConsInside n s pc

/-! ## Steps of the worker inside -/

/-- After a step of the worker inside: it is still inside, at a point with its shape, or
it has left and nobody is inside. -/
def Next (n : ℕ) (s : Shared ι) (t : ι) (w : Worker) : Prop :=
  Stored n s ∧ ((InSection w ∧ Inside n s t w) ∨ (¬ InSection w ∧ Quiet n s))

theorem inSection_of_inside {w : Worker} (h : Inside n s t w) : InSection w := by
  cases w with
  | idle => exact h
  | producer pc r =>
    constructor
    · rintro rfl
      exact h
    · rintro rfl
      exact h
  | consumer pc r =>
    constructor
    · rintro rfl
      exact h
    · rintro rfl
      exact h

theorem next_of_inside {w : Worker} (hs : Stored n s) (h : Inside n s t w) : Next n s t w :=
  ⟨hs, Or.inl ⟨inSection_of_inside h, h⟩⟩

/-- The letters stored are not touched by changes of the pointers and the semaphores. -/
theorem Stored.congr (hs : Stored n s) (hd : s'.deposited = s.deposited)
    (ht : s'.taken = s.taken) (hb : s'.buffer = s.buffer) : Stored n s' where
  deposited := by rw [hd, hs.deposited]
  taken := by rw [ht, hs.taken]
  le := by rw [hd, ht]; exact hs.le
  window := by rw [hd, ht, hb]; exact hs.window

/-- Storing the letter `D` through a pointer at its cell. -/
theorem stored_deposit (hs : Stored n s) (hroom : s.deposited.length < s.taken.length + n) :
    Stored n { s with
      buffer := Function.update s.buffer (s.deposited.length % n) (letter s.deposited.length)
      deposited := s.deposited ++ [(t, letter s.deposited.length)] } where
  deposited := by simp [hs.deposited]
  taken := hs.taken
  le := by simpa using Nat.le_succ_of_le hs.le
  window := by simpa using hs.window.push hroom

/-- Taking the letter `T`. -/
theorem stored_take (hs : Stored n s) (hfull : s.taken.length < s.deposited.length) :
    Stored n { s with taken := s.taken ++ [(t, letter s.taken.length)] } where
  deposited := hs.deposited
  taken := by simp [hs.taken]
  le := by simp; omega
  window := by simpa using hs.window.pop

theorem producer_step (hn : 0 < n) {pc : ProdPC} {r : Option Char} {w : Worker}
    (hs : Stored n s) (hin : ProdInside n s t pc)
    (h : producer1Svc n t s r pc = some (s', w)) : Next n s' t w := by
  cases pc with
  | start => exact hin.elim
  | done => exact hin.elim
  | loadPtr =>
    cases h
    exact next_of_inside hs ⟨hin, hin.prodPtr⟩
  | loadAlpha p =>
    cases h
    exact next_of_inside hs ⟨hin.1, hin.2, hin.1.alpha⟩
  | store p a =>
    cases h
    obtain ⟨hsh, rfl, rfl⟩ := hin
    have hroom : s.deposited.length < s.taken.length + n := by have := hsh.bempty; omega
    refine next_of_inside (stored_deposit hs hroom) ⟨s.deposited.length, by simp, ?_, by simp⟩
    have h1 := hsh.bempty
    have h2 := hsh.bfull
    exact { hsh with bempty := by simp; omega, bfull := by simp; omega }
  | loadResult =>
    cases h
    obtain ⟨k, hk, hsh, _⟩ := hin
    exact next_of_inside hs ⟨k, hk, hsh⟩
  | print cur =>
    simp only [producer1Svc] at h
    split_ifs at h <;> cases h <;> exact next_of_inside hs hin
  | incLoad =>
    cases h
    obtain ⟨k, hk, hsh⟩ := hin
    exact next_of_inside hs ⟨k, hk, hsh, hsh.prodPtr⟩
  | incStore p =>
    cases h
    obtain ⟨k, hk, hsh, rfl⟩ := hin
    exact next_of_inside (hs.congr rfl rfl rfl)
      ⟨k, hk, { hsh with prodPtr := rfl }⟩
  | wrapTest =>
    obtain ⟨k, hk, hsh⟩ := hin
    have hptr := hsh.prodPtr
    simp only [producer1Svc] at h
    split_ifs at h with hw <;> cases h
    · exact next_of_inside hs ⟨k, hk, hsh, by omega⟩
    · refine next_of_inside hs ⟨k, hk, ?_⟩
      rwa [succ_mod hn, if_neg (by omega)]
  | wrapStore =>
    cases h
    obtain ⟨k, hk, hsh, hw⟩ := hin
    refine next_of_inside (hs.congr rfl rfl rfl) ⟨k, hk, ?_⟩
    rw [succ_mod hn, if_pos hw]
    exact { hsh with prodPtr := rfl }
  | alphaTest =>
    obtain ⟨k, hk, hsh⟩ := hin
    simp only [producer1Svc, hsh.alpha] at h
    split_ifs at h with hz <;> cases h <;>
      exact next_of_inside hs ⟨k, hk, hsh, hz⟩
  | alphaReset =>
    cases h
    obtain ⟨k, hk, hsh, hz⟩ := hin
    refine next_of_inside (hs.congr rfl rfl rfl) ?_
    simp only [Inside, ProdInside, hk]
    exact { hsh with alpha := (letter_succ_of_z hz).symm }
  | alphaLoad =>
    cases h
    obtain ⟨k, hk, hsh, hz⟩ := hin
    exact next_of_inside hs ⟨k, hk, hsh, hz, hsh.alpha⟩
  | alphaStore a =>
    cases h
    obtain ⟨k, hk, hsh, hz, rfl⟩ := hin
    refine next_of_inside (hs.congr rfl rfl rfl) ?_
    simp only [Inside, ProdInside, hk]
    exact { hsh with alpha := (letter_succ_of_ne_z hz).symm }
  | stop =>
    simp only [producer1Svc, stopProd, Option.map_eq_some_iff, semop_up_cons, semop_nil] at h
    obtain ⟨v, hv, he⟩ := h
    cases hv
    cases he
    have h2 := hin.bfull
    refine ⟨hs.congr rfl rfl rfl, Or.inr ⟨by simp [InSection], ?_⟩⟩
    exact { hin with
      binary := by simp [hin.binary]
      bempty := by simpa using hin.bempty
      bfull := by simp; omega }

theorem consumer_step (hn : 0 < n) {pc : ConsPC} {r : Option Char} {w : Worker}
    (hs : Stored n s) (hin : ConsInside n s pc)
    (h : consumer1Svc n t s r pc = some (s', w)) : Next n s' t w := by
  cases pc with
  | start => exact hin.elim
  | done => exact hin.elim
  | loadPtr =>
    cases h
    exact next_of_inside hs ⟨hin, hin.consPtr⟩
  | loadCell p =>
    cases h
    obtain ⟨hsh, rfl⟩ := hin
    have h1 := hsh.bempty
    have h2 := hsh.bfull
    have hfull : s.taken.length < s.deposited.length := by omega
    have hcell : s.buffer (s.taken.length % n) = letter s.taken.length :=
      hs.window _ (le_refl _) hfull
    rw [hcell]
    refine next_of_inside (stored_take hs hfull) ⟨s.taken.length, by simp, ?_⟩
    exact { hsh with bempty := by simp; omega, bfull := by simp; omega }
  | fillPtr =>
    cases h
    obtain ⟨k, hk, hsh⟩ := hin
    exact next_of_inside hs ⟨k, hk, hsh, hsh.consPtr⟩
  | fillStore p =>
    cases h
    obtain ⟨k, hk, hsh, rfl⟩ := hin
    have h1 := hsh.bempty
    have hw := hs.window
    rw [hk] at hw
    refine next_of_inside ⟨hs.deposited, hs.taken, hs.le, ?_⟩ ⟨k, hk, ?_⟩
    · simp only [hk]
      exact hw.clear (by omega) _
    · exact { hsh with }
  | print cur =>
    simp only [consumer1Svc] at h
    split_ifs at h <;> cases h <;> exact next_of_inside hs hin
  | incLoad =>
    cases h
    obtain ⟨k, hk, hsh⟩ := hin
    exact next_of_inside hs ⟨k, hk, hsh, hsh.consPtr⟩
  | incStore p =>
    cases h
    obtain ⟨k, hk, hsh, rfl⟩ := hin
    exact next_of_inside (hs.congr rfl rfl rfl)
      ⟨k, hk, { hsh with consPtr := rfl }⟩
  | wrapTest =>
    obtain ⟨k, hk, hsh⟩ := hin
    have hptr := hsh.consPtr
    simp only [consumer1Svc] at h
    split_ifs at h with hw <;> cases h
    · exact next_of_inside hs ⟨k, hk, hsh, by omega⟩
    · refine next_of_inside hs ?_
      have hnext : (k + 1) % n = k % n + 1 := by rw [succ_mod hn, if_neg (by omega)]
      simpa only [Inside, ConsInside, hk, hnext] using hsh
  | wrapStore =>
    cases h
    obtain ⟨k, hk, hsh, hw⟩ := hin
    have hnext : (k + 1) % n = 0 := by rw [succ_mod hn, if_pos hw]
    refine next_of_inside (hs.congr rfl rfl rfl) ?_
    simp only [Inside, ConsInside, hk, hnext]
    exact { hsh with
      bempty := by simpa [hk] using hsh.bempty
      bfull := by simpa [hk] using hsh.bfull
      consPtr := rfl }
  | stop =>
    simp only [consumer1Svc, stopCons, Option.map_eq_some_iff, semop_up_cons, semop_nil] at h
    obtain ⟨v, hv, he⟩ := h
    cases hv
    cases he
    have h1 := hin.bempty
    refine ⟨hs.congr rfl rfl rfl, Or.inr ⟨by simp [InSection], ?_⟩⟩
    exact { hin with
      binary := by simp [hin.binary]
      bempty := by simp; omega
      bfull := by simpa using hin.bfull }

theorem inside_step (hn : 0 < n) {e : Proc} {w w' : Worker} (hs : Stored n s)
    (hin : Inside n s t w) (h : workerStep n t e s w = some (s', w')) : Next n s' t w' := by
  cases w with
  | idle => exact hin.elim
  | producer pc r => exact producer_step hn hs hin h
  | consumer pc r => exact consumer_step hn hs hin h

/-- At every point inside there is a shape: `BINARY` is taken. -/
theorem inside_shape {w : Worker} (hin : Inside n s t w) :
    ∃ e f p c a, Shape n s 0 e f p c a := by
  cases w with
  | idle => exact hin.elim
  | producer pc r =>
    cases pc with
    | start | done => exact hin.elim
    | loadPtr | stop => exact ⟨_, _, _, _, _, hin⟩
    | loadAlpha | store => exact ⟨_, _, _, _, _, hin.1⟩
    | print | incLoad | wrapTest | alphaTest =>
      obtain ⟨k, _, hsh⟩ := hin
      exact ⟨_, _, _, _, _, hsh⟩
    | _ =>
      obtain ⟨k, _, hsh, _⟩ := hin
      exact ⟨_, _, _, _, _, hsh⟩
  | consumer pc r =>
    cases pc with
    | start | done => exact hin.elim
    | loadPtr | stop => exact ⟨_, _, _, _, _, hin⟩
    | loadCell => exact ⟨_, _, _, _, _, hin.1⟩
    | fillStore | incStore | wrapStore =>
      obtain ⟨k, _, hsh, _⟩ := hin
      exact ⟨_, _, _, _, _, hsh⟩
    | _ =>
      obtain ⟨k, _, hsh⟩ := hin
      exact ⟨_, _, _, _, _, hsh⟩

/-! ## Entering -/

/-- A worker outside either stays outside and changes nothing, or it enters, which the
semaphore `BINARY` allows only when nobody is inside. -/
theorem outside_step {e : Proc} {w w' : Worker} (hout : ¬ InSection w)
    (h : workerStep n t e s w = some (s', w')) :
    (s' = s ∧ ¬ InSection w') ∨
      (0 < s.sem .binary ∧ (Stored n s → Quiet n s → Stored n s' ∧ Inside n s' t w') ∧
        InSection w') := by
  cases w with
  | idle =>
    cases e <;> cases h <;> exact Or.inl ⟨rfl, by simp [InSection]⟩
  | producer pc r =>
    cases pc <;> simp [InSection] at hout
    · simp only [workerStep, producer1Svc, startProd, Option.map_eq_some_iff, semop_down_cons,
        semop_nil] at h
      obtain ⟨v, ⟨he, hb, hv⟩, hw⟩ := h
      cases hv
      cases hw
      have hb' : 0 < s.sem .binary := by simpa using hb
      refine Or.inr ⟨hb', fun hs hq => ⟨{ hs with }, ?_⟩,
        by simp [InSection]⟩
      have h1 := hq.binary
      have h2 := hq.bempty
      exact { hq with
        binary := by simp; omega
        bempty := by simp; omega
        bfull := by simpa using hq.bfull }
    · cases h
  | consumer pc r =>
    cases pc <;> simp [InSection] at hout
    · simp only [workerStep, consumer1Svc, startCons, Option.map_eq_some_iff, semop_down_cons,
        semop_nil] at h
      obtain ⟨v, ⟨hf, hb, hv⟩, hw⟩ := h
      cases hv
      cases hw
      have hb' : 0 < s.sem .binary := by simpa using hb
      refine Or.inr ⟨hb', fun hs hq => ⟨{ hs with }, ?_⟩,
        by simp [InSection]⟩
      have h1 := hq.binary
      have h2 := hq.bfull
      exact { hq with
        binary := by simp; omega
        bempty := by simpa using hq.bempty
        bfull := by simp; omega }
    · cases h

/-! ## The history -/

/-- What the history records of thread `t`: nothing before its store or take, and from
then on the letter it returns. -/
def Logged (s : Shared ι) (t : ι) : Worker → Prop
  | .idle => t ∉ s.deposited.map Prod.fst ∧ t ∉ s.taken.map Prod.fst
  | .producer pc r =>
      t ∉ s.taken.map Prod.fst ∧
        match pc with
        | .start | .loadPtr | .loadAlpha _ | .store _ _ => t ∉ s.deposited.map Prod.fst
        | .loadResult => t ∈ s.deposited.map Prod.fst
        | _ => ∃ a, r = some a ∧ (t, a) ∈ s.deposited
  | .consumer pc r =>
      t ∉ s.deposited.map Prod.fst ∧
        match pc with
        | .start | .loadPtr | .loadCell _ => r = none ∧ t ∉ s.taken.map Prod.fst
        | _ => ∃ a, r = some a ∧ (t, a) ∈ s.taken

/-- The history grows only at a store and at a take, by an entry of the thread that
moves. -/
theorem history_step {e : Proc} {w w' : Worker} (h : workerStep n t e s w = some (s', w')) :
    (s'.deposited = s.deposited ∧ s'.taken = s.taken) ∨
      (∃ p a r, w = .producer (.store p a) r ∧ s'.deposited = s.deposited ++ [(t, a)] ∧
        s'.taken = s.taken) ∨
      (∃ p r, w = .consumer (.loadCell p) r ∧ s'.deposited = s.deposited ∧
        s'.taken = s.taken ++ [(t, s.buffer p)]) := by
  cases w with
  | idle => cases e <;> cases h <;> exact Or.inl ⟨rfl, rfl⟩
  | producer pc r =>
    cases pc with
    | store p a => cases h; exact Or.inr (Or.inl ⟨p, a, r, rfl, rfl, rfl⟩)
    | start | stop =>
      simp only [workerStep, producer1Svc, Option.map_eq_some_iff] at h
      obtain ⟨v, _, he⟩ := h
      cases he
      exact Or.inl ⟨rfl, rfl⟩
    | print | wrapTest | alphaTest =>
      simp only [workerStep, producer1Svc] at h
      split_ifs at h <;> cases h <;> exact Or.inl ⟨rfl, rfl⟩
    | done => cases h
    | _ => cases h; exact Or.inl ⟨rfl, rfl⟩
  | consumer pc r =>
    cases pc with
    | loadCell p => cases h; exact Or.inr (Or.inr ⟨p, r, rfl, rfl, rfl⟩)
    | start | stop =>
      simp only [workerStep, consumer1Svc, Option.map_eq_some_iff] at h
      obtain ⟨v, _, he⟩ := h
      cases he
      exact Or.inl ⟨rfl, rfl⟩
    | print | wrapTest =>
      simp only [workerStep, consumer1Svc] at h
      split_ifs at h <;> cases h <;> exact Or.inl ⟨rfl, rfl⟩
    | done => cases h
    | _ => cases h; exact Or.inl ⟨rfl, rfl⟩

/-- The record of the other threads stays. -/
theorem logged_other {e : Proc} {u : ι} {w w' v : Worker} (hu : u ≠ t)
    (h : workerStep n t e s w = some (s', w')) (hl : Logged s u v) : Logged s' u v := by
  have hmem : ∀ (l : List (ι × Char)) (a : Char),
      (u ∈ (l ++ [(t, a)]).map Prod.fst ↔ u ∈ l.map Prod.fst) := by
    intro l a
    simp [hu]
  have hsub : ∀ (l : List (ι × Char)) (a b : Char), ((u, b) ∈ l ++ [(t, a)] ↔ (u, b) ∈ l) := by
    intro l a b
    simp [hu]
  rcases history_step h with ⟨hd, ht⟩ | ⟨p, a, r, _, hd, ht⟩ | ⟨p, r, _, hd, ht⟩ <;>
    cases v <;> simpa only [Logged, hd, ht, hmem, hsub] using hl

/-- The record of the thread that moves follows its program point. -/
theorem logged_self {e : Proc} {w w' : Worker} (hl : Logged s t w)
    (hin : ∀ r, w = .producer .loadResult r → (t, s.alpha) ∈ s.deposited)
    (h : workerStep n t e s w = some (s', w')) : Logged s' t w' := by
  cases w with
  | idle =>
    cases e <;> cases h
    · exact ⟨hl.2, hl.1⟩
    · exact ⟨hl.1, rfl, hl.2⟩
  | producer pc r =>
    cases pc with
    | start | stop =>
      simp only [workerStep, producer1Svc, Option.map_eq_some_iff] at h
      obtain ⟨v, _, he⟩ := h
      cases he
      exact hl
    | print | wrapTest | alphaTest =>
      simp only [workerStep, producer1Svc] at h
      split_ifs at h <;> cases h <;> exact hl
    | store p a => cases h; exact ⟨hl.1, by simp⟩
    | loadResult => cases h; exact ⟨hl.1, s.alpha, rfl, hin r rfl⟩
    | done => cases h
    | _ => cases h; exact hl
  | consumer pc r =>
    cases pc with
    | start | stop =>
      simp only [workerStep, consumer1Svc, Option.map_eq_some_iff] at h
      obtain ⟨v, _, he⟩ := h
      cases he
      exact hl
    | print | wrapTest =>
      simp only [workerStep, consumer1Svc] at h
      split_ifs at h <;> cases h <;> exact hl
    | loadCell p => cases h; exact ⟨hl.1, s.buffer p, rfl, by simp⟩
    | done => cases h
    | _ => cases h; exact hl

theorem nodup_append_entry {l : List (ι × Char)} {a : Char} (h : (l.map Prod.fst).Nodup)
    (ht : t ∉ l.map Prod.fst) : ((l ++ [(t, a)]).map Prod.fst).Nodup := by
  rw [List.map_append, List.nodup_append]
  refine ⟨h, List.nodup_singleton _, ?_⟩
  rintro u hu v hv rfl
  exact ht (by simpa [List.mem_singleton.mp hv] using hu)

/-! ## The invariant -/

/-- The invariant of the server. -/
structure Inv (n : ℕ) (c : Config ι (Shared ι) Worker) : Prop where
  stored : Stored n c.shared
  inside : (Quiet n c.shared ∧ ∀ t, ¬ InSection (c.loc t)) ∨
    ∃ t, Inside n c.shared t (c.loc t) ∧ InSection (c.loc t) ∧
      ∀ u, InSection (c.loc u) → u = t
  logged : ∀ t, Logged c.shared t (c.loc t)
  depositedOnce : (c.shared.deposited.map Prod.fst).Nodup
  takenOnce : (c.shared.taken.map Prod.fst).Nodup

theorem inv_initSem (n : ℕ) : Inv n (initSem ι n) where
  stored := ⟨rfl, rfl, le_refl _, window_empty n _ _ 0⟩
  inside := Or.inl ⟨⟨rfl, by simp [initSem, initVal], rfl, rfl, rfl, rfl⟩, by
    simp [initSem, InSection]⟩
  logged := by simp [initSem, Logged]
  depositedOnce := by simp [initSem]
  takenOnce := by simp [initSem]

theorem Next.leaves {w : Worker} (h : Next n s t w) :
    Leaves InSection (fun s => Stored n s ∧ Quiet n s) (fun t s w => Stored n s ∧ Inside n s t w)
      t s w := by
  obtain ⟨hst, ⟨hsec, hin⟩ | ⟨hsec, hq⟩⟩ := h
  · exact Or.inl ⟨hsec, hst, hin⟩
  · exact Or.inr ⟨hsec, hst, hq⟩

/-- The invariant as one of the section: the letters stored are part of what the worker
inside finds. -/
theorem Inv.guarded {c : Config ι (Shared ι) Worker} (hI : Inv n c) :
    Guarded InSection (fun s => Stored n s ∧ Quiet n s) (fun t s w => Stored n s ∧ Inside n s t w)
      c := by
  rcases hI.inside with ⟨hq, hout⟩ | ⟨t, hin, hsec, honly⟩
  · exact Or.inl ⟨⟨hI.stored, hq⟩, hout⟩
  · exact Or.inr ⟨t, ⟨hI.stored, hin⟩, hsec, honly⟩

variable [DecidableEq ι]

theorem inv_step (hn : 0 < n) {c : Config ι (Shared ι) Worker} {e : Proc} {w : Worker}
    (hI : Inv n c) (h : workerStep n t e c.shared (c.loc t) = some (s, w)) :
    Inv n (c.set t s w) := by
  have hlogs : ∀ u, Logged (c.set t s w).shared u ((c.set t s w).loc u) := by
    rw [Config.set_shared]
    refine Config.forall_set (P := Logged s) ?_ fun u hu => logged_other hu h (hI.logged u)
    refine logged_self (hI.logged t) ?_ h
    intro r hr
    have hin := hI.guarded.owner (t := t) (by simp [hr, InSection])
    rw [hr] at hin
    obtain ⟨-, k, _, hsh, hmem⟩ := hin
    rwa [hsh.alpha]
  have honce : (s.deposited.map Prod.fst).Nodup ∧ (s.taken.map Prod.fst).Nodup := by
    have hl := hI.logged t
    rcases history_step h with ⟨hd, ht⟩ | ⟨p, a, r, hw, hd, ht⟩ | ⟨p, r, hw, hd, ht⟩
    · rw [hd, ht]
      exact ⟨hI.depositedOnce, hI.takenOnce⟩
    · rw [hw] at hl
      rw [hd, ht]
      exact ⟨nodup_append_entry hI.depositedOnce hl.2, hI.takenOnce⟩
    · rw [hw] at hl
      rw [hd, ht]
      exact ⟨hI.depositedOnce, nodup_append_entry hI.takenOnce hl.2.2⟩
  have hG := hI.guarded.step (t := t) (s := s) (x := w)
    (fun _ hin => (inside_step hn hin.1 hin.2 h).leaves) fun hout => by
      rcases outside_step hout h with ⟨rfl, hw⟩ | ⟨hb, henter, hw⟩
      · exact Or.inl ⟨rfl, hw⟩
      · refine Or.inr ⟨fun u y _ hin => ?_, fun hq => ⟨hw, henter hq.1 hq.2⟩⟩
        obtain ⟨_, _, _, _, _, hsh⟩ := inside_shape hin.2
        have hzero := hsh.binary
        omega
  rcases hG with ⟨⟨hst, hq⟩, hout⟩ | ⟨u, ⟨hst, hin⟩, hsec, honly⟩
  · exact ⟨hst, Or.inl ⟨hq, hout⟩, hlogs, honce.1, honce.2⟩
  · exact ⟨hst, Or.inr ⟨u, hin, hsec, honly⟩, hlogs, honce.1, honce.2⟩

/-- The invariant holds in every state the server reaches. -/
theorem inv_reach (hn : 0 < n) {c : Config ι (Shared ι) Worker}
    (h : (server ι n).Reach (initSem ι n) c) : Inv n c :=
  Machine.ReachBy.interleave_invariant h (inv_initSem n) fun _ _ _ _ _ hI _ hs => inv_step hn hI hs

end OsLabs.PcServer
