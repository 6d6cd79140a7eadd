import OsLabs.PcServer.Invariant

/-!
# The producer-consumer server is a bounded queue

In every state of every run the letters taken are a prefix of the letters deposited, the
letters deposited are the cycle `'a', …, 'z', 'a', …`, and at most `n` of them are still
in the buffer (`queue_spec`). `returned` connects the two lists with what the procedures
return.
-/

namespace OsLabs.PcServer

open Concurrent

variable {ι : Type} {n : ℕ} {c : Config ι (Shared ι) Worker}

/-- The letters deposited by `producer_1_svc`, in the order of the critical sections. -/
def depositedLetters (c : Config ι (Shared ι) Worker) : List Char :=
  c.shared.deposited.map Prod.snd

/-- The letters taken by `consumer_1_svc`, in the order of the critical sections. -/
def takenLetters (c : Config ι (Shared ι) Worker) : List Char :=
  c.shared.taken.map Prod.snd

theorem Inv.takenLetters_prefix (hI : Inv n c) : takenLetters c <+: depositedLetters c := by
  unfold takenLetters depositedLetters
  rw [hI.stored.taken, hI.stored.deposited]
  exact letters_prefix hI.stored.le

theorem Inv.mem_taken {t : ι} {a : Char} (hI : Inv n c) (h : (t, a) ∈ c.shared.taken) :
    ∃ k, a = letter k := by
  have hmem : a ∈ letters c.shared.taken.length := by
    rw [← hI.stored.taken]
    exact List.mem_map.mpr ⟨(t, a), h, rfl⟩
  obtain ⟨k, _, rfl⟩ := List.mem_map.mp hmem
  exact ⟨k, rfl⟩

/-- One entry per thread: two entries of the same thread are the same entry. -/
theorem entry_unique {l : List (ι × Char)} (h : (l.map Prod.fst).Nodup) {t : ι} {a b : Char}
    (ha : (t, a) ∈ l) (hb : (t, b) ∈ l) : a = b := by
  have heq := List.inj_on_of_nodup_map h ha hb rfl
  exact (Prod.mk.inj heq).2

/-- A letter is recorded as taken by a thread exactly when that thread is a consumer
whose result is that letter. -/
theorem Inv.taken_iff (hI : Inv n c) (t : ι) (a : Char) :
    (t, a) ∈ c.shared.taken ↔ ∃ pc, c.loc t = .consumer pc (some a) := by
  have hl := hI.logged t
  constructor
  · intro ha
    have hfst : t ∈ c.shared.taken.map Prod.fst := List.mem_map.mpr ⟨(t, a), ha, rfl⟩
    cases hw : c.loc t with
    | idle => rw [hw] at hl; exact absurd hfst hl.2
    | producer pc r => rw [hw] at hl; exact absurd hfst hl.1
    | consumer pc r =>
      rw [hw] at hl
      cases pc with
      | start | loadPtr | loadCell => exact absurd hfst hl.2.2
      | _ =>
        obtain ⟨b, rfl, hb⟩ := hl.2
        rw [entry_unique hI.takenOnce ha hb]
        exact ⟨_, rfl⟩
  · rintro ⟨pc, hw⟩
    rw [hw] at hl
    cases pc with
    | start | loadPtr | loadCell => exact absurd hl.2.1 (by simp)
    | _ =>
      obtain ⟨b, hr, hb⟩ := hl.2
      cases hr
      exact hb

theorem Inv.producer_done {t : ι} {r : Option Char} (hI : Inv n c)
    (h : c.loc t = .producer .done r) : ∃ a, r = some a ∧ (t, a) ∈ c.shared.deposited := by
  have hl := hI.logged t
  rw [h] at hl
  exact hl.2

theorem Inv.consumer_done {t : ι} {r : Option Char} (hI : Inv n c)
    (h : c.loc t = .consumer .done r) : ∃ a, r = some a ∧ (t, a) ∈ c.shared.taken := by
  have hl := hI.logged t
  rw [h] at hl
  exact hl.2

/-- The semaphore `BEMPTY` counts cells, so the untaken letters fit in the buffer. -/
theorem Inv.occupancy (hI : Inv n c) :
    c.shared.deposited.length ≤ c.shared.taken.length + n := by
  rcases hI.inside with ⟨hq, _⟩ | ⟨t, hin, _⟩
  · have := hq.bempty
    omega
  · obtain ⟨_, _, _, _, _, hsh⟩ := inside_shape hin
    have := hsh.bempty
    omega

/-- **The server is a bounded queue of letters.** In every state of every run, with any
number of worker threads: the letters taken are a prefix of the letters deposited; the
`k`-th letter deposited is the `k`-th of the cycle; at most `n` are untaken; the two
histories hold one entry per thread, a thread that has returned returned the letter of
its entry, a recorded take is the result of its thread, and no result of a consumer is
the filler. -/
theorem queue_spec [DecidableEq ι] (hn : 1 ≤ n) (h : (server ι n).Reach (initSem ι n) c) :
    takenLetters c <+: depositedLetters c ∧
    (∀ k (hk : k < (depositedLetters c).length), (depositedLetters c)[k] = letter k) ∧
    (depositedLetters c).length ≤ (takenLetters c).length + n ∧
    (c.shared.deposited.map Prod.fst).Nodup ∧ (c.shared.taken.map Prod.fst).Nodup ∧
    (∀ t r, c.loc t = .producer .done r → ∃ a, r = some a ∧ (t, a) ∈ c.shared.deposited) ∧
    (∀ t r, c.loc t = .consumer .done r → ∃ a, r = some a ∧ (t, a) ∈ c.shared.taken) ∧
    (∀ t a, (t, a) ∈ c.shared.taken ↔ ∃ pc, c.loc t = .consumer pc (some a)) ∧
    (∀ t pc, c.loc t ≠ .consumer pc (some '-')) := by
  have hI := inv_reach hn h
  refine ⟨hI.takenLetters_prefix, ?_, ?_, hI.depositedOnce, hI.takenOnce,
    fun _ _ => hI.producer_done, fun _ _ => hI.consumer_done, hI.taken_iff, ?_⟩
  · intro k hk
    have hd : depositedLetters c = letters c.shared.deposited.length := hI.stored.deposited
    simp only [hd]
    exact getElem_letters _
  · simpa [depositedLetters, takenLetters] using hI.occupancy
  · intro t pc hw
    obtain ⟨k, hk⟩ := hI.mem_taken ((hI.taken_iff t '-').mpr ⟨pc, hw⟩)
    exact letter_ne_filler k hk.symm

/-- A producer and then a consumer, each from its creation to its return. -/
def producerThenConsumer {ι : Type} (p c : ι) : List (ι × Proc) :=
  List.replicate 16 (p, .producer) ++ List.replicate 13 (c, .consumer)

/-- One cell, and both threads run to their end. -/
theorem queue_spec_one_cell : ∃ c : Config (Fin 2) (Shared (Fin 2)) Worker,
    c.loc 1 = .consumer .done (some 'a') ∧ takenLetters c <+: depositedLetters c ∧
      (depositedLetters c).length ≤ (takenLetters c).length + 1 := by
  have hrun : ((server (Fin 2) 1).run (initSem (Fin 2) 1) (producerThenConsumer 0 1)).any
      (fun c => c.loc 1 = .consumer .done (some 'a')) = true := by decide
  obtain ⟨c, hc, hp⟩ := Machine.exists_reach_of_run _ _ hrun
  have hspec := queue_spec (le_refl 1) hc
  exact ⟨c, of_decide_eq_true hp, hspec.1, hspec.2.2.1⟩

end OsLabs.PcServer
