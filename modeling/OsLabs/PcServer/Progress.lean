import OsLabs.PcServer.Fifo

/-!
# The producer-consumer server: progress

A worker inside its critical section never waits, since the arrays that leave the
section only raise semaphores. So nobody can go on only where nobody is inside; `BINARY`
is free then, and a worker at its first call waits for `BEMPTY` or `BFULL`. Both
counters are exact in such a state (`Quiet`): consumers wait on an empty buffer,
producers on a full one, and with `n ≥ 1` cells the buffer is not both (`no_deadlock`).
-/

namespace OsLabs.PcServer

open Concurrent

variable {ι : Type} {n : ℕ} {s : Shared ι} {t : ι} {c : Config ι (Shared ι) Worker}

/-- The worker runs a request that it has not finished. -/
def unfinished : Worker → Bool
  | .idle => false
  | .producer pc _ => pc ≠ .done
  | .consumer pc _ => pc ≠ .done

/-- The worker can take a step. -/
def CanStep (n : ℕ) (c : Config ι (Shared ι) Worker) (t : ι) : Prop :=
  ∃ e s w, workerStep n t e c.shared (c.loc t) = some (s, w)

/-- The worker waits in `semop(start_prod)`. -/
def BlockedInStartProd (c : Config ι (Shared ι) Worker) (t : ι) : Prop :=
  (∃ r, c.loc t = .producer .start r) ∧ semop c.shared.sem startProd = none

/-- The worker waits in `semop(start_cons)`. -/
def BlockedInStartCons (c : Config ι (Shared ι) Worker) (t : ι) : Prop :=
  (∃ r, c.loc t = .consumer .start r) ∧ semop c.shared.sem startCons = none

/-! ## The calls -/

theorem semop_startProd_eq_none {v : SemNum → ℕ} (hb : 0 < v .binary) :
    semop v startProd = none ↔ v .bempty = 0 := by
  constructor
  · intro h
    by_contra hpos
    have hgo : semop v startProd = some (Function.update (Function.update v .bempty
        (v .bempty - 1)) .binary (v .binary - 1)) := by
      simp [startProd, hb, Nat.pos_of_ne_zero hpos]
    rw [hgo] at h
    cases h
  · intro h
    cases hv : semop v startProd with
    | none => rfl
    | some w =>
      simp only [startProd, semop_down_cons] at hv
      omega

theorem semop_startCons_eq_none {v : SemNum → ℕ} (hb : 0 < v .binary) :
    semop v startCons = none ↔ v .bfull = 0 := by
  constructor
  · intro h
    by_contra hpos
    have hgo : semop v startCons = some (Function.update (Function.update v .bfull
        (v .bfull - 1)) .binary (v .binary - 1)) := by
      simp [startCons, hb, Nat.pos_of_ne_zero hpos]
    rw [hgo] at h
    cases h
  · intro h
    cases hv : semop v startCons with
    | none => rfl
    | some w =>
      simp only [startCons, semop_down_cons] at hv
      omega

/-! ## Workers that can go on -/

/-- A worker inside its critical section never waits. -/
theorem canStep_of_inSection (h : InSection (c.loc t)) : CanStep n c t := by
  unfold CanStep
  cases hw : c.loc t with
  | idle =>
    rw [hw] at h
    exact h.elim
  | producer pc r =>
    rw [hw] at h
    refine ⟨.producer, ?_⟩
    cases pc with
    | start => exact absurd rfl h.1
    | done => exact absurd rfl h.2
    | print | wrapTest | alphaTest =>
      simp only [workerStep, producer1Svc]
      split_ifs <;> exact ⟨_, _, rfl⟩
    | stop => exact ⟨_, _, by simp [workerStep, producer1Svc, stopProd]; exact ⟨rfl, rfl⟩⟩
    | _ => exact ⟨_, _, rfl⟩
  | consumer pc r =>
    rw [hw] at h
    refine ⟨.consumer, ?_⟩
    cases pc with
    | start => exact absurd rfl h.1
    | done => exact absurd rfl h.2
    | print | wrapTest =>
      simp only [workerStep, consumer1Svc]
      split_ifs <;> exact ⟨_, _, rfl⟩
    | stop => exact ⟨_, _, by simp [workerStep, consumer1Svc, stopCons]; exact ⟨rfl, rfl⟩⟩
    | _ => exact ⟨_, _, rfl⟩

/-- A worker with an unfinished request and outside its section stands at its first
call. -/
theorem start_of_unfinished {w : Worker} (hu : unfinished w = true) (hout : ¬ InSection w) :
    (∃ r, w = .producer .start r) ∨ ∃ r, w = .consumer .start r := by
  cases w with
  | idle => cases hu
  | producer pc r =>
    by_cases hpc : pc = .start
    · exact Or.inl ⟨r, by rw [hpc]⟩
    · exact absurd ⟨hpc, by simpa [unfinished] using hu⟩ hout
  | consumer pc r =>
    by_cases hpc : pc = .start
    · exact Or.inr ⟨r, by rw [hpc]⟩
    · exact absurd ⟨hpc, by simpa [unfinished] using hu⟩ hout

/-- At its first call a worker goes on, or it is blocked there. -/
theorem canStep_or_blocked (hu : unfinished (c.loc t) = true) (hout : ¬ InSection (c.loc t)) :
    CanStep n c t ∨ BlockedInStartProd c t ∨ BlockedInStartCons c t := by
  rcases start_of_unfinished hu hout with ⟨r, hr⟩ | ⟨r, hr⟩
  · cases hv : semop c.shared.sem startProd with
    | none => exact Or.inr (Or.inl ⟨⟨r, hr⟩, hv⟩)
    | some v =>
      refine Or.inl ⟨.producer, { c.shared with sem := v }, .producer .loadPtr r, ?_⟩
      rw [hr]
      simp only [workerStep, producer1Svc, hv, Option.map_some]
  · cases hv : semop c.shared.sem startCons with
    | none => exact Or.inr (Or.inr ⟨⟨r, hr⟩, hv⟩)
    | some v =>
      refine Or.inl ⟨.consumer, { c.shared with sem := v }, .consumer .loadPtr r, ?_⟩
      rw [hr]
      simp only [workerStep, consumer1Svc, hv, Option.map_some]

/-! ## Progress -/

/-- With nobody inside, a producer is blocked exactly on a full buffer. -/
theorem Quiet.full_of_blocked (hq : Quiet n s) (h : semop s.sem startProd = none) :
    s.deposited.length = s.taken.length + n := by
  have hb := hq.binary
  have he := hq.bempty
  have hz := (semop_startProd_eq_none (by omega)).mp h
  omega

/-- With nobody inside, a consumer is blocked exactly on an empty buffer. -/
theorem Quiet.empty_of_blocked (hq : Quiet n s) (h : semop s.sem startCons = none) :
    s.taken.length = s.deposited.length := by
  have hb := hq.binary
  have hf := hq.bfull
  have hz := (semop_startCons_eq_none (by omega)).mp h
  omega

/-- The letters taken are all letters deposited where they are as many. -/
theorem Inv.takenLetters_eq (hI : Inv n c) (h : c.shared.taken.length = c.shared.deposited.length) :
    takenLetters c = depositedLetters c := by
  apply hI.takenLetters_prefix.eq_of_length
  simpa [takenLetters, depositedLetters] using h

/-- **No deadlock.** In every reachable state with an unfinished request, some worker with
an unfinished request can take a step, or all of them are consumers blocked in
`start_cons` and every letter deposited has been taken, or all of them are producers
blocked in `start_prod` and exactly `n` letters deposited are untaken. -/
theorem no_deadlock [DecidableEq ι] (hn : 1 ≤ n) (h : (server ι n).Reach (initSem ι n) c)
    (hu : ∃ t, unfinished (c.loc t) = true) :
    (∃ t, unfinished (c.loc t) = true ∧ CanStep n c t) ∨
    ((∀ t, unfinished (c.loc t) = true → BlockedInStartCons c t) ∧
      takenLetters c = depositedLetters c) ∨
    ((∀ t, unfinished (c.loc t) = true → BlockedInStartProd c t) ∧
      (depositedLetters c).length = (takenLetters c).length + n) := by
  have hI := inv_reach hn h
  by_cases hgo : ∃ t, unfinished (c.loc t) = true ∧ CanStep n c t
  · exact Or.inl hgo
  · have hstuck : ∀ t, unfinished (c.loc t) = true → ¬ CanStep n c t :=
      fun t ht hc => hgo ⟨t, ht, hc⟩
    rcases hI.inside with ⟨hq, hout⟩ | ⟨t, _, hin, _⟩
    · have hblocked : ∀ t, unfinished (c.loc t) = true →
          BlockedInStartProd c t ∨ BlockedInStartCons c t :=
        fun t ht => (canStep_or_blocked (n := n) ht (hout t)).resolve_left (hstuck t ht)
      obtain ⟨t, ht⟩ := hu
      rcases hblocked t ht with hp | hc
      · have hfull := hq.full_of_blocked hp.2
        refine Or.inr (Or.inr ⟨fun u hu => (hblocked u hu).resolve_right ?_, ?_⟩)
        · intro hcons
          have := hq.empty_of_blocked hcons.2
          omega
        · simpa [depositedLetters, takenLetters] using hfull
      · have hempty := hq.empty_of_blocked hc.2
        refine Or.inr (Or.inl ⟨fun u hu => (hblocked u hu).resolve_left ?_, ?_⟩)
        · intro hprod
          have := hq.full_of_blocked hprod.2
          omega
        · exact hI.takenLetters_eq hempty
    · have hut : unfinished (c.loc t) = true := by
        cases hw : c.loc t with
        | idle =>
          rw [hw] at hin
          exact hin.elim
        | producer pc r | consumer pc r =>
          rw [hw] at hin
          simpa [unfinished] using hin.2
      exact absurd (canStep_of_inSection hin) (hstuck t hut)

/-- One cell: a producer fills it and returns, a second producer is blocked. -/
theorem no_deadlock_full_cell : ∃ c : Config (Fin 2) (Shared (Fin 2)) Worker,
    BlockedInStartProd c 1 ∧ (depositedLetters c).length = (takenLetters c).length + 1 := by
  have hrun : ((server (Fin 2) 1).run (initSem (Fin 2) 1)
      (List.replicate 16 (0, Proc.producer) ++ [(1, .producer)])).any
      (fun c => (c.loc 0 = .producer .done (some 'a') && c.loc 1 = .producer .start none) &&
        (semop c.shared.sem startProd).isNone) = true := by decide
  obtain ⟨c, hc, hp⟩ := Machine.exists_reach_of_run _ _ hrun
  simp only [Bool.and_eq_true, decide_eq_true_eq, Option.isNone_iff_eq_none] at hp
  obtain ⟨⟨h0, h1⟩, hnone⟩ := hp
  have hb : BlockedInStartProd c 1 := ⟨⟨none, h1⟩, hnone⟩
  have hu : ∃ t, unfinished (c.loc t) = true := ⟨1, by rw [h1]; rfl⟩
  rcases no_deadlock (le_refl 1) hc hu with ⟨t, ht, e, s, w, hw⟩ | ⟨hcons, -⟩ | ⟨-, hfull⟩
  · by_cases ht0 : t = 0
    · subst ht0
      rw [h0] at ht
      cases ht
    · obtain rfl : t = 1 := by omega
      rw [h1] at hw
      simp [workerStep, producer1Svc, hnone] at hw
  · obtain ⟨⟨r, hr⟩, -⟩ := hcons 1 (by rw [h1]; rfl)
    rw [h1] at hr
    cases hr
  · exact ⟨c, hb, hfull⟩

end OsLabs.PcServer
