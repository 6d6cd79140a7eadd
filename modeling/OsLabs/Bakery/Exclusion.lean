import OsLabs.Bakery.Server

/-!
# The bakery server: mutual exclusion

`get_number_1_svc` scans `numbers` and writes its entry later, and nothing tells the
others that it is in between: `serve_1_svc` reads `numbers[i] == 0` of a client that is
drawing and passes it for good. If that client had already read past the entry of the
one that passes, it takes a ticket that is not greater, and both are let in
(`both_past_wait`).

`exclusion` is the other half: no two clients are past their wait loops in a run in
which a client that finds `numbers[i] == 0` is not one that the draw of `i` has missed
(`NotMissed`). The invariant says of a client in its wait loop what it has settled about
each of the others (`PC.settles`), in the sense of the ticket order.
-/

namespace OsLabs.Bakery

open Concurrent Concurrent.Tickets

variable {n : ℕ} {pid : Fin n → ℕ}

/-- Where a client stands with its ticket. -/
def PC.phase (n : ℕ) : PC → Phase
  | .idle | .served | .getNumber .lock => .idle
  | .getNumber (.max m) => m.phase
  | .getNumber (.storeNum res) => .scan n res
  | .serve .resetPid | .serve .resetUnlock => .idle
  | _ => .held

def view (c : Config (Fin n) Shared PC) : View n :=
  viewOf Shared.numbers (PC.phase n) c

/-- What a client with ticket `own` and pid `p` has settled about the client with entry
`i` and pid `q` at a point of `serve_1_svc`. -/
def PC.settles (own p q i : ℕ) : PC → Option (ℕ → Prop)
  | .serve (.lock k) => if i < k then some (fun m => own < m ∨ (own = m ∧ p < q)) else none
  | .serve (.test k w) =>
      if i < k then some (fun m => own < m ∨ (own = m ∧ p < q))
      else if i = k ∧ w ≠ .nonzero then some (w.known own q) else none
  | .serve (.unlock k out) =>
      if i < k ∨ (i = k ∧ out = false) then some (fun m => own < m ∨ (own = m ∧ p < q)) else none
  | .serve .switch | .serve (.printNum _) | .serve (.printPid _) | .serve .resetLock
  | .serve .resetNum => some (fun m => own < m ∨ (own = m ∧ p < q))
  | _ => none

/-- The client has written its pid and not yet reset it. -/
def PC.hasPid : PC → Bool
  | .getNumber (.print _ _) | .getNumber (.unlock _) | .replied _ => true
  | .serve .resetUnlock => false
  | .serve _ => true
  | _ => false

theorem settles_held {own p q i : ℕ} {x : PC} {Q : ℕ → Prop}
    (h : x.settles own p q i = some Q) : x.phase n = .held := by
  cases x with
  | serve pc => cases pc <;> first | rfl | cases h
  | _ => cases h

theorem settles_of_lt {own p q i m : ℕ} {x : PC} {Q : ℕ → Prop}
    (h : x.settles own p q i = some Q) (hm : own < m) : Q m := by
  cases x with
  | serve pc =>
    cases pc <;> simp only [PC.settles, reduceCtorEq] at h
    case test k w =>
      split_ifs at h
      · cases h; exact Or.inl hm
      · cases h; exact w.known_of_lt hm
    all_goals first
      | (cases h; exact Or.inl hm)
      | (split_ifs at h; cases h; exact Or.inl hm)
  | _ => cases h

/-- Where client `t` finds no ticket at the first read of a wait test, the draw of that
entry's client has not missed the ticket of `t`. -/
def NotMissed (c : Config (Fin n) Shared PC) (a : Fin n × Unit) : Prop :=
  ∀ i : Fin n, c.loc a.1 = .serve (.test i .nonzero) → c.shared.numbers i = 0 →
    Seen (view c) a.1 i

instance (c : Config (Fin n) Shared PC) (a : Fin n × Unit) : Decidable (NotMissed c a) :=
  inferInstanceAs (Decidable (∀ i : Fin n, _ = _ → _ = _ → Seen (view c) a.1 i))

structure Inv (pid : Fin n → ℕ) (c : Config (Fin n) Shared PC) : Prop where
  wf : (view c).WF
  ownPid : ∀ j, (c.loc j).hasPid = true → c.shared.pids j = pid j
  pidLe : ∀ i : Fin n, c.shared.pids i ≤ pid i
  settled : ∀ j i, i ≠ j → ∀ Q,
    (c.loc j).settles (c.shared.numbers j) (pid j) (pid i) i = some Q → Settled (view c) j i Q

theorem inv_initial : Inv pid (initial n) where
  wf i := by simp [view, viewOf, initial, PC.phase]
  ownPid j h := by simp [initial, PC.hasPid] at h
  pidLe i := Nat.zero_le _
  settled j i _ Q h := by simp [initial, PC.settles] at h

/-! ## Steps in the ticket order -/

section Steps

variable {c : Config (Fin n) Shared PC} {t : Fin n} {s : Shared} {x : PC}

theorem view_set :
    view (c.set t s x) = ⟨s.numbers, Function.update (view c).phase t (x.phase n)⟩ := viewOf_set

theorem serveNext_phase (i : ℕ) : (serveNext n i).phase n = .held := by
  unfold serveNext
  split_ifs <;> rfl

/-- Every step of a client is a step in the ticket order. -/
theorem step_view (hI : Inv pid c) (h : clientStep pid t () c.shared (c.loc t) = some (s, x)) :
    Tickets.Step pid (view c) t (view (c.set t s x)) := by
  have hphase : (view c).phase t = (c.loc t).phase n := rfl
  have hsettled := hI.settled t
  cases hl : c.loc t with
  | idle =>
    rw [hl] at h
    cases h
    exact .of_stay rfl (by rw [hl]; rfl)
  | replied num =>
    rw [hl] at h
    cases h
    exact .of_stay rfl (by rw [hl, serveNext_phase]; rfl)
  | served =>
    rw [hl] at h
    cases h
    exact .of_stay rfl (by rw [hl]; rfl)
  | getNumber pc =>
    rw [hl] at h
    simp only [clientStep] at h
    cases pc with
    | lock =>
      simp only [getNumber1Svc, Option.map_eq_some_iff] at h
      obtain ⟨s', hlock, he⟩ := h
      cases he
      rw [view_set, (lockMut_eq hlock).1]
      exact .start (by rw [hphase, hl]; rfl)
    | max m =>
      have hdraw := maxNumber_draw (n := n) (Nat.zero_le 1) c.shared.numbers m
      simp only [getNumber1Svc] at h
      cases hm : maxNumber n 0 c.shared.numbers m with
      | inl m' =>
        rw [hm] at h hdraw
        cases h
        rw [view_set]
        exact .draw (by rw [hphase, hl]; exact hdraw)
      | inr res =>
        rw [hm] at h hdraw
        cases h
        rw [view_set]
        exact .draw (by rw [hphase, hl]; exact hdraw)
    | storeNum res =>
      cases h
      rw [view_set]
      exact .publish (by rw [hphase, hl]; rfl) (le_refl n)
    | storePid num | unlock num =>
      cases h
      exact .of_stay rfl (by rw [hl]; rfl)
    | print num i =>
      simp only [getNumber1Svc] at h
      split_ifs at h <;> cases h <;> exact .of_stay rfl (by rw [hl]; rfl)
  | serve pc =>
    rw [hl] at h hsettled
    simp only [clientStep] at h
    cases pc with
    | lock | resetLock =>
      simp only [serve1Svc, Option.map_eq_some_iff] at h
      obtain ⟨s', hlock, he⟩ := h
      cases he
      exact .of_stay (lockMut_eq hlock).1 (by rw [hl]; rfl)
    | test i w =>
      simp only [serve1Svc] at h
      split at h <;> cases h <;> exact .of_stay rfl (by rw [hl]; rfl)
    | unlock i out =>
      cases h
      refine .of_stay rfl ?_
      rw [hl]
      cases out with
      | true => rfl
      | false => exact serveNext_phase _
    | printNum i =>
      simp only [serve1Svc] at h
      split_ifs at h <;> cases h <;> exact .of_stay rfl (by rw [hl]; rfl)
    | resetNum =>
      cases h
      rw [view_set]
      exact .reset (by rw [hphase, hl]; rfl) fun i hi => hsettled i hi _ rfl
    | switch | printPid | resetPid | resetUnlock =>
      cases h
      exact .of_stay rfl (by rw [hl]; rfl)

/-- A client writes its own entry of `pids` only, its pid after its ticket and `0` after
its reset. -/
theorem step_pids (hI : Inv pid c) (h : clientStep pid t () c.shared (c.loc t) = some (s, x)) :
    (∀ k : ℕ, k ≠ t → s.pids k = c.shared.pids k) ∧ s.pids t ≤ pid t ∧
      (x.hasPid = true → s.pids t = pid t) := by
  have hown := hI.ownPid t
  have hle := hI.pidLe t
  cases hl : c.loc t with
  | idle | served =>
    rw [hl] at h
    cases h
    exact ⟨fun _ _ => rfl, hle, by simp [PC.hasPid]⟩
  | replied num =>
    rw [hl] at h hown
    cases h
    exact ⟨fun _ _ => rfl, hle, fun _ => hown rfl⟩
  | getNumber pc =>
    rw [hl] at h hown
    simp only [clientStep] at h
    cases pc with
    | lock =>
      simp only [getNumber1Svc, Option.map_eq_some_iff] at h
      obtain ⟨s', hlock, he⟩ := h
      cases he
      rw [(lockMut_eq hlock).2]
      exact ⟨fun _ _ => rfl, hle, by simp [PC.hasPid]⟩
    | max m =>
      simp only [getNumber1Svc] at h
      split at h <;> cases h <;> exact ⟨fun _ _ => rfl, hle, by simp [PC.hasPid]⟩
    | storeNum res =>
      cases h
      exact ⟨fun _ _ => rfl, hle, by simp [PC.hasPid]⟩
    | storePid num =>
      cases h
      refine ⟨fun k hk => Function.update_of_ne hk .., ?_, fun _ => ?_⟩ <;>
        simp only [Function.update_self, le_refl]
    | print num i =>
      simp only [getNumber1Svc] at h
      split_ifs at h <;> cases h <;> exact ⟨fun _ _ => rfl, hle, fun _ => hown rfl⟩
    | unlock num =>
      cases h
      exact ⟨fun _ _ => rfl, hle, fun _ => hown rfl⟩
  | serve pc =>
    rw [hl] at h hown
    simp only [clientStep] at h
    cases pc with
    | lock | resetLock =>
      simp only [serve1Svc, Option.map_eq_some_iff] at h
      obtain ⟨s', hlock, he⟩ := h
      cases he
      rw [(lockMut_eq hlock).2]
      exact ⟨fun _ _ => rfl, hle, fun _ => hown rfl⟩
    | test i w =>
      simp only [serve1Svc] at h
      split at h <;> cases h <;> exact ⟨fun _ _ => rfl, hle, fun _ => hown rfl⟩
    | printNum i =>
      simp only [serve1Svc] at h
      split_ifs at h <;> cases h <;> exact ⟨fun _ _ => rfl, hle, fun _ => hown rfl⟩
    | unlock | switch | printPid | resetNum =>
      cases h
      exact ⟨fun _ _ => rfl, hle, fun _ => hown rfl⟩
    | resetPid =>
      cases h
      refine ⟨fun k hk => Function.update_of_ne hk .., ?_, by simp [PC.hasPid]⟩
      simp only [Function.update_self]
      exact Nat.zero_le _
    | resetUnlock =>
      cases h
      exact ⟨fun _ _ => rfl, hle, by simp [PC.hasPid]⟩

/-- The head of the wait loop: everybody below `k` is settled. -/
theorem serveNext_settles {own p q i k : ℕ} {Q : ℕ → Prop}
    (hQ : (serveNext n k).settles own p q i = some Q) :
    (i < k ∨ n ≤ k) ∧ Q = fun m => own < m ∨ (own = m ∧ p < q) := by
  unfold serveNext at hQ
  split_ifs at hQ with hk
  · simp only [PC.settles] at hQ
    split_ifs at hQ with hik
    cases hQ
    exact ⟨Or.inl hik, rfl⟩
  · cases hQ
    exact ⟨Or.inr (by omega), rfl⟩

/-- The step of a wait test: what the reads of it establish, and what was settled before. -/
theorem test_settled (hpid : Function.Injective pid) (hI : Inv pid c)
    (hc : NotMissed c (t, ())) {k : ℕ} {w : WaitPC} (hl : c.loc t = .serve (.test k w))
    (h : serve1Svc n t c.shared (.test k w) = some (s, x)) {i : Fin n} (hi : i ≠ t)
    {Q : ℕ → Prop} (hQ : x.settles (s.numbers t) (pid t) (pid i) i = some Q) :
    s.numbers = c.shared.numbers ∧ Settled (view c) t i Q := by
  have hset := hI.settled t i hi
  have hown := hI.ownPid t
  rw [hl] at hset hown
  simp only [serve1Svc] at h
  by_cases hik : (i : ℕ) = k
  · subst hik
    have hread := waitTest_settled (w := w) hI.wf hi hpid (hown rfl) (hI.pidLe i)
      (fun hw => hc i (by rw [hl, hw]))
      (fun hw => hset _ (by simp [PC.settles, hw, view, viewOf]))
    simp only [view, viewOf] at hread
    split at hread <;> rename_i hw <;> rw [hw] at h <;> cases h
    · refine ⟨rfl, ?_⟩
      simp only [PC.settles, lt_irrefl, if_false, true_and] at hQ
      split_ifs at hQ
      cases hQ
      exact hread
    · refine ⟨rfl, ?_⟩
      simp only [PC.settles, lt_irrefl, true_and, false_or] at hQ
      split_ifs at hQ with hout
      cases hQ
      exact hread hout
  · split at h <;> cases h <;> refine ⟨rfl, hset Q ?_⟩ <;>
      simpa [PC.settles, hik] using hQ

/-- What a client has settled after a step of its own was settled before it, or has just
been read in its wait test. -/
theorem own_settled (hpid : Function.Injective pid) (hI : Inv pid c) (hc : NotMissed c (t, ()))
    (h : clientStep pid t () c.shared (c.loc t) = some (s, x)) {i : Fin n} (hi : i ≠ t)
    {Q : ℕ → Prop} (hQ : x.settles (s.numbers t) (pid t) (pid i) i = some Q) :
    s.numbers = c.shared.numbers ∧ Settled (view c) t i Q := by
  have hset := hI.settled t i hi
  cases hl : c.loc t with
  | idle | served =>
    rw [hl] at h
    cases h
    simp [PC.settles] at hQ
  | replied num =>
    rw [hl] at h
    cases h
    obtain ⟨hlt | hle, -⟩ := serveNext_settles hQ <;> have := i.isLt <;> omega
  | getNumber pc =>
    rw [hl] at h
    simp only [clientStep] at h
    cases pc with
    | lock =>
      simp only [getNumber1Svc, Option.map_eq_some_iff] at h
      obtain ⟨s', hlock, he⟩ := h
      cases he
      simp [PC.settles] at hQ
    | max m =>
      simp only [getNumber1Svc] at h
      split at h <;> cases h <;> simp [PC.settles] at hQ
    | storeNum | storePid | unlock =>
      cases h
      simp [PC.settles] at hQ
    | print num i =>
      simp only [getNumber1Svc] at h
      split_ifs at h <;> cases h <;> simp [PC.settles] at hQ
  | serve pc =>
    rw [hl] at h hset
    simp only [clientStep] at h
    cases pc with
    | lock k =>
      simp only [serve1Svc, Option.map_eq_some_iff] at h
      obtain ⟨s', hlock, he⟩ := h
      cases he
      rw [(lockMut_eq hlock).1] at hQ
      refine ⟨(lockMut_eq hlock).1, hset Q ?_⟩
      simpa [PC.settles] using hQ
    | test k w => exact test_settled hpid hI hc hl h hi hQ
    | unlock k out =>
      cases h
      refine ⟨rfl, hset Q ?_⟩
      cases out with
      | true => simpa [PC.settles, unlockMut] using hQ
      | false =>
        obtain ⟨hk, rfl⟩ := serveNext_settles hQ
        simp only [PC.settles, and_true]
        rw [if_pos (by have := i.isLt; omega)]
        rfl
    | switch | printPid =>
      cases h
      exact ⟨rfl, hset Q hQ⟩
    | printNum k =>
      simp only [serve1Svc] at h
      split_ifs at h <;> cases h <;> exact ⟨rfl, hset Q hQ⟩
    | resetLock =>
      simp only [serve1Svc, Option.map_eq_some_iff] at h
      obtain ⟨s', hlock, he⟩ := h
      cases he
      rw [(lockMut_eq hlock).1] at hQ
      exact ⟨(lockMut_eq hlock).1, hset Q hQ⟩
    | resetNum | resetPid | resetUnlock =>
      cases h
      simp [PC.settles] at hQ

theorem inv_step (hpid : Function.Injective pid) (hI : Inv pid c) (hc : NotMissed c (t, ()))
    (h : clientStep pid t () c.shared (c.loc t) = some (s, x)) : Inv pid (c.set t s x) := by
  have hstep := step_view hI h
  obtain ⟨hpids, hle, hhas⟩ := step_pids hI h
  refine ⟨hstep.wf hI.wf, ?_, ?_, ?_⟩
  · refine Config.forall_set
      (P := fun (j : Fin n) (y : PC) => y.hasPid = true → s.pids j = pid j) hhas ?_
    intro j hjt
    rw [hpids j (val_ne hjt)]
    exact hI.ownPid j
  · intro i
    by_cases hit : i = t
    · subst hit
      exact hle
    · rw [Config.set_shared, hpids i (val_ne hit)]
      exact hI.pidLe i
  · intro j i hij Q hQ
    exact Step.settled_threads (K := PC.settles) hstep hI.wf settles_held settles_of_lt hI.settled
      (fun i hi Q hQ => own_settled hpid hI hc h hi hQ) hij hQ

end Steps

/-! ## Mutual exclusion -/

theorem inv_reach {c : Config (Fin n) Shared PC} (hpid : Function.Injective pid)
    (h : (server pid).ReachBy NotMissed (initial n) c) : Inv pid c := by
  apply h.interleave_invariant inv_initial
  intro c t e s x hI hc hs
  exact inv_step hpid hI hc hs

theorem pastWait_held {x : PC} (h : pastWait x = true) : x.phase n = .held := by
  cases x with
  | serve pc => cases pc <;> first | rfl | cases h
  | _ => cases h

theorem pastWait_settles {own p q i : ℕ} {x : PC} (h : pastWait x = true) :
    x.settles own p q i = some fun m => own < m ∨ (own = m ∧ p < q) := by
  cases x with
  | serve pc => cases pc <;> first | rfl | cases h
  | _ => cases h

/-- **Mutual exclusion.** In a run in which no wait test passes a client whose draw has
missed the waiting client, at most one client is past its wait loop. -/
theorem exclusion (hpid : Function.Injective pid) {c : Config (Fin n) Shared PC}
    (h : (server pid).ReachBy NotMissed (initial n) c) {i j : Fin n}
    (hi : pastWait (c.loc i) = true) (hj : pastWait (c.loc j) = true) : i = j := by
  have hI := inv_reach hpid h
  by_contra hne
  exact not_both_before (pastWait_held hi) (pastWait_held hj)
    (hI.settled i j (Ne.symm hne) _ (pastWait_settles hi))
    (hI.settled j i hne _ (pastWait_settles hj))

/-- Five clients, the pids ascending with the index. -/
def fivePids (i : Fin 5) : ℕ := 100 + i

theorem fivePids_injective : Function.Injective fivePids := by
  intro i j h
  simp only [fivePids] at h
  omega

/-- Client `i` reads all of `numbers`; client `j` draws the ticket `1`; client `i` writes
its ticket, also `1`, and passes its wait loop by its smaller pid; client `j` waits. -/
def overlapRun {ι : Type} (i j : ι) : List (ι × Unit) :=
  List.replicate 8 (i, ()) ++ List.replicate 18 (j, ()) ++ List.replicate 37 (i, ()) ++
    List.replicate 20 (j, ())

theorem exclusion_overlap : ∃ c, (server fivePids).ReachBy NotMissed (initial 5) c ∧
    pastWait (c.loc 0) = true ∧ c.shared.numbers 1 = 1 ∧
      ∀ j, pastWait (c.loc j) = true → j = 0 := by
  have hrun : ((server fivePids).exec NotMissed (initial 5) (overlapRun 0 1)).any
      (fun c => pastWait (c.loc 0) && c.shared.numbers 1 = 1) = true := by decide +kernel
  obtain ⟨c, hc, hp⟩ := Machine.exists_reachBy_of_exec _ _ hrun
  simp only [Bool.and_eq_true, decide_eq_true_eq] at hp
  exact ⟨c, hc, hp.1, hp.2, fun j hj => exclusion fivePids_injective hc hj hp.1⟩

/-- Client `i` reads all of `numbers`; client `j` draws the ticket `1` and passes its
wait loop, where it finds no ticket of client `i`; client `i` writes its ticket, also
`1`, and passes by its smaller pid. -/
def missedRun {ι : Type} (i j : ι) : List (ι × Unit) :=
  List.replicate 8 (i, ()) ++ List.replicate 39 (j, ()) ++ List.replicate 37 (i, ())

/-- The client has not finished its first round. -/
def FirstRound (c : Config (Fin n) Shared PC) (a : Fin n × Unit) : Prop := c.loc a.1 ≠ .served

instance (c : Config (Fin n) Shared PC) (a : Fin n × Unit) : Decidable (FirstRound c a) :=
  inferInstanceAs (Decidable (c.loc a.1 ≠ .served))

/-- Two clients in the critical section, each in its first round. -/
theorem both_past_wait : ¬ ∀ (pid : Fin 5 → ℕ), Function.Injective pid →
    ∀ c, (server pid).ReachBy FirstRound (initial 5) c →
      ∀ i j, pastWait (c.loc i) = true → pastWait (c.loc j) = true → i = j := by
  intro h
  have hrun : ((server fivePids).exec FirstRound (initial 5) (missedRun 0 1)).any
      (fun c => pastWait (c.loc 0) && pastWait (c.loc 1)) = true := by decide +kernel
  obtain ⟨c, hc, hp⟩ := Machine.exists_reachBy_of_exec _ _ hrun
  simp only [Bool.and_eq_true] at hp
  exact absurd (h fivePids fivePids_injective c hc 0 1 hp.1 hp.2) (by decide)

end OsLabs.Bakery
