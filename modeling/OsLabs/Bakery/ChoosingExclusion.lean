import OsLabs.Bakery.Choosing

/-!
# The bakery server with `choosing`: mutual exclusion

A client that has found `choosing[i]` false knows that client `i` is not in a draw, so
that every later draw of `i` will read its ticket: from there on it has settled `i`, and
the wait test that follows settles it for the order of the tickets. The proof is the one
of `bakery_server.c` with this reason in the place of the assumption needed there; it
covers any number of rounds, since a new round of `i` starts a draw that has read
nothing yet.
-/

namespace OsLabs.Bakery.Choosing

open Concurrent Concurrent.Tickets

variable {n : ℕ} {pid : Fin n → ℕ}

/-- Where a client stands with its ticket. -/
def PC.phase (n : ℕ) : PC → Phase
  | .idle | .served | .getNumber .storePid | .getNumber .setChoosing => .idle
  | .getNumber (.max m) => m.phase
  | .getNumber (.storeNum res) => .scan n res
  | _ => .held

def view (c : Config (Fin n) Shared PC) : View n :=
  viewOf Shared.numbers (PC.phase n) c

/-- What a client with ticket `own` and pid `p` has settled about the client with entry
`i` and pid `q` at a point of `serve_1_svc`. -/
def PC.settles (own p q i : ℕ) : PC → Option (ℕ → Prop)
  | .serve (.choose k) => if i < k then some (fun m => own < m ∨ (own = m ∧ p < q)) else none
  | .serve (.test k w) =>
      if i < k then some (fun m => own < m ∨ (own = m ∧ p < q))
      else if i = k then some (w.known own q) else none
  | .serve _ => some (fun m => own < m ∨ (own = m ∧ p < q))
  | _ => none

/-- The client has written its pid, in this round. -/
def PC.hasPid : PC → Bool
  | .idle | .served | .getNumber .storePid => false
  | _ => true

theorem settles_held {own p q i : ℕ} {x : PC} {Q : ℕ → Prop}
    (h : x.settles own p q i = some Q) : x.phase n = .held := by
  cases x with
  | serve pc => rfl
  | _ => cases h

theorem settles_of_lt {own p q i m : ℕ} {x : PC} {Q : ℕ → Prop}
    (h : x.settles own p q i = some Q) (hm : own < m) : Q m := by
  cases x with
  | serve pc =>
    cases pc with
    | choose k =>
      simp only [PC.settles] at h
      split_ifs at h
      cases h
      exact Or.inl hm
    | test k w =>
      simp only [PC.settles] at h
      split_ifs at h
      · cases h
        exact Or.inl hm
      · cases h
        exact w.known_of_lt hm
    | _ =>
      cases h
      exact Or.inl hm
  | _ => cases h

structure Inv (pid : Fin n → ℕ) (c : Config (Fin n) Shared PC) : Prop where
  wf : (view c).WF
  choosing : ∀ i : Fin n, drawing (c.loc i) = true → c.shared.choosing i = true
  ownPid : ∀ j, (c.loc j).hasPid = true → c.shared.pids j = pid j
  pidLe : ∀ i : Fin n, c.shared.pids i ≤ pid i
  settled : ∀ j i, i ≠ j → ∀ Q,
    (c.loc j).settles (c.shared.numbers j) (pid j) (pid i) i = some Q → Settled (view c) j i Q

theorem inv_initial : Inv pid (initial n) where
  wf i := by simp [view, viewOf, initial, PC.phase]
  choosing i h := by simp [initial, drawing] at h
  ownPid j h := by simp [initial, PC.hasPid] at h
  pidLe i := Nat.zero_le _
  settled j i _ Q h := by simp [initial, PC.settles] at h

/-- Nobody is missed by the draw of a client that is not choosing. -/
theorem Inv.seen {c : Config (Fin n) Shared PC} (hI : Inv pid c) {i : Fin n}
    (h : c.shared.choosing i = false) (j : Fin n) : Settled (view c) j i fun _ => True := by
  have hd : drawing (c.loc i) = false := by
    by_contra hd
    rw [Bool.not_eq_false] at hd
    rw [hI.choosing i hd] at h
    cases h
  refine ⟨?_, fun _ => trivial⟩
  cases hl : c.loc i with
  | getNumber pc =>
    rw [hl] at hd
    cases pc with
    | storePid | setChoosing => simp [Seen, view, viewOf, hl, PC.phase]
    | _ => cases hd
  | _ => simp [Seen, view, viewOf, hl, PC.phase]

/-! ## Steps -/

section Steps

variable {c : Config (Fin n) Shared PC} {t : Fin n} {s : Shared} {x : PC}

theorem view_set :
    view (c.set t s x) = ⟨s.numbers, Function.update (view c).phase t (x.phase n)⟩ := viewOf_set

theorem serveNext_phase (i : ℕ) : (serveNext n i).phase n = .held := by
  unfold serveNext
  split_ifs <;> rfl

/-- Every step of a client is a step in the ticket order. -/
theorem step_view (hI : Inv pid c) (h : clientStep pid t () c.shared (c.loc t) = some (s, x)) :
    Tickets.Step pid (view c) t (view (c.set t s x)) := by
  have hphase : (view c).phase t = (c.loc t).phase n := rfl
  have hsettled := hI.settled t
  cases hl : c.loc t with
  | idle | served =>
    rw [hl] at h
    cases h
    exact .of_stay rfl (by rw [hl]; rfl)
  | replied num =>
    rw [hl] at h
    cases h
    exact .of_stay rfl (by rw [hl, serveNext_phase]; rfl)
  | getNumber pc =>
    rw [hl] at h
    cases pc with
    | storePid | clearChoosing =>
      cases h
      exact .of_stay rfl (by rw [hl]; rfl)
    | setChoosing =>
      cases h
      rw [view_set]
      exact .start (by rw [hphase, hl]; rfl)
    | max m =>
      have hdraw := maxNumber_draw (n := n) (le_refl 1) c.shared.numbers m
      simp only [clientStep, getNumber1Svc] at h
      cases hm : maxNumber n 1 c.shared.numbers m with
      | inl m' =>
        rw [hm] at h hdraw
        cases h
        rw [view_set]
        exact .draw (by rw [hphase, hl]; exact hdraw)
      | inr res =>
        rw [hm] at h hdraw
        cases h
        rw [view_set]
        exact .draw (by rw [hphase, hl]; exact hdraw)
    | storeNum res =>
      cases h
      rw [view_set]
      exact .publish (by rw [hphase, hl]; rfl) (le_refl n)
  | serve pc =>
    rw [hl] at h hsettled
    cases pc with
    | choose i =>
      cases h
      exact .of_stay rfl (by rw [hl]; split_ifs <;> rfl)
    | test i w =>
      simp only [clientStep, serve1Svc] at h
      split at h
      · cases h
        exact .of_stay rfl (by rw [hl]; rfl)
      · cases h
        refine .of_stay rfl ?_
        rw [hl]
        split_ifs
        · rfl
        · exact serveNext_phase _
    | switch | counterLoad | counterStore | printNum | printPid =>
      cases h
      exact .of_stay rfl (by rw [hl]; rfl)
    | resetNum =>
      cases h
      rw [view_set]
      exact .reset (by rw [hphase, hl]; rfl) fun i hi => hsettled i hi _ rfl

/-- A client writes its own entries of `choosing` and `pids` only, and these as its place
says. -/
theorem step_own (hI : Inv pid c) (h : clientStep pid t () c.shared (c.loc t) = some (s, x)) :
    (∀ k : ℕ, k ≠ t → s.choosing k = c.shared.choosing k ∧ s.pids k = c.shared.pids k) ∧
      (drawing x = true → s.choosing t = true) ∧ s.pids t ≤ pid t ∧
      (x.hasPid = true → s.pids t = pid t) := by
  have hch := hI.choosing t
  have hown := hI.ownPid t
  have hle := hI.pidLe t
  cases hl : c.loc t with
  | idle | served =>
    rw [hl] at h
    cases h
    exact ⟨fun _ _ => ⟨rfl, rfl⟩, by simp [drawing], hle, by simp [PC.hasPid]⟩
  | replied num =>
    rw [hl] at h hown
    cases h
    refine ⟨fun _ _ => ⟨rfl, rfl⟩, ?_, hle, fun _ => hown rfl⟩
    unfold serveNext
    split_ifs <;> simp [drawing]
  | getNumber pc =>
    rw [hl] at h hch hown
    cases pc with
    | storePid =>
      cases h
      refine ⟨fun k hk => ⟨rfl, Function.update_of_ne hk ..⟩, by simp [drawing], ?_, fun _ => ?_⟩
      · simp
      · simp
    | setChoosing =>
      cases h
      exact ⟨fun k hk => ⟨Function.update_of_ne hk .., rfl⟩, by simp, hle, fun _ => hown rfl⟩
    | max m =>
      simp only [clientStep, getNumber1Svc] at h
      split at h <;> cases h <;>
        exact ⟨fun _ _ => ⟨rfl, rfl⟩, fun _ => hch rfl, hle, fun _ => hown rfl⟩
    | storeNum res =>
      cases h
      exact ⟨fun _ _ => ⟨rfl, rfl⟩, fun _ => hch rfl, hle, fun _ => hown rfl⟩
    | clearChoosing num =>
      cases h
      exact ⟨fun k hk => ⟨Function.update_of_ne hk .., rfl⟩, by simp [drawing], hle,
        fun _ => hown rfl⟩
  | serve pc =>
    rw [hl] at h hown
    cases pc with
    | choose i =>
      cases h
      refine ⟨fun _ _ => ⟨rfl, rfl⟩, ?_, hle, fun _ => hown rfl⟩
      split_ifs <;> simp [drawing]
    | test i w =>
      simp only [clientStep, serve1Svc] at h
      split at h
      · cases h
        exact ⟨fun _ _ => ⟨rfl, rfl⟩, by simp [drawing], hle, fun _ => hown rfl⟩
      · cases h
        refine ⟨fun _ _ => ⟨rfl, rfl⟩, ?_, hle, fun _ => hown rfl⟩
        unfold serveNext
        split_ifs <;> simp [drawing]
    | _ =>
      cases h
      exact ⟨fun _ _ => ⟨rfl, rfl⟩, by simp [drawing], hle, fun _ => hown rfl⟩

/-- The head of the wait loop: everybody below `k` is settled. -/
theorem serveNext_settles {own p q i k : ℕ} {Q : ℕ → Prop}
    (hQ : (serveNext n k).settles own p q i = some Q) :
    (i < k ∨ n ≤ k) ∧ Q = fun m => own < m ∨ (own = m ∧ p < q) := by
  unfold serveNext at hQ
  split_ifs at hQ with hk
  · simp only [PC.settles] at hQ
    split_ifs at hQ with hik
    cases hQ
    exact ⟨Or.inl hik, rfl⟩
  · cases hQ
    exact ⟨Or.inr (by omega), rfl⟩

/-- The step of a wait test: what the reads of it establish, and what was settled before. -/
theorem test_settled (hpid : Function.Injective pid) (hI : Inv pid c) {k : ℕ}
    {w : WaitPC} (hl : c.loc t = .serve (.test k w))
    (h : serve1Svc n t c.shared (.test k w) = some (s, x)) {i : Fin n} (hi : i ≠ t)
    {Q : ℕ → Prop} (hQ : x.settles (s.numbers t) (pid t) (pid i) i = some Q) :
    s.numbers = c.shared.numbers ∧ Settled (view c) t i Q := by
  have hset := hI.settled t i hi
  have hown := hI.ownPid t
  rw [hl] at hset hown
  simp only [serve1Svc] at h
  by_cases hik : (i : ℕ) = k
  · subst hik
    have hw := hset (w.known (c.shared.numbers t) (pid i)) (by simp [PC.settles])
    have hread := waitTest_settled (w := w) hI.wf hi hpid (hown rfl) (hI.pidLe i)
      (fun _ _ => hw.seen) (fun _ => hw)
    simp only [view, viewOf] at hread
    split at hread <;> rename_i hres <;> rw [hres] at h <;> cases h
    · refine ⟨rfl, ?_⟩
      simp only [PC.settles, lt_irrefl, if_false, if_true] at hQ
      cases hQ
      exact hread
    · refine ⟨rfl, ?_⟩
      split_ifs at hQ with hout
      · simp only [PC.settles, lt_irrefl, if_false, if_true] at hQ
        cases hQ
        exact hw.mono fun _ _ => trivial
      · obtain ⟨-, rfl⟩ := serveNext_settles hQ
        exact hread (by simpa using hout)
  · split at h <;> cases h <;> refine ⟨rfl, ?_⟩
    · apply hset
      simpa [PC.settles, hik] using hQ
    · split_ifs at hQ
      · apply hset
        simpa [PC.settles, hik] using hQ
      · obtain ⟨hk, rfl⟩ := serveNext_settles hQ
        apply hset
        simp only [PC.settles]
        rw [if_pos (by omega)]

/-- What a client has settled after a step of its own was settled before it, or has just
been read. -/
theorem own_settled (hpid : Function.Injective pid) (hI : Inv pid c)
    (h : clientStep pid t () c.shared (c.loc t) = some (s, x)) {i : Fin n} (hi : i ≠ t)
    {Q : ℕ → Prop} (hQ : x.settles (s.numbers t) (pid t) (pid i) i = some Q) :
    s.numbers = c.shared.numbers ∧ Settled (view c) t i Q := by
  have hset := hI.settled t i hi
  have hlt := i.isLt
  cases hl : c.loc t with
  | idle | served =>
    rw [hl] at h
    cases h
    cases hQ
  | replied num =>
    rw [hl] at h
    cases h
    have := (serveNext_settles hQ).1
    omega
  | getNumber pc =>
    rw [hl] at h
    cases pc with
    | max m =>
      simp only [clientStep, getNumber1Svc] at h
      split at h <;> cases h <;> cases hQ
    | _ =>
      cases h
      cases hQ
  | serve pc =>
    rw [hl] at h hset
    cases pc with
    | choose k =>
      cases h
      refine ⟨rfl, ?_⟩
      split_ifs at hQ with hch
      · exact hset Q hQ
      · by_cases hik : (i : ℕ) = k
        · subst hik
          simp only [PC.settles, lt_irrefl, if_false, if_true] at hQ
          cases hQ
          exact (hI.seen (by simpa using hch) t).mono fun _ _ => trivial
        · apply hset
          simpa [PC.settles, hik] using hQ
    | test k w => exact test_settled hpid hI hl h hi hQ
    | resetNum =>
      cases h
      cases hQ
    | _ =>
      cases h
      exact ⟨rfl, hset Q hQ⟩

theorem inv_step (hpid : Function.Injective pid) (hI : Inv pid c)
    (h : clientStep pid t () c.shared (c.loc t) = some (s, x)) : Inv pid (c.set t s x) := by
  have hstep := step_view hI h
  obtain ⟨hothers, hch, hle, hhas⟩ := step_own hI h
  refine ⟨hstep.wf hI.wf, ?_, ?_, ?_, ?_⟩
  · refine Config.forall_set (P := fun (i : Fin n) y => drawing y = true → s.choosing i = true)
      hch ?_
    intro i hit
    rw [(hothers i (val_ne hit)).1]
    exact hI.choosing i
  · refine Config.forall_set
      (P := fun (j : Fin n) (y : PC) => y.hasPid = true → s.pids j = pid j) hhas ?_
    intro j hjt
    rw [(hothers j (val_ne hjt)).2]
    exact hI.ownPid j
  · intro i
    by_cases hit : i = t
    · subst hit
      exact hle
    · rw [Config.set_shared, (hothers i (val_ne hit)).2]
      exact hI.pidLe i
  · intro j i hij Q hQ
    exact Step.settled_threads (K := PC.settles) hstep hI.wf settles_held settles_of_lt hI.settled
      (fun i hi Q hQ => own_settled hpid hI h hi hQ) hij hQ

end Steps

/-! ## Mutual exclusion -/

theorem inv_reach {c : Config (Fin n) Shared PC} (hpid : Function.Injective pid)
    (h : (server pid).Reach (initial n) c) : Inv pid c := by
  apply h.interleave_invariant inv_initial
  intro c t e s x hI _ hs
  exact inv_step hpid hI hs

theorem pastWait_held {x : PC} (h : pastWait x = true) : x.phase n = .held := by
  cases x with
  | serve pc => rfl
  | _ => cases h

theorem pastWait_settles {own p q i : ℕ} {x : PC} (h : pastWait x = true) :
    x.settles own p q i = some fun m => own < m ∨ (own = m ∧ p < q) := by
  cases x with
  | serve pc => cases pc <;> first | rfl | cases h
  | _ => cases h

/-- **Mutual exclusion with `choosing`.** In every reachable state at most one client is
past its wait loops. -/
theorem choosing_exclusion (hpid : Function.Injective pid) {c : Config (Fin n) Shared PC}
    (h : (server pid).Reach (initial n) c) {i j : Fin n}
    (hi : pastWait (c.loc i) = true) (hj : pastWait (c.loc j) = true) : i = j := by
  have hI := inv_reach hpid h
  by_contra hne
  exact not_both_before (pastWait_held hi) (pastWait_held hj)
    (hI.settled i j (Ne.symm hne) _ (pastWait_settles hi))
    (hI.settled j i hne _ (pastWait_settles hj))

/-- Three clients, the pids descending with the index. -/
def threePids (i : Fin 3) : ℕ := 100 - i

theorem threePids_injective : Function.Injective threePids := by
  intro i j h
  simp only [threePids] at h
  omega

/-- Clients `i` and `j` read all of `numbers` and take the same ticket; client `j` passes
by its smaller pid while client `i` waits. -/
def sameTicketRun {ι : Type} (i j : ι) : List (ι × Unit) :=
  List.replicate 6 (i, ()) ++ List.replicate 9 (j, ()) ++ List.replicate 20 (i, ()) ++
    List.replicate 20 (j, ())

theorem choosing_exclusion_same_ticket : ∃ c : Config (Fin 3) Shared PC,
    (server threePids).Reach (initial 3) c ∧ c.shared.numbers 0 = c.shared.numbers 1 ∧
      pastWait (c.loc 1) = true ∧ ∀ j, pastWait (c.loc j) = true → j = 1 := by
  have hrun : ((server threePids).run (initial 3) (sameTicketRun 0 1)).any
      (fun c => pastWait (c.loc 1) && c.shared.numbers 0 = c.shared.numbers 1) = true := by
    decide +kernel
  obtain ⟨c, hc, hp⟩ := Machine.exists_reach_of_run _ _ hrun
  simp only [Bool.and_eq_true, decide_eq_true_eq] at hp
  exact ⟨c, hc, hp.2, hp.1, fun j hj => choosing_exclusion threePids_injective hc hj hp.1⟩

end OsLabs.Bakery.Choosing
