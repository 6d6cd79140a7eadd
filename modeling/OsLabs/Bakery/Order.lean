import OsLabs.Bakery.Server

/-!
# The bakery server: first come, first served

If the call `get_number` of client `A` has returned before client `B` starts its own,
`B` should wait for `A`. The scan of `B` reads the entry of `A` and takes the maximum,
so that the ticket of `B` is greater. But `max_number` reads an entry a second time to
copy it: where that entry was reset in between, the maximum falls back to zero, below
the ticket of `A` that had been accounted for, and `B` overtakes `A`
(`overtakes_after_reset`).

`first_come_first_served` is the other half: `B` does not pass its wait loop before the
reset of `A` in any run in which no copy lowers the maximum below a ticket that the scan
has read and that still stands (`CopyKeeps`). Nothing is asked of the run before `B`
starts, and mutual exclusion is not used.
-/

namespace OsLabs.Bakery

open Concurrent

variable {n : ℕ} {pid : Fin n → ℕ} {A B : Fin n}

/-- The client has returned from `get_number` and has not yet reset its entry. -/
def returned : PC → Bool
  | .replied _ => true
  | .serve .resetPid | .serve .resetUnlock => false
  | .serve _ => true
  | _ => false

/-- The client has stored its ticket and not yet reset it. -/
def stored : PC → Bool
  | .getNumber (.storePid _) | .getNumber (.print _ _) | .getNumber (.unlock _) => true
  | x => returned x

/-- Where the action copies an entry in `max_number`, the value copied is not below a
ticket that the scan has read before and that the maximum accounts for. -/
def CopyKeeps (c : Config (Fin n) Shared PC) (a : Fin n × Unit) : Prop :=
  match c.loc a.1 with
  | .getNumber (.max (.copy i res)) =>
      ∀ j < i, c.shared.numbers j ≤ res → c.shared.numbers j ≤ c.shared.numbers i
  | _ => True

instance (c : Config (Fin n) Shared PC) (a : Fin n × Unit) : Decidable (CopyKeeps c a) := by
  unfold CopyKeeps
  cases c.loc a.1 with
  | getNumber pc =>
    cases pc with
    | max m => cases m <;> infer_instance
    | _ => infer_instance
  | _ => infer_instance

/-- The action is not the reset of the entry of `A`. -/
def NotReset (A : Fin n) (c : Config (Fin n) Shared PC) (a : Fin n × Unit) : Prop :=
  a.1 = A → c.loc A ≠ .serve .resetNum

instance (c : Config (Fin n) Shared PC) (a : Fin n × Unit) : Decidable (NotReset A c a) :=
  inferInstanceAs (Decidable (_ = _ → _ ≠ _))

/-- Where `B`, with ticket `own`, can be when it started after client `A` took its ticket
`m`: its scan accounts for `m` once it has read the entry of `A`, its ticket is greater,
and its wait loop does not get beyond the entry of `A`. -/
def follows (A m own : ℕ) : PC → Prop
  | .idle | .getNumber .lock | .getNumber (.max .init) => True
  | .getNumber (.max (.test i res)) | .getNumber (.max (.copy i res)) => A < i → m ≤ res
  | .getNumber (.storeNum res) => m ≤ res
  | .getNumber (.storePid _) | .getNumber (.print _ _) | .getNumber (.unlock _) | .replied _ =>
      m < own
  | .serve (.lock i) => m < own ∧ i ≤ A
  | .serve (.test i w) =>
      m < own ∧ i ≤ A ∧ (i = A → w = .nonzero ∨ w = .less ∨ w = .lessOwn m)
  | .serve (.unlock i out) => m < own ∧ i ≤ A ∧ (i = A → out = true)
  | _ => False

theorem stored_of_returned {x : PC} (h : returned x = true) : stored x = true := by
  cases x with
  | getNumber pc => cases h
  | _ => exact h

theorem follows_not_pastWait {m own : ℕ} {x : PC} (h : follows A m own x) :
    pastWait x = false := by
  cases x with
  | serve pc => cases pc <;> first | rfl | cases h
  | _ => rfl

section Steps

variable {s s' : Shared} {x x' : PC} {t : Fin n}

/-- A client comes to a ticket only by storing it. -/
theorem not_stored_step (h : clientStep pid t () s x = some (s', x')) (hx : stored x = false)
    (hnum : ∀ res, x ≠ .getNumber (.storeNum res)) : stored x' = false := by
  cases x with
  | idle | served => cases h; rfl
  | replied => cases hx
  | getNumber pc =>
    cases pc with
    | lock =>
      obtain ⟨u, hu, he⟩ := Option.map_eq_some_iff.mp h
      cases he
      rfl
    | max m =>
      simp only [clientStep, getNumber1Svc] at h
      split at h <;> cases h <;> rfl
    | storeNum res => exact absurd rfl (hnum res)
    | _ => cases hx
  | serve pc =>
    cases pc with
    | resetPid | resetUnlock => cases h; rfl
    | _ => cases hx

/-- A stored ticket is not zero. -/
theorem stored_step (hx : stored x = true → s.numbers t ≠ 0)
    (h : clientStep pid t () s x = some (s', x')) (hx' : stored x' = true) :
    s'.numbers t ≠ 0 := by
  by_cases hnum : ∃ res, x = .getNumber (.storeNum res)
  · obtain ⟨res, rfl⟩ := hnum
    cases h
    simp
  · rcases clientStep_numbers h with he | ⟨res, hres, _⟩ | ⟨_, rfl, _⟩
    · rw [he]
      apply hx
      by_contra hn
      rw [not_stored_step h (Bool.not_eq_true _ ▸ hn) fun res hres => hnum ⟨res, hres⟩] at hx'
      cases hx'
    · exact absurd ⟨res, hres⟩ hnum
    · cases hx'

/-- As long as it does not reset it, a client that has returned keeps its ticket. -/
theorem returned_step (h : clientStep pid t () s x = some (s', x')) (hx : returned x = true)
    (hr : x ≠ .serve .resetNum) : returned x' = true ∧ s'.numbers = s.numbers := by
  constructor
  · cases x with
    | replied num =>
      cases h
      unfold serveNext
      split_ifs <;> rfl
    | serve pc =>
      cases pc with
      | lock | resetLock =>
        obtain ⟨u, hu, he⟩ := Option.map_eq_some_iff.mp h
        cases he
        rfl
      | test i w =>
        simp only [clientStep, serve1Svc] at h
        split at h <;> cases h <;> rfl
      | unlock i out =>
        cases h
        unfold serveNext
        split_ifs <;> rfl
      | printNum i =>
        simp only [clientStep, serve1Svc] at h
        split_ifs at h <;> cases h <;> rfl
      | switch | printPid => cases h; rfl
      | resetNum => exact absurd rfl hr
      | resetPid | resetUnlock => cases hx
    | _ => cases hx
  · rcases clientStep_numbers h with he | ⟨res, rfl, _, _⟩ | ⟨rfl, _, _⟩
    · exact he
    · cases hx
    · exact absurd rfl hr

theorem follows_maxNext {m own i r : ℕ} (hr : (A : ℕ) < i → m ≤ r) :
    match maxNext n i r with
    | .inl mp => follows A m own (.getNumber (.max mp))
    | .inr res => m ≤ res := by
  by_cases hi : i < n
  · simp only [maxNext, if_pos hi]
    exact hr
  · simp only [maxNext, if_neg hi]
    exact hr (lt_of_lt_of_le A.isLt (by omega))

theorem serveNext_of_le {k : ℕ} (hk : k ≤ A) : serveNext n k = .serve (.lock k) := by
  unfold serveNext
  rw [if_pos (lt_of_le_of_lt hk A.isLt)]

/-- What `B` knows of the ticket of `A` is kept by its own steps. -/
theorem follows_step {m : ℕ} (hm : s.numbers A = m) (hne : m ≠ 0)
    (hcopy : ∀ i res, x = .getNumber (.max (.copy i res)) → (A : ℕ) < i → m ≤ res →
      m ≤ s.numbers i)
    (h : clientStep pid B () s x = some (s', x')) (hf : follows A m (s.numbers B) x) :
    follows A m (s'.numbers B) x' := by
  cases x with
  | idle => cases h; trivial
  | served => cases hf
  | replied num =>
    cases h
    have hnext : serveNext n 0 = .serve (.lock 0) := serveNext_of_le (Nat.zero_le (A : ℕ))
    rw [hnext]
    exact ⟨hf, Nat.zero_le _⟩
  | getNumber pc =>
    cases pc with
    | lock =>
      obtain ⟨u, hu, he⟩ := Option.map_eq_some_iff.mp h
      cases he
      trivial
    | max mp =>
      have hnext : match maxNumber n 0 s.numbers mp with
          | .inl mp' => follows A m (s.numbers B) (.getNumber (.max mp'))
          | .inr res => m ≤ res := by
        cases mp with
        | init => exact follows_maxNext (by omega)
        | test i res =>
          simp only [maxNumber]
          split_ifs with hgt
          · exact hf
          · apply follows_maxNext
            intro hlt
            by_cases hAi : (A : ℕ) = i
            · rw [← hm, hAi]
              omega
            · exact hf (by omega)
        | copy i res =>
          apply follows_maxNext
          intro hlt
          by_cases hAi : (A : ℕ) = i
          · rw [← hm, hAi]
          · exact hcopy i res rfl (by omega) (hf (by omega))
      simp only [clientStep, getNumber1Svc] at h
      split at h <;> rename_i hmax <;> rw [hmax] at hnext <;> cases h <;> exact hnext
    | storeNum res =>
      cases h
      simp only [follows, Function.update_self]
      exact Nat.lt_succ_of_le hf
    | print num i =>
      simp only [clientStep, getNumber1Svc] at h
      split_ifs at h <;> cases h <;> exact hf
    | storePid | unlock => cases h; exact hf
  | serve pc =>
    cases pc with
    | lock i =>
      obtain ⟨u, hu, he⟩ := Option.map_eq_some_iff.mp h
      cases he
      rw [(lockMut_eq hu).1]
      exact ⟨hf.1, hf.2, fun _ => Or.inl rfl⟩
    | test i w =>
      obtain ⟨hlt, hle, hw⟩ := hf
      simp only [clientStep, serve1Svc] at h
      by_cases hiA : i = A
      · subst hiA
        -- on the entry of `A` the test runs into `m < own` and comes out true
        rcases hw rfl with rfl | rfl | rfl
        · simp only [waitTest, hm, if_pos hne] at h
          cases h
          exact ⟨hlt, hle, fun _ => Or.inr (Or.inl rfl)⟩
        · simp only [waitTest, hm] at h
          cases h
          exact ⟨hlt, hle, fun _ => Or.inr (Or.inr rfl)⟩
        · simp only [waitTest, if_pos hlt] at h
          cases h
          exact ⟨hlt, hle, fun _ => rfl⟩
      · split at h <;> cases h <;> exact ⟨hlt, hle, fun he => absurd he hiA⟩
    | unlock i out =>
      obtain ⟨hlt, hle, hout⟩ := hf
      cases h
      cases out with
      | true => exact ⟨hlt, hle⟩
      | false =>
        have hne : i ≠ A := fun he => by simpa using hout he
        have hk : i + 1 ≤ A := by omega
        rw [if_neg (by simp), serveNext_of_le hk]
        exact ⟨hlt, hk⟩
    | _ => cases hf

end Steps

/-! ## First come, first served -/

theorem stored_ne_zero {c : Config (Fin n) Shared PC} (h : (server pid).Reach (initial n) c)
    (i : Fin n) (hi : stored (c.loc i) = true) : c.shared.numbers i ≠ 0 := by
  have hall : ∀ i, stored (c.loc i) = true → c.shared.numbers i ≠ 0 := by
    apply h.interleave_invariant
    · intro i hi
      cases hi
    · intro c t e s x hI _ hs
      refine Config.forall_set (P := fun (i : Fin n) y => stored y = true → s.numbers i ≠ 0)
        (stored_step (hI t) hs) ?_
      intro i hit
      rw [clientStep_numbers_of_ne hs (fun he => hit (Fin.ext he))]
      exact hI i
  exact hall i hi

/-- **First come, first served.** `A` has returned from `get_number` when `B` starts its
own. As long as `A` has not reset its entry, `B` is not past its wait loop, if no copy
in a `max_number` loses a ticket that the scan has read. -/
theorem first_come_first_served {c c' : Config (Fin n) Shared PC}
    (h : (server pid).Reach (initial n) c) (hA : returned (c.loc A) = true)
    (hB : c.loc B = .idle)
    (h' : (server pid).ReachBy (fun c a => CopyKeeps c a ∧ NotReset A c a) c c') :
    pastWait (c'.loc B) = false := by
  have hAB : A ≠ B := by
    rintro rfl
    rw [hB] at hA
    cases hA
  have hne : c.shared.numbers A ≠ 0 := stored_ne_zero h A (stored_of_returned hA)
  have hinv : returned (c'.loc A) = true ∧ c'.shared.numbers A = c.shared.numbers A ∧
      follows A (c.shared.numbers A) (c'.shared.numbers B) (c'.loc B) := by
    apply h'.interleave_invariant
    · exact ⟨hA, rfl, by rw [hB]; trivial⟩
    · rintro d t e s x ⟨hret, hnum, hf⟩ ⟨hc, hr⟩ hs
      by_cases htA : t = A
      · subst htA
        obtain ⟨hret', he⟩ := returned_step hs hret (hr rfl)
        rw [Config.set_loc_self, Config.set_loc_of_ne hAB.symm, Config.set_shared, he]
        exact ⟨hret', hnum, hf⟩
      · rw [Config.set_loc_of_ne (Ne.symm htA), Config.set_shared,
          clientStep_numbers_of_ne hs (fun he => htA (Fin.ext he.symm))]
        refine ⟨hret, hnum, ?_⟩
        by_cases htB : t = B
        · subst htB
          rw [Config.set_loc_self]
          refine follows_step hnum hne ?_ hs hf
          intro i res hl hlt hle
          simp only [CopyKeeps, hl] at hc
          rw [← hnum] at hle ⊢
          exact hc A hlt hle
        · rw [Config.set_loc_of_ne (Ne.symm htB),
            clientStep_numbers_of_ne hs (fun he => htB (Fin.ext he.symm))]
          exact hf
  exact follows_not_pastWait hinv.2.2

/-- Five clients, the pids descending with the index. -/
def descendingPids (i : Fin 5) : ℕ := 200 - i

theorem descendingPids_injective : Function.Injective descendingPids := by
  intro i j h
  simp only [descendingPids] at h
  omega

/-- Client `1` starts after client `0` has its ticket `1`; it copies the ticket `2` of
client `2` and waits for client `0` with the ticket `3`. -/
theorem first_come_first_served_waits : ∃ c c' : Config (Fin 5) Shared PC,
    (server descendingPids).Reach (initial 5) c ∧ returned (c.loc 0) = true ∧ c.loc 1 = .idle ∧
      (server descendingPids).ReachBy (fun c a => CopyKeeps c a ∧ NotReset 0 c a) c c' ∧
      c'.shared.numbers 1 = 3 ∧ pastWait (c'.loc 1) = false := by
  have hrun : ((server descendingPids).run (initial 5)
      (List.replicate 17 (0, ()) ++ List.replicate 9 (2, ()))).any
      (fun c => returned (c.loc 0) && c.loc 1 = .idle &&
        ((server descendingPids).exec (fun c a => CopyKeeps c a ∧ NotReset 0 c a) c
          (List.replicate 50 (1, ()))).any fun c' => c'.shared.numbers 1 = 3) = true := by
    decide +kernel
  obtain ⟨c, hc, hp⟩ := Machine.exists_reach_of_run _ _ hrun
  simp only [Bool.and_eq_true, decide_eq_true_eq] at hp
  obtain ⟨⟨hA, hB⟩, hexec⟩ := hp
  obtain ⟨c', hc', h3⟩ := Machine.exists_reachBy_of_exec _ _ hexec
  exact ⟨c, c', hc, hA, hB, hc', of_decide_eq_true h3, first_come_first_served hc hA hB hc'⟩

/-- Client `i` reads all of `numbers`; client `k` draws the ticket `1` and client `j` the
ticket `2`; client `k` is served, and client `j` comes to its reset; client `i` writes
its ticket `1` and returns. -/
def firstComesRun {ι : Type} (i j k : ι) : List (ι × Unit) :=
  List.replicate 8 (i, ()) ++ List.replicate 18 (k, ()) ++ List.replicate 20 (j, ()) ++
    List.replicate 41 (k, ()) ++ List.replicate 33 (j, ()) ++ List.replicate 9 (i, ())

/-- Client `i` finds the ticket of client `j` the greatest, and client `j` resets it before
client `i` copies it. -/
def resetBetweenRun {ι : Type} (i j : ι) : List (ι × Unit) :=
  List.replicate 6 (i, ()) ++ List.replicate 1 (j, ()) ++ List.replicate 40 (i, ())

/-- A later client overtakes a client that has returned and not reset its entry. -/
theorem overtakes_after_reset : ¬ ∀ (pid : Fin 5 → ℕ), Function.Injective pid →
    ∀ c, (server pid).Reach (initial 5) c → ∀ A B, returned (c.loc A) = true →
      c.loc B = .idle → ∀ c', (server pid).ReachBy (NotReset A) c c' →
        pastWait (c'.loc B) = false := by
  intro h
  have hrun : ((server descendingPids).run (initial 5) (firstComesRun 0 2 3)).any
      (fun c => returned (c.loc 0) && c.loc 1 = .idle &&
        ((server descendingPids).exec (NotReset 0) c (resetBetweenRun 1 2)).any
          fun c' => pastWait (c'.loc 1)) = true := by decide +kernel
  obtain ⟨c, hc, hp⟩ := Machine.exists_reach_of_run _ _ hrun
  simp only [Bool.and_eq_true, decide_eq_true_eq] at hp
  obtain ⟨⟨hA, hB⟩, hexec⟩ := hp
  obtain ⟨c', hc', hpast⟩ := Machine.exists_reachBy_of_exec _ _ hexec
  have hnot := h descendingPids descendingPids_injective c hc 0 1 hA hB c' hc'
  rw [hpast] at hnot
  cases hnot

end OsLabs.Bakery
