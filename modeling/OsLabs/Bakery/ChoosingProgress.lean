import OsLabs.Bakery.ChoosingOrder
import OsLabs.Concurrent.Termination

/-!
# The bakery server with `choosing`: progress

A client in `get_number_1_svc` never waits, and its flag is set exactly while it draws. So
the clients that draw can all come to their replies, each one alone. Then no flag is set,
and among the clients with a request the one with the least pair of ticket and pid finds
every condition of its wait loops false: it can be served, whatever the test it is in has
read before. In this way every reachable state leads to one where nobody has a request and
`numbers` is zero (`choosing_never_wedges`), and no assumption on the pids is needed.
-/

namespace OsLabs.Bakery.Choosing

open Concurrent

variable {n : ℕ} {pid : Fin n → ℕ}

/-! ## The points of a client -/

/-- Inside `get_number_1_svc`. -/
def inGetNumber : PC → Bool
  | .getNumber _ => true
  | _ => false

/-- From the reply of `get_number_1_svc` up to the end of `serve_1_svc`. -/
def pending : PC → Bool
  | .replied _ | .serve _ => true
  | _ => false

/-- No loop of client `ind` goes on at entry `i`. -/
def Passes (s : Shared) (ind i : ℕ) : Prop :=
  s.choosing i = false ∧ ¬ MustWait s.numbers s.pids ind i

/-! ## A client alone -/

/-- Client `t` moves alone, and does not start a round. -/
abbrev Alone (pid : Fin n → ℕ) (t : Fin n) : Shared → PC → Shared → PC → Prop :=
  Solo (clientStep pid) (fun x => x ≠ .idle) t

section Alone

variable {t : Fin n} {s : Shared} {i : ℕ}

/-- A wait test comes to its end, whatever it has read; a test that reads only what is
there ends the loop. -/
theorem test_ends (hfree : ¬ MustWait s.numbers s.pids t i) (w : WaitPC) :
    Alone pid t s (.serve (.test i w)) s (serveNext n (i + 1)) ∨
      (¬ w.UpToDate s.numbers s.pids t i ∧
        Alone pid t s (.serve (.test i w)) s (.serve (.test i .nonzero))) := by
  induction hk : w.readsLeft using Nat.strongRecOn generalizing w with
  | ind k ih =>
    cases hread : waitTest s.numbers s.pids t i w with
    | inl w' =>
      have hstep : clientStep pid t () s (.serve (.test i w)) = some (s, .serve (.test i w')) := by
        simp only [clientStep, serve1Svc, hread]
      rcases ih w'.readsLeft (hk ▸ waitTest_readsLeft hread) w' rfl with hend | ⟨hold, hagain⟩
      · exact Or.inl (.head (e := ()) (by simp) hstep hend)
      · refine Or.inr ⟨fun hw => hold (waitTest_upToDate hw hread), ?_⟩
        exact .head (e := ()) (by simp) hstep hagain
    | inr out =>
      have hstep : clientStep pid t () s (.serve (.test i w)) =
          some (s, if out then .serve (.test i .nonzero) else serveNext n (i + 1)) := by
        simp only [clientStep, serve1Svc, hread]
      cases out with
      | false => exact Or.inl (.single (e := ()) (by simp) hstep)
      | true =>
        refine Or.inr ⟨fun hw => ?_, .single (e := ()) (by simp) hstep⟩
        exact absurd (waitTest_value hw hread hfree) (by simp)

/-- The second loop on entry `i`, from any point of its test. -/
theorem loop_ends (hfree : ¬ MustWait s.numbers s.pids t i) (w : WaitPC) :
    Alone pid t s (.serve (.test i w)) s (serveNext n (i + 1)) := by
  have hfresh : Alone pid t s (.serve (.test i .nonzero)) s (serveNext n (i + 1)) := by
    rcases test_ends hfree .nonzero with hend | ⟨hold, -⟩
    · exact hend
    · exact absurd trivial hold
  rcases test_ends hfree w with hend | ⟨-, hagain⟩
  · exact hend
  · exact hagain.trans hfresh

/-- Both loops on entry `i`. -/
theorem choose_ends (hfree : Passes s t i) :
    Alone pid t s (.serve (.choose i)) s (serveNext n (i + 1)) := by
  refine .head (e := ()) (by simp) ?_ (loop_ends hfree.2 .nonzero)
  simp [clientStep, serve1Svc, hfree.1]

/-- The `for` loop from entry `i` on. -/
theorem waitLoop_ends (hfree : ∀ i, Passes s t i) (i : ℕ) :
    Alone pid t s (serveNext n i) s (.serve .switch) := by
  generalize hk : n - i = k
  induction k generalizing i with
  | zero =>
    rw [serveNext, if_neg (by omega)]
    exact .refl
  | succ k ih =>
    rw [serveNext, if_pos (by omega)]
    exact (choose_ends (hfree i)).trans (ih (i + 1) (by omega))

/-- The entry of client `t` is given back. -/
def cleared (s : Shared) (t : ℕ) : Shared := { s with numbers := Function.update s.numbers t 0 }

theorem resetNum_ends : Alone pid t s (.serve .resetNum) (cleared s t) .served :=
  .single (e := ()) (by simp) rfl

theorem printPid_ends : Alone pid t s (.serve .printPid) (cleared s t) .served :=
  .head (e := ()) (by simp) rfl resetNum_ends

theorem printNum_ends : Alone pid t s (.serve .printNum) (cleared s t) .served :=
  .head (e := ()) (by simp) rfl printPid_ends

theorem counterStore_ends (v : ℕ) :
    Alone pid t s (.serve (.counterStore v)) (cleared { s with counter := v + 1 } t) .served :=
  .head (e := ()) (by simp) rfl printNum_ends

theorem counterLoad_ends : Alone pid t s (.serve .counterLoad)
    (cleared { s with counter := s.counter + 1 } t) .served :=
  .head (e := ()) (by simp) rfl (counterStore_ends s.counter)

/-- Behind the wait loops nothing blocks. -/
theorem switch_ends : Alone pid t s (.serve .switch)
    (cleared { s with counter := s.counter + 1 } t) .served :=
  .head (e := ()) (by simp) rfl counterLoad_ends

/-- A client with a request comes to its end alone, where it passes every entry. -/
theorem serve_ends {x : PC} (hx : pending x = true) (hfree : ∀ i, Passes s t i) :
    ∃ s', Alone pid t s x s' .served := by
  cases x with
  | idle | getNumber | served => cases hx
  | replied num =>
    have hloop : Alone pid t s (serveNext n 0) s (.serve .switch) := waitLoop_ends hfree 0
    exact ⟨_, .head (e := ()) (by simp) rfl (hloop.trans switch_ends)⟩
  | serve pc =>
    cases pc with
    | choose i =>
      have hloop : Alone pid t s (serveNext n (i + 1)) s (.serve .switch) := waitLoop_ends hfree _
      exact ⟨_, (choose_ends (hfree i)).trans (hloop.trans switch_ends)⟩
    | test i w =>
      have hloop : Alone pid t s (serveNext n (i + 1)) s (.serve .switch) := waitLoop_ends hfree _
      exact ⟨_, (loop_ends (hfree i).2 w).trans (hloop.trans switch_ends)⟩
    | switch => exact ⟨_, switch_ends⟩
    | counterLoad => exact ⟨_, counterLoad_ends⟩
    | counterStore v => exact ⟨_, counterStore_ends v⟩
    | printNum => exact ⟨_, printNum_ends⟩
    | printPid => exact ⟨_, printPid_ends⟩
    | resetNum => exact ⟨_, resetNum_ends⟩

/-! ### The draw -/

/-- A bound on the reads a scan has before it. -/
def scanLeft (n : ℕ) : MaxPC → ℕ
  | .init => 2 * n + 3
  | .test i _ => 2 * (n - i) + 2
  | .copy i _ => 2 * (n - i) + 1

theorem maxNumber_scanLeft {numbers : ℕ → ℕ} {m m' : MaxPC}
    (h : maxNumber n 1 numbers m = .inl m') : scanLeft n m' < scanLeft n m := by
  have hnext {i r : ℕ} (h : maxNext n i r = .inl m') : i < n ∧ m' = .test i r := by
    unfold maxNext at h
    split_ifs at h with hi
    cases h
    exact ⟨hi, rfl⟩
  cases m with
  | init =>
    obtain ⟨hi, rfl⟩ := hnext h
    simp only [scanLeft]
    omega
  | test i r =>
    simp only [maxNumber] at h
    split_ifs at h
    · cases h
      exact Nat.lt_succ_self _
    · obtain ⟨hi, rfl⟩ := hnext h
      simp only [scanLeft]
      omega
  | copy i r =>
    obtain ⟨hi, rfl⟩ := hnext h
    simp only [scanLeft]
    omega

theorem max_ends (m : MaxPC) :
    ∃ res, Alone pid t s (.getNumber (.max m)) s (.getNumber (.storeNum res)) := by
  induction hk : scanLeft n m using Nat.strongRecOn generalizing m with
  | ind k ih =>
    cases hread : maxNumber n 1 s.numbers m with
    | inl m' =>
      obtain ⟨res, hrest⟩ := ih (scanLeft n m') (hk ▸ maxNumber_scanLeft hread) m' rfl
      refine ⟨res, .head (e := ()) (by simp) ?_ hrest⟩
      simp only [clientStep, getNumber1Svc, hread]
    | inr res =>
      refine ⟨res, .single (e := ()) (by simp) ?_⟩
      simp only [clientStep, getNumber1Svc, hread]

theorem clearChoosing_ends (num : ℕ) : Alone pid t s (.getNumber (.clearChoosing num))
    { s with choosing := Function.update s.choosing t false } (.replied num) :=
  .single (e := ()) (by simp) rfl

theorem storeNum_ends (res : ℕ) :
    ∃ s', Alone pid t s (.getNumber (.storeNum res)) s' (.replied (res + 1)) :=
  ⟨_, .head (e := ()) (by simp) rfl (clearChoosing_ends (res + 1))⟩

theorem scan_ends (m : MaxPC) :
    ∃ s' num, Alone pid t s (.getNumber (.max m)) s' (.replied num) := by
  obtain ⟨res, hscan⟩ : ∃ res, Alone pid t s (.getNumber (.max m)) s (.getNumber (.storeNum res)) :=
    max_ends m
  obtain ⟨s', hstore⟩ : ∃ s', Alone pid t s (.getNumber (.storeNum res)) s' (.replied (res + 1)) :=
    storeNum_ends res
  exact ⟨s', res + 1, hscan.trans hstore⟩

theorem setChoosing_ends :
    ∃ s' num, Alone pid t s (.getNumber .setChoosing) s' (.replied num) := by
  obtain ⟨s', num, hscan⟩ : ∃ s' num, Alone pid t
      { s with choosing := Function.update s.choosing t true } (.getNumber (.max .init)) s'
      (.replied num) := scan_ends .init
  exact ⟨s', num, .head (e := ()) (by simp) rfl hscan⟩

/-- A client in `get_number_1_svc` comes to its reply alone. -/
theorem draw_ends {x : PC} (hx : inGetNumber x = true) :
    ∃ s' num, Alone pid t s x s' (.replied num) := by
  cases x with
  | getNumber pc =>
    cases pc with
    | storePid =>
      obtain ⟨s', num, hrest⟩ : ∃ s' num, Alone pid t
          { s with pids := Function.update s.pids t (pid t) } (.getNumber .setChoosing) s'
          (.replied num) := setChoosing_ends
      exact ⟨s', num, .head (e := ()) (by simp) rfl hrest⟩
    | setChoosing => exact setChoosing_ends
    | max m => exact scan_ends m
    | storeNum res =>
      obtain ⟨s', hstore⟩ : ∃ s', Alone pid t s (.getNumber (.storeNum res)) s'
          (.replied (res + 1)) := storeNum_ends res
      exact ⟨s', res + 1, hstore⟩
    | clearChoosing num => exact ⟨_, num, clearChoosing_ends num⟩
  | _ => cases hx

end Alone

/-! ## Every state -/

section Steps

variable {t : Fin n} {s s' : Shared} {x x' : PC}

/-- A step leaves the entries of its own client as its new point says, and those of the
others alone. -/
theorem step_held (h : clientStep pid t () s x = some (s', x'))
    (hnum : s.numbers t ≠ 0 ↔ stored x = true) (hch : s.choosing t = drawing x) :
    (s'.numbers t ≠ 0 ↔ stored x' = true) ∧ s'.choosing t = drawing x' ∧
      ∀ k : ℕ, k ≠ t → s'.numbers k = s.numbers k ∧ s'.choosing k = s.choosing k := by
  have hsame (k : ℕ) (_ : k ≠ t) : s.numbers k = s.numbers k ∧ s.choosing k = s.choosing k :=
    ⟨rfl, rfl⟩
  have hflag (b : Bool) (k : ℕ) (hk : k ≠ t) :
      s.numbers k = s.numbers k ∧ Function.update s.choosing t b k = s.choosing k :=
    ⟨rfl, Function.update_of_ne hk ..⟩
  have hentry (v k : ℕ) (hk : k ≠ t) :
      Function.update s.numbers t v k = s.numbers k ∧ s.choosing k = s.choosing k :=
    ⟨Function.update_of_ne hk .., rfl⟩
  have hnext (i : ℕ) : stored (serveNext n i) = true ∧ drawing (serveNext n i) = false := by
    unfold serveNext
    split_ifs <;> exact ⟨rfl, rfl⟩
  cases x with
  | idle | served =>
    cases h
    exact ⟨hnum, hch, hsame⟩
  | replied num =>
    cases h
    rw [(hnext 0).1, (hnext 0).2]
    exact ⟨hnum, hch, hsame⟩
  | getNumber pc =>
    cases pc with
    | storePid =>
      cases h
      exact ⟨hnum, hch, hsame⟩
    | setChoosing =>
      cases h
      exact ⟨hnum, Function.update_self .., hflag true⟩
    | max m =>
      simp only [clientStep, getNumber1Svc] at h
      split at h <;> cases h <;> exact ⟨hnum, hch, hsame⟩
    | storeNum res =>
      cases h
      exact ⟨by simp [stored], hch, hentry (res + 1)⟩
    | clearChoosing num =>
      cases h
      exact ⟨hnum, Function.update_self .., hflag false⟩
  | serve pc =>
    cases pc with
    | choose i =>
      cases h
      refine ⟨?_, ?_, hsame⟩
      · split_ifs <;> exact hnum
      · split_ifs <;> exact hch
    | test i w =>
      simp only [clientStep, serve1Svc] at h
      split at h
      · cases h
        exact ⟨hnum, hch, hsame⟩
      · cases h
        split_ifs
        · exact ⟨hnum, hch, hsame⟩
        · rw [(hnext (i + 1)).1, (hnext (i + 1)).2]
          exact ⟨hnum, hch, hsame⟩
    | resetNum =>
      cases h
      exact ⟨by simp [stored], hch, hentry 0⟩
    | _ =>
      cases h
      exact ⟨hnum, hch, hsame⟩

end Steps

/-- Who has a ticket, and whose flag is set. -/
structure Held (c : Config (Fin n) Shared PC) : Prop where
  numbers : ∀ t : Fin n, c.shared.numbers t ≠ 0 ↔ stored (c.loc t) = true
  choosing : ∀ t : Fin n, c.shared.choosing t = drawing (c.loc t)
  beyond : ∀ k, n ≤ k → c.shared.numbers k = 0 ∧ c.shared.choosing k = false

variable {c : Config (Fin n) Shared PC}

theorem held_reach (h : (server pid).Reach (initial n) c) : Held c := by
  apply h.interleave_invariant
  · exact ⟨by simp [initial, stored], fun _ => rfl, fun _ _ => ⟨rfl, rfl⟩⟩
  · intro c t e s x hH _ hs
    obtain ⟨hnum, hch, hothers⟩ := step_held hs (hH.numbers t) (hH.choosing t)
    refine ⟨?_, ?_, ?_⟩
    · refine Config.forall_set (P := fun (u : Fin n) y => s.numbers u ≠ 0 ↔ stored y = true)
        hnum ?_
      intro u hu
      rw [(hothers u (Tickets.val_ne hu)).1]
      exact hH.numbers u
    · refine Config.forall_set (P := fun (u : Fin n) y => s.choosing u = drawing y) hch ?_
      intro u hu
      rw [(hothers u (Tickets.val_ne hu)).2]
      exact hH.choosing u
    · intro k hk
      have hlt := t.isLt
      obtain ⟨hnum', hch'⟩ := hothers k (by omega)
      rw [Config.set_shared, hnum', hch']
      exact hH.beyond k hk

/-! ## Serving everybody -/

/-- The client that moves does not start a round. -/
def StartsNone (c : Config (Fin n) Shared PC) (a : Fin n × Unit) : Prop := c.loc a.1 ≠ .idle

/-- Nobody has a request, and the arrays are as they were in the beginning, but for the
pids. -/
structure Quiet (c : Config (Fin n) Shared PC) : Prop where
  clients : ∀ t, c.loc t = .idle ∨ c.loc t = .served
  numbers : ∀ k, c.shared.numbers k = 0
  choosing : ∀ k, c.shared.choosing k = false

/-- How far a client is from the end of its round: one stage for each call. -/
def stagesLeft (x : PC) : ℕ := 2 * (inGetNumber x).toNat + (pending x).toNat

theorem Held.quiet (hH : Held c) (hget : ∀ t, inGetNumber (c.loc t) = false)
    (hpending : ∀ t, pending (c.loc t) = false) : Quiet c := by
  have hclients : ∀ t, c.loc t = .idle ∨ c.loc t = .served := by
    intro t
    have hg := hget t
    have hp := hpending t
    cases hl : c.loc t with
    | idle => exact Or.inl rfl
    | served => exact Or.inr rfl
    | getNumber pc =>
      rw [hl] at hg
      cases hg
    | replied num =>
      rw [hl] at hp
      cases hp
    | serve pc =>
      rw [hl] at hp
      cases hp
  have hnone : ∀ t, stored (c.loc t) = false ∧ drawing (c.loc t) = false := by
    intro t
    rcases hclients t with hl | hl <;> rw [hl] <;> exact ⟨rfl, rfl⟩
  refine ⟨hclients, ?_, ?_⟩
  · intro k
    by_cases hk : k < n
    · by_contra hne
      have := (hH.numbers ⟨k, hk⟩).mp hne
      rw [(hnone _).1] at this
      cases this
    · exact (hH.beyond k (by omega)).1
  · intro k
    by_cases hk : k < n
    · exact (hH.choosing ⟨k, hk⟩).trans (hnone _).2
    · exact (hH.beyond k (by omega)).2

/-- While nobody draws, the least of the clients with a ticket passes every entry. -/
theorem Held.exists_passes (hH : Held c) (hget : ∀ t, inGetNumber (c.loc t) = false)
    (h : ∃ t, pending (c.loc t) = true) :
    ∃ t : Fin n, pending (c.loc t) = true ∧ ∀ i, Passes c.shared t i := by
  obtain ⟨t, ht, hleast⟩ := exists_least c.shared.numbers c.shared.pids h
  refine ⟨t, ht, fun i => ?_⟩
  by_cases hi : i < n
  · have hg := hget ⟨i, hi⟩
    have hch := hH.choosing ⟨i, hi⟩
    have hnum := hH.numbers ⟨i, hi⟩
    have hp := hleast ⟨i, hi⟩
    refine ⟨?_, ?_⟩
    · rw [hch]
      cases hl : c.loc ⟨i, hi⟩ with
      | getNumber pc =>
        rw [hl] at hg
        cases hg
      | _ => rfl
    · intro hwait
      apply hp _ hwait
      have hst := hnum.mp hwait.1
      cases hl : c.loc ⟨i, hi⟩ with
      | replied | serve => rfl
      | getNumber pc =>
        rw [hl] at hg
        cases hg
      | idle | served =>
        rw [hl] at hst
        cases hst
  · obtain ⟨hnum, hch⟩ := hH.beyond i (by omega)
    exact ⟨hch, fun hwait => hwait.1 hnum⟩

/-- One client comes to the end of a call. -/
theorem end_one (hH : Held c) (hbusy : ¬ Quiet c) : ∃ t s x,
    (server pid).ReachBy StartsNone c (c.set t s x) ∧ stagesLeft x < stagesLeft (c.loc t) := by
  by_cases hdraw : ∃ t, inGetNumber (c.loc t) = true
  · obtain ⟨t, ht⟩ := hdraw
    obtain ⟨s, num, hrun⟩ : ∃ s num, Alone pid t c.shared (c.loc t) s (.replied num) :=
      draw_ends ht
    refine ⟨t, s, .replied num, hrun.reachBy fun s x _ hx => by simpa [StartsNone] using hx, ?_⟩
    rw [stagesLeft, stagesLeft, ht]
    simp [inGetNumber, pending]
    omega
  · have hget : ∀ t, inGetNumber (c.loc t) = false := by
      intro t
      by_contra ht
      exact hdraw ⟨t, by simpa using ht⟩
    have hsome : ∃ t, pending (c.loc t) = true := by
      by_contra hnone
      apply hbusy
      apply hH.quiet hget
      intro t
      by_contra ht
      exact hnone ⟨t, by simpa using ht⟩
    obtain ⟨t, ht, hpass⟩ := hH.exists_passes hget hsome
    obtain ⟨s, hrun⟩ : ∃ s, Alone pid t c.shared (c.loc t) s .served := serve_ends ht hpass
    refine ⟨t, s, .served, hrun.reachBy fun s x _ hx => by simpa [StartsNone] using hx, ?_⟩
    rw [stagesLeft, stagesLeft, ht]
    simp [inGetNumber, pending]

/-- **The server never wedges.** Whatever the pids, from every reachable state there is a
run without a new round to a state in which every client is idle or served, `numbers` is
zero and no flag is set. -/
theorem choosing_never_wedges (h : (server pid).Reach (initial n) c) :
    ∃ c', (server pid).ReachBy StartsNone c c' ∧ Quiet c' := by
  have hnext : ∀ c, (server pid).Reach (initial n) c → ¬ Quiet c →
      ∃ c', (server pid).ReachBy StartsNone c c' ∧ (server pid).Reach (initial n) c' ∧
        ∑ t, stagesLeft (c'.loc t) < ∑ t, stagesLeft (c.loc t) := by
    intro c hc hbusy
    obtain ⟨t, s, x, hrun, hless⟩ := end_one (held_reach hc) hbusy
    exact ⟨_, hrun, hc.trans hrun.reach, sum_rank_set (k := 1) hless⟩
  obtain ⟨c', hrun, -, hquiet⟩ := Machine.exists_reachBy_done _ h hnext
  exact ⟨c', hrun, hquiet⟩

/-- Client `1` has its ticket and waits for the flag of client `0`, which is drawing. -/
theorem never_wedges_flag_set : ∃ c c' : Config (Fin 3) Shared PC,
    c.shared.choosing 0 = true ∧ c.loc 1 = .serve (.choose 0) ∧
      (server threePids).ReachBy StartsNone c c' ∧ Quiet c' := by
  have hrun : ((server threePids).run (initial 3)
      (List.replicate 4 (0, ()) ++ List.replicate 12 (1, ()))).any
      (fun c => c.shared.choosing 0 && c.loc 1 = .serve (.choose 0)) = true := by decide +kernel
  obtain ⟨c, hc, hp⟩ := Machine.exists_reach_of_run _ _ hrun
  simp only [Bool.and_eq_true, decide_eq_true_eq] at hp
  obtain ⟨c', hc', hquiet⟩ := choosing_never_wedges hc
  exact ⟨c, c', hp.1, hp.2, hc', hquiet⟩

end OsLabs.Bakery.Choosing
