import OsLabs.Bakery.Server
import OsLabs.Concurrent.Count

/-!
# The bakery server: progress

The wait test of a client on another one compares tickets and then pids, so among the
clients with a request the one with the least pair waits for nobody. Alone it comes to
the end of its `serve`, wherever it stands and whatever old values the test it is in has
read: after at most one more turn its reads are fresh (`serve_ends`). The mutex
`mut[ind]` is taken by the calls of client `ind` only. So the clients can be served one
after the other until all entries of `numbers` are zero, from every state in which
nobody draws a ticket (`never_wedges`).
-/

namespace OsLabs.Bakery

open Concurrent

variable {n : ℕ} {pid : Fin n → ℕ}

/-! ## The points of a client -/

/-- Inside `get_number_1_svc`. -/
def inGetNumber : PC → Bool
  | .getNumber _ => true
  | _ => false

/-- From the reply of `get_number_1_svc` up to the end of `serve_1_svc`. -/
def pending : PC → Bool
  | .replied _ | .serve _ => true
  | _ => false

/-- In the wait loop of `serve_1_svc`. -/
def inWaitLoop : PC → Bool
  | .serve (.lock _) | .serve (.test _ _) | .serve (.unlock _ _) => true
  | _ => false

/-- The client holds a ticket. -/
def hasTicket : PC → Bool
  | .getNumber (.storePid _) | .getNumber (.print _ _) | .getNumber (.unlock _) => true
  | .replied _ => true
  | .serve .resetPid | .serve .resetUnlock => false
  | .serve _ => true
  | _ => false

/-- Between a `lock` and its `unlock`. -/
def holdsLock : PC → Bool
  | .getNumber .lock => false
  | .getNumber _ => true
  | .serve (.test _ _) | .serve (.unlock _ _) => true
  | .serve .resetNum | .serve .resetPid | .serve .resetUnlock => true
  | _ => false

/-! ## A client alone -/

/-- Client `t` moves alone, and does not start a round. -/
abbrev Alone (pid : Fin n → ℕ) (t : Fin n) : Shared → PC → Shared → PC → Prop :=
  Solo (clientStep pid) (fun x => x ≠ .idle) t

section Alone

variable {t : Fin n} {s s' : Shared} {i : ℕ} {out : Bool} {w v : WaitPC}

/-- A wait test comes to its end, whatever it has read; one that reads only what is there
gives the value of the condition. -/
theorem test_ends (w : WaitPC) :
    ∃ out, Alone pid t s (.serve (.test i w)) s (.serve (.unlock i out)) ∧
      (w.UpToDate s.numbers s.pids t i → ¬ MustWait s.numbers s.pids t i → out = false) := by
  induction hk : w.readsLeft using Nat.strongRecOn generalizing w with
  | ind k ih =>
    cases hread : waitTest s.numbers s.pids t i w with
    | inl w' =>
      have hstep : clientStep pid t () s (.serve (.test i w)) = some (s, .serve (.test i w')) := by
        simp only [clientStep, serve1Svc, hread]
      obtain ⟨out, hrest, hvalue⟩ := ih w'.readsLeft (hk ▸ waitTest_readsLeft hread) w' rfl
      exact ⟨out, .head (e := ()) (by simp) hstep hrest,
        fun hw => hvalue (waitTest_upToDate hw hread)⟩
    | inr out =>
      have hstep : clientStep pid t () s (.serve (.test i w)) =
          some (s, .serve (.unlock i out)) := by
        simp only [clientStep, serve1Svc, hread]
      exact ⟨out, .single (e := ()) (by simp) hstep, fun hw => waitTest_value hw hread⟩

theorem fresh_test_ends (hfree : ¬ MustWait s.numbers s.pids t i) :
    Alone pid t s (.serve (.test i .nonzero)) s (.serve (.unlock i false)) := by
  obtain ⟨out, hrun, hvalue⟩ : ∃ out, Alone pid t s (.serve (.test i .nonzero)) s
      (.serve (.unlock i out)) ∧ _ := test_ends .nonzero
  rwa [hvalue trivial hfree] at hrun

/-- The mutex of client `ind` is taken. -/
def locked (s : Shared) (ind : ℕ) : Shared :=
  { s with locked := Function.update s.locked ind true }

theorem lockMut_of_free (h : s.locked i = false) : lockMut s i = some (locked s i) := by
  rw [lockMut, if_neg (by simp [h]), locked]

@[simp] theorem unlockMut_locked (h : s.locked i = false) : unlockMut (locked s i) i = s := by
  simp [unlockMut, locked, ← h]

/-- The wait for one entry, where its condition is false. -/
theorem wait_ends (hlock : s.locked t = false) (hfree : ¬ MustWait s.numbers s.pids t i) :
    Alone pid t s (.serve (.lock i)) s (serveNext n (i + 1)) := by
  have henter : clientStep pid t () s (.serve (.lock i)) =
      some (locked s t, .serve (.test i .nonzero)) := by
    simp only [clientStep, serve1Svc, lockMut_of_free hlock, Option.map_some]
  have hleave : clientStep pid t () (locked s t) (.serve (.unlock i false)) =
      some (s, serveNext n (i + 1)) := by
    simp [clientStep, serve1Svc, hlock]
  refine .head (e := ()) (by simp) henter ?_
  exact (fresh_test_ends (s := locked s t) hfree).trans (.single (e := ()) (by simp) hleave)

/-- The wait loop from entry `i` on, where no condition is true. -/
theorem waitLoop_ends (hlock : s.locked t = false)
    (hfree : ∀ i, ¬ MustWait s.numbers s.pids t i) (i : ℕ) :
    Alone pid t s (serveNext n i) s (.serve .switch) := by
  generalize hk : n - i = k
  induction k generalizing i with
  | zero =>
    rw [serveNext, if_neg (by omega)]
    exact .refl
  | succ k ih =>
    rw [serveNext, if_pos (by omega)]
    exact (wait_ends hlock (hfree i)).trans (ih (i + 1) (by omega))

/-- The loop that prints the entries from `i` on. -/
theorem print_ends (i : ℕ) : Alone pid t s (.serve (.printNum i)) s (.serve .resetLock) := by
  generalize hk : n - i = k
  induction k generalizing i with
  | zero => exact .single (e := ()) (by simp) (if_neg (by omega))
  | succ k ih =>
    refine .head (e := ()) (by simp) (if_pos (by omega)) ?_
    exact .head (e := ()) (by simp) rfl (ih (i + 1) (by omega))

/-- The entry of client `t` is given back. -/
def cleared (s : Shared) (t : ℕ) : Shared :=
  { s with
    numbers := Function.update s.numbers t 0
    pids := Function.update s.pids t 0
    locked := Function.update s.locked t false }

theorem resetUnlock_ends : Alone pid t s (.serve .resetUnlock) (unlockMut s t) .served :=
  .single (e := ()) (by simp) rfl

theorem resetPid_ends : Alone pid t s (.serve .resetPid)
    (unlockMut { s with pids := Function.update s.pids t 0 } t) .served :=
  .head (e := ()) (by simp) rfl resetUnlock_ends

theorem resetNum_ends : Alone pid t s (.serve .resetNum) (cleared s t) .served :=
  .head (e := ()) (by simp) rfl resetPid_ends

@[simp] theorem cleared_locked : cleared (locked s i) i = cleared s i := by
  simp [cleared, locked]

theorem reset_ends (hlock : s.locked t = false) :
    Alone pid t s (.serve .resetLock) (cleared s t) .served := by
  have henter : clientStep pid t () s (.serve .resetLock) =
      some (locked s t, .serve .resetNum) := by
    simp only [clientStep, serve1Svc, lockMut_of_free hlock, Option.map_some]
  rw [← cleared_locked]
  exact .head (e := ()) (by simp) henter resetNum_ends

/-- Behind the wait loop nothing blocks. -/
theorem switch_ends (hlock : s.locked t = false) :
    Alone pid t s (.serve .switch) (cleared s t) .served :=
  .head (e := ()) (by simp) rfl ((print_ends 0).trans (reset_ends hlock))

/-- The client leaves a wait test and goes on to the end. -/
theorem unlock_ends (hfree : ∀ i, ¬ MustWait s.numbers s.pids t i) (i : ℕ) (out : Bool) :
    Alone pid t s (.serve (.unlock i out)) (cleared (unlockMut s t) t) .served := by
  have hlock : (unlockMut s t).locked t = false := Function.update_self ..
  have hfree : ∀ i, ¬ MustWait (unlockMut s t).numbers (unlockMut s t).pids t i := hfree
  have hrest : Alone pid t (unlockMut s t) (serveNext n (i + 1)) (cleared (unlockMut s t) t)
      .served := (waitLoop_ends hlock hfree (i + 1)).trans (switch_ends hlock)
  cases out with
  | true => exact .head (e := ()) (by simp) rfl ((wait_ends hlock (hfree i)).trans hrest)
  | false => exact .head (e := ()) (by simp) rfl hrest

/-- A client with a request comes to its end alone, where it finds no condition of its
wait loop true, and its mutex is in its own hands or free. -/
theorem serve_ends {x : PC} (hx : pending x = true) (hlock : s.locked t = holdsLock x)
    (hnum : s.numbers t ≠ 0 ↔ hasTicket x = true) (hfree : ∀ i, ¬ MustWait s.numbers s.pids t i) :
    ∃ s', Alone pid t s x s' .served ∧ s'.numbers = Function.update s.numbers t 0 := by
  cases x with
  | idle | getNumber | served => cases hx
  | replied num =>
    refine ⟨cleared s t, .head (e := ()) (by simp) rfl ?_, rfl⟩
    exact (waitLoop_ends hlock hfree 0).trans (switch_ends hlock)
  | serve pc =>
    cases pc with
    | lock i =>
      refine ⟨cleared s t, (wait_ends hlock (hfree i)).trans ?_, rfl⟩
      exact (waitLoop_ends hlock hfree (i + 1)).trans (switch_ends hlock)
    | test i w =>
      obtain ⟨out, hout, -⟩ : ∃ out, Alone pid t s (.serve (.test i w)) s
          (.serve (.unlock i out)) ∧ _ := test_ends w
      exact ⟨_, hout.trans (unlock_ends hfree i out), rfl⟩
    | unlock i out => exact ⟨_, unlock_ends hfree i out, rfl⟩
    | switch => exact ⟨_, switch_ends hlock, rfl⟩
    | printNum i => exact ⟨_, (print_ends i).trans (reset_ends hlock), rfl⟩
    | printPid i =>
      exact ⟨_, .head (e := ()) (by simp) rfl ((print_ends (i + 1)).trans (reset_ends hlock)), rfl⟩
    | resetLock => exact ⟨_, reset_ends hlock, rfl⟩
    | resetNum => exact ⟨_, resetNum_ends, rfl⟩
    -- the ticket is already given back
    | resetPid =>
      have hzero : s.numbers t = 0 := by simpa [hasTicket] using hnum
      exact ⟨_, resetPid_ends, (Function.update_eq_self_iff.mpr hzero.symm).symm⟩
    | resetUnlock =>
      have hzero : s.numbers t = 0 := by simpa [hasTicket] using hnum
      exact ⟨_, resetUnlock_ends, (Function.update_eq_self_iff.mpr hzero.symm).symm⟩

end Alone

/-! ## Every state -/

section Steps

variable {t : Fin n} {s s' : Shared} {x x' : PC}

theorem hasTicket_serveNext (i : ℕ) : hasTicket (serveNext n i) = true := by
  unfold serveNext
  split_ifs <;> rfl

theorem holdsLock_serveNext (i : ℕ) : holdsLock (serveNext n i) = false := by
  unfold serveNext
  split_ifs <;> rfl

theorem lockMut_cases {ind : ℕ} (h : lockMut s ind = some s') : s' = locked s ind := by
  unfold lockMut at h
  split_ifs at h
  cases h
  rfl

/-- A step leaves the entry and the mutex of its own client as its new point says, and
those of the others alone. -/
theorem step_held (h : clientStep pid t () s x = some (s', x'))
    (hnum : s.numbers t ≠ 0 ↔ hasTicket x = true) (hlock : s.locked t = holdsLock x) :
    (s'.numbers t ≠ 0 ↔ hasTicket x' = true) ∧ s'.locked t = holdsLock x' ∧
      ∀ k : ℕ, k ≠ t → s'.numbers k = s.numbers k ∧ s'.locked k = s.locked k := by
  have hsame (k : ℕ) (_ : k ≠ t) : s.numbers k = s.numbers k ∧ s.locked k = s.locked k := ⟨rfl, rfl⟩
  have hmutex (b : Bool) (k : ℕ) (hk : k ≠ t) :
      s.numbers k = s.numbers k ∧ Function.update s.locked t b k = s.locked k :=
    ⟨rfl, Function.update_of_ne hk ..⟩
  have hentry (v k : ℕ) (hk : k ≠ t) :
      Function.update s.numbers t v k = s.numbers k ∧ s.locked k = s.locked k :=
    ⟨Function.update_of_ne hk .., rfl⟩
  cases x with
  | idle | served =>
    cases h
    exact ⟨hnum, hlock, hsame⟩
  | replied num =>
    cases h
    rw [hasTicket_serveNext, holdsLock_serveNext]
    exact ⟨hnum, hlock, hsame⟩
  | getNumber pc =>
    cases pc with
    | lock =>
      obtain ⟨u, hu, he⟩ := Option.map_eq_some_iff.mp h
      cases he
      rw [lockMut_cases hu]
      exact ⟨hnum, Function.update_self .., hmutex true⟩
    | max m =>
      simp only [clientStep, getNumber1Svc] at h
      split at h <;> cases h <;> exact ⟨hnum, hlock, hsame⟩
    | storeNum res =>
      cases h
      exact ⟨by simp [hasTicket], hlock, hentry _⟩
    | storePid num =>
      cases h
      exact ⟨hnum, hlock, hsame⟩
    | print num i =>
      simp only [clientStep, getNumber1Svc] at h
      split_ifs at h <;> cases h <;> exact ⟨hnum, hlock, hsame⟩
    | unlock num =>
      cases h
      exact ⟨hnum, Function.update_self .., hmutex false⟩
  | serve pc =>
    cases pc with
    | lock i | resetLock =>
      obtain ⟨u, hu, he⟩ := Option.map_eq_some_iff.mp h
      cases he
      rw [lockMut_cases hu]
      exact ⟨hnum, Function.update_self .., hmutex true⟩
    | test i w =>
      simp only [clientStep, serve1Svc] at h
      split at h <;> cases h <;> exact ⟨hnum, hlock, hsame⟩
    | unlock i out =>
      cases h
      refine ⟨?_, ?_, hmutex false⟩
      · cases out with
        | true => exact hnum
        | false =>
          rw [if_neg Bool.false_ne_true, hasTicket_serveNext]
          exact hnum
      · cases out with
        | true => exact Function.update_self ..
        | false =>
          rw [if_neg Bool.false_ne_true, holdsLock_serveNext]
          exact Function.update_self ..
    | switch | printPid =>
      cases h
      exact ⟨hnum, hlock, hsame⟩
    | printNum i =>
      simp only [clientStep, serve1Svc] at h
      split_ifs at h <;> cases h <;> exact ⟨hnum, hlock, hsame⟩
    | resetNum =>
      cases h
      exact ⟨by simp [hasTicket], hlock, hentry 0⟩
    | resetPid =>
      cases h
      exact ⟨hnum, hlock, hsame⟩
    | resetUnlock =>
      cases h
      exact ⟨hnum, Function.update_self .., hmutex false⟩

end Steps

/-- Who has a ticket, and who has its mutex. -/
structure Held (c : Config (Fin n) Shared PC) : Prop where
  numbers : ∀ t : Fin n, c.shared.numbers t ≠ 0 ↔ hasTicket (c.loc t) = true
  beyond : ∀ k, n ≤ k → c.shared.numbers k = 0
  locked : ∀ t : Fin n, c.shared.locked t = holdsLock (c.loc t)

variable {c : Config (Fin n) Shared PC}

theorem held_reach (h : (server pid).Reach (initial n) c) : Held c := by
  apply h.interleave_invariant
  · exact ⟨by simp [initial, hasTicket], fun _ _ => rfl, by simp [initial, holdsLock]⟩
  · intro c t e s x hH _ hs
    obtain ⟨hnum, hlock, hothers⟩ := step_held hs (hH.numbers t) (hH.locked t)
    have hne {u : Fin n} (hu : u ≠ t) : (u : ℕ) ≠ t := fun he => hu (Fin.ext he)
    refine ⟨?_, ?_, ?_⟩
    · refine Config.forall_set (P := fun (u : Fin n) y => s.numbers u ≠ 0 ↔ hasTicket y = true)
        hnum ?_
      intro u hu
      rw [(hothers u (hne hu)).1]
      exact hH.numbers u
    · intro k hk
      have := t.isLt
      exact (hothers k (by omega)).1.trans (hH.beyond k hk)
    · refine Config.forall_set (P := fun (u : Fin n) y => s.locked u = holdsLock y) hlock ?_
      intro u hu
      rw [(hothers u (hne hu)).2]
      exact hH.locked u

/-! ## Serving everybody -/

/-- The client that moves does not start a round. -/
def StartsNone (c : Config (Fin n) Shared PC) (a : Fin n × Unit) : Prop := c.loc a.1 ≠ .idle

/-- The clients with a request are served, the others stay where they are. -/
def Served (c c' : Config (Fin n) Shared PC) : Prop :=
  ∀ t, c'.loc t = if pending (c.loc t) then .served else c.loc t

/-- Who holds a ticket outside `get_number` has a request. -/
theorem pending_of_hasTicket {x : PC} (hx : inGetNumber x = false) (h : hasTicket x = true) :
    pending x = true := by
  cases x with
  | idle | served => cases h
  | getNumber => cases hx
  | replied | serve => rfl

/-- While nobody draws, some client with a request can be served. -/
theorem serve_one (hH : Held c) (hdraw : ∀ t, inGetNumber (c.loc t) = false)
    (h : ∃ t, pending (c.loc t) = true) : ∃ t s, pending (c.loc t) = true ∧
      (server pid).ReachBy StartsNone c (c.set t s .served) := by
  obtain ⟨t, ht, hleast⟩ := exists_least c.shared.numbers c.shared.pids h
  have hfree (i : ℕ) : ¬ MustWait c.shared.numbers c.shared.pids t i := by
    intro hwait
    by_cases hi : i < n
    · have hticket := (hH.numbers ⟨i, hi⟩).mp hwait.1
      exact hleast ⟨i, hi⟩ (pending_of_hasTicket (hdraw _) hticket) hwait
    · exact hwait.1 (hH.beyond i (by omega))
  obtain ⟨s, hs, -⟩ : ∃ s', Alone pid t c.shared (c.loc t) s' .served ∧ _ :=
    serve_ends ht (hH.locked t) (hH.numbers t) hfree
  exact ⟨t, s, ht, hs.reachBy fun s x _ hx => by simpa [StartsNone] using hx⟩

/-- All clients with a request can be served, one after the other. -/
theorem serve_all (h : (server pid).Reach (initial n) c)
    (hdraw : ∀ t, inGetNumber (c.loc t) = false) :
    ∃ c', (server pid).ReachBy StartsNone c c' ∧ Served c c' := by
  generalize hk : count pending c.loc = k
  induction k generalizing c with
  | zero =>
    have hnone := count_eq_zero_iff.mp hk
    refine ⟨c, .refl, fun t => ?_⟩
    rw [hnone t, if_neg Bool.false_ne_true]
  | succ k ih =>
    have hsome : ∃ t, pending (c.loc t) = true := count_pos_iff.mp (by omega)
    obtain ⟨t, s, ht, hrun⟩ := serve_one (held_reach h) hdraw hsome
    have hcount : count pending (c.set t s .served).loc = k := by
      have := count_update pending c.loc t .served
      rw [ht] at this
      rw [Config.set_loc]
      simp only [pending, Bool.toNat_true, Bool.toNat_false] at this
      omega
    have hdraw' : ∀ u, inGetNumber ((c.set t s .served).loc u) = false :=
      Config.forall_set (P := fun _ y => inGetNumber y = false) rfl fun u _ => hdraw u
    obtain ⟨c', hrest, hserved⟩ := ih (h.trans hrun.reach) hdraw' hcount
    refine ⟨c', hrun.trans hrest, fun u => ?_⟩
    rw [hserved u]
    by_cases hu : u = t
    · subst hu
      rw [Config.set_loc_self, ht]
      rfl
    · rw [Config.set_loc_of_ne hu]

/-- With everybody served and nobody drawing, no entry is left. -/
theorem Served.numbers {c' : Config (Fin n) Shared PC} (hs : Served c c') (hH : Held c')
    (hdraw : ∀ t, inGetNumber (c.loc t) = false) (k : ℕ) : c'.shared.numbers k = 0 := by
  by_cases hk : k < n
  · by_contra hne
    have hticket := (hH.numbers ⟨k, hk⟩).mp hne
    rw [hs] at hticket
    split_ifs at hticket with hp
    · cases hticket
    · exact hp (pending_of_hasTicket (hdraw _) hticket)
  · exact hH.beyond k (by omega)

/-- **The server never wedges.** In every reachable state, whatever the pids: if no client
is inside `get_number`, there is a run without a new round that completes the `serve` of
every client with a reply or a request and leaves all of `numbers` zero; and if all clients
with a ticket are in their wait loops, one of them finds every one of its tests false. -/
theorem never_wedges (h : (server pid).Reach (initial n) c) :
    ((∀ t, inGetNumber (c.loc t) = false) →
      ∃ c', (server pid).ReachBy StartsNone c c' ∧ Served c c' ∧
        ∀ k, c'.shared.numbers k = 0) ∧
    ((∀ t : Fin n, c.shared.numbers t ≠ 0 → inWaitLoop (c.loc t) = true) →
      (∃ t : Fin n, c.shared.numbers t ≠ 0) →
      ∃ t : Fin n, c.shared.numbers t ≠ 0 ∧ inWaitLoop (c.loc t) = true ∧
        ∀ i : ℕ, ¬ MustWait c.shared.numbers c.shared.pids t i) := by
  refine ⟨fun hdraw => ?_, fun hloop hsome => ?_⟩
  · obtain ⟨c', hrun, hserved⟩ := serve_all h hdraw
    exact ⟨c', hrun, hserved, hserved.numbers (held_reach (h.trans hrun.reach)) hdraw⟩
  · obtain ⟨t, ht, hleast⟩ := exists_least c.shared.numbers c.shared.pids hsome
    refine ⟨t, ht, hloop t ht, fun i hwait => ?_⟩
    by_cases hi : i < n
    · exact hleast ⟨i, hi⟩ hwait.1 hwait
    · exact hwait.1 ((held_reach h).beyond i (by omega))

/-- Both clients read all of `numbers` before either writes its ticket, and both come to
their wait loops. -/
def equalTicketsRun {ι : Type} (i j : ι) : List (ι × Unit) :=
  List.replicate 5 (i, ()) ++ List.replicate 12 (j, ()) ++ List.replicate 7 (i, ())

/-- Two clients in their wait loops with equal tickets, and both can be served. -/
theorem never_wedges_equal_tickets : ∃ c c' : Config (Fin 2) Shared PC,
    c.shared.numbers 0 = 1 ∧ c.shared.numbers 1 = 1 ∧
    (server (n := 2) (fun i => 100 + i)).ReachBy StartsNone c c' ∧
    c'.loc 0 = .served ∧ c'.loc 1 = .served ∧ ∀ k, c'.shared.numbers k = 0 := by
  have hrun : ((server (n := 2) (fun i => 100 + i)).run (initial 2) (equalTicketsRun 0 1)).any
      (fun c => (c.shared.numbers 0 = 1 && c.shared.numbers 1 = 1) &&
        (c.loc 0 = .serve (.lock 0) && c.loc 1 = .serve (.lock 0))) = true := by decide +kernel
  obtain ⟨c, hc, hp⟩ := Machine.exists_reach_of_run _ _ hrun
  simp only [Bool.and_eq_true, decide_eq_true_eq] at hp
  obtain ⟨⟨hn0, hn1⟩, h0, h1⟩ := hp
  have hdraw : ∀ t, inGetNumber (c.loc t) = false := by
    rw [Fin.forall_fin_two, h0, h1]
    exact ⟨rfl, rfl⟩
  obtain ⟨c', hc', hserved, hzero⟩ := (never_wedges hc).1 hdraw
  refine ⟨c, c', hn0, hn1, hc', ?_, ?_, hzero⟩
  · rw [hserved, h0]
    rfl
  · rw [hserved, h1]
    rfl

end OsLabs.Bakery
