import OsLabs.Hangup.Model

/-!
# The daemon and its signals: the window of SIGHUP

`main` restores the default action of SIGHUP before it blocks the signals. So a SIGHUP
terminates the process exactly when it arrives between `sigaction` and `pthread_sigmask`,
unless the process has inherited a mask that blocks it (`spared_iff`). Before that it is
ignored, and afterwards every thread blocks all signals: what `thr_fn` has taken is reread,
since nothing but its own steps can end the process any more.
-/

namespace OsLabs.Hangup

open Concurrent Concurrent.Signals

variable {h : Inherited} {x x' : Process} {a : Action}

/-! ## The steps -/

/-- What a step is: an arrival, a step of `main`, or a step of `thr_fn`. -/
theorem next_cases (hn : daemon.next x a = some x') : x.ended = none ∧
    ((∃ signo, a = .signal signo ∧ x' = arrive x signo) ∨
      (∃ created, a = .main created ∧ x' = mainStep x created) ∨
      ∃ signo opened pc, a = .thrFn signo opened ∧ x.thrFn = some pc ∧
        thrStep x signo opened pc = some x') := by
  simp only [daemon] at hn
  split at hn
  · cases hn
  · rename_i signo hend
    cases hn
    exact ⟨hend, Or.inl ⟨signo, rfl, rfl⟩⟩
  · rename_i created hend
    cases hn
    exact ⟨hend, Or.inr (Or.inl ⟨created, rfl, rfl⟩)⟩
  · rename_i signo opened hend
    obtain ⟨pc, hpc, hstep⟩ := Option.bind_eq_some_iff.mp hn
    exact ⟨hend, Or.inr (Or.inr ⟨signo, opened, pc, rfl, hpc, hstep⟩)⟩

/-- An arrival leaves everything but the pending signals, or it is the end. -/
theorem arrive_cases (x : Process) (signo : Sig) :
    (x.signals.Held signo ∧ ∃ k, k.disposition = x.signals.disposition ∧
      k.masks = x.signals.masks ∧ arrive x signo = { x with signals := k }) ∨
    (¬ x.signals.Held signo ∧ arrive x signo = { x with ended := some (.killed signo) }) := by
  unfold arrive
  cases hk : x.signals.send signo with
  | some k =>
    obtain ⟨hdisp, hmasks⟩ := send_spec hk
    refine Or.inl ⟨?_, k, hdisp, hmasks, rfl⟩
    by_contra hheld
    rw [send_eq_none.mpr hheld] at hk
    cases hk
  | none => exact Or.inr ⟨send_eq_none.mp hk, rfl⟩

/-- `main` neither ends the process nor reads the configuration. -/
theorem mainStep_frame (x : Process) (created : Bool) :
    (mainStep x created).ended = x.ended ∧ (mainStep x created).rereads = x.rereads := by
  unfold mainStep
  cases x.main with
  | create =>
    cases created with
    | true => exact ⟨rfl, rfl⟩
    | false => exact ⟨rfl, rfl⟩
  | _ => exact ⟨rfl, rfl⟩

/-- `thr_fn` ends the process by `exit` only, and it takes no call of `reread` back. -/
theorem thrStep_frame {signo : Sig} {opened : Bool} {pc : ThrPC} (hend : x.ended = none)
    (hs : thrStep x signo opened pc = some x') :
    x'.ended ≠ some (.killed .sighup) ∧ x.rereads ≤ x'.rereads := by
  have halive : x.ended ≠ some (.killed .sighup) := by
    rw [hend]
    exact (Option.some_ne_none _).symm
  cases pc with
  | sigwait =>
    obtain ⟨k, -, rfl⟩ := Option.map_eq_some_iff.mp hs
    exact ⟨halive, Nat.le_refl _⟩
  | switch signo =>
    cases signo with
    | _ =>
      cases hs
      exact ⟨halive, Nat.le_refl _⟩
  | reread =>
    cases hs
    cases opened with
    | true => exact ⟨halive, Nat.le_succ _⟩
    | false => exact ⟨by simp [exit], Nat.le_succ _⟩
  | quit =>
    cases hs
    exact ⟨by simp [exit], Nat.le_refl _⟩
  | _ =>
    cases hs
    exact ⟨halive, Nat.le_refl _⟩

/-! ## The invariant -/

/-- `main` is between `sigaction` and `pthread_sigmask`. -/
def MainPC.inWindow : MainPC → Bool
  | .sigfillset | .sigmask => true
  | _ => false

/-- The signals in the kernel at each point of `main`. -/
def MainPC.Settled (h : Inherited) (k : Signals Sig) (mask : Sig → Bool) : MainPC → Prop
  | .sigfillset => k.disposition .sighup = .default ∧ k.masks = [h.mask]
  | .sigmask =>
      k.disposition .sighup = .default ∧ k.masks = [h.mask] ∧ mask = fun _ => true
  | .create | .time | .syslog | .sleep => ∀ s, k.blocked s = true
  | _ => k.disposition .sighup = .ignore ∧ k.masks = [h.mask]

/-- `main` has not yet tried to create the thread. -/
def MainPC.alone : MainPC → Bool
  | .time | .syslog | .sleep => false
  | _ => true

/-- A SIGHUP has been taken, and `reread` has not been called for it. -/
def owed : Option ThrPC → ℕ
  | some (.switch .sighup) | some .rereadLog | some .reread => 1
  | _ => 0

structure Inv (h : Inherited) (x : Process) : Prop where
  settled : x.main.Settled h x.signals x.mask
  alone : x.main.alone = true → x.thrFn = none
  taken : x.taken = x.rereads + owed x.thrFn
  alive : owed x.thrFn ≠ 0 → x.ended = none

theorem there_of_owed {pc : Option ThrPC} (howed : owed pc ≠ 0) : pc ≠ none := by
  rintro rfl
  exact howed rfl

theorem MainPC.Settled.congr {k k' : Signals Sig} {mask : Sig → Bool} {pc : MainPC}
    (hs : pc.Settled h k mask) (hdisp : k'.disposition = k.disposition)
    (hmasks : k'.masks = k.masks) : pc.Settled h k' mask := by
  have hblocked (s : Sig) : k'.blocked s = k.blocked s := blocked_congr hmasks
  unfold Settled at hs ⊢
  simp only [hdisp, hmasks, hblocked]
  exact hs

theorem inv_initial (h : Inherited) : Inv h (initial h) where
  settled := ⟨by simp [initial], rfl⟩
  alone := fun _ => rfl
  taken := rfl
  alive := fun howed => absurd rfl howed

namespace Inv

/-- Where the thread is there, every signal is blocked. -/
theorem blocked (hI : Inv h x) (hthr : x.thrFn ≠ none) (s : Sig) :
    x.signals.blocked s = true := by
  have hsettled := hI.settled
  have halone := hI.alone
  cases hpc : x.main with
  | time | syslog | sleep =>
    rw [hpc] at hsettled
    exact hsettled s
  | _ =>
    rw [hpc] at halone
    exact absurd (halone rfl) hthr

theorem arrive (hI : Inv h x) (signo : Sig) : Inv h (arrive x signo) := by
  rcases arrive_cases x signo with ⟨-, k, hdisp, hmasks, hx⟩ | ⟨hheld, hx⟩
  · rw [hx]
    exact { hI with settled := hI.settled.congr hdisp hmasks }
  · rw [hx]
    refine { hI with alive := ?_ }
    intro howed
    -- a thread that owes a `reread` is there, and so every signal is blocked
    exact absurd (Or.inr (hI.blocked (there_of_owed howed) signo)) hheld

theorem mainStep (hI : Inv h x) (created : Bool) : Inv h (mainStep x created) := by
  have hsettled := hI.settled
  have halone := hI.alone
  unfold Hangup.mainStep
  cases hpc : x.main with
  | alreadyRunning | saHandler | saMask | saFlags =>
    rw [hpc] at hsettled halone
    exact { hI with settled := hsettled, alone := fun _ => halone rfl }
  | sigaction =>
    rw [hpc] at hsettled halone
    exact { hI with
      settled := ⟨disposition_setDefault, hsettled.2⟩
      alone := fun _ => halone rfl }
  | sigfillset =>
    rw [hpc] at hsettled halone
    exact { hI with settled := ⟨hsettled.1, hsettled.2, rfl⟩, alone := fun _ => halone rfl }
  | sigmask =>
    rw [hpc] at hsettled halone
    obtain ⟨-, hmasks, hmask⟩ := hsettled
    have hall (s : Sig) : (x.signals.block 0 x.mask).blocked s = true := by
      rw [blocked_block hmasks, hmask, Bool.or_true]
    exact { hI with settled := hall, alone := fun _ => halone rfl }
  | create =>
    rw [hpc] at hsettled halone
    have hnone : x.thrFn = none := halone rfl
    have htaken := hI.taken
    have hall (s : Sig) : (x.signals.spawn 0).blocked s = true := by
      rw [blocked_spawn]
      exact hsettled s
    rw [hnone] at htaken
    cases created with
    | true =>
      refine ⟨hall, ?_, htaken, ?_⟩
      · intro halone
        cases halone
      · intro howed
        exact absurd rfl howed
    | false =>
      refine { hI with settled := hsettled, alone := ?_ }
      intro halone
      cases halone
  | time | syslog | sleep =>
    rw [hpc] at hsettled halone
    refine { hI with settled := hsettled, alone := ?_ }
    intro hout
    cases hout

theorem thrStep {signo : Sig} {opened : Bool} {pc : ThrPC} (hI : Inv h x)
    (hend : x.ended = none) (hpc : x.thrFn = some pc)
    (hs : thrStep x signo opened pc = some x') : Inv h x' := by
  have hthere (y : Option ThrPC) (halone : x.main.alone = true) : y = none := by
    rw [hI.alone halone] at hpc
    cases hpc
  have htaken := hI.taken
  rw [hpc] at htaken
  cases pc with
  | sigwait =>
    obtain ⟨k, hk, rfl⟩ := Option.map_eq_some_iff.mp hs
    obtain ⟨hdisp, hmasks⟩ := sigwait_spec hk
    refine ⟨hI.settled.congr hdisp hmasks, hthere _, ?_, fun _ => hend⟩
    cases signo with
    | sighup => exact congrArg (· + 1) htaken
    | _ => exact htaken
  | switch signo =>
    cases signo with
    | _ =>
      cases hs
      exact ⟨hI.settled, hthere _, htaken, fun _ => hend⟩
  | reread =>
    cases hs
    cases opened with
    | true => exact ⟨hI.settled, hthere _, htaken, fun _ => hend⟩
    | false => exact ⟨hI.settled, hthere _, htaken, fun howed => absurd rfl howed⟩
  | quit =>
    cases hs
    exact ⟨hI.settled, hthere _, htaken, fun howed => absurd rfl howed⟩
  | _ =>
    cases hs
    exact ⟨hI.settled, hthere _, htaken, fun _ => hend⟩

theorem step (hI : Inv h x) (hn : daemon.next x a = some x') : Inv h x' := by
  obtain ⟨hend, ⟨signo, -, rfl⟩ | ⟨created, -, rfl⟩ | ⟨signo, opened, pc, -, hpc, hs⟩⟩ :=
    next_cases hn
  · exact hI.arrive signo
  · exact hI.mainStep created
  · exact hI.thrStep hend hpc hs

end Inv

theorem inv_reach (hx : daemon.Reach (initial h) x) : Inv h x :=
  hx.invariant (inv_initial h) fun _ _ _ hI _ hn => hI.step hn

/-! ## The arrivals that kill -/

/-- A SIGHUP arrives between `sigaction` and `pthread_sigmask`, with a mask inherited that
does not block it. -/
def InWindow (h : Inherited) (x : Process) (a : Action) : Prop :=
  a = .signal .sighup ∧ x.main.inWindow = true ∧ h.mask .sighup = false

instance (h : Inherited) (x : Process) (a : Action) : Decidable (InWindow h x a) :=
  inferInstanceAs (Decidable (_ ∧ _ ∧ _))

theorem Inv.held_iff (hI : Inv h x) :
    x.signals.Held .sighup ↔ ¬ (x.main.inWindow = true ∧ h.mask .sighup = false) := by
  have hsettled := hI.settled
  have hwindow (hdisp : x.signals.disposition .sighup = .default)
      (hmasks : x.signals.masks = [h.mask]) :
      x.signals.Held .sighup ↔ ¬ (true = true ∧ h.mask .sighup = false) := by
    simp [Held, Signals.blocked, hdisp, hmasks]
  cases hpc : x.main with
  | sigfillset =>
    rw [hpc] at hsettled
    exact hwindow hsettled.1 hsettled.2
  | sigmask =>
    rw [hpc] at hsettled
    exact hwindow hsettled.1 hsettled.2.1
  | create | time | syslog | sleep =>
    rw [hpc] at hsettled
    exact iff_of_true (Or.inr (hsettled .sighup)) fun hw => Bool.false_ne_true hw.1
  | _ =>
    rw [hpc] at hsettled
    exact iff_of_true (Or.inl hsettled.1) fun hw => Bool.false_ne_true hw.1

/-- A step is the end by SIGHUP exactly in the window. -/
theorem Inv.killed_iff (hI : Inv h x) (hn : daemon.next x a = some x') :
    x'.ended = some (.killed .sighup) ↔ InWindow h x a := by
  obtain ⟨hend, ⟨signo, rfl, rfl⟩ | ⟨created, rfl, rfl⟩ | ⟨signo, opened, pc, rfl, hpc, hs⟩⟩ :=
    next_cases hn
  · rcases arrive_cases x signo with ⟨hheld, k, -, -, hx⟩ | ⟨hheld, hx⟩
    · have halive : (Hangup.arrive x signo).ended = none := by
        rw [hx]
        exact hend
      rw [halive]
      refine iff_of_false nofun ?_
      rintro ⟨hsig, hwindow⟩
      cases hsig
      exact absurd hwindow (hI.held_iff.mp hheld)
    · rw [hx]
      constructor
      · intro hkilled
        cases hkilled
        exact ⟨rfl, not_not.mp fun hout => hheld (hI.held_iff.mpr hout)⟩
      · rintro ⟨hsig, -⟩
        cases hsig
        rfl
  · refine iff_of_false ?_ ?_
    · rw [(mainStep_frame x created).1, hend]
      exact nofun
    · rintro ⟨hsig, -⟩
      cases hsig
  · refine iff_of_false (thrStep_frame hend hs).1 ?_
    rintro ⟨hsig, -⟩
    cases hsig

/-- The process is terminated by SIGHUP in exactly the runs with an arrival in the window. -/
theorem killed_iff_exists {tr : List (Process × Action)} (ht : daemon.Trace (initial h) tr x) :
    x.ended = some (.killed .sighup) ↔ ∃ p ∈ tr, InWindow h p.1 p.2 := by
  induction ht with
  | nil => exact iff_of_false nofun (by simp)
  | @snoc tr x x' a ht hn ih =>
    have hlast := (inv_reach ht.reach).killed_iff hn
    -- nothing happens after the end
    have hnone : ¬ ∃ p ∈ tr, InWindow h p.1 p.2 := by
      rw [← ih, (next_cases hn).1]
      exact nofun
    rw [hlast]
    constructor
    · intro hwindow
      exact ⟨(x, a), by simp, hwindow⟩
    · rintro ⟨p, hp, hwindow⟩
      rcases List.mem_append.mp hp with hp | hp
      · exact absurd ⟨p, hp, hwindow⟩ hnone
      · rw [List.mem_singleton.mp hp] at hwindow
        exact hwindow

/-! ## What has been taken is reread -/

/-- The steps of `thr_fn` up to the call of `reread` that it owes. -/
def stepsLeft : Option ThrPC → ℕ
  | some (.switch .sighup) => 3
  | some .rereadLog => 2
  | some .reread => 1
  | _ => 0

def Action.ofThrFn : Action → Bool
  | .thrFn _ _ => true
  | _ => false

/-- Each SIGHUP taken so far leads to a call of `reread`: while one is owed, `thr_fn` can
make a step, and three of its steps are enough, whatever else happens. -/
structure Served (x : Process) : Prop where
  goesOn : x.taken ≠ x.rereads →
    ∀ signo opened, ∃ x', daemon.next x (.thrFn signo opened) = some x'
  rereads : ∀ tr x', daemon.Trace x tr x' → 3 ≤ tr.countP (fun p => p.2.ofThrFn) →
    x.taken ≤ x'.rereads

theorem owed_le_one (pc : Option ThrPC) : owed pc ≤ 1 := by
  unfold owed
  split
  all_goals omega

theorem stepsLeft_le (pc : Option ThrPC) : stepsLeft pc ≤ 3 := by
  unfold stepsLeft
  split
  all_goals omega

theorem stepsLeft_pos {pc : Option ThrPC} (howed : owed pc ≠ 0) : 0 < stepsLeft pc := by
  unfold owed at howed
  split at howed
  · exact Nat.zero_lt_succ 2
  · exact Nat.zero_lt_succ 1
  · exact Nat.zero_lt_succ 0
  · exact absurd rfl howed

theorem arrive_thread (x : Process) (signo : Sig) :
    (arrive x signo).thrFn = x.thrFn ∧ (arrive x signo).rereads = x.rereads := by
  rcases arrive_cases x signo with ⟨-, k, -, -, hx⟩ | ⟨-, hx⟩
  · rw [hx]
    exact ⟨rfl, rfl⟩
  · rw [hx]
    exact ⟨rfl, rfl⟩

/-- `main` creates one thread only. -/
theorem Inv.mainStep_thread (hI : Inv h x) (hthr : x.thrFn ≠ none) (created : Bool) :
    (Hangup.mainStep x created).thrFn = x.thrFn := by
  have halone := hI.alone
  unfold Hangup.mainStep
  cases hpc : x.main with
  | create =>
    rw [hpc] at halone
    exact absurd (halone rfl) hthr
  | _ => rfl

/-- A step of a thread that owes a call makes the call or comes one step closer. -/
theorem thrStep_owed {signo : Sig} {opened : Bool} {pc : ThrPC} (howed : owed (some pc) ≠ 0)
    (hs : thrStep x signo opened pc = some x') :
    x'.rereads = x.rereads + 1 ∨ (x'.rereads = x.rereads ∧ owed x'.thrFn ≠ 0 ∧
      stepsLeft x'.thrFn + 1 = stepsLeft (some pc)) := by
  cases pc with
  | switch signo =>
    cases signo with
    | sighup =>
      cases hs
      exact Or.inr ⟨rfl, Nat.one_ne_zero, rfl⟩
    | _ => exact absurd rfl howed
  | rereadLog =>
    cases hs
    exact Or.inr ⟨rfl, Nat.one_ne_zero, rfl⟩
  | reread =>
    cases hs
    cases opened with
    | true => exact Or.inl rfl
    | false => exact Or.inl rfl
  | _ => exact absurd rfl howed

/-- The call that a thread owes is not lost, and only the steps of the thread count. -/
theorem Inv.owed_step (hI : Inv h x) (howed : owed x.thrFn ≠ 0)
    (hn : daemon.next x a = some x') :
    x'.rereads = x.rereads + 1 ∨ (x'.rereads = x.rereads ∧ owed x'.thrFn ≠ 0 ∧
      stepsLeft x'.thrFn + a.ofThrFn.toNat = stepsLeft x.thrFn) := by
  obtain ⟨-, ⟨signo, rfl, rfl⟩ | ⟨created, rfl, rfl⟩ | ⟨signo, opened, pc, rfl, hpc, hs⟩⟩ :=
    next_cases hn
  · obtain ⟨hthread, hrereads⟩ := arrive_thread x signo
    rw [hthread]
    exact Or.inr ⟨hrereads, howed, rfl⟩
  · rw [hI.mainStep_thread (there_of_owed howed)]
    exact Or.inr ⟨(mainStep_frame x created).2, howed, rfl⟩
  · rw [hpc] at howed ⊢
    exact thrStep_owed howed hs

theorem rereads_le (hn : daemon.next x a = some x') : x.rereads ≤ x'.rereads := by
  obtain ⟨hend, ⟨signo, -, rfl⟩ | ⟨created, -, rfl⟩ | ⟨signo, opened, pc, -, -, hs⟩⟩ :=
    next_cases hn
  · exact Nat.le_of_eq (arrive_thread x signo).2.symm
  · exact Nat.le_of_eq (mainStep_frame x created).2.symm
  · exact (thrStep_frame hend hs).2

/-- After `n` steps of `thr_fn` the call has been made, or at most `3 - n` are left. -/
theorem Inv.owed_trace (hI : Inv h x) {tr : List (Process × Action)}
    (ht : daemon.Trace x tr x') :
    x.taken ≤ x'.rereads ∨ (Inv h x' ∧ x.taken ≤ x'.rereads + 1 ∧ owed x'.thrFn ≠ 0 ∧
      stepsLeft x'.thrFn + tr.countP (fun p => p.2.ofThrFn) ≤ 3) := by
  induction ht with
  | nil =>
    have htaken := hI.taken
    have hone := owed_le_one x.thrFn
    by_cases howed : owed x.thrFn = 0
    · left
      omega
    · exact Or.inr ⟨hI, by omega, howed, stepsLeft_le _⟩
  | @snoc tr y y' a ht hn ih =>
    rcases ih with hdone | ⟨hI', hle, howed, hleft⟩
    · exact Or.inl (Nat.le_trans hdone (rereads_le hn))
    · rcases hI'.owed_step howed hn with hcall | ⟨hsame, howed', hstep⟩
      · left
        rw [hcall]
        exact hle
      · have hcount : [(y, a)].countP (fun p => p.2.ofThrFn) = a.ofThrFn.toNat := by
          cases ha : a.ofThrFn <;> simp [ha]
        rw [List.countP_append, hcount, hsame]
        exact Or.inr ⟨hI'.step hn, hle, howed', by omega⟩

theorem Inv.served (hI : Inv h x) : Served x := by
  constructor
  · intro hne signo opened
    have howed : owed x.thrFn ≠ 0 := by
      intro hzero
      have htaken := hI.taken
      rw [hzero] at htaken
      exact hne htaken
    simp only [daemon, hI.alive howed]
    cases hpc : x.thrFn with
    | none =>
      rw [hpc] at howed
      exact absurd rfl howed
    | some pc =>
      rw [hpc] at howed
      cases pc with
      | switch signo =>
        cases signo with
        | sighup => exact ⟨_, rfl⟩
        | _ => exact absurd rfl howed
      | rereadLog | reread => exact ⟨_, rfl⟩
      | _ => exact absurd rfl howed
  · intro tr x' ht hcount
    rcases hI.owed_trace ht with hdone | ⟨-, -, howed, hleft⟩
    · exact hdone
    · have := stepsLeft_pos howed
      omega

/-- **The window of SIGHUP.** In every run of `main` from the return of `daemonize`, with any
number of signals arriving at any points: no SIGHUP terminates the process and every SIGHUP
that `thr_fn` takes leads to a reread, if and only if no SIGHUP arrives between `sigaction`
and `pthread_sigmask`, or the inherited mask blocks it. -/
theorem spared_iff {tr : List (Process × Action)} (ht : daemon.Trace (initial h) tr x) :
    (x.ended ≠ some (.killed .sighup) ∧ Served x) ↔ ∀ p ∈ tr, ¬ InWindow h p.1 p.2 := by
  have hserved := (inv_reach ht.reach).served
  rw [Ne, killed_iff_exists ht]
  constructor
  · rintro ⟨hnone, -⟩ p hp hwindow
    exact hnone ⟨p, hp, hwindow⟩
  · intro hall
    refine ⟨?_, hserved⟩
    rintro ⟨p, hp, hwindow⟩
    exact hall p hp hwindow

/-- A process that has inherited the default actions and an empty mask. -/
def plain : Inherited where
  disposition _ := .default
  mask _ := false
  pending _ := false
  stack _ := false

/-- A SIGHUP that is ignored, the start of the daemon, and two SIGHUPs of which one is
taken. -/
def hangupRun : List Action :=
  .signal .sighup :: List.replicate 8 (.main true) ++ [.signal .sighup, .signal .sighup] ++
    List.replicate 4 (.thrFn .sighup true)

theorem spared_iff_hangup : ∃ (tr : List (Process × Action)) (x : Process),
    daemon.Trace (initial plain) tr x ∧ x.rereads = 1 ∧
      x.ended ≠ some (.killed .sighup) ∧ Served x := by
  have hrun : (daemon.record (initial plain) hangupRun).any (fun q =>
      (q.1.all fun p => !InWindow plain p.1 p.2) && q.2.rereads = 1) = true := by
    decide
  obtain ⟨tr, x, htr, hp⟩ := Machine.exists_trace_of_record _
    (fun tr (x : Process) => (tr.all fun p => !InWindow plain p.1 p.2) && x.rereads = 1) hrun
  simp only [Bool.and_eq_true, List.all_eq_true, decide_eq_true_eq, Bool.not_eq_true',
    decide_eq_false_iff_not] at hp
  exact ⟨tr, x, htr, hp.2, (spared_iff htr).mpr hp.1⟩

/-- A SIGHUP that arrives after `sigaction` and before `pthread_sigmask`. -/
theorem hangup_kills : ¬ ∀ (tr : List (Process × Action)) (x : Process),
    daemon.Trace (initial plain) tr x → x.ended ≠ some (.killed .sighup) ∧ Served x := by
  intro hall
  have hrun : (daemon.run (initial plain) (List.replicate 5 (.main true) ++
      [.signal .sighup])).any (fun x => x.ended = some (.killed .sighup)) = true := by
    decide
  obtain ⟨x, hx, hp⟩ := (Option.any_eq_true _ _).mp hrun
  obtain ⟨tr, htr⟩ := Machine.exists_trace_of_run hx
  exact (hall tr x htr).1 (by simpa using hp)

end OsLabs.Hangup
