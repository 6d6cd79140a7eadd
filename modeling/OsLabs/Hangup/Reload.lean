import OsLabs.Hangup.Window

/-!
# The daemon and its signals: changes of the configuration

The daemon together with those who change `CONFFILE` and send SIGHUP. Several SIGHUPs that
are pending are one, and a SIGHUP can come while `reread` reads; still no change that was
announced by a SIGHUP is lost once the signals are blocked (`no_change_lost`). All of this
rests on the thread: where `pthread_create` has failed, `main` goes on without it, since it
compares the error number with -1, and no signal does anything any more (`deaf`).
-/

namespace OsLabs.Hangup

open Concurrent Concurrent.Signals

/-- The daemon and `CONFFILE`. `version` counts the changes of the file; `seen` and
`announced` are history: the version that the last `reread` has found, and the version at
the last SIGHUP that has come since the signals were blocked. -/
structure World where
  process : Process
  version : ℕ
  seen : ℕ
  announced : ℕ

inductive Event
  | edit
  | act (a : Action)
deriving DecidableEq, Repr

/-- `main` is behind `pthread_sigmask`. -/
def MainPC.masked : MainPC → Bool
  | .create | .time | .syslog | .sleep => true
  | _ => false

def world : Machine World Event where
  next w e :=
    match e with
    | .edit => some { w with version := w.version + 1 }
    | .act a =>
        (daemon.next w.process a).map fun x =>
          { process := x
            version := w.version
            seen := if x.rereads = w.process.rereads then w.seen else w.version
            announced :=
              if a = .signal .sighup ∧ w.process.main.masked = true then w.version
              else w.announced }

/-- `daemonize` has returned, and `CONFFILE` is as it is. -/
def start (h : Inherited) : World := ⟨initial h, 0, 0, 0⟩

variable {h : Inherited} {w w' : World} {x : Process} {a : Action}

/-- What is announced has been seen, or a SIGHUP or a call of `reread` is still to come. -/
structure Fresh (h : Inherited) (w : World) : Prop where
  inv : Inv h w.process
  masked : w.process.main.masked = true →
    w.process.signals.disposition .sighup = .default ∧ w.process.mask = fun _ => true
  seen_le : w.seen ≤ w.version
  announced_le : w.announced ≤ w.version
  kept : w.process.ended = none → w.announced ≤ w.seen ∨
    w.process.signals.pending .sighup = true ∨ owed w.process.thrFn ≠ 0

theorem fresh_start (h : Inherited) : Fresh h (start h) where
  inv := inv_initial h
  masked hm := by cases hm
  seen_le := Nat.le_refl _
  announced_le := Nat.le_refl _
  kept _ := Or.inl (Nat.le_refl _)

theorem mainStep_pending (x : Process) (created : Bool) :
    (mainStep x created).signals.pending = x.signals.pending := by
  unfold mainStep
  cases x.main with
  | create =>
    cases created with
    | true => rfl
    | false => rfl
  | _ => rfl

theorem Inv.mainStep_owed (hI : Inv h x) (created : Bool) :
    owed (Hangup.mainStep x created).thrFn = owed x.thrFn := by
  by_cases hthr : x.thrFn = none
  · unfold Hangup.mainStep
    cases x.main with
    | create =>
      cases created with
      | true =>
        rw [hthr]
        rfl
      | false => rfl
    | _ => rfl
  · rw [hI.mainStep_thread hthr]

/-- The dispositions and the variable `mask` are settled before `pthread_sigmask`. -/
theorem Inv.mainStep_masked (hI : Inv h x) (created : Bool)
    (hmasked : x.main.masked = true →
      x.signals.disposition .sighup = .default ∧ x.mask = fun _ => true)
    (hm : (Hangup.mainStep x created).main.masked = true) :
    (Hangup.mainStep x created).signals.disposition .sighup = .default ∧
      (Hangup.mainStep x created).mask = fun _ => true := by
  have hsettled := hI.settled
  unfold Hangup.mainStep at hm ⊢
  cases hpc : x.main with
  | sigmask =>
    rw [hpc] at hsettled
    exact ⟨hsettled.1, hsettled.2.2⟩
  | create =>
    rw [hpc] at hmasked
    cases created with
    | true => exact hmasked rfl
    | false => exact hmasked rfl
  | time | syslog | sleep =>
    rw [hpc] at hmasked
    exact hmasked rfl
  | _ =>
    rw [hpc] at hm
    cases hm

/-- What an arrival does with the pending SIGHUP. -/
theorem arrive_kept (x : Process) (signo : Sig) :
    (arrive x signo).main = x.main ∧ (arrive x signo).mask = x.mask ∧
      (arrive x signo).signals.disposition = x.signals.disposition ∧
      ((arrive x signo).ended = none →
        (x.signals.pending .sighup = true → (arrive x signo).signals.pending .sighup = true) ∧
        (signo = .sighup → x.signals.disposition .sighup = .default →
          (arrive x signo).signals.pending .sighup = true)) := by
  unfold arrive
  cases hk : x.signals.send signo with
  | some k =>
    refine ⟨rfl, rfl, (send_spec hk).1, fun _ => ⟨pending_of_send hk, ?_⟩⟩
    intro hsig hdisp
    rw [hsig] at hk
    exact pending_send hk hdisp
  | none =>
    refine ⟨rfl, rfl, rfl, ?_⟩
    intro hend
    cases hend

/-- What a step of `thr_fn` does with the pending SIGHUP and the call that is owed. -/
theorem thrStep_kept {signo : Sig} {opened : Bool} {pc : ThrPC} (hpc : x.thrFn = some pc)
    {x' : Process} (hs : thrStep x signo opened pc = some x') :
    x'.main = x.main ∧ x'.mask = x.mask ∧
      x'.signals.disposition = x.signals.disposition ∧
      (x'.rereads = x.rereads ∨ x'.rereads = x.rereads + 1) ∧
      (x'.rereads = x.rereads → x.signals.pending .sighup = true ∨ owed x.thrFn ≠ 0 →
        x'.signals.pending .sighup = true ∨ owed x'.thrFn ≠ 0) := by
  rw [hpc]
  cases pc with
  | sigwait =>
    obtain ⟨k, hk, rfl⟩ := Option.map_eq_some_iff.mp hs
    refine ⟨rfl, rfl, (sigwait_spec hk).1, Or.inl rfl, ?_⟩
    rintro - (hp | howed)
    · by_cases hsig : signo = .sighup
      · right
        rw [hsig]
        exact Nat.one_ne_zero
      · left
        show k.pending .sighup = true
        rw [pending_sigwait hk (Ne.symm hsig)]
        exact hp
    · exact absurd rfl howed
  | switch signo =>
    cases signo with
    | sighup =>
      cases hs
      exact ⟨rfl, rfl, rfl, Or.inl rfl, fun _ _ => Or.inr Nat.one_ne_zero⟩
    | _ =>
      cases hs
      exact ⟨rfl, rfl, rfl, Or.inl rfl, fun _ hk => hk⟩
  | rereadLog =>
    cases hs
    exact ⟨rfl, rfl, rfl, Or.inl rfl, fun _ _ => Or.inr Nat.one_ne_zero⟩
  | reread =>
    cases hs
    cases opened with
    | true => exact ⟨rfl, rfl, rfl, Or.inr rfl, fun hr => absurd hr (Nat.succ_ne_self _)⟩
    | false => exact ⟨rfl, rfl, rfl, Or.inr rfl, fun hr => absurd hr (Nat.succ_ne_self _)⟩
  | sigtermLog | removeConf | quit | unexpected =>
    cases hs
    exact ⟨rfl, rfl, rfl, Or.inl rfl, fun _ hk => hk⟩

theorem Fresh.step {e : Event} (hF : Fresh h w) (hn : world.next w e = some w') : Fresh h w' := by
  cases e with
  | edit =>
    cases hn
    exact { hF with
      seen_le := Nat.le_succ_of_le hF.seen_le
      announced_le := Nat.le_succ_of_le hF.announced_le }
  | act a =>
    obtain ⟨x, hx, rfl⟩ := Option.map_eq_some_iff.mp hn
    have hI := hF.inv.step hx
    have hseen : (if x.rereads = w.process.rereads then w.seen else w.version) ≤ w.version := by
      split
      · exact hF.seen_le
      · exact Nat.le_refl _
    have hannounced : (if a = .signal .sighup ∧ w.process.main.masked = true then w.version
        else w.announced) ≤ w.version := by
      split
      · exact Nat.le_refl _
      · exact hF.announced_le
    obtain ⟨hend, ⟨signo, rfl, rfl⟩ | ⟨created, rfl, rfl⟩ | ⟨signo, opened, pc, rfl, hpc, hs⟩⟩ :=
      next_cases hx
    · obtain ⟨hmain, hmask, hdisp, hpending⟩ := arrive_kept w.process signo
      obtain ⟨hthread, hrereads⟩ := arrive_thread w.process signo
      refine ⟨hI, ?_, hseen, hannounced, ?_⟩
      · simp only [hmain, hmask, hdisp]
        exact hF.masked
      · intro halive
        obtain ⟨hkept, hnew⟩ := hpending halive
        simp only [hrereads, if_true, hthread]
        split
        next hsig =>
          cases hsig.1
          exact Or.inr (Or.inl (hnew rfl (hF.masked hsig.2).1))
        next => exact (hF.kept hend).imp_right (Or.imp_left hkept)
    · have hne : ¬ (Action.main created = .signal .sighup ∧ w.process.main.masked = true) := by
        rintro ⟨hsig, -⟩
        cases hsig
      have hrereads := (mainStep_frame w.process created).2
      refine ⟨hI, hF.inv.mainStep_masked created hF.masked, hseen, hannounced, ?_⟩
      intro _
      simp only [hrereads, if_true, if_neg hne, mainStep_pending, hF.inv.mainStep_owed]
      exact hF.kept hend
    · have hne : ¬ (Action.thrFn signo opened = .signal .sighup ∧
          w.process.main.masked = true) := by
        rintro ⟨hsig, -⟩
        cases hsig
      obtain ⟨hmain, hmask, hdisp, -, hkept⟩ := thrStep_kept hpc hs
      refine ⟨hI, ?_, hseen, hannounced, ?_⟩
      · simp only [hmain, hmask, hdisp]
        exact hF.masked
      · intro _
        simp only [if_neg hne]
        split
        next hsame => exact (hF.kept hend).imp_right (hkept hsame)
        -- `reread` has found the file as it is now
        next => exact Or.inl hF.announced_le

theorem fresh_reach (hw : world.Reach (start h) w) : Fresh h w :=
  hw.invariant (fresh_start h) fun _ _ _ hF _ hn => hF.step hn

/-! ## The thread comes to `reread` -/

/-- The steps of `thr_fn` up to the call of `reread`, or to its end, where `sigwait` returns
a SIGHUP that is pending. -/
def lag : ThrPC → ℕ
  | .switch (.other _) => 6
  | .unexpected _ => 5
  | .sigwait | .switch .sigterm => 4
  | .switch .sighup | .sigtermLog => 3
  | .rereadLog | .removeConf => 2
  | .reread | .quit => 1

/-- `sigwait` returns SIGHUP, the smallest number, where it is pending. -/
def Prompt (w : World) (e : Event) : Prop :=
  ∀ signo opened, e = .act (.thrFn signo opened) → w.process.thrFn = some .sigwait →
    w.process.signals.pending .sighup = true → signo = .sighup

/-- The event is a step of `thr_fn`. -/
def Event.ofThrFn : Event → Bool
  | .edit => false
  | .act a => a.ofThrFn

/-- A step of the thread comes closer to `reread`, makes the call, or is the end. -/
theorem thrStep_lag {signo : Sig} {opened : Bool} {pc : ThrPC} {x' : Process}
    (hprompt : pc = .sigwait → signo = .sighup) (hs : thrStep x signo opened pc = some x') :
    x'.rereads = x.rereads + 1 ∨ x'.ended ≠ none ∨
      ∃ pc', x'.thrFn = some pc' ∧ lag pc' + 1 ≤ lag pc := by
  cases pc with
  | sigwait =>
    obtain ⟨k, -, rfl⟩ := Option.map_eq_some_iff.mp hs
    rw [hprompt rfl]
    exact Or.inr (Or.inr ⟨_, rfl, Nat.le_refl _⟩)
  | switch signo =>
    cases signo with
    | _ =>
      cases hs
      exact Or.inr (Or.inr ⟨_, rfl, Nat.le_refl _⟩)
  | reread =>
    cases hs
    cases opened with
    | true => exact Or.inl rfl
    | false => exact Or.inl rfl
  | quit =>
    cases hs
    exact Or.inr (Or.inl (Option.some_ne_none _))
  | _ =>
    cases hs
    exact Or.inr (Or.inr ⟨_, rfl, Nat.le_refl _⟩)

theorem lag_pos (pc : ThrPC) : 0 < lag pc := by
  unfold lag
  split
  all_goals omega

theorem lag_le (pc : ThrPC) : lag pc ≤ 6 := by
  unfold lag
  split
  all_goals omega

section Growth

variable {e : Event} (hF : Fresh h w) (hn : world.next w e = some w')
include hF hn

theorem Fresh.announced_mono : w.announced ≤ w'.announced := by
  cases e with
  | edit =>
    cases hn
    exact Nat.le_refl _
  | act a =>
    obtain ⟨x, -, rfl⟩ := Option.map_eq_some_iff.mp hn
    show _ ≤ if a = .signal .sighup ∧ w.process.main.masked = true then w.version else w.announced
    split
    · exact hF.announced_le
    · exact Nat.le_refl _

theorem Fresh.seen_mono : w.seen ≤ w'.seen := by
  cases e with
  | edit =>
    cases hn
    exact Nat.le_refl _
  | act a =>
    obtain ⟨x, -, rfl⟩ := Option.map_eq_some_iff.mp hn
    show _ ≤ if x.rereads = w.process.rereads then w.seen else w.version
    split
    · exact Nat.le_refl _
    · exact hF.seen_le

omit hF in
/-- Nothing happens after the end. -/
theorem alive_before (halive : w'.process.ended = none) : w.process.ended = none := by
  cases e with
  | edit =>
    cases hn
    exact halive
  | act a =>
    obtain ⟨x, hx, -⟩ := Option.map_eq_some_iff.mp hn
    exact (next_cases hx).1

/-- While the file has not been read as it was announced, a step that is not one of the
thread leaves the thread where it is, and the thread comes closer with its own. -/
theorem Fresh.lag_step {pc : ThrPC} {n : ℕ} (hprompt : Prompt w e) (hlate : w.seen < n)
    (hle : n ≤ w.announced) (hpc : w.process.thrFn = some pc) (halive : w'.process.ended = none) :
    n ≤ w'.seen ∨ ∃ pc', w'.process.thrFn = some pc' ∧ lag pc' + e.ofThrFn.toNat ≤ lag pc := by
  have hthere : w.process.thrFn ≠ none := by
    rw [hpc]
    exact Option.some_ne_none _
  cases e with
  | edit =>
    cases hn
    exact Or.inr ⟨pc, hpc, Nat.le_refl _⟩
  | act a =>
    obtain ⟨x, hx, rfl⟩ := Option.map_eq_some_iff.mp hn
    obtain ⟨hend, ⟨signo, rfl, rfl⟩ | ⟨created, rfl, rfl⟩ | ⟨signo, opened, pc, rfl, hpc', hs⟩⟩ :=
      next_cases hx
    · refine Or.inr ⟨pc, ?_, Nat.le_refl _⟩
      rw [(arrive_thread w.process signo).1]
      exact hpc
    · refine Or.inr ⟨pc, ?_, Nat.le_refl _⟩
      rw [hF.inv.mainStep_thread hthere]
      exact hpc
    · rw [hpc'] at hpc
      cases hpc
      have hwait : pc = .sigwait → signo = .sighup := by
        rintro rfl
        apply hprompt signo opened rfl hpc'
        rcases hF.kept hend with hseen | hpending | howed
        · omega
        · exact hpending
        · rw [hpc'] at howed
          exact absurd rfl howed
      rcases thrStep_lag hwait hs with hcall | hended | hcloser
      · left
        show n ≤ if x.rereads = w.process.rereads then w.seen else w.version
        rw [if_neg (by omega)]
        exact Nat.le_trans hle hF.announced_le
      · exact absurd halive hended
      · exact Or.inr hcloser

end Growth

theorem Fresh.lag_trace (hF : Fresh h w) (hthr : w.process.thrFn ≠ none)
    {tr : List (World × Event)} (ht : world.Trace w tr w')
    (hprompt : ∀ p ∈ tr, Prompt p.1 p.2) :
    Fresh h w' ∧ w.announced ≤ w'.announced ∧ (w'.process.ended = none →
      w.announced ≤ w'.seen ∨ ∃ pc, w'.process.thrFn = some pc ∧
        lag pc + tr.countP (fun p => p.2.ofThrFn) ≤ 6) := by
  induction ht with
  | nil =>
    obtain ⟨pc, hpc⟩ := Option.ne_none_iff_exists'.mp hthr
    exact ⟨hF, Nat.le_refl _, fun _ => Or.inr ⟨pc, hpc, lag_le pc⟩⟩
  | @snoc tr u u' e ht hn ih =>
    obtain ⟨hFu, hann, hlag⟩ := ih fun p hp => hprompt p (List.mem_append_left _ hp)
    refine ⟨hFu.step hn, Nat.le_trans hann (hFu.announced_mono hn), fun halive => ?_⟩
    rcases hlag (alive_before hn halive) with hseen | ⟨pc, hpc, hle⟩
    · exact Or.inl (Nat.le_trans hseen (hFu.seen_mono hn))
    · by_cases hlate : u.seen < w.announced
      · have hpu : Prompt u e := hprompt (u, e) (by simp)
        have hcount : [(u, e)].countP (fun p => p.2.ofThrFn) = e.ofThrFn.toNat := by
          cases he : e.ofThrFn <;> simp [he]
        rw [List.countP_append, hcount]
        rcases hFu.lag_step hn hpu hlate hann hpc halive with hseen | ⟨pc', hpc', hstep⟩
        · exact Or.inl hseen
        · exact Or.inr ⟨pc', hpc', by omega⟩
      · exact Or.inl (Nat.le_trans (Nat.le_of_not_lt hlate) (hFu.seen_mono hn))

/-- What was announced is read: while it has not been, `thr_fn` can make a step, and six of
its steps are enough, whatever else happens. -/
structure Reloads (w : World) : Prop where
  goesOn : w.process.ended = none → w.seen < w.announced → ∀ opened,
    ∃ w', world.next w (.act (.thrFn .sighup opened)) = some w'
  seen : ∀ tr w', world.Trace w tr w' → (∀ p ∈ tr, Prompt p.1 p.2) →
    6 ≤ tr.countP (fun p => p.2.ofThrFn) → w'.process.ended = none → w.announced ≤ w'.seen

theorem Inv.masked_of_thread (hI : Inv h x) (hthr : x.thrFn ≠ none) : x.main.masked = true := by
  have halone := hI.alone
  cases hpc : x.main with
  | time | syslog | sleep | create => rfl
  | _ =>
    rw [hpc] at halone
    exact absurd (halone rfl) hthr

theorem Fresh.thrStep_enabled (hF : Fresh h w) (hend : w.process.ended = none)
    (hlate : w.seen < w.announced) {pc : ThrPC} (hpc : w.process.thrFn = some pc)
    (opened : Bool) : ∃ x, thrStep w.process .sighup opened pc = some x := by
  have hthr : w.process.thrFn ≠ none := by
    rw [hpc]
    exact Option.some_ne_none _
  cases pc with
  | sigwait =>
    have hset := (hF.masked (hF.inv.masked_of_thread hthr)).2
    have hpending : w.process.signals.pending .sighup = true := by
      rcases hF.kept hend with hseen | hpending | howed
      · omega
      · exact hpending
      · rw [hpc] at howed
        exact absurd rfl howed
    obtain ⟨k, hk⟩ := exists_sigwait (congrFun hset .sighup) hpending
    exact ⟨_, Option.map_eq_some_iff.mpr ⟨k, hk, rfl⟩⟩
  | switch signo =>
    cases signo with
    | _ => exact ⟨_, rfl⟩
  | _ => exact ⟨_, rfl⟩

theorem Fresh.reloads (hF : Fresh h w) (hthr : w.process.thrFn ≠ none) : Reloads w := by
  constructor
  · intro hend hlate opened
    obtain ⟨pc, hpc⟩ := Option.ne_none_iff_exists'.mp hthr
    obtain ⟨x, hx⟩ := hF.thrStep_enabled hend hlate hpc opened
    have hnext : daemon.next w.process (.thrFn .sighup opened) = some x := by
      simp only [daemon, hend, hpc]
      exact hx
    exact ⟨_, Option.map_eq_some_iff.mpr ⟨x, hnext, rfl⟩⟩
  · intro tr w' ht hprompt hcount halive
    rcases (hF.lag_trace hthr ht hprompt).2.2 halive with hseen | ⟨pc, -, hle⟩
    · exact hseen
    · have := lag_pos pc
      omega

/-- **No change is lost.** In every run of the daemon, with `CONFFILE` changed and signals
sent at any points: what was announced by a SIGHUP since the signals were blocked has been
seen by `reread`, or a SIGHUP is pending, or `thr_fn` is on its way to `reread`; and where the
thread is there, it comes to see what was announced, or a later change. -/
theorem no_change_lost (hw : world.Reach (start h) w) :
    (w.process.ended = none → w.announced ≤ w.seen ∨
      w.process.signals.pending .sighup = true ∨ owed w.process.thrFn ≠ 0) ∧
    (w.process.thrFn ≠ none → Reloads w) :=
  ⟨(fresh_reach hw).kept, (fresh_reach hw).reloads⟩

/-- The daemon starts, `CONFFILE` is changed twice, and the second SIGHUP comes while the
thread is on its way to `reread`. -/
def editRun : List Event :=
  List.replicate 8 (.act (.main true)) ++
    [.edit, .act (.signal .sighup), .act (.thrFn .sighup true), .edit, .act (.signal .sighup)] ++
    List.replicate 3 (.act (.thrFn .sighup true))

theorem no_change_lost_edit : ∃ w : World, world.Reach (start plain) w ∧ w.announced = 2 ∧
    w.seen = 2 ∧ w.process.signals.pending .sighup = true ∧ Reloads w := by
  have hrun : (world.run (start plain) editRun).any (fun w => w.announced = 2 && w.seen = 2 &&
      w.process.signals.pending .sighup && w.process.thrFn.isSome) = true := by
    decide
  obtain ⟨w, hw, hp⟩ := Machine.exists_reach_of_run _ _ hrun
  simp only [Bool.and_eq_true, decide_eq_true_eq] at hp
  obtain ⟨⟨⟨hannounced, hseen⟩, hpending⟩, hthr⟩ := hp
  exact ⟨w, hw, hannounced, hseen, hpending,
    (no_change_lost hw).2 (Option.isSome_iff_ne_none.mp hthr)⟩

/-! ## Without the thread -/

/-- `pthread_create` has failed. -/
structure Deaf (x : Process) : Prop where
  behind : x.main = .time ∨ x.main = .syslog ∨ x.main = .sleep
  thrFn : x.thrFn = none
  ended : x.ended = none
  rereads : x.rereads = 0

theorem Deaf.step {x' : Process} (hI : Inv h x) (hD : Deaf x)
    (hn : daemon.next x a = some x') : Deaf x' := by
  obtain ⟨-, ⟨signo, rfl, rfl⟩ | ⟨created, rfl, rfl⟩ | ⟨signo, opened, pc, rfl, hpc, hs⟩⟩ :=
    next_cases hn
  · have hblocked : x.signals.blocked signo = true := by
      have hsettled := hI.settled
      rcases hD.behind with hb | hb | hb
      all_goals
        rw [hb] at hsettled
        exact hsettled signo
    rcases arrive_cases x signo with ⟨-, k, -, -, hx⟩ | ⟨hheld, -⟩
    · rw [hx]
      exact ⟨hD.behind, hD.thrFn, hD.ended, hD.rereads⟩
    · exact absurd (Or.inr hblocked) hheld
  · obtain ⟨hended, hrereads⟩ := mainStep_frame x created
    refine ⟨?_, ?_, hended.trans hD.ended, hrereads.trans hD.rereads⟩
    · unfold mainStep
      rcases hD.behind with hb | hb | hb
      all_goals
        rw [hb]
        simp
    · unfold mainStep
      rcases hD.behind with hb | hb | hb
      all_goals
        rw [hb]
        exact hD.thrFn
  · rw [hD.thrFn] at hpc
    cases hpc

/-- Before the thread nothing has been reread. -/
theorem rereads_of_alone (hx : daemon.Reach (initial h) x) (halone : x.main.alone = true) :
    x.rereads = 0 := by
  suffices hkeep : Inv h x ∧ (x.main.alone = true → x.rereads = 0) from hkeep.2 halone
  refine hx.invariant (I := fun x => Inv h x ∧ (x.main.alone = true → x.rereads = 0))
    ⟨inv_initial h, fun _ => rfl⟩ ?_
  rintro x a x' ⟨hI, hzero⟩ - hn
  refine ⟨hI.step hn, fun halone => ?_⟩
  obtain ⟨-, ⟨signo, rfl, rfl⟩ | ⟨created, rfl, rfl⟩ | ⟨signo, opened, pc, rfl, hpc, hs⟩⟩ :=
    next_cases hn
  · rw [(arrive_kept x signo).1] at halone
    exact (arrive_thread x signo).2.trans (hzero halone)
  · rw [(mainStep_frame x created).2]
    apply hzero
    unfold mainStep at halone
    cases hmain : x.main with
    | time | syslog | sleep =>
      rw [hmain] at halone
      cases halone
    | _ => rfl
  · rw [(thrStep_kept hpc hs).1] at halone
    rw [hI.alone halone] at hpc
    cases hpc

/-- **The deaf daemon.** In every run in which `pthread_create` has failed, no signal ends the
process any more, and nothing is ever reread. -/
theorem deaf {tr : List (Process × Action)} (ht : daemon.Trace (initial h) tr x)
    (hfail : ∃ p ∈ tr, p.1.main = .create ∧ p.2 = .main false) : Deaf x := by
  induction ht with
  | nil =>
    obtain ⟨p, hp, -⟩ := hfail
    cases hp
  | @snoc tr x x' a ht hn ih =>
    have hI := inv_reach ht.reach
    by_cases hbefore : ∃ p ∈ tr, p.1.main = .create ∧ p.2 = .main false
    · exact (ih hbefore).step hI hn
    · obtain ⟨p, hp, hmain, ha⟩ := hfail
      rcases List.mem_append.mp hp with hp | hp
      · exact absurd ⟨p, hp, hmain, ha⟩ hbefore
      · rw [List.mem_singleton.mp hp] at hmain ha
        cases ha
        have halone : x.main.alone = true := by
          rw [hmain]
          rfl
        obtain ⟨hend, ⟨signo, ha, -⟩ | ⟨created, ha, rfl⟩ | ⟨signo, opened, pc, ha, -, -⟩⟩ :=
          next_cases hn
        · cases ha
        · cases ha
          obtain ⟨hended, hrereads⟩ := mainStep_frame x false
          have hafter : (mainStep x false).main = .time ∧ (mainStep x false).thrFn = x.thrFn := by
            unfold mainStep
            rw [hmain]
            exact ⟨rfl, rfl⟩
          exact ⟨Or.inl hafter.1, hafter.2.trans (hI.alone halone), hended.trans hend,
            hrereads.trans (rereads_of_alone ht.reach halone)⟩
        · cases ha

/-- SIGTERM comes to a daemon whose thread has not been created. -/
theorem deaf_sigterm : ∃ (tr : List (Process × Action)) (x : Process),
    daemon.Trace (initial plain) tr x ∧ x.signals.pending .sigterm = true ∧ Deaf x := by
  have hrun : (daemon.record (initial plain) (List.replicate 7 (.main true) ++
      [.main false, .signal .sigterm])).any (fun q => q.2.signals.pending .sigterm &&
        q.1.any fun p => p.1.main = .create && p.2 = .main false) = true := by
    decide
  obtain ⟨tr, x, htr, hp⟩ := Machine.exists_trace_of_record _
    (fun (tr : List (Process × Action)) (x : Process) => x.signals.pending .sigterm &&
      tr.any fun p => p.1.main = .create && p.2 = .main false) hrun
  simp only [Bool.and_eq_true, List.any_eq_true, decide_eq_true_eq] at hp
  obtain ⟨hpending, p, hmem, hfail⟩ := hp
  exact ⟨tr, x, htr, hpending, deaf htr ⟨p, hmem, hfail⟩⟩

end OsLabs.Hangup
