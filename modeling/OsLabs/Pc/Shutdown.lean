import OsLabs.Concurrent.Termination
import OsLabs.Pc.Accounting

/-!
# Producers and consumers with `SEM_UNDO`: exits and shutdown

A process that exits breaks the accounting of `BEMPTY` and `BFULL`, but it exits outside its
section, where its adjustment of `BINARY` is zero. So whatever signals come: one process at
most is inside a section, the letters are stored cell by cell and each one once, and the
cells are read one by one (`Kept`, `order_kept`).

SIGINT that comes between the test of `f_sigint` and the `semop` of a process is missed by
that call. Once the signal has come to all, the others end their turns and exit; a process
that has missed it may be left behind for ever, asleep before an empty or a full buffer
(`sigint_leaves_behind`). It holds nothing then, but the parent waits for it.
-/

namespace OsLabs.Pc

open Concurrent

/-! ## What exits do not break -/

section Runs

variable {ι : Type} {n : ℕ} {c c₀ : Config ι Shared Process}

/-- The part of the accounting that does not depend on `BEMPTY` and `BFULL`. -/
abbrev Order (c : Config ι Shared Process) : Prop := Ordered Kept c

variable [DecidableEq ι]

/-- The exit of a process that holds no adjustment of `BINARY` changes nothing here. -/
theorem Order.step (hO : Order c) {t : ι} {e : Event} {s : Shared} {x : Process}
    (h : processStep t e c.shared (c.loc t) = some (s, x)) : Order (c.set t s x) := by
  refine Ordered.step hO (fun _ hk => hk) (fun _ _ _ hk ht => hk.turn ht) ?_
    (step_stepped (hO.fresh t) h)
  intro g hk _ hout
  exact hk.of_sem (by rw [undo_of_eq_zero (hO.binary_eq_zero hout)]) rfl rfl

theorem order_reach {role : ι → Role} (h : (children ι).Reach (initial n role) c) : Order c := by
  apply h.interleave_invariant (ordered_initial n role (kept_initial n role))
  intro c t e s x hO _ hs
  exact Order.step hO hs

/-- **What exits do not break.** In every run, whatever processes SIGINT ends: one process
at most is inside a section, `BINARY` is 0 exactly then, the letters are stored cell by cell
from the first one on and the cells read one by one, and the pointers are there when nobody
is inside. -/
theorem order_kept {role : ι → Role} (h : (children ι).Reach (initial n role) c) :
    (∀ t u, stage (c.loc t) ≠ .outside → stage (c.loc u) ≠ .outside → t = u) ∧
    (c.shared.sem .binary = 0 ↔ ∃ t, stage (c.loc t) ≠ .outside) ∧
    c.shared.stored = List.range c.shared.stored.length ∧
    c.shared.taken = List.range c.shared.taken.length ∧
    ((∀ t, stage (c.loc t) = .outside) → c.shared.prodPtr = c.shared.stored.length ∧
      c.shared.consPtr = c.shared.taken.length) := by
  obtain ⟨⟨g, howner, hkept⟩, -, -⟩ := order_reach h
  refine ⟨fun _ _ => howner.unique, ?_, hkept.stored, hkept.taken, ?_⟩
  · have hbinary := hkept.binary
    constructor
    · intro hzero
      by_contra hnobody
      have hout : ∀ t, stage (c.loc t) = .outside := by
        intro t
        by_contra ht
        exact hnobody ⟨t, ht⟩
      rw [howner.of_out hout, hzero] at hbinary
      cases hbinary
    · rintro ⟨t, ht⟩
      have hg : g ≠ .outside := fun hg => ht (howner.eq_out hg t)
      cases g with
      | outside => exact absurd rfl hg
      | _ =>
        simp only [Stage.busy] at hbinary
        omega
  · intro hout
    obtain rfl := howner.of_out hout
    exact ⟨hkept.prodPtr, hkept.consPtr⟩

/-- The producer stores a letter, a consumer takes it and leaves on SIGINT, and its
adjustment lets the other one go on to the second cell. -/
theorem order_kept_unclean : ∃ c : Config (Fin 3) Shared Process,
    (c.loc 2).pc = .consumer (.take 1) ∧ c.shared.taken = List.range 1 := by
  have hrun : ((children (Fin 3)).run (initial 10 oneAndTwo) (produceOne 0 ++
      List.replicate 8 (1, .run) ++ [(1, .sigint), (1, .run)] ++
      List.replicate 4 (2, .run))).any
      (fun c => (c.loc 2).pc = .consumer (.take 1) ∧ c.shared.taken.length = 1) = true := by
    decide
  obtain ⟨c, hc, hp⟩ := Machine.exists_reach_of_run _ _ hrun
  obtain ⟨hpc, hlen⟩ : (c.loc 2).pc = .consumer (.take 1) ∧ c.shared.taken.length = 1 := by
    simpa using hp
  obtain ⟨-, -, -, htaken, -⟩ := order_kept hc
  rw [hlen] at htaken
  exact ⟨c, hpc, htaken⟩

/-! ## Shutdown -/

/-- The step is one of the process itself. -/
def Event.own (e : Event) : Bool :=
  match e with
  | .run => true
  | .sigint => false

def exited (x : Process) : Bool :=
  match x.pc with
  | .exited _ => true
  | _ => false

/-- The process is between its test of `f_sigint` and the end of the call that enters its
section. -/
def approaches (x : Process) : Bool :=
  match x.pc with
  | .producer .sleep | .producer .wait | .producer .waitSleep => true
  | .consumer .sleep | .consumer .wait | .consumer .waitSleep => true
  | _ => false

/-- The steps that a process makes at most once its `f_sigint` is cleared. -/
def stepsLeft (x : Process) : ℕ :=
  match x.pc with
  | .exited _ => 0
  | .producer pc =>
      match pc with
      | .head => 1
      | .signalSleep => 2
      | .signal => 3
      | .reset | .alfaStore _ => 4
      | .alfaLoad => 5
      | .test => 6
      | .incStore _ => 7
      | .incLoad => 8
      | .printCell _ => 9
      | .printPtr => 10
      | .store _ _ => 11
      | .loadAlfa _ => 12
      | .loadPtr => 13
      | .waitSleep => 14
      | .wait => 15
      | .sleep => 16
  | .consumer pc =>
      match pc with
      | .head => 1
      | .signalSleep => 2
      | .signal => 3
      | .incStore _ => 4
      | .incLoad => 5
      | .take _ => 6
      | .loadPtr => 7
      | .waitSleep => 8
      | .wait => 9
      | .sleep => 10

theorem stepsLeft_le (x : Process) : stepsLeft x ≤ 16 := by
  obtain ⟨pc, f, adj⟩ := x
  rcases pc with pc | pc | st
  · cases pc <;> simp [stepsLeft]
  · cases pc <;> simp [stepsLeft]
  · simp [stepsLeft]

section Steps

variable {s s' : Shared} {x x' : Process}

/-- The process goes on to `x'` with its flag cleared, at most `k` steps from its end, and
comes no nearer to a section than it was. -/
def GoesOn (x x' : Process) (k : ℕ) : Prop :=
  x'.fSigint = false ∧ stepsLeft x' + k ≤ stepsLeft x ∧
    (approaches x' = true → approaches x = true)

theorem goesOn_callSemop {ops : List (SemBuf SemNum)} {next : PC} {asleep : Option PC}
    (h : callSemop s x ops next asleep = some (s', x')) (hflag : x.fSigint = false)
    (hnext : ∀ adj, GoesOn x ⟨next, false, adj⟩ 1)
    (hasleep : ∀ pc, asleep = some pc → GoesOn x ⟨pc, false, x.semadj⟩ 1) : GoesOn x x' 1 := by
  obtain ⟨pc, f, adj⟩ := x
  cases hflag
  rcases callSemop_cases h with ⟨v, -, -, rfl⟩ | ⟨-, -, pc', hpc, rfl⟩
  · exact hnext _
  · exact hasleep pc' hpc

theorem producer_goesOn {pc : ProdPC} {adj : SemNum → ℤ}
    (h : producer s ⟨.producer pc, false, adj⟩ pc = some (s', x')) :
    GoesOn ⟨.producer pc, false, adj⟩ x' 1 := by
  cases pc with
  | wait =>
    apply goesOn_callSemop h rfl (fun _ => ⟨rfl, by simp [stepsLeft], fun _ => rfl⟩)
    rintro _ ⟨⟩
    exact ⟨rfl, Nat.le_refl _, fun _ => rfl⟩
  | waitSleep =>
    apply goesOn_callSemop h rfl (fun _ => ⟨rfl, Nat.le_refl _, fun _ => rfl⟩)
    rintro _ ⟨⟩
  | signal =>
    have hcall : callSemop s _ vProd (.producer .head) (some (.producer .signalSleep)) =
      some (s', x') := h
    apply goesOn_callSemop hcall rfl (fun _ => ⟨rfl, by simp [stepsLeft], nofun⟩)
    rintro _ ⟨⟩
    exact ⟨rfl, Nat.le_refl _, nofun⟩
  | signalSleep =>
    have hcall : callSemop s _ vProd (.producer .head) none = some (s', x') := h
    apply goesOn_callSemop hcall rfl (fun _ => ⟨rfl, by simp [stepsLeft], nofun⟩)
    rintro _ ⟨⟩
  | test =>
    cases h
    refine ⟨rfl, ?_, ?_⟩
    · split_ifs <;> simp [stepsLeft]
    · split_ifs <;> exact id
  | _ =>
    cases h
    exact ⟨rfl, by simp [stepsLeft], fun _ => by first | rfl | contradiction⟩

theorem consumer_goesOn {pc : ConsPC} {adj : SemNum → ℤ}
    (h : consumer s ⟨.consumer pc, false, adj⟩ pc = some (s', x')) :
    GoesOn ⟨.consumer pc, false, adj⟩ x' 1 := by
  cases pc with
  | wait =>
    apply goesOn_callSemop h rfl (fun _ => ⟨rfl, by simp [stepsLeft], fun _ => rfl⟩)
    rintro _ ⟨⟩
    exact ⟨rfl, Nat.le_refl _, fun _ => rfl⟩
  | waitSleep =>
    apply goesOn_callSemop h rfl (fun _ => ⟨rfl, Nat.le_refl _, fun _ => rfl⟩)
    rintro _ ⟨⟩
  | signal =>
    have hcall : callSemop s _ vCons (.consumer .head) (some (.consumer .signalSleep)) =
      some (s', x') := h
    apply goesOn_callSemop hcall rfl (fun _ => ⟨rfl, by simp [stepsLeft], nofun⟩)
    rintro _ ⟨⟩
    exact ⟨rfl, Nat.le_refl _, nofun⟩
  | signalSleep =>
    have hcall : callSemop s _ vCons (.consumer .head) none = some (s', x') := h
    apply goesOn_callSemop hcall rfl (fun _ => ⟨rfl, by simp [stepsLeft], nofun⟩)
    rintro _ ⟨⟩
  | _ =>
    cases h
    exact ⟨rfl, by simp [stepsLeft], fun _ => by first | rfl | contradiction⟩

theorem step_goesOn {ι : Type} {t : ι} {e : Event} (hflag : x.fSigint = false)
    (h : processStep t e s x = some (s', x')) : GoesOn x x' e.own.toNat := by
  obtain ⟨pc, f, adj⟩ := x
  cases hflag
  cases e with
  | run =>
    rcases pc with pc | pc | st
    · exact producer_goesOn h
    · exact consumer_goesOn h
    · cases h
  | sigint =>
    have hx : (handler s ⟨pc, false, adj⟩).2 = x' := by
      rcases pc with pc | pc | st
      · exact congrArg Prod.snd (Option.some.inj h)
      · exact congrArg Prod.snd (Option.some.inj h)
      · cases h
    rw [← hx]
    unfold handler
    split_ifs with ha
    · exact ⟨rfl, Nat.zero_le _, nofun⟩
    · exact ⟨rfl, Nat.le_refl _, id⟩

/-- A process that can make no step has exited or sleeps in a call of `semop`. -/
theorem stuck_cases {ι : Type} {t : ι} (hfresh : Fresh s x)
    (h : processStep t .run s x = none) :
    exited x = true ∨ (x.pc = .producer .waitSleep ∧ semop s.sem pProd = none) ∨
      (x.pc = .consumer .waitSleep ∧ semop s.sem pCons = none) := by
  have hcall : ∀ {ops next asleep}, callSemop s x ops next asleep = none →
      semop s.sem ops = none ∧ asleep = none := by
    intro ops next asleep h
    unfold callSemop at h
    split at h
    · cases h
    · exact ⟨‹_›, Option.map_eq_none_iff.mp h⟩
  obtain ⟨pc, f, adj⟩ := x
  rcases pc with pc | pc | st
  · cases pc with
    | waitSleep => exact Or.inr (Or.inl ⟨rfl, (hcall h).1⟩)
    | signalSleep => exact hfresh.elim
    | wait | signal =>
      simp only [processStep, producer] at h
      cases (hcall h).2
    | _ => cases h
  · cases pc with
    | waitSleep => exact Or.inr (Or.inr ⟨rfl, (hcall h).1⟩)
    | signalSleep => exact hfresh.elim
    | wait | signal =>
      simp only [processStep, consumer] at h
      cases (hcall h).2
    | _ => cases h
  · exact Or.inl rfl

end Steps

/-- Process `t` sleeps for ever: in the call that enters its section, before a full or an
empty buffer. -/
def LeftBehind (c : Config ι Shared Process) (t : ι) : Prop :=
  ((c.loc t).pc = .producer .waitSleep ∧ c.shared.sem .bempty = 0) ∨
    ((c.loc t).pc = .consumer .waitSleep ∧ c.shared.sem .bfull = 0)

/-- How a shutdown from `c₀` ends: nobody holds `BINARY`, and each process has exited or is
left behind, the latter only where it was approaching its section in `c₀`. -/
structure Stopped (c₀ c : Config ι Shared Process) : Prop where
  binary : c.shared.sem .binary = 1
  all : ∀ t, exited (c.loc t) = true ∨ (approaches (c₀.loc t) = true ∧ LeftBehind c t)

omit [DecidableEq ι] in
theorem Order.stopped (hO : Order c)
    (happroach : ∀ t, approaches (c.loc t) = true → approaches (c₀.loc t) = true)
    (hstuck : ∀ t, processStep t .run c.shared (c.loc t) = none) : Stopped c₀ c := by
  obtain ⟨g, howner, hkept⟩ := hO.owner
  have hcases := fun t => stuck_cases (hO.fresh t) (hstuck t)
  have hout : ∀ t, stage (c.loc t) = .outside := by
    intro t
    unfold stage
    rcases hcases t with hx | ⟨hpc, -⟩ | ⟨hpc, -⟩
    · unfold exited at hx
      split at hx
      · rename_i st hpc
        rw [hpc]
      · cases hx
    · rw [hpc]
    · rw [hpc]
  obtain rfl := howner.of_out hout
  have hbinary : c.shared.sem .binary = 1 := hkept.binary
  refine ⟨hbinary, ?_⟩
  intro t
  rcases hcases t with hx | ⟨hpc, hsem⟩ | ⟨hpc, hsem⟩
  · exact Or.inl hx
  · refine Or.inr ⟨happroach t (by rw [approaches, hpc]), Or.inl ⟨hpc, ?_⟩⟩
    by_contra hpos
    rw [semop_pProd.mpr ⟨Nat.pos_of_ne_zero hpos, by omega, rfl⟩] at hsem
    cases hsem
  · refine Or.inr ⟨happroach t (by rw [approaches, hpc]), Or.inr ⟨hpc, ?_⟩⟩
    by_contra hpos
    rw [semop_pCons.mpr ⟨Nat.pos_of_ne_zero hpos, by omega, rfl⟩] at hsem
    cases hsem

/-- **Shutdown.** From every reachable state in which SIGINT has come to all processes,
whatever the interleaving and whatever signals are still to come: every process makes at
most 16 more steps, and where none of them can go on, nobody holds `BINARY` and all
have exited but those that missed the signal before their `semop` and now sleep before a
full or an empty buffer. -/
theorem sigint_leaves_behind [Fintype ι] {role : ι → Role}
    (h : (children ι).Reach (initial n role) c₀)
    (hflag : ∀ t, (c₀.loc t).fSigint = false) :
    (children ι).EachWindsDown Event.own (Stopped c₀) 16 c₀ := by
  apply interleave_windsDown (fun c => Order c ∧ (∀ t, (c.loc t).fSigint = false) ∧
      ∀ t, approaches (c.loc t) = true → approaches (c₀.loc t) = true)
    stepsLeft stepsLeft_le ⟨order_reach h, hflag, fun _ => id⟩
  · rintro c t e s x ⟨hO, hflag, happroach⟩ hs
    obtain ⟨hx, hless, hback⟩ := step_goesOn (hflag t) hs
    refine ⟨⟨Order.step hO hs, ?_, ?_⟩, hless⟩
    · exact Config.forall_set (P := fun _ (x : Process) => x.fSigint = false) hx fun u _ => hflag u
    · exact Config.forall_set
        (P := fun u x => approaches x = true → approaches (c₀.loc u) = true)
        (fun hx => happroach t (hback hx)) fun u _ => happroach u
  · rintro c ⟨hO, -, happroach⟩ hnone
    exact hO.stopped happroach fun t => hnone t .run rfl

/-- SIGINT comes to the producer at the head of its loop, and to the consumer behind its
test of `f_sigint`. -/
def missedSignal {ι : Type} (p u : ι) : List (ι × Event) :=
  [(p, .sigint), (u, .run), (u, .sigint)]

/-- The producer exits, and the consumer sleeps for ever before the empty buffer. -/
theorem shutdown_left_behind : ∃ c c' : Config (Fin 2) Shared Process,
    (children (Fin 2)).Reach c c' ∧ (∀ t, (children (Fin 2)).next c' (t, .run) = none) ∧
      Stopped c c' ∧ (c'.loc 1).pc = .consumer .waitSleep := by
  have hrun : ((children (Fin 2)).run (initial 10 oneAndOne) (missedSignal 0 1)).any
      (fun c => (!(c.loc 0).fSigint && !(c.loc 1).fSigint) &&
        ((children (Fin 2)).run c [(0, .run), (1, .run), (1, .run)]).any fun c' =>
          (((children (Fin 2)).next c' (0, .run)).isNone &&
            ((children (Fin 2)).next c' (1, .run)).isNone) &&
          (c'.loc 1).pc = .consumer .waitSleep) = true := by decide
  obtain ⟨c, hc, hp⟩ := Machine.exists_reach_of_run _ _ hrun
  obtain ⟨hflags, hrun'⟩ := Bool.and_eq_true_iff.mp hp
  obtain ⟨c', hc', hp'⟩ := Machine.exists_reach_of_run _ _ hrun'
  simp only [Bool.and_eq_true, Bool.not_eq_true', Option.isNone_iff_eq_none,
    decide_eq_true_eq] at hflags hp'
  obtain ⟨hnone, hpc⟩ := hp'
  have hstuck : ∀ t, (children (Fin 2)).next c' (t, .run) = none := by
    rw [Fin.forall_fin_two]
    exact hnone
  have hflag : ∀ t, (c.loc t).fSigint = false := by
    rw [Fin.forall_fin_two]
    exact hflags
  refine ⟨c, c', hc', hstuck, (sigint_leaves_behind hc hflag).completes c' hc' ?_, hpc⟩
  rintro ⟨t, e⟩ he
  cases e with
  | run => exact hstuck t
  | sigint => cases he

end Runs

end OsLabs.Pc
