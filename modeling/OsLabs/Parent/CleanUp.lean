import OsLabs.Parent.Model
import OsLabs.Concurrent.Count

/-!
# The parent and its children: the clean-up

The comment in the loop says that `waitpid` waits until a child terminates. But it is
called with `WUNTRACED | WCONTINUED`, and the loop counts its returns, whatever they
tell: each stop and each continuation takes the place of a child that has ended. So the
children have all ended at the clean-up exactly where as many of them have ended without
being waited for as stops and continuations were told of (`all_ended_iff`).
-/

namespace OsLabs.Parent

open Concurrent

/-- The child has ended. -/
def Child.ended : Child → Bool
  | .exited _ | .signaled _ | .reaped => true
  | .running _ | .stopped _ _ => false

/-- The child has ended, and the parent has been told. -/
def Child.isReaped : Child → Bool
  | .reaped => true
  | _ => false

/-- The child has ended, and the parent has not been told. -/
def Child.isZombie : Child → Bool
  | .exited _ | .signaled _ => true
  | _ => false

theorem ended_eq (x : Child) : x.isReaped.toNat + x.isZombie.toNat = x.ended.toNat := by
  cases x <;> rfl

variable {ι : Type}

/-- What the step of `waitpid` tells of the end of a child, if it is one. -/
def TellsOfEnd (c : Config ι PC Child) : Action ι → Prop
  | .report t => ∀ r, (c.loc t).report = some r → r.ended = true
  | _ => True

/-- The step is a return of `waitpid` with a stop or a continuation. -/
def interrupts (p : Config ι PC Child × Action ι) : Bool :=
  match p.2 with
  | .report t => (p.1.loc t).report.any fun r => !r.ended
  | _ => false

/-- How often `waitpid` has returned with a stop or a continuation. -/
def interruptions (tr : List (Config ι PC Child × Action ι)) : ℕ := tr.countP interrupts

/-- How often `waitpid` has returned. -/
def PC.returns (n : ℕ) : PC → ℕ
  | .waitpid i => i
  | .cleanUp _ => n

section Steps

variable {x x' : Child} {ch : Change} {r : Report}

/-- A child that was told of does not change any more. -/
theorem change_isReaped (h : x.change ch = some x') : x.isReaped = false ∧ x'.isReaped = false := by
  cases ch <;> cases x <;> cases h <;> exact ⟨rfl, rfl⟩

/-- A child is reaped when its end is told. -/
theorem told_isReaped (h : x.report = some r) :
    x.isReaped = false ∧ x.told.isReaped = r.ended := by
  cases x with
  | running news =>
    cases news <;> cases h
    exact ⟨rfl, rfl⟩
  | stopped sig news =>
    cases news <;> cases h
    exact ⟨rfl, rfl⟩
  | exited | signaled =>
    cases h
    exact ⟨rfl, rfl⟩
  | reaped => cases h

/-- The loop has returned once more, where it had not ended. -/
theorem returns_loop {n i : ℕ} (calls : List Call) (hi : i < n) :
    (loop n calls (i + 1)).returns n = i + 1 := by
  unfold loop
  split_ifs with h
  · rfl
  · have : n = i + 1 := by omega
    exact this

end Steps

variable [Fintype ι] [DecidableEq ι] {calls : List Call} {c : Config ι PC Child}
  {tr : List (Config ι PC Child × Action ι)}

/-- Every return of `waitpid` has told of a child that is reaped now, or of a stop or a
continuation. -/
structure Counted (tr : List (Config ι PC Child × Action ι)) (c : Config ι PC Child) :
    Prop where
  returns : count Child.isReaped c.loc + interruptions tr = c.shared.returns (Fintype.card ι)
  loop : ∀ i, c.shared = .waitpid i → i < Fintype.card ι

omit [DecidableEq ι] in
theorem counted_start : Counted [] (start calls : Config ι PC Child) := by
  constructor
  · have hzero : count Child.isReaped (start calls : Config ι PC Child).loc = 0 :=
      count_eq_zero_iff.mpr fun t => rfl
    rw [hzero]
    simp only [start, loop]
    split_ifs with h
    · rfl
    · exact (Nat.eq_zero_of_not_pos h).symm
  · intro i hi
    simp only [start, loop] at hi
    split_ifs at hi with h
    cases hi
    exact h

/-- A child changes its state: nobody returns. -/
theorem Counted.change (hC : Counted tr c) {t : ι} {ch : Change} {x : Child}
    (h : (c.loc t).change ch = some x) :
    Counted (tr ++ [(c, .change t ch)]) (c.set t c.shared x) := by
  obtain ⟨hold, hnew⟩ := change_isReaped h
  constructor
  · have hcount := count_update Child.isReaped c.loc t x
    rw [hold, hnew, Nat.add_right_cancel_iff] at hcount
    have hsame : interruptions (tr ++ [(c, .change t ch)]) = interruptions tr := by
      simp [interruptions, interrupts]
    rw [hsame, Config.set_loc, Config.set_shared, hcount]
    exact hC.returns
  · exact hC.loop

/-- `waitpid` returns: the child is reaped, or its news is a stop or a continuation. -/
theorem Counted.report (hC : Counted tr c) {t : ι} {i : ℕ} {r : Report}
    (hi : c.shared = .waitpid i) (h : (c.loc t).report = some r) :
    Counted (tr ++ [(c, .report t)])
      (c.set t (Parent.loop (Fintype.card ι) calls (i + 1)) (c.loc t).told) := by
  obtain ⟨hold, hnew⟩ := told_isReaped h
  constructor
  · have hcount := count_update Child.isReaped c.loc t (c.loc t).told
    have hreturns := hC.returns
    have hintr : interruptions (tr ++ [(c, .report t)]) = interruptions tr + (!r.ended).toNat := by
      cases hr : r.ended <;> simp [interruptions, interrupts, h, hr]
    rw [hi] at hreturns
    rw [hold, hnew] at hcount
    rw [hintr, Config.set_loc, Config.set_shared, returns_loop calls (hC.loop i hi)]
    simp only [PC.returns] at hreturns
    cases hr : r.ended <;> simp only [hr, Bool.toNat_false, Bool.toNat_true, Bool.not_false,
      Bool.not_true] at hcount ⊢ <;> omega
  · intro j hj
    simp only [Config.set_shared, Parent.loop] at hj
    split_ifs at hj with hlt
    cases hj
    exact hlt

theorem counted (h : (main calls).Trace (start calls) tr c) : Counted tr c := by
  induction h with
  | nil => exact counted_start
  | @snoc tr c c' a h hn ih =>
    cases a with
    | change t ch =>
      obtain ⟨x, hx, rfl⟩ := Option.map_eq_some_iff.mp hn
      exact ih.change hx
    | report t =>
      simp only [main] at hn
      split at hn
      · cases hn
        exact ih.report ‹_› ‹_›
      · cases hn
    | call =>
      simp only [main] at hn
      split at hn
      · cases hn
        refine ⟨?_, nofun⟩
        have hsame : interruptions (tr ++ [(c, Action.call)]) = interruptions tr := by
          simp [interruptions, interrupts]
        have hreturns := ih.returns
        rw [hsame]
        rwa [‹c.shared = _›] at hreturns
      · cases hn

/-- **The children at the clean-up.** In every run of any number of children and of their
changes of state, wherever the parent has left its loop: all children have ended if and
only if as many of them have ended without being waited for as stops and continuations
were told of. And they all have ended, where every return of `waitpid` has told of the end
of a child. -/
theorem all_ended_iff (h : (main calls).Trace (start calls) tr c) {rest : List Call}
    (hc : c.shared = .cleanUp rest) :
    ((∀ t, (c.loc t).ended = true) ↔ count Child.isZombie c.loc = interruptions tr) ∧
    ((∀ p ∈ tr, TellsOfEnd p.1 p.2) → ∀ t, (c.loc t).ended = true) := by
  have hreturns := (counted h).returns
  rw [hc] at hreturns
  simp only [PC.returns] at hreturns
  have hended := count_add ended_eq c.loc
  have hiff : (∀ t, (c.loc t).ended = true) ↔ count Child.isZombie c.loc = interruptions tr := by
    rw [← count_eq_card_iff, ← hended]
    omega
  refine ⟨hiff, fun hall => ?_⟩
  have hnone : interruptions tr = 0 := by
    refine List.countP_eq_zero.mpr fun p hp => ?_
    obtain ⟨d, a⟩ := p
    cases a with
    | report t =>
      have htells := hall _ hp
      cases hr : (d.loc t).report with
      | none => simp [interrupts, hr]
      | some r => simp [interrupts, hr, htells r hr]
    | _ => exact Bool.false_ne_true
  have hle : count Child.ended c.loc ≤ Fintype.card ι := by
    rw [count, Fintype.card, Finset.card_eq_sum_ones]
    exact Finset.sum_le_sum fun t _ => Bool.toNat_le _
  rw [← count_eq_card_iff]
  omega

/-! ### Two children -/

/-- Both children end, and the parent is told of both. -/
def bothExit {ι : Type} (t u : ι) : List (Action ι) :=
  [.change u (.exit 0), .change t (.exit 0), .report t, .report u]

theorem all_ended_iff_exit : ∃ (tr : List (Config (Fin 2) PC Child × Action (Fin 2)))
    (c : Config (Fin 2) PC Child), (main wrCalls).Trace (start wrCalls) tr c ∧
      c.shared = .cleanUp wrCalls ∧ ∀ t, (c.loc t).ended = true := by
  have hrun : ((main wrCalls).record (start wrCalls) (bothExit (0 : Fin 2) 1)).any (fun q =>
      q.2.shared = .cleanUp wrCalls &&
        count Child.isZombie q.2.loc = interruptions q.1) = true := by
    decide
  obtain ⟨tr, c, htr, hp⟩ := Machine.exists_trace_of_record _
    (fun tr (c : Config (Fin 2) PC Child) =>
      c.shared = .cleanUp wrCalls && count Child.isZombie c.loc = interruptions tr) hrun
  simp only [Bool.and_eq_true, decide_eq_true_eq] at hp
  exact ⟨tr, c, htr, hp.1, (all_ended_iff htr hp.1).1.mpr hp.2⟩

/-- One child is stopped and goes on; the parent is told of both. -/
def stopAndCont {ι : Type} (t : ι) : List (Action ι) :=
  [.change t (.stop 19), .report t, .change t .cont, .report t]

/-- The parent removes the shared memory of two children that run. -/
theorem cleans_up_early : ¬ ∀ (tr : List (Config (Fin 2) PC Child × Action (Fin 2)))
    (c : Config (Fin 2) PC Child) (rest : List Call),
    (main pcCalls).Trace (start pcCalls) tr c → c.shared = .cleanUp rest →
      ∀ t, (c.loc t).ended = true := by
  intro h
  have hrun : ((main pcCalls).record (start pcCalls) (stopAndCont (0 : Fin 2))).any (fun q =>
      q.2.shared = .cleanUp pcCalls && !(q.2.loc 0).ended && !(q.2.loc 1).ended) = true := by
    decide
  obtain ⟨tr, c, htr, hp⟩ := Machine.exists_trace_of_record _
    (fun _ (c : Config (Fin 2) PC Child) =>
      c.shared = .cleanUp pcCalls && !(c.loc 0).ended && !(c.loc 1).ended) hrun
  simp only [Bool.and_eq_true, decide_eq_true_eq, Bool.not_eq_true'] at hp
  obtain ⟨⟨hclean, h0⟩, -⟩ := hp
  have hended := h tr c pcCalls htr hclean 0
  rw [h0] at hended
  cases hended

end OsLabs.Parent
