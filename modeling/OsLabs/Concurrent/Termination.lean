import OsLabs.Concurrent.Machine
import OsLabs.Concurrent.Count

/-!
# Machines that wind down

Some actions of a machine are its own steps, the others come from outside. From a state
the machine winds down (`WindsDown`) when every run makes a bounded number of own steps,
and when a state of a run in which no own step is possible is one where all is done. A
run can then neither go on for ever nor stop too early, whatever the order of its steps.

`windsDown_of_rank` is the rule: an invariant, a rank that every own step lowers and no
other step raises, and that somebody can make a step while not all is done. For
interleaved threads the rank is the sum of ranks of the local states, so that there is also
a bound for each thread (`EachWindsDown`).
-/

namespace OsLabs.Concurrent

namespace Machine

variable {S A : Type*} {M : Machine S A} {own : A → Bool} {done : S → Prop} {n : ℕ} {s s' : S}

/-- Every run from `s` makes `n` own steps at most, and where no own step is possible any
more, all is done. -/
structure WindsDown (M : Machine S A) (own : A → Bool) (done : S → Prop) (n : ℕ) (s : S) :
    Prop where
  bounded : ∀ tr s', M.Trace s tr s' → tr.countP (fun p => own p.2) ≤ n
  completes : ∀ s', M.Reach s s' → (∀ a, own a = true → M.next s' a = none) → done s'

theorem WindsDown.mono {m : ℕ} (h : M.WindsDown own done n s) (hle : n ≤ m) :
    M.WindsDown own done m s :=
  ⟨fun tr s' htr => (h.bounded tr s' htr).trans hle, h.completes⟩

section Rank

variable {I : S → Prop} {rank : S → ℕ}

theorem Trace.invariant {tr : List (S × A)} (h : M.Trace s tr s') (hs : I s)
    (hstep : ∀ s a s', I s → M.next s a = some s' → I s') : I s' := by
  apply h.reach.invariant hs
  intro s a s' hI _ hn
  exact hstep s a s' hI hn

/-- The own steps of a run are paid for by the rank. -/
theorem Trace.countP_add_rank_le {tr : List (S × A)} (h : M.Trace s tr s') (hs : I s)
    (hstep : ∀ s a s', I s → M.next s a = some s' → I s' ∧ rank s' + (own a).toNat ≤ rank s) :
    tr.countP (fun p => own p.2) + rank s' ≤ rank s := by
  induction h with
  | nil => simp
  | @snoc tr s₁ s₂ a h hn ih =>
    have hI : I s₁ := h.invariant hs fun s a s' hI hn => (hstep s a s' hI hn).1
    have hlast := (hstep s₁ a s₂ hI hn).2
    have hcount : (tr ++ [(s₁, a)]).countP (fun p => own p.2) =
        tr.countP (fun p => own p.2) + (own a).toNat := by
      rw [List.countP_append, List.countP_singleton]
      cases own a <;> rfl
    rw [hcount]
    omega

theorem windsDown_of_rank (hs : I s)
    (hstep : ∀ s a s', I s → M.next s a = some s' → I s' ∧ rank s' + (own a).toNat ≤ rank s)
    (hstuck : ∀ s, I s → (∀ a, own a = true → M.next s a = none) → done s) :
    M.WindsDown own done (rank s) s := by
  refine ⟨?_, ?_⟩
  · intro tr s' h
    have := h.countP_add_rank_le hs hstep
    omega
  · intro s' h hnone
    apply hstuck s' _ hnone
    apply h.invariant hs
    intro s a s' hI _ hn
    exact (hstep s a s' hI hn).1

end Rank

/-- All gets done in some run of own steps, and in every one that goes on as long as it
can. -/
theorem WindsDown.exists_done (h : M.WindsDown own done n s) :
    ∃ tr s', M.Trace s tr s' ∧ (∀ p ∈ tr, own p.2 = true) ∧ done s' := by
  by_contra hno
  -- a run of own steps that is not done can always be made one step longer
  have hlong : ∀ k, ∃ tr s', M.Trace s tr s' ∧ (∀ p ∈ tr, own p.2 = true) ∧ tr.length = k := by
    intro k
    induction k with
    | zero => exact ⟨[], s, .nil, by simp, rfl⟩
    | succ k ih =>
      obtain ⟨tr, s', htr, hown, hlen⟩ := ih
      have hnext : ∃ a, own a = true ∧ M.next s' a ≠ none := by
        by_contra hnone
        apply hno
        refine ⟨tr, s', htr, hown, h.completes s' htr.reach ?_⟩
        intro a ha
        by_contra hne
        exact hnone ⟨a, ha, hne⟩
      obtain ⟨a, ha, hne⟩ := hnext
      obtain ⟨s'', hn⟩ := Option.ne_none_iff_exists'.mp hne
      refine ⟨tr ++ [(s', a)], s'', htr.snoc hn, ?_, by simp [hlen]⟩
      rw [List.forall_mem_append, List.forall_mem_singleton]
      exact ⟨hown, ha⟩
  obtain ⟨tr, s', htr, hown, hlen⟩ := hlong (n + 1)
  have hbound := h.bounded tr s' htr
  rw [List.countP_eq_length.mpr hown] at hbound
  omega

/-- What can be done from every state, if a run that lowers the rank leads on from every
state that is not done. -/
theorem exists_reachBy_done {cond : S → A → Prop} {I : S → Prop} (rank : S → ℕ) (hs : I s)
    (hnext : ∀ s, I s → ¬ done s → ∃ s', M.ReachBy cond s s' ∧ I s' ∧ rank s' < rank s) :
    ∃ s', M.ReachBy cond s s' ∧ I s' ∧ done s' := by
  generalize hk : rank s = k
  induction k using Nat.strongRecOn generalizing s with
  | ind k ih =>
    by_cases hdone : done s
    · exact ⟨s, .refl, hs, hdone⟩
    · obtain ⟨s', hrun, hs', hless⟩ := hnext s hs hdone
      obtain ⟨s'', hrest, hI, hdone'⟩ := ih (rank s') (by omega) hs' rfl
      exact ⟨s'', hrun.trans hrest, hI, hdone'⟩

end Machine

/-! ## Interleaved threads -/

section Threads

variable {ι ε σ l : Type*} [Fintype ι] [DecidableEq ι] {c : Config ι σ l}

/-- The machine of threads winds down, and every thread makes `k` own steps at most. -/
structure Machine.EachWindsDown {S : Type*} (M : Machine S (ι × ε)) (own : ε → Bool)
    (done : S → Prop) (k : ℕ) (s : S) : Prop
    extends M.WindsDown (fun a => own a.2) done (k * Fintype.card ι) s where
  each : ∀ t tr s', M.Trace s tr s' → tr.countP (fun p => p.2.1 = t && own p.2.2) ≤ k

/-- The sum of the ranks falls by what the rank of the thread that moves falls. -/
theorem sum_rank_set {r : l → ℕ} {t : ι} {s : σ} {x : l} {k : ℕ} (h : r x + k ≤ r (c.loc t)) :
    ∑ u, r ((c.set t s x).loc u) + k ≤ ∑ u, r (c.loc u) := by
  have hsum := sum_update r c.loc t x
  rw [Config.set_loc]
  omega

omit [Fintype ι] in
/-- The rank of one thread falls where the thread moves, and stays where another one does. -/
theorem rank_set_add_le {r : l → ℕ} {t u : ι} {s : σ} {x : l} {b : Bool}
    (h : r x + b.toNat ≤ r (c.loc t)) :
    r ((c.set t s x).loc u) + (decide (t = u) && b).toNat ≤ r (c.loc u) := by
  by_cases hut : u = t
  · subst hut
    rwa [Config.set_loc_self, decide_eq_true rfl, Bool.true_and]
  · rw [Config.set_loc_of_ne hut, decide_eq_false fun he => hut he.symm, Bool.false_and]
    exact Nat.le_refl _

/-- The rule for threads: the one that moves pays with its own rank, which is `k` at most,
and while not all is done some thread can move. -/
theorem interleave_windsDown {step : ι → ε → σ → l → Option (σ × l)} {own : ε → Bool}
    {done : Config ι σ l → Prop} (I : Config ι σ l → Prop) (r : l → ℕ) {k : ℕ}
    (hr : ∀ x, r x ≤ k) (hI : I c)
    (hstep : ∀ c t e s x, I c → step t e c.shared (c.loc t) = some (s, x) →
      I (c.set t s x) ∧ r x + (own e).toNat ≤ r (c.loc t))
    (hstuck : ∀ c, I c → (∀ t e, own e = true → step t e c.shared (c.loc t) = none) → done c) :
    (interleave step).EachWindsDown own done k c where
  toWindsDown := by
    have hsum : ∑ t, r (c.loc t) ≤ k * Fintype.card ι := by
      calc ∑ t, r (c.loc t) ≤ ∑ _t : ι, k := Finset.sum_le_sum fun t _ => hr _
        _ = k * Fintype.card ι := by simp [mul_comm]
    apply Machine.WindsDown.mono _ hsum
    apply Machine.windsDown_of_rank hI
    · rintro c ⟨t, e⟩ c' hI hn
      obtain ⟨s, x, hs, rfl⟩ := interleave_next.mp hn
      obtain ⟨hI', hrank⟩ := hstep c t e s x hI hs
      exact ⟨hI', sum_rank_set hrank⟩
    · intro c hI hnone
      apply hstuck c hI
      intro t e he
      by_contra hne
      obtain ⟨⟨s, x⟩, hs⟩ := Option.ne_none_iff_exists'.mp hne
      have hn := interleave_next.mpr ⟨s, x, hs, rfl⟩
      rw [hnone (t, e) he] at hn
      cases hn
  each u tr c' htr := by
    have hpays : ∀ c a c', I c → (interleave step).next c a = some c' →
        I c' ∧ r (c'.loc u) + (decide (a.1 = u) && own a.2).toNat ≤ r (c.loc u) := by
      rintro c ⟨t, e⟩ c' hI hn
      obtain ⟨s, x, hs, rfl⟩ := interleave_next.mp hn
      obtain ⟨hI', hrank⟩ := hstep c t e s x hI hs
      exact ⟨hI', rank_set_add_le hrank⟩
    have hpaid := htr.countP_add_rank_le hI hpays
    have hle := hr (c.loc u)
    omega

end Threads

end OsLabs.Concurrent
