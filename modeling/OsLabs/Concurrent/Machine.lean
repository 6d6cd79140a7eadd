import Mathlib.Logic.Function.Basic
import Mathlib.Tactic.Common

/-!
# Machines, runs and interleaved threads

A `Machine` is an executable step function: `next s a` is the state after action `a`
in state `s`, or `none` where `a` cannot be taken. `exec` runs a list of actions, and
`ReachBy cond` collects the states of all runs in which every action satisfied `cond`
in the state it was taken in; `Reach` puts no condition, and `Trace` keeps the record of
a run.

`interleave` builds the machine of many threads over one shared store from the step
function of a single thread: an action names the thread that moves, and the local
states of the other threads stay as they are.
-/

namespace OsLabs.Concurrent

/-- A machine with states `S` and actions `A`, given by its step function. -/
structure Machine (S A : Type*) where
  /-- The state after an action, or `none` where the action is not enabled. -/
  next : S → A → Option S

namespace Machine

variable {S A : Type*} {M : Machine S A} {cond cond' : S → A → Prop} {s₀ s s' : S}

/-- The states of the runs from `s₀` whose every action satisfies `cond` in the state
it is taken in. -/
inductive ReachBy (M : Machine S A) (cond : S → A → Prop) (s₀ : S) : S → Prop
  | refl : ReachBy M cond s₀ s₀
  | step {s s' : S} {a : A} (h : ReachBy M cond s₀ s) (hc : cond s a)
      (hn : M.next s a = some s') : ReachBy M cond s₀ s'

/-- The states of all runs from `s₀`. -/
def Reach (M : Machine S A) (s₀ s : S) : Prop := M.ReachBy (fun _ _ => True) s₀ s

theorem ReachBy.mono (hcond : ∀ s a, cond s a → cond' s a) (h : M.ReachBy cond s₀ s) :
    M.ReachBy cond' s₀ s := by
  induction h with
  | refl => exact .refl
  | step _ hc hn ih => exact ih.step (hcond _ _ hc) hn

theorem ReachBy.reach (h : M.ReachBy cond s₀ s) : M.Reach s₀ s := h.mono fun _ _ _ => trivial

theorem ReachBy.trans (h : M.ReachBy cond s₀ s) (h' : M.ReachBy cond s s') :
    M.ReachBy cond s₀ s' := by
  induction h' with
  | refl => exact h
  | step _ hc hn ih => exact ih.step hc hn

/-- The induction rule for invariants: what holds at the start and is kept by every
step that satisfies the condition holds in every state of the run. -/
theorem ReachBy.invariant {I : S → Prop} (h : M.ReachBy cond s₀ s) (h0 : I s₀)
    (hstep : ∀ s a s', I s → cond s a → M.next s a = some s' → I s') : I s := by
  induction h with
  | refl => exact h0
  | step _ hc hn ih => exact hstep _ _ _ ih hc hn

/-! ### Traces -/

/-- A run with its record: the actions taken, each with the state it was taken in. -/
inductive Trace (M : Machine S A) (s₀ : S) : List (S × A) → S → Prop
  | nil : Trace M s₀ [] s₀
  | snoc {tr : List (S × A)} {s s' : S} {a : A} (h : Trace M s₀ tr s)
      (hn : M.next s a = some s') : Trace M s₀ (tr ++ [(s, a)]) s'

theorem Trace.reach {tr : List (S × A)} (h : M.Trace s₀ tr s) : M.Reach s₀ s := by
  induction h with
  | nil => exact .refl
  | snoc _ hn ih => exact ReachBy.step ih trivial hn

theorem Trace.reach_of_mem {tr : List (S × A)} (h : M.Trace s₀ tr s) {p : S × A}
    (hp : p ∈ tr) : M.Reach s₀ p.1 := by
  induction h with
  | nil => cases hp
  | snoc h hn ih =>
    rcases List.mem_append.mp hp with hp | hp
    · exact ih hp
    · rw [List.mem_singleton.mp hp]
      exact h.reach

theorem ReachBy.exists_trace (h : M.ReachBy cond s₀ s) :
    ∃ tr, M.Trace s₀ tr s ∧ ∀ p ∈ tr, cond p.1 p.2 := by
  induction h with
  | refl => exact ⟨[], .nil, by simp⟩
  | @step s s' a _ hc hn ih =>
    obtain ⟨tr, htr, hall⟩ := ih
    refine ⟨tr ++ [(s, a)], htr.snoc hn, ?_⟩
    intro p hp
    rcases List.mem_append.mp hp with hp | hp
    · exact hall p hp
    · rw [List.mem_singleton.mp hp]
      exact hc

theorem Trace.append {tr tr' : List (S × A)} (h : M.Trace s₀ tr s) (h' : M.Trace s tr' s') :
    M.Trace s₀ (tr ++ tr') s' := by
  induction h' with
  | nil => simpa using h
  | snoc _ hn ih => simpa using ih.snoc hn

theorem Trace.reachBy {tr : List (S × A)} (h : M.Trace s₀ tr s)
    (hall : ∀ p ∈ tr, cond p.1 p.2) : M.ReachBy cond s₀ s := by
  induction h with
  | nil => exact .refl
  | @snoc tr s s' a h hn ih =>
    have hc : cond s a := hall (s, a) (List.mem_append_right _ (List.mem_singleton.mpr rfl))
    exact (ih fun p hp => hall p (List.mem_append_left _ hp)).step hc hn

/-- Two conditions on steps that agree wherever the second has held so far single out the
same runs. -/
theorem Trace.forall_iff {R : S → A → Prop} {tr : List (S × A)} (h : M.Trace s₀ tr s)
    (hstep : ∀ s a s', M.ReachBy cond s₀ s → M.next s a = some s' → (R s a ↔ cond s a)) :
    (∀ p ∈ tr, R p.1 p.2) ↔ ∀ p ∈ tr, cond p.1 p.2 := by
  induction h with
  | nil =>
    constructor
    · intro _ p hp
      cases hp
    · intro _ p hp
      cases hp
  | @snoc tr s s' a h hn ih =>
    simp only [List.forall_mem_append, List.forall_mem_singleton, ih]
    constructor
    · rintro ⟨hall, hlast⟩
      exact ⟨hall, (hstep s a s' (h.reachBy hall) hn).mp hlast⟩
    · rintro ⟨hall, hlast⟩
      exact ⟨hall, (hstep s a s' (h.reachBy hall) hn).mpr hlast⟩

/-! ### Conditions on a list of actions -/

/-- Every action of the list satisfies `cond` in the state it is taken in, as far as the
actions are enabled. -/
def Along (M : Machine S A) (cond : S → A → Prop) : S → List A → Prop
  | _, [] => True
  | s, a :: as => cond s a ∧ ∀ s', M.next s a = some s' → Along M cond s' as

theorem along_cons {a : A} {as : List A} (hn : M.next s a = some s') :
    M.Along cond s (a :: as) ↔ cond s a ∧ M.Along cond s' as := by
  rw [Along, hn]
  simp

/-- What holds of every action of the list in any state holds along the run. -/
theorem along_of_forall {as : List A} (h : ∀ s, ∀ a ∈ as, cond s a) : M.Along cond s as := by
  induction as generalizing s with
  | nil => trivial
  | cons a as ih =>
    refine ⟨h s a List.mem_cons_self, fun s' _ => ?_⟩
    exact ih fun s a ha => h s a (List.mem_cons_of_mem _ ha)

/-! ### Executing a list of actions -/

section Exec

variable [∀ s a, Decidable (cond s a)]

/-- Run a list of actions, stopping with `none` where one is not enabled or does not
satisfy the condition. -/
def exec (M : Machine S A) (cond : S → A → Prop) [∀ s a, Decidable (cond s a)] :
    S → List A → Option S
  | s, [] => some s
  | s, a :: as => if cond s a then (M.next s a).bind fun s' => exec M cond s' as else none

theorem reachBy_of_exec {as : List A} (h : M.exec cond s as = some s') :
    M.ReachBy cond s s' := by
  induction as generalizing s with
  | nil => cases h; exact .refl
  | cons a as ih =>
    simp only [exec] at h
    split_ifs at h with hc
    obtain ⟨u, hu, hrest⟩ := Option.bind_eq_some_iff.mp h
    exact (ReachBy.refl.step hc hu).trans (ih hrest)

theorem along_of_exec {as : List A} (h : (M.exec cond s as).isSome = true) :
    M.Along cond s as := by
  induction as generalizing s with
  | nil => trivial
  | cons a as ih =>
    obtain ⟨s', hs'⟩ := Option.isSome_iff_exists.mp h
    simp only [exec] at hs'
    split_ifs at hs' with hc
    obtain ⟨u, hu, hrest⟩ := Option.bind_eq_some_iff.mp hs'
    rw [along_cons hu]
    exact ⟨hc, ih (by rw [hrest]; rfl)⟩

/-- A list of actions that runs to a state where `p` holds shows such a state reachable. -/
theorem exists_reachBy_of_exec (as : List A) (p : S → Bool)
    (h : (M.exec cond s as).any p = true) : ∃ s', M.ReachBy cond s s' ∧ p s' = true := by
  cases hx : M.exec cond s as with
  | none => simp [hx] at h
  | some s' => exact ⟨s', reachBy_of_exec hx, by simpa [hx] using h⟩

end Exec

/-- Run a list of actions with no condition on them. -/
def run (M : Machine S A) (s : S) (as : List A) : Option S := M.exec (fun _ _ => True) s as

theorem exists_trace_of_run {as : List A} (h : M.run s as = some s') : ∃ tr, M.Trace s tr s' := by
  obtain ⟨tr, htr, -⟩ := (reachBy_of_exec h).exists_trace
  exact ⟨tr, htr⟩

/-- The record of a run begins with the first of its actions. -/
theorem exists_trace_of_run_cons {a : A} {as : List A} (h : M.run s (a :: as) = some s') :
    ∃ s₁ tr, M.next s a = some s₁ ∧ M.Trace s ((s, a) :: tr) s' := by
  have h : (M.next s a).bind (fun s₁ => M.run s₁ as) = some s' := by simpa [run, exec] using h
  obtain ⟨s₁, hs₁, hrest⟩ := Option.bind_eq_some_iff.mp h
  obtain ⟨tr, htr⟩ := exists_trace_of_run hrest
  exact ⟨s₁, tr, hs₁, (Trace.nil.snoc hs₁).append htr⟩

theorem exists_reach_of_run (as : List A) (p : S → Bool) (h : (M.run s as).any p = true) :
    ∃ s', M.Reach s s' ∧ p s' = true :=
  exists_reachBy_of_exec as p h

/-- Run a list of actions and keep the record. -/
def record (M : Machine S A) : S → List A → Option (List (S × A) × S)
  | s, [] => some ([], s)
  | s, a :: as => (M.next s a).bind fun s' => (record M s' as).map fun q => ((s, a) :: q.1, q.2)

theorem trace_of_record {as : List A} {tr : List (S × A)} (h : M.record s as = some (tr, s')) :
    M.Trace s tr s' := by
  induction as generalizing s tr with
  | nil =>
    cases h
    exact .nil
  | cons a as ih =>
    obtain ⟨s₁, hs₁, hrest⟩ := Option.bind_eq_some_iff.mp h
    obtain ⟨⟨tr', u⟩, hu, hq⟩ := Option.map_eq_some_iff.mp hrest
    cases hq
    exact (Trace.nil.snoc hs₁).append (ih hu)

/-- A list of actions whose record and last state satisfy `p` shows such a run. -/
theorem exists_trace_of_record (as : List A) (p : List (S × A) → S → Bool)
    (h : (M.record s as).any (fun q => p q.1 q.2) = true) :
    ∃ tr s', M.Trace s tr s' ∧ p tr s' = true := by
  cases hx : M.record s as with
  | none => simp [hx] at h
  | some q => exact ⟨q.1, q.2, trace_of_record hx, by simpa [hx] using h⟩

end Machine

/-! ## Threads over a shared store -/

/-- A configuration of threads: the shared store and each thread's local state. -/
structure Config (ι σ l : Type*) where
  shared : σ
  loc : ι → l

namespace Config

variable {ι σ l : Type*} [DecidableEq ι]

/-- The configuration after thread `t` moved to `x`, leaving the store `s`. -/
def set (c : Config ι σ l) (t : ι) (s : σ) (x : l) : Config ι σ l :=
  ⟨s, Function.update c.loc t x⟩

@[simp] theorem set_shared (c : Config ι σ l) (t : ι) (s : σ) (x : l) :
    (c.set t s x).shared = s := rfl

@[simp] theorem set_loc_self (c : Config ι σ l) (t : ι) (s : σ) (x : l) :
    (c.set t s x).loc t = x := Function.update_self ..

@[simp] theorem set_loc_of_ne {c : Config ι σ l} {t u : ι} (h : u ≠ t) (s : σ) (x : l) :
    (c.set t s x).loc u = c.loc u := Function.update_of_ne h ..

/-- A thread at a point `p` is still there after a move of `t`, unless it is `t` itself. -/
theorem exists_set {c : Config ι σ l} {p : l → Prop} (h : ∃ u, p (c.loc u)) (t : ι) (s : σ)
    (x : l) : p (c.loc t) ∨ ∃ u, p ((c.set t s x).loc u) := by
  obtain ⟨u, hu⟩ := h
  by_cases hut : u = t
  · subst hut
    exact Or.inl hu
  · exact Or.inr ⟨u, by rwa [set_loc_of_ne hut]⟩

/-- What holds of the thread that moved and of the others holds of all. -/
theorem forall_set {c : Config ι σ l} {P : ι → l → Prop} {t : ι} {s : σ} {x : l} (ht : P t x)
    (h : ∀ u, u ≠ t → P u (c.loc u)) (u : ι) : P u ((c.set t s x).loc u) := by
  by_cases hut : u = t
  · subst hut
    rwa [set_loc_self]
  · rw [set_loc_of_ne hut]
    exact h u hut

/-- One thread at most is at points `p`, where the one that moves gets there only while no
other one is. -/
theorem unique_set {c : Config ι σ l} {p : l → Prop} {t : ι} {s : σ} {x : l}
    (h : ∀ u v, p (c.loc u) → p (c.loc v) → u = v) (hx : p x → ∀ u, u ≠ t → ¬ p (c.loc u))
    (u v : ι) (hu : p ((c.set t s x).loc u)) (hv : p ((c.set t s x).loc v)) : u = v := by
  by_cases hut : u = t
  · by_cases hvt : v = t
    · rw [hut, hvt]
    · rw [hut, set_loc_self] at hu
      rw [set_loc_of_ne hvt] at hv
      exact absurd hv (hx hu v hvt)
  · rw [set_loc_of_ne hut] at hu
    by_cases hvt : v = t
    · rw [hvt, set_loc_self] at hv
      exact absurd hu (hx hv u hut)
    · rw [set_loc_of_ne hvt] at hv
      exact h u v hu hv

theorem set_loc (c : Config ι σ l) (t : ι) (s : σ) (x : l) :
    (c.set t s x).loc = Function.update c.loc t x := rfl

@[simp] theorem set_self (c : Config ι σ l) (t : ι) : c.set t c.shared (c.loc t) = c := by
  simp [set]

@[simp] theorem set_set (c : Config ι σ l) (t : ι) (s s' : σ) (x x' : l) :
    (c.set t s x).set t s' x' = c.set t s' x' := by
  simp [set]

end Config

section Interleave

variable {ι ε σ l : Type*} [DecidableEq ι]

/-- The interleaving of threads: in action `(t, e)` thread `t` makes one step of its own,
the event `e` resolving what its program leaves open. -/
def interleave (step : ι → ε → σ → l → Option (σ × l)) : Machine (Config ι σ l) (ι × ε) where
  next c a := (step a.1 a.2 c.shared (c.loc a.1)).map fun p => c.set a.1 p.1 p.2

variable {step : ι → ε → σ → l → Option (σ × l)}

theorem interleave_next {c c' : Config ι σ l} {t : ι} {e : ε} :
    (interleave step).next c (t, e) = some c' ↔
      ∃ s x, step t e c.shared (c.loc t) = some (s, x) ∧ c' = c.set t s x := by
  simp only [interleave, Option.map_eq_some_iff, Prod.exists]
  constructor
  · rintro ⟨s, x, hs, rfl⟩
    exact ⟨s, x, hs, rfl⟩
  · rintro ⟨s, x, hs, rfl⟩
    exact ⟨s, x, hs, rfl⟩

theorem Machine.Trace.snoc_interleave {c₀ c : Config ι σ l} {tr : List (Config ι σ l × (ι × ε))}
    {t : ι} {e : ε} {s : σ} {x : l} (h : (interleave step).Trace c₀ tr c)
    (hs : step t e c.shared (c.loc t) = some (s, x)) :
    (interleave step).Trace c₀ (tr ++ [(c, (t, e))]) (c.set t s x) :=
  h.snoc (interleave_next.mpr ⟨s, x, hs, rfl⟩)

/-- The invariant rule for interleaved threads: one thread moves, the others keep their
local states. -/
theorem Machine.ReachBy.interleave_invariant {I : Config ι σ l → Prop}
    {cond : Config ι σ l → ι × ε → Prop} {c₀ c : Config ι σ l}
    (h : (interleave step).ReachBy cond c₀ c) (h0 : I c₀)
    (hstep : ∀ c t e s x, I c → cond c (t, e) → step t e c.shared (c.loc t) = some (s, x) →
      I (c.set t s x)) : I c := by
  refine h.invariant h0 ?_
  rintro c ⟨t, e⟩ c' hI hc hn
  obtain ⟨s, x, hs, rfl⟩ := interleave_next.mp hn
  exact hstep c t e s x hI hc hs

/-- What a thread has behind it: where `Q` after a step means `Q` before it and `R` in the
state it was taken in, a thread with `Q` has taken all its steps in states with `R`. -/
theorem Machine.Trace.history {Q R : l → Prop} {c₀ c : Config ι σ l}
    {tr : List (Config ι σ l × (ι × ε))} (h : (interleave step).Trace c₀ tr c)
    (hstep : ∀ t e s x s' x', step t e s x = some (s', x') → Q x' → Q x ∧ R x) {t : ι}
    (ht : Q (c.loc t)) : ∀ p ∈ tr, p.2.1 = t → R (p.1.loc t) := by
  induction h with
  | nil => intro p hp; cases hp
  | @snoc tr c c' a h hn ih =>
    obtain ⟨u, e⟩ := a
    obtain ⟨s, x, hs, rfl⟩ := interleave_next.mp hn
    intro p hp hpt
    by_cases hut : u = t
    · subst hut
      rw [Config.set_loc_self] at ht
      obtain ⟨hQ, hR⟩ := hstep u e _ _ _ _ hs ht
      rcases List.mem_append.mp hp with hp | hp
      · exact ih hQ p hp hpt
      · rw [List.mem_singleton.mp hp]
        exact hR
    · rw [Config.set_loc_of_ne (Ne.symm hut)] at ht
      rcases List.mem_append.mp hp with hp | hp
      · exact ih ht p hp hpt
      · rw [List.mem_singleton.mp hp] at hpt
        exact absurd hpt hut

end Interleave

/-! ### One thread alone -/

section Alone

variable {ι ε σ l : Type*} {step : ι → ε → σ → l → Option (σ × l)}

/-- Thread `t` moves alone from store `s` and point `x`, at points with `P` only. -/
inductive Solo (step : ι → ε → σ → l → Option (σ × l)) (P : l → Prop) (t : ι) (s : σ) (x : l) :
    σ → l → Prop
  | refl : Solo step P t s x s x
  | step {s' s'' : σ} {x' x'' : l} {e : ε} (h : Solo step P t s x s' x') (hp : P x')
      (hn : step t e s' x' = some (s'', x'')) : Solo step P t s x s'' x''

namespace Solo

variable {P : l → Prop} {t : ι} {s s' s'' : σ} {x x' x'' : l}

theorem single {e : ε} (hp : P x) (hn : step t e s x = some (s', x')) : Solo step P t s x s' x' :=
  Solo.refl.step hp hn

theorem trans (h : Solo step P t s x s' x') (h' : Solo step P t s' x' s'' x'') :
    Solo step P t s x s'' x'' := by
  induction h' with
  | refl => exact h
  | step _ hp hn ih => exact ih.step hp hn

/-- One step, and then the rest. -/
theorem head {e : ε} (hp : P x) (hn : step t e s x = some (s', x'))
    (h : Solo step P t s' x' s'' x'') : Solo step P t s x s'' x'' :=
  (single hp hn).trans h

/-- The moves of one thread are a run of all threads, where the condition on a run allows
every step that this thread makes at a point with `P` while the others stand still. -/
theorem reachBy [DecidableEq ι] {cond : Config ι σ l → ι × ε → Prop} {c : Config ι σ l}
    (h : Solo step P t c.shared (c.loc t) s x)
    (hcond : ∀ s x e, P x → cond (c.set t s x) (t, e)) :
    (interleave step).ReachBy cond c (c.set t s x) := by
  induction h with
  | refl => simpa using Machine.ReachBy.refl
  | @step s' s'' x' x'' e h hp hn ih =>
    refine ih.step (a := (t, e)) (hcond s' x' e hp) (interleave_next.mpr ⟨s'', x'', ?_, ?_⟩)
    · simpa using hn
    · simp

end Solo

end Alone

end OsLabs.Concurrent
