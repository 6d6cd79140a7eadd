import OsLabs.Concurrent.Machine

/-!
# Outcomes of attempts, and functional simulations

An environment tries actions one after another; an attempt that is not enabled leaves the
state as it is. `outcomes s as` tells which of the attempts succeed. Where the states of
one machine are the images `f s` of those of another, action by action, the attempts have
the same outcomes and the machines have the same runs (`Simulates`).
-/

namespace OsLabs.Concurrent.Machine

variable {S T A : Type*} {M : Machine S A} {N : Machine T A} {f : S → T} {I : S → Prop}

/-- The state after an attempt: unchanged where the action is not enabled. -/
def attempt (M : Machine S A) (s : S) (a : A) : S := (M.next s a).getD s

/-- Which of the attempts succeed. -/
def outcomes (M : Machine S A) : S → List A → List Bool
  | _, [] => []
  | s, a :: as => (M.next s a).isSome :: outcomes M (M.attempt s a) as

/-- `N` makes on the images `f s` exactly the steps that `M` makes, at the states with `I`. -/
structure Simulates (N : Machine T A) (M : Machine S A) (f : S → T) (I : S → Prop) : Prop where
  next : ∀ s a, I s → N.next (f s) a = (M.next s a).map f
  keeps : ∀ s a s', I s → M.next s a = some s' → I s'

namespace Simulates

theorem attempt_keeps (h : Simulates N M f I) {s : S} (hs : I s) (a : A) : I (M.attempt s a) := by
  unfold attempt
  cases hn : M.next s a with
  | none => exact hs
  | some s' => exact h.keeps s a s' hs hn

theorem attempt_eq (h : Simulates N M f I) {s : S} (hs : I s) (a : A) :
    N.attempt (f s) a = f (M.attempt s a) := by
  unfold attempt
  rw [h.next s a hs]
  cases M.next s a <;> rfl

/-- The same attempts succeed. -/
theorem outcomes_eq (h : Simulates N M f I) {s : S} (hs : I s) (as : List A) :
    N.outcomes (f s) as = M.outcomes s as := by
  induction as generalizing s with
  | nil => rfl
  | cons a as ih =>
    rw [outcomes, outcomes, h.attempt_eq hs, ih (h.attempt_keeps hs a), h.next s a hs,
      Option.isSome_map]

/-- The same lists of actions are runs, and they end in corresponding states. -/
theorem run_eq (h : Simulates N M f I) {s : S} (hs : I s) (as : List A) :
    N.run (f s) as = (M.run s as).map f := by
  induction as generalizing s with
  | nil => rfl
  | cons a as ih =>
    simp only [run, exec, if_true]
    rw [h.next s a hs]
    cases hn : M.next s a with
    | none => rfl
    | some s' => exact ih (h.keeps s a s' hs hn)

end Simulates

/-! ## Bisimulation -/

section Bisimulation

variable {B : Type*} {N : Machine T B} {g : A → B} {cond : S → A → Prop} {cond' : T → B → Prop}
  {s₀ s : S} {u : T}

/-- At the states with `I`, the steps of `M` with `cond` are those of `N` with `cond'` on the
images `f s`, where the images `g a` forget what `N` has no use for. -/
structure Bisimulates (M : Machine S A) (N : Machine T B) (cond : S → A → Prop)
    (cond' : T → B → Prop) (f : S → T) (g : A → B) (I : S → Prop) : Prop where
  step : ∀ s a s', I s → cond s a → M.next s a = some s' →
    I s' ∧ cond' (f s) (g a) ∧ N.next (f s) (g a) = some (f s')
  back : ∀ s b u, I s → cond' (f s) b → N.next (f s) b = some u →
    ∃ a s', g a = b ∧ cond s a ∧ M.next s a = some s' ∧ f s' = u

namespace Bisimulates

theorem reachBy (h : Bisimulates M N cond cond' f g I) (hs : I s₀) (hr : M.ReachBy cond s₀ s) :
    I s ∧ N.ReachBy cond' (f s₀) (f s) := by
  induction hr with
  | refl => exact ⟨hs, .refl⟩
  | step _ hc hn ih =>
    obtain ⟨hI, hreach⟩ := ih
    obtain ⟨hI', hc', hn'⟩ := h.step _ _ _ hI hc hn
    exact ⟨hI', hreach.step hc' hn'⟩

theorem exists_reachBy (h : Bisimulates M N cond cond' f g I) (hs : I s₀)
    (hr : N.ReachBy cond' (f s₀) u) : ∃ s, M.ReachBy cond s₀ s ∧ f s = u := by
  induction hr with
  | refl => exact ⟨s₀, .refl, rfl⟩
  | step _ hc hn ih =>
    obtain ⟨s, hreach, rfl⟩ := ih
    obtain ⟨a, s', -, hc', hn', hu⟩ := h.back s _ _ (h.reachBy hs hreach).1 hc hn
    exact ⟨s', hreach.step hc' hn', hu⟩

end Bisimulates

end Bisimulation

end OsLabs.Concurrent.Machine
