import Mathlib.Tactic.Common

/-!
# Programs with fuel

A program with loops is a function of its fuel, `none` where the fuel has run out.
`Yields f P` is total correctness: enough fuel gives a result, always the same one, and it
satisfies `P`. A loop whose body ends it with a result, or passes a state on, yields what
its invariant promises at the end, where a measure goes down with each pass (`Yields.loop`).
-/

namespace OsLabs

variable {σ ρ τ : Type*} {f : ℕ → Option ρ} {P Q : ρ → Prop}

/-- With enough fuel the program ends, with a result that satisfies `P`. -/
def Yields (f : ℕ → Option ρ) (P : ρ → Prop) : Prop :=
  ∃ r, P r ∧ ∃ n, ∀ m, n ≤ m → f m = some r

/-- A loop whose body passes a state on or ends it with a result. -/
def loop (body : σ → σ ⊕ ρ) : ℕ → σ → Option ρ
  | 0, _ => none
  | n + 1, s =>
      match body s with
      | .inl s' => loop body n s'
      | .inr r => some r

/-- More fuel changes no result. -/
theorem loop_mono {body : σ → σ ⊕ ρ} {n m : ℕ} {s : σ} {r : ρ} (h : loop body n s = some r)
    (hle : n ≤ m) : loop body m s = some r := by
  induction n generalizing m s with
  | zero => cases h
  | succ n ih =>
    obtain ⟨m, rfl⟩ := Nat.exists_eq_add_of_le' (show 1 ≤ m by omega)
    simp only [loop] at h ⊢
    cases hbody : body s with
    | inr r' => rwa [hbody] at h
    | inl s' =>
      rw [hbody] at h
      exact ih h (by omega)

namespace Yields

theorem pure {r : ρ} (hr : P r) : Yields (fun _ => some r) P :=
  ⟨r, hr, 0, fun _ _ => rfl⟩

theorem mono (h : Yields f P) (hPQ : ∀ r, P r → Q r) : Yields f Q := by
  obtain ⟨r, hr, hn⟩ := h
  exact ⟨r, hPQ r hr, hn⟩

/-- The rule of sequencing: the second program starts from a result of the first. -/
theorem bind {g : ρ → ℕ → Option τ} {R : τ → Prop} (h : Yields f P)
    (hg : ∀ r, P r → Yields (g r) R) : Yields (fun n => (f n).bind fun r => g r n) R := by
  obtain ⟨r, hr, n, hn⟩ := h
  obtain ⟨u, hu, k, hk⟩ := hg r hr
  refine ⟨u, hu, n + k, ?_⟩
  intro m hm
  show (f m).bind _ = some u
  rw [hn m (by omega), Option.bind_some, hk m (by omega)]

/-- The rule of loops: an invariant, and a measure that goes down. -/
theorem loop {body : σ → σ ⊕ ρ} {I : σ → Prop} (μ : σ → ℕ)
    (hpass : ∀ s s', I s → body s = .inl s' → I s' ∧ μ s' < μ s)
    (hend : ∀ s r, I s → body s = .inr r → P r) {s : σ} (hs : I s) :
    Yields (fun n => OsLabs.loop body n s) P := by
  induction hμ : μ s using Nat.strongRecOn generalizing s with
  | ind k ih =>
    cases hbody : body s with
    | inr r =>
      refine ⟨r, hend s r hs hbody, 1, ?_⟩
      intro m hm
      obtain ⟨m, rfl⟩ := Nat.exists_eq_add_of_le' hm
      simp only [OsLabs.loop, hbody]
    | inl s' =>
      obtain ⟨hs', hlt⟩ := hpass s s' hs hbody
      obtain ⟨r, hr, n, hn⟩ := ih (μ s') (hμ ▸ hlt) hs' rfl
      refine ⟨r, hr, n + 1, ?_⟩
      intro m hm
      obtain ⟨m, rfl⟩ := Nat.exists_eq_add_of_le' (show 1 ≤ m by omega)
      simp only [OsLabs.loop, hbody]
      exact hn m (by omega)

/-- Where more fuel changes no result, every result is the one promised. -/
theorem result (h : Yields f P) (hmono : ∀ n m r, f n = some r → n ≤ m → f m = some r) {n : ℕ}
    {r : ρ} (hr : f n = some r) : P r := by
  obtain ⟨r', hr', k, hk⟩ := h
  have heq := hk (n + k) (by omega)
  rw [hmono n (n + k) r hr (by omega)] at heq
  cases heq
  exact hr'

end Yields

end OsLabs
