import OsLabs.Concurrent.Machine

/-!
# A section for one thread at a time

`Guarded inside Q I c` says that at most one thread is inside a section: where nobody is,
the store satisfies `Q`; where thread `t` is, `I t` says what it finds in the store at its
point. The thread inside may use what `I` says, and owes it at its next point, or `Q` where
it leaves. A thread outside changes nothing, or it enters, which it can do only where `I`
holds of nobody.
-/

namespace OsLabs.Concurrent

variable {ι σ l : Type*} {inside : l → Prop} {Q : σ → Prop} {I : ι → σ → l → Prop}
  {c : Config ι σ l} {t : ι} {s : σ} {x : l}

/-- Nobody is inside, or one thread is. -/
def Guarded (inside : l → Prop) (Q : σ → Prop) (I : ι → σ → l → Prop) (c : Config ι σ l) : Prop :=
  (Q c.shared ∧ ∀ t, ¬ inside (c.loc t)) ∨
    ∃ t, I t c.shared (c.loc t) ∧ inside (c.loc t) ∧ ∀ u, inside (c.loc u) → u = t

/-- What thread `t` leaves when it comes to point `x` with the store `s`. -/
def Leaves (inside : l → Prop) (Q : σ → Prop) (I : ι → σ → l → Prop) (t : ι) (s : σ) (x : l) :
    Prop :=
  (inside x ∧ I t s x) ∨ (¬ inside x ∧ Q s)

namespace Guarded

theorem owner (hG : Guarded inside Q I c) (ht : inside (c.loc t)) : I t c.shared (c.loc t) := by
  rcases hG with ⟨-, hout⟩ | ⟨u, hI, -, honly⟩
  · exact absurd ht (hout t)
  · rw [honly t ht]
    exact hI

variable [DecidableEq ι]

/-- A step of the only thread that may be inside. -/
theorem set_of_only (honly : ∀ u, inside (c.loc u) → u = t) (h : Leaves inside Q I t s x) :
    Guarded inside Q I (c.set t s x) := by
  have hothers : ∀ u, u ≠ t → ¬ inside ((c.set t s x).loc u) := by
    intro u hu hin
    rw [Config.set_loc_of_ne hu] at hin
    exact hu (honly u hin)
  rcases h with ⟨hin, hI⟩ | ⟨hout, hQ⟩
  · refine Or.inr ⟨t, by simpa using hI, by simpa using hin, fun u hu => ?_⟩
    by_contra hne
    exact hothers u hne hu
  · refine Or.inl ⟨hQ, fun u => ?_⟩
    by_cases hu : u = t
    · rwa [hu, Config.set_loc_self]
    · exact hothers u hu

/-- One thread moves: the one inside, one that stays outside, or one that enters. -/
theorem step (hG : Guarded inside Q I c)
    (hin : inside (c.loc t) → I t c.shared (c.loc t) → Leaves inside Q I t s x)
    (hout : ¬ inside (c.loc t) → (s = c.shared ∧ ¬ inside x) ∨
      ((∀ u y, inside y → ¬ I u c.shared y) ∧ (Q c.shared → inside x ∧ I t s x))) :
    Guarded inside Q I (c.set t s x) := by
  rcases hG with ⟨hQ, hnone⟩ | ⟨u, hI, hu, honly⟩
  · refine set_of_only (fun v hv => absurd hv (hnone v)) ?_
    rcases hout (hnone t) with ⟨rfl, hx⟩ | ⟨-, henter⟩
    · exact Or.inr ⟨hx, hQ⟩
    · exact Or.inl (henter hQ)
  · by_cases htu : t = u
    · subst htu
      exact set_of_only honly (hin hu hI)
    · rcases hout fun ht => htu (honly t ht) with ⟨rfl, hx⟩ | ⟨hfree, -⟩
      · refine Or.inr ⟨u, ?_, ?_, fun v hv => ?_⟩
        · rwa [Config.set_loc_of_ne (Ne.symm htu)]
        · rwa [Config.set_loc_of_ne (Ne.symm htu)]
        · by_cases hvt : v = t
          · rw [hvt, Config.set_loc_self] at hv
            exact absurd hv hx
          · rw [Config.set_loc_of_ne hvt] at hv
            exact honly v hv
      · exact absurd hI (hfree u _ hu)

end Guarded

end OsLabs.Concurrent
