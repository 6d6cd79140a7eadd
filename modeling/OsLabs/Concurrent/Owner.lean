import Mathlib.Logic.Function.Basic
import Mathlib.Tactic.Common

/-!
# The owner of a critical section

Each thread is at a stage; `out` is the stage of the threads outside the section.
`Owner stage out loc g` says that at most one thread is inside, and that `g` is its stage
(`out` where nobody is inside). A thread inside moves on as the owner; a thread outside
becomes the owner only where there is none.
-/

namespace OsLabs.Concurrent

variable {ι l G : Type*} {stage : l → G} {out g : G} {loc : ι → l} {t u : ι} {x : l}

/-- At most one thread is inside, and its stage is `g`. -/
inductive Owner (stage : l → G) (out : G) (loc : ι → l) : G → Prop
  | nobody (h : ∀ t, stage (loc t) = out) : Owner stage out loc out
  | thread (t : ι) (ht : stage (loc t) ≠ out) (h : ∀ u, u ≠ t → stage (loc u) = out) :
      Owner stage out loc (stage (loc t))

namespace Owner

theorem eq_stage (h : Owner stage out loc g) (ht : stage (loc t) ≠ out) : g = stage (loc t) := by
  rcases h with h | ⟨u, _, h⟩
  · exact absurd (h t) ht
  · by_cases htu : t = u
    · rw [htu]
    · exact absurd (h t htu) ht

theorem unique (h : Owner stage out loc g) (ht : stage (loc t) ≠ out)
    (hu : stage (loc u) ≠ out) : t = u := by
  rcases h with h | ⟨v, _, h⟩
  · exact absurd (h t) ht
  · have htv : t = v := by
      by_contra hne
      exact ht (h t hne)
    have huv : u = v := by
      by_contra hne
      exact hu (h u hne)
    rw [htv, huv]

theorem out_of_ne (h : Owner stage out loc g) (ht : stage (loc t) ≠ out) (hu : u ≠ t) :
    stage (loc u) = out := by
  by_contra hne
  exact hu (h.unique hne ht)

/-- Nobody is inside when the stage is `out`. -/
theorem eq_out (h : Owner stage out loc g) (hg : g = out) (t : ι) : stage (loc t) = out := by
  by_contra ht
  exact ht ((h.eq_stage ht).symm.trans hg)

theorem of_out (h : Owner stage out loc g) (ht : ∀ t, stage (loc t) = out) : g = out := by
  rcases h with _ | ⟨t, hne, _⟩
  · rfl
  · exact absurd (ht t) hne

variable [DecidableEq ι]

/-- The owner moves, or a thread enters the free section. -/
theorem move (h : Owner stage out loc g) (ht : stage (loc t) ≠ out ∨ g = out) :
    Owner stage out (Function.update loc t x) (stage x) := by
  have hothers (u : ι) (hu : u ≠ t) : stage (Function.update loc t x u) = out := by
    rw [Function.update_of_ne hu]
    rcases ht with ht | ht
    · exact h.out_of_ne ht hu
    · exact h.eq_out ht u
  by_cases hx : stage x = out
  · rw [hx]
    apply Owner.nobody
    intro u
    by_cases hu : u = t
    · rw [hu, Function.update_self, hx]
    · exact hothers u hu
  · have hself : stage (Function.update loc t x t) = stage x := by rw [Function.update_self]
    rw [← hself]
    exact Owner.thread t (by rwa [hself]) hothers

/-- A thread outside moves and stays outside. -/
theorem stay (h : Owner stage out loc g) (ht : stage (loc t) = out) (hx : stage x = out) :
    Owner stage out (Function.update loc t x) g := by
  rcases h with h | ⟨u, hu, h⟩
  · apply Owner.nobody
    intro v
    by_cases hv : v = t
    · rw [hv, Function.update_self, hx]
    · rw [Function.update_of_ne hv, h v]
  · have hut : u ≠ t := by
      rintro rfl
      exact hu ht
    have hself : stage (Function.update loc t x u) = stage (loc u) := by
      rw [Function.update_of_ne hut]
    rw [← hself]
    refine Owner.thread u (by rwa [hself]) ?_
    intro v hv
    by_cases hvt : v = t
    · rw [hvt, Function.update_self, hx]
    · rw [Function.update_of_ne hvt, h v hv]

end Owner

end OsLabs.Concurrent
