import OsLabs.Obakery.Tickets

/-!
# The single-threaded ticket server: running out of slots

`get_number_1_svc` draws a new slot for every request and never gives one back. It does
not compare `index_last` with `COUNT_CLIENTS`, and it has no reply for a client that comes
too late: the client waits for `num = -1`, and the server never says it. So a history is
answered as the client expects exactly where it has no more requests for a ticket than
there are slots (`slots_iff`); the next one writes behind both arrays.
-/

namespace OsLabs.Obakery

open Concurrent

variable {F : Type}

/-- The request asks for a ticket. -/
def Request.isGetNumber : Request F → Bool
  | .getNumber _ => true
  | .serve .. => false

/-- Only issued indices are served; any number of tickets is drawn. -/
def ServesIssued (c : Service F) : Request F → Prop
  | .getNumber _ => True
  | .serve argp _ => ∃ reply ∈ issued c.log, reply.ind = argp.ind

/-- A request for a ticket writes both arrays in their bounds only. Where no slot is left,
it is answered with `-1`, and the slots and their counter stay as they are. -/
def Answered (n : ℕ) (c : Service F) : Request F → Prop
  | .getNumber _ => ∃ s reply, getNumber1Svc n c.server = some (s, reply) ∧
      (∀ i, n ≤ i → s.numbers i = c.server.numbers i ∧ s.choosing i = c.server.choosing i) ∧
      (n ≤ c.server.indexLast → reply.num = -1 ∧ s.numbers = c.server.numbers ∧
        s.choosing = c.server.choosing ∧ s.indexLast = c.server.indexLast)
  | .serve .. => True

section Requests

variable {n : ℕ}

/-- A request for a ticket is answered as the client expects exactly where a slot is left. -/
theorem answered_getNumber_iff {c : Service F} (argp : Bakery F) :
    Answered n c (.getNumber argp) ↔ c.server.indexLast < n := by
  constructor
  · rintro ⟨s, reply, hs, -⟩
    exact (getNumber_spec hs).1
  · intro hlt
    obtain ⟨⟨s, reply⟩, hs⟩ : ∃ p, getNumber1Svc n c.server = some p := ⟨_, if_pos hlt⟩
    refine ⟨s, reply, hs, fun i hi => ?_, fun hle => absurd hlt (Nat.not_lt.mpr hle)⟩
    apply getNumber_frame hs
    omega

end Requests

section Histories

variable [Add F] [Sub F] [Mul F] [Div F] {n : ℕ} {c : Service F}

/-- A history of requests from any state that keeps the invariant. -/
theorem Inv.along_answered_iff (hI : Inv n c) {rs : List (Request F)}
    (h : (service F n).Along ServesIssued c rs) : (service F n).Along (Answered n) c rs ↔
      (issued c.log).length + rs.countP Request.isGetNumber ≤ n := by
  induction rs generalizing c with
  | nil => exact iff_of_true trivial hI.bound
  | cons r rs ih =>
    rcases r with argp | ⟨argp, ticks⟩
    · rw [List.countP_cons_of_pos rfl]
      by_cases hlt : (issued c.log).length < n
      · obtain ⟨s, reply, hs, hI', -⟩ := hI.getNumber hlt
        have hn : (service F n).next c (.getNumber argp) = some ⟨s, c.log ++ [.number reply]⟩ := by
          simp [service, bakeryProg1, hs]
        have hrest := ih hI' ((Machine.along_cons hn).mp h).2
        rw [issued_append, issued_number, List.length_append, List.length_singleton] at hrest
        rw [Machine.along_cons hn, answered_getNumber_iff, hI.indexLast, hrest]
        omega
      -- the slots are used up: the request is not answered, and there is one too many
      · constructor
        · rintro ⟨hans, -⟩
          rw [answered_getNumber_iff, hI.indexLast] at hans
          omega
        · intro hle
          omega
    · rw [List.countP_cons_of_neg (by simp [Request.isGetNumber])]
      obtain ⟨s, reply, hs, hI', -⟩ := hI.serve h.1 ticks
      have hn : (service F n).next c (.serve argp ticks) =
          some ⟨s, c.log ++ [.served argp.ind.toNat (c.server.numbers argp.ind.toNat)
            (refuses c.server argp.ind) reply]⟩ := by
        simp [service, bakeryProg1, hs]
      have hrest := ih hI' ((Machine.along_cons hn).mp h).2
      rw [issued_append, issued_served, List.append_nil] at hrest
      rw [Machine.along_cons hn, hrest]
      exact and_iff_right trivial

variable [Zero F]

/-- **Running out of slots.** Every history of any number of requests for a ticket and of
`serve` requests on issued indices: all its requests for a ticket write in the bounds of
the arrays, and are answered with `-1` and without effect once no slot is left, if and
only if there are no more of them than slots. -/
theorem slots_iff {rs : List (Request F)}
    (h : (service F n).Along ServesIssued (initial F) rs) :
    (service F n).Along (Answered n) (initial F) rs ↔ rs.countP Request.isGetNumber ≤ n := by
  have hiff := (inv_initial n).along_answered_iff h
  rwa [show (issued (initial F).log).length = 0 from rfl, Nat.zero_add] at hiff

end Histories

/-! ### One request too many -/

instance (c : Service F) : (r : Request F) → Decidable (ServesIssued c r)
  | .getNumber _ => inferInstanceAs (Decidable True)
  | .serve .. => inferInstanceAs (Decidable (∃ reply ∈ _, _))

/-- The two tickets of `lateHistory` are drawn in the bounds of two slots. -/
theorem slots_iff_late : (service ℤ 2).Along ServesIssued (initial ℤ) lateHistory ∧
    (service ℤ 2).Along (Answered 2) (initial ℤ) lateHistory := by
  have hrun : ((service ℤ 2).exec ServesIssued (initial ℤ) lateHistory).isSome = true := by decide
  have hissued := Machine.along_of_exec hrun
  exact ⟨hissued, (slots_iff hissued).mpr (by decide)⟩

/-- As many requests for a ticket as there are slots, and one more. -/
def crowd (n : ℕ) : List (Request ℤ) := List.replicate (n + 1) (.getNumber (argument 0 0))

theorem countP_crowd (n : ℕ) : (crowd n).countP Request.isGetNumber = n + 1 := by
  simp [crowd, List.countP_replicate, Request.isGetNumber]

/-- The last client of a crowd gets no answer, with the 1000 slots of the program. -/
theorem out_of_slots : ¬ ∀ rs : List (Request ℤ),
    (service ℤ 1000).Along ServesIssued (initial ℤ) rs →
      (service ℤ 1000).Along (Answered 1000) (initial ℤ) rs := by
  intro h
  have hissued : (service ℤ 1000).Along ServesIssued (initial ℤ) (crowd 1000) := by
    apply Machine.along_of_forall
    intro c r hr
    rw [List.eq_of_mem_replicate hr]
    trivial
  have hle := ((inv_initial 1000).along_answered_iff hissued).mp (h _ hissued)
  rw [countP_crowd] at hle
  omega

end OsLabs.Obakery
