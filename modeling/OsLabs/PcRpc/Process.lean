import OsLabs.PcRpc.Identity
import OsLabs.PcServer.Invariant

/-!
# The threaded dispatcher: what a step keeps

A step of the server process moves at most one worker inside its procedure, so what the
workers have returned stays (`result_step`); the request of a worker is the one it was
created for (`request_step`), and one that has been received (`has_step`). A worker comes
to its reply with the letter of its procedure, where the requests ask for the two
procedures only (`ready_step`).
-/

namespace OsLabs.PcRpc

open Concurrent PcServer Dispatch

variable {κ : Type} {n : ℕ} {u u' : State κ}

theorem pcProg1_server (u : State κ) (d : Datagram κ) : (pcProg1 u d).server = u.server := by
  unfold pcProg1
  split <;> rfl

/-- A worker is new, for the datagram that is dispatched, or was there before. -/
theorem thread_of_pcProg1 {d : Datagram κ} {t : ℕ} {th : Thread κ}
    (h : (pcProg1 u d).thread t = some th) :
    u.thread t = some th ∨ (th.request = d ∧ th.pc = .switch) := by
  unfold pcProg1 at h
  split at h
  · exact Or.inl h
  · rcases thread_cases h with ⟨rfl, rfl⟩ | ⟨_, h⟩
    · exact Or.inr ⟨rfl, rfl⟩
    · exact Or.inl h

/-- A step of the process moves at most one worker, inside its procedure. -/
theorem server_step {a : Action κ} (h : dispatchStep n u a = some u') :
    u'.server = u.server ∨
      ∃ t p, (PcServer.server ℕ n).next u.server (t, p) = some u'.server := by
  cases a with
  | receive d =>
    simp only [dispatchStep] at h
    split at h
    · cases h
      exact Or.inl rfl
    · cases h
  | dispatch =>
    simp only [dispatchStep] at h
    split at h
    · cases h
    · cases h
      exact Or.inl (pcProg1_server ..)
  | serve t =>
    simp only [dispatchStep] at h
    split at h
    · cases h
    · obtain ⟨⟨v, pc⟩, hv, rfl⟩ := Option.map_eq_some_iff.mp h
      rcases servRequest_cases hv with ⟨-, rfl, -, -⟩ | ⟨-, -, -, -, hs⟩ |
        ⟨p, msg, a, x, -, rfl, -, -⟩
      · exact Or.inl rfl
      · rcases hs with rfl | ⟨p, c, -, hc, rfl⟩
        · exact Or.inl rfl
        · exact Or.inr ⟨t, p, hc⟩
      · exact Or.inl rfl

/-- What a worker has returned stays. -/
theorem result_step {a : Action κ} (h : dispatchStep n u a = some u') {t : ℕ} {b : Char}
    (hr : result (u.server.loc t) = some b) : result (u'.server.loc t) = some b := by
  rcases server_step h with he | ⟨v, p, hv⟩
  · rwa [he]
  · obtain ⟨sh, w, hs, he⟩ := interleave_next.mp hv
    rw [he]
    by_cases hvt : t = v
    · subst hvt
      exact absurd hr (not_result_of_step hs b)
    · rwa [Config.set_loc_of_ne hvt]

theorem serverInv_step (hn : 0 < n) {a : Action κ} (h : dispatchStep n u a = some u')
    (hI : PcServer.Inv n u.server) : PcServer.Inv n u'.server := by
  rcases server_step h with he | ⟨v, p, hv⟩
  · rwa [he]
  · obtain ⟨sh, w, hs, he⟩ := interleave_next.mp hv
    rw [he]
    exact inv_step hn hI hs

/-- The request of a worker stays what it was. -/
theorem request_step (hI : Dispatch.Inv u) {a : Action κ} (h : dispatchStep n u a = some u')
    {t : ℕ} {th : Thread κ} (ht : u.thread t = some th) :
    ∃ th', u'.thread t = some th' ∧ th'.request = th.request := by
  cases a with
  | receive d =>
    simp only [dispatchStep] at h
    split at h
    · cases h
      exact ⟨th, ht, rfl⟩
    · cases h
  | dispatch =>
    simp only [dispatchStep] at h
    split at h
    · cases h
    · cases h
      have hne : t ≠ u.created := by
        rintro rfl
        rw [hI.fresh _ (le_refl _)] at ht
        cases ht
      refine ⟨th, ?_, rfl⟩
      unfold pcProg1
      split
      · exact ht
      · show Function.update u.thread u.created _ t = some th
        rwa [Function.update_of_ne hne]
  | serve v =>
    simp only [dispatchStep] at h
    cases hv : u.thread v with
    | none => rw [hv] at h; cases h
    | some thv =>
      rw [hv] at h
      obtain ⟨⟨w, pc⟩, hw, rfl⟩ := Option.map_eq_some_iff.mp h
      by_cases htv : t = v
      · subst htv
        rw [ht] at hv
        cases hv
        exact ⟨_, Function.update_self .., rfl⟩
      · exact ⟨th, (Function.update_of_ne htv ..).trans ht, rfl⟩

/-- The process has the datagram: the main thread has received it, or a worker has been
created for it. -/
def Has (u : State κ) (d : Datagram κ) : Prop :=
  u.main = .pcProg1 d ∨ u.last = some d ∨ ∃ t th, u.thread t = some th ∧ th.request = d

/-- A datagram comes into the process by its reception only. -/
theorem has_step {a : Action κ} (h : dispatchStep n u a = some u') {d : Datagram κ}
    (hd : Has u' d) : Has u d ∨ a = .receive d := by
  cases a with
  | receive d' =>
    simp only [dispatchStep] at h
    split at h
    · cases h
      rcases hd with hd | hd | hd
      · cases hd
        exact Or.inr rfl
      · cases hd
        exact Or.inr rfl
      · exact Or.inl (Or.inr (Or.inr hd))
    · cases h
  | dispatch =>
    simp only [dispatchStep] at h
    split at h
    · cases h
    next d' hmain =>
      cases h
      left
      have hrest : (pcProg1 u d').main = .svcRun ∧ (pcProg1 u d').last = u.last := by
        unfold pcProg1
        split <;> exact ⟨rfl, rfl⟩
      rcases hd with hd | hd | ⟨t, th, ht, rfl⟩
      · rw [hrest.1] at hd
        cases hd
      · exact Or.inr (Or.inl (hrest.2.symm.trans hd))
      · rcases thread_of_pcProg1 ht with ht | ⟨hreq, -⟩
        · exact Or.inr (Or.inr ⟨t, th, ht, rfl⟩)
        · rw [hreq]
          exact Or.inl hmain
  | serve v =>
    simp only [dispatchStep] at h
    cases hv : u.thread v with
    | none => rw [hv] at h; cases h
    | some thv =>
      rw [hv] at h
      obtain ⟨⟨w, pc⟩, hw, rfl⟩ := Option.map_eq_some_iff.mp h
      have hmain : w.main = u.main ∧ w.last = u.last := by
        rcases servRequest_cases hw with ⟨-, rfl, -, -⟩ | ⟨-, -, -, -, rfl | ⟨p, c, -, -, rfl⟩⟩ |
          ⟨p, msg, a, x, -, rfl, -, -⟩ <;> exact ⟨rfl, rfl⟩
      left
      rcases hd with hd | hd | ⟨t, th, ht, rfl⟩
      · exact Or.inl (hmain.1.symm.trans hd)
      · exact Or.inr (Or.inl (hmain.2.symm.trans hd))
      · rcases thread_cases ht with ⟨rfl, rfl⟩ | ⟨_, ht⟩
        · exact Or.inr (Or.inr ⟨t, thv, hv, rfl⟩)
        · exact Or.inr (Or.inr ⟨t, th, ht, rfl⟩)

/-- The worker that is about to reply has the letter of its procedure. -/
def Ready (u : State κ) : Prop :=
  ∀ t th, u.thread t = some th → ∀ p msg, th.pc = .sendreply p msg →
    ∃ b, msg = .letter b ∧ result (u.server.loc t) = some b

/-- Where the shared procedure number names a procedure, a worker comes to its reply from
its procedure only. -/
theorem ready_step (hrq : u.last ≠ none → u.rqProc = PRODUCER ∨ u.rqProc = CONSUMER)
    (hI : Dispatch.Inv u) {a : Action κ} (h : dispatchStep n u a = some u') (hR : Ready u) :
    Ready u' := by
  intro t th' ht' p msg hpc
  have hold : ∀ th, u.thread t = some th → th.pc = .sendreply p msg →
      ∃ b, msg = .letter b ∧ result (u'.server.loc t) = some b := by
    intro th ht hth
    obtain ⟨b, hb, hr⟩ := hR t th ht p msg hth
    exact ⟨b, hb, result_step h hr⟩
  cases a with
  | receive d =>
    simp only [dispatchStep] at h
    split at h
    · cases h
      exact hold th' ht' hpc
    · cases h
  | dispatch =>
    simp only [dispatchStep] at h
    split at h
    · cases h
    next d hmain =>
      cases h
      rcases thread_of_pcProg1 ht' with ht | ⟨-, hswitch⟩
      · exact hold th' ht hpc
      · rw [hswitch] at hpc
        cases hpc
  | serve v =>
    simp only [dispatchStep] at h
    cases hv : u.thread v with
    | none => rw [hv] at h; cases h
    | some th =>
      rw [hv] at h
      obtain ⟨⟨w, pc⟩, hw, rfl⟩ := Option.map_eq_some_iff.mp h
      rcases thread_cases ht' with ⟨rfl, rfl⟩ | ⟨_, ht⟩
      · have hlast := hrq (hI.received (Or.inr ⟨t, by rw [hv]; simp⟩))
        simp only at hpc
        subst hpc
        cases hth : th.pc with
        | switch =>
          rw [hth] at hw
          simp only [servRequest] at hw
          have hnull : u.rqProc ≠ NULLPROC := by
            rcases hlast with he | he <;> rw [he] <;> decide
          rw [if_neg hnull] at hw
          rcases hlast with he | he
          · rw [if_pos he] at hw
            cases hw
          · rw [if_neg (by rw [he]; decide), if_pos he] at hw
            cases hw
        | test q =>
          rw [hth] at hw
          simp only [servRequest] at hw
          split_ifs at hw <;> cases hw
        | call q =>
          rw [hth] at hw
          simp only [servRequest] at hw
          split at hw
          next b hb =>
            cases hw
            exact ⟨b, rfl, hb⟩
          next =>
            obtain ⟨c, hc, he⟩ := Option.map_eq_some_iff.mp hw
            cases he
        | sendreply q m =>
          rw [hth] at hw
          obtain ⟨⟨a, x⟩, -, he⟩ := Option.map_eq_some_iff.mp hw
          cases he
        | returned q m a x =>
          rw [hth] at hw
          cases hw
      · exact hold th' ht hpc

end OsLabs.PcRpc
