import OsLabs.Obakery.Tickets

/-!
# The single-threaded ticket server: the refusal flag

The reply of `serve_1_svc` is a static structure. A refusal sets its `num` to `-1`, and
nothing sets it back: from the first refusal on, every reply says `-1`, whoever asks. So
the replies of a history tell refused from accepted requests exactly when no request is
accepted after a refusal (`flag_iff`).
-/

namespace OsLabs.Obakery

open Concurrent

variable {F : Type}

/-- The entry is a `serve` request that was refused. -/
def Handled.isRefused : Handled F → Bool
  | .number _ => false
  | .served _ _ refused _ => refused

/-- Some request of the history was refused. -/
def anyRefused (log : List (Handled F)) : Bool := log.any Handled.isRefused

/-- The reply to a `serve` request has `num = -1` exactly where it was refused. -/
def FlagRight : Handled F → Prop
  | .number _ => True
  | .served _ _ refused reply => reply.num = -1 ↔ refused = true

/-- The `num` of the static result after a history. -/
def staticNum (log : List (Handled F)) : ℤ := if anyRefused log then -1 else 0

/-- What `serve_1_svc` replies after a history. -/
def RepliesStatic (past : List (Handled F)) : Handled F → Prop
  | .number _ => True
  | .served _ _ refused reply => reply.num = if refused then -1 else staticNum past

theorem staticNum_concat (log : List (Handled F)) (e : Handled F) :
    staticNum (log ++ [e]) = if e.isRefused then -1 else staticNum log := by
  unfold staticNum anyRefused
  rw [List.any_append]
  by_cases he : e.isRefused = true
  · simp [he]
  · simp [he]

theorem staticNum_eq_iff (log log' : List (Handled F)) :
    staticNum log = staticNum log' ↔ anyRefused log = anyRefused log' := by
  unfold staticNum
  cases anyRefused log <;> cases anyRefused log' <;> decide

/-- The static result and the replies taken from it. -/
structure Static (c : Service F) : Prop where
  num : c.server.serveResult.num = staticNum c.log
  replies : ∀ (k : ℕ) e, c.log[k]? = some e → RepliesStatic (c.log.take k) e

/-- A reply is right where the request was refused, or where none was refused before. -/
theorem Static.right_iff {c : Service F} (hS : Static c) {k ind ticket : ℕ} {refused : Bool}
    {reply : Bakery F} (hk : c.log[k]? = some (.served ind ticket refused reply)) :
    (reply.num = -1 ↔ refused = true) ↔
      (refused = true ∨ anyRefused (c.log.take k) = false) := by
  have hnum : reply.num = if refused then -1 else staticNum (c.log.take k) := hS.replies k _ hk
  unfold staticNum at hnum
  rw [hnum]
  cases refused <;> cases anyRefused (c.log.take k) <;> decide

section Serve

variable [Add F] [Sub F] [Mul F] [Div F] {n : ℕ}

/-- The reply is the static result, with `num` set to `-1` by a refusal. -/
theorem serve_num {s s' : Server F} {argp reply : Bakery F} {ticks : ℕ → ℕ}
    (h : serve1Svc n s argp ticks = some (s', reply)) :
    s'.serveResult = reply ∧
      reply.num = if refuses s argp.ind then -1 else s.serveResult.num := by
  unfold serve1Svc at h
  split_ifs at h with hlt hr
  · cases h
    exact ⟨rfl, by rw [if_pos hr]⟩
  · obtain ⟨ends, -, hends⟩ := Option.map_eq_some_iff.mp h
    cases hends
    exact ⟨rfl, by rw [if_neg hr]⟩

theorem Static.step {c c' : Service F} {r : Request F} (hS : Static c)
    (h : (service F n).next c r = some c') : Static c' := by
  rcases r with argp | ⟨argp, ticks⟩
  · obtain ⟨⟨s, reply⟩, hs, rfl⟩ := Option.map_eq_some_iff.mp h
    have hkeep : s.serveResult = c.server.serveResult := by
      unfold getNumber1Svc at hs
      simp only [Option.ite_none_right_eq_some, Option.some.injEq, Prod.mk.injEq] at hs
      obtain ⟨-, rfl, -⟩ := hs
      rfl
    constructor
    · rw [staticNum_concat, if_neg (by simp [Handled.isRefused]), ← hS.num, hkeep]
    · exact forall_entry_concat hS.replies trivial
  · obtain ⟨⟨s, reply⟩, hs, rfl⟩ := Option.map_eq_some_iff.mp h
    obtain ⟨hstatic, hnum⟩ := serve_num hs
    rw [hS.num] at hnum
    constructor
    · rw [staticNum_concat]
      exact (congrArg Bakery.num hstatic).trans hnum
    · exact forall_entry_concat hS.replies hnum

variable [Zero F]

theorem static_reach {c : Service F}
    (h : (service F n).ReachBy (Allowed n) (initial F) c) : Static c := by
  apply h.invariant
  · exact ⟨rfl, by simp [initial]⟩
  · intro c r c' hS _ hn
    exact hS.step hn

/-- **The refusal flag.** Every history of at most `n` requests for a ticket and of `serve`
requests on issued indices: the replies with `num = -1` are exactly the refusals if and
only if no `serve` request was accepted after one was refused. And where two histories
leave the same `numbers` and `number_last`, a `serve` request they both accept gets the
same `num` if and only if both or neither of them had a refusal. -/
theorem flag_iff {c : Service F} (h : (service F n).ReachBy (Allowed n) (initial F) c) :
    ((∀ e ∈ c.log, FlagRight e) ↔ ∀ (k : ℕ) ind ticket reply,
      c.log[k]? = some (.served ind ticket false reply) → anyRefused (c.log.take k) = false) ∧
    ∀ c₂ : Service F, (service F n).ReachBy (Allowed n) (initial F) c₂ →
      c₂.server.numbers = c.server.numbers → c₂.server.numberLast = c.server.numberLast →
      ∀ argp ticks ticks₂ s s₂ reply reply₂, refuses c.server argp.ind = false →
        serve1Svc n c.server argp ticks = some (s, reply) →
        serve1Svc n c₂.server argp ticks₂ = some (s₂, reply₂) →
        (reply.num = reply₂.num ↔ anyRefused c.log = anyRefused c₂.log) := by
  have hS := static_reach h
  refine ⟨⟨?_, ?_⟩, ?_⟩
  · intro hright k ind ticket reply hk
    have := (hS.right_iff hk).mp (hright _ (List.mem_of_getElem? hk))
    simpa using this
  · intro hcond e he
    obtain ⟨k, hk⟩ := List.mem_iff_getElem?.mp he
    rcases e with reply | ⟨ind, ticket, refused, reply⟩
    · trivial
    · apply (hS.right_iff hk).mpr
      cases refused with
      | true => exact Or.inl rfl
      | false => exact Or.inr (hcond k ind ticket reply hk)
  · intro c₂ h₂ hnumbers hlast argp ticks ticks₂ s s₂ reply reply₂ hacc hs hs₂
    have hacc₂ : refuses c₂.server argp.ind = false := by
      unfold refuses at hacc ⊢
      rw [hnumbers, hlast, hacc]
    have hnum := (serve_num hs).2
    have hnum₂ := (serve_num hs₂).2
    rw [hacc, if_neg Bool.false_ne_true, hS.num] at hnum
    rw [hacc₂, if_neg Bool.false_ne_true, (static_reach h₂).num] at hnum₂
    rw [hnum, hnum₂]
    exact staticNum_eq_iff _ _

end Serve

/-! ### A history with a stale flag -/

/-- Every request after the first refusal is refused as well. -/
def staysRefused (log : List (Handled F)) : Bool :=
  (List.range log.length).all fun k =>
    (log[k]?).all fun e => e.isRefused || !anyRefused (log.take k)

theorem anyRefused_of_staysRefused {log : List (Handled F)} (h : staysRefused log = true)
    {k ind ticket : ℕ} {reply : Bakery F}
    (hk : log[k]? = some (.served ind ticket false reply)) : anyRefused (log.take k) = false := by
  have hlt : k < log.length := by
    by_contra hge
    rw [List.getElem?_eq_none (by omega)] at hk
    cases hk
  have hall := List.all_eq_true.mp h k (List.mem_range.mpr hlt)
  rw [hk] at hall
  simpa [Handled.isRefused] using hall

/-- The refusal of `lateHistory` is its last request: the replies are right. -/
theorem flag_iff_late : ∃ c : Service ℤ, anyRefused c.log = true ∧ ∀ e ∈ c.log, FlagRight e := by
  have hrun : ((service ℤ 2).exec (Allowed 2) (initial ℤ) lateHistory).any
      (fun c => anyRefused c.log ∧ staysRefused c.log) = true := by decide
  obtain ⟨c, hc, hp⟩ := Machine.exists_reachBy_of_exec _ _ hrun
  obtain ⟨hany, hstays⟩ : anyRefused c.log = true ∧ staysRefused c.log = true := by simpa using hp
  refine ⟨c, hany, (flag_iff hc).1.mpr ?_⟩
  intro k ind ticket reply hk
  exact anyRefused_of_staysRefused hstays hk

/-- The entry is an accepted request whose reply says that it was refused. -/
def Handled.falselyLate : Handled F → Bool
  | .number _ => false
  | .served _ _ refused reply => !refused && reply.num == -1

/-- After the refusal of `lateHistory` the second slot is served again: the request is
accepted, and its reply says `-1`. -/
theorem stale_flag : ∃ c : Service ℤ, (service ℤ 2).ReachBy (Allowed 2) (initial ℤ) c ∧
    ∃ e ∈ c.log, e.falselyLate = true ∧ ¬ FlagRight e := by
  have hrun : ((service ℤ 2).exec (Allowed 2) (initial ℤ)
      (lateHistory ++ [.serve (argument 1 0) fun _ => 3])).any
      (fun c => c.log.any Handled.falselyLate) = true := by decide
  obtain ⟨c, hc, hp⟩ := Machine.exists_reachBy_of_exec _ _ hrun
  obtain ⟨e, he, hlate⟩ := List.any_eq_true.mp hp
  refine ⟨c, hc, e, he, hlate, ?_⟩
  rcases e with reply | ⟨ind, ticket, refused, reply⟩
  · cases hlate
  · simp only [Handled.falselyLate, Bool.and_eq_true, Bool.not_eq_true', beq_iff_eq] at hlate
    intro hright
    have := hright.mp hlate.2
    simp [hlate.1] at this

end OsLabs.Obakery
