import OsLabs.PcRpc.Dispatch
import Mathlib.Data.Fin.VecNotation

/-!
# The threaded dispatcher: identity of requests

The argument of a request is copied before its worker is created; its procedure number
and its reply address are not. A worker that reads them after another datagram has come
in takes those of the other request (`runs_other_procedure`). The identity is kept in
exactly those runs in which the datagram received last still asks for the worker's
procedure when the worker executes its `switch`, and still comes from its client when it
replies (`identity_iff`).
-/

namespace OsLabs.PcRpc

open PcServer

/-! ## One worker -/

/-- The procedure that a worker runs. -/
def procOf : Worker → Option Proc
  | .idle => none
  | .producer _ _ => some .producer
  | .consumer _ _ => some .consumer

section Worker

variable {ι : Type} {n : ℕ} {t : ι} {e : Proc} {s s' : Shared ι} {w w' : Worker}

/-- A worker begins with the procedure of its request and stays in it. -/
theorem procOf_step (h : workerStep n t e s w = some (s', w')) :
    procOf w' = some ((procOf w).getD e) := by
  cases w with
  | idle => cases e <;> cases h <;> rfl
  | producer pc r =>
    cases pc with
    | start | stop =>
      simp only [workerStep, producer1Svc, Option.map_eq_some_iff] at h
      obtain ⟨v, _, he⟩ := h
      cases he
      rfl
    | print | wrapTest | alphaTest =>
      simp only [workerStep, producer1Svc] at h
      split_ifs at h <;> cases h <;> rfl
    | done => cases h
    | _ => cases h; rfl
  | consumer pc r =>
    cases pc with
    | start | stop =>
      simp only [workerStep, consumer1Svc, Option.map_eq_some_iff] at h
      obtain ⟨v, _, he⟩ := h
      cases he
      rfl
    | print | wrapTest =>
      simp only [workerStep, consumer1Svc] at h
      split_ifs at h <;> cases h <;> rfl
    | done => cases h
    | _ => cases h; rfl

theorem result_cases {a : Char} (h : result w = some a) :
    w = .producer .done (some a) ∨ w = .consumer .done (some a) := by
  cases w with
  | idle => cases h
  | producer pc r =>
    cases pc with
    | done => exact Or.inl (congrArg _ h)
    | _ => cases h
  | consumer pc r =>
    cases pc with
    | done => exact Or.inr (congrArg _ h)
    | _ => cases h

/-- A worker that has returned makes no further step. -/
theorem not_result_of_step (h : workerStep n t e s w = some (s', w')) (a : Char) :
    result w ≠ some a := by
  intro hr
  rcases result_cases hr with rfl | rfl <;> cases h

end Worker

end OsLabs.PcRpc

namespace OsLabs.PcRpc.Dispatch

open Concurrent PcServer

variable {κ : Type} {n : ℕ} {s s' : State κ}

/-- The worker has taken the procedure of its request, and its reply, if it is sent, went
to the client of its request. -/
def Kept (th : Thread κ) : Prop :=
  (∀ p, th.pc.chosen = some p → p = procedure th.request.rqProc) ∧
    ∀ p msg a x, th.pc = .returned p msg a x → a = th.request.addr

/-- Every worker runs the procedure of the request it was created for, on the argument of
that request, and replies to the client of that request. -/
def Identity (s : State κ) : Prop :=
  ∀ t th, s.thread t = some th →
    th.request.arg = some th.arg ∧ Kept th ∧
      ∀ p, procOf (s.server.loc t) = some p → procedure th.request.rqProc = some p

/-- Where the action is the `switch` of a worker, the datagram received last asks for the
procedure of its request; where it is a reply, that datagram comes from its client. -/
def Undisturbed (s : State κ) (a : Action κ) : Prop :=
  match a with
  | .serve t =>
      match s.thread t, s.last with
      | some th, some d =>
          match th.pc with
          | .switch => procedure d.rqProc = procedure th.request.rqProc
          | .sendreply _ _ => d.addr = th.request.addr
          | _ => True
      | _, _ => True
  | _ => True

instance [DecidableEq κ] (s : State κ) (a : Action κ) : Decidable (Undisturbed s a) := by
  unfold Undisturbed
  split
  · split
    · split <;> infer_instance
    · infer_instance
  · infer_instance

/-! ## What holds in every run -/

structure Inv (s : State κ) : Prop where
  last : ∀ d, s.last = some d → s.rqProc = d.rqProc ∧ s.transp = some (d.addr, d.xid)
  received : s.main ≠ .svcRun ∨ (∃ t, s.thread t ≠ none) → s.last ≠ none
  fresh : ∀ t, s.created ≤ t → s.thread t = none
  idle : ∀ t, s.thread t = none → s.server.loc t = .idle
  arg : ∀ t th, s.thread t = some th → th.request.arg = some th.arg
  runs : ∀ t th p, s.thread t = some th → procOf (s.server.loc t) = some p →
    th.pc.chosen = some (some p)

theorem inv_initial (n : ℕ) : Inv (initial κ n) where
  last d h := by cases h
  received h := by
    rcases h with h | ⟨t, h⟩
    · exact absurd rfl h
    · exact absurd rfl h
  fresh _ _ := rfl
  idle _ _ := rfl
  arg t th h := by cases h
  runs t th p h := by cases h

/-- With the invariant, the identity is a matter of the single workers. -/
theorem Inv.identity_iff_kept (hI : Inv s) :
    Identity s ↔ ∀ t th, s.thread t = some th → Kept th := by
  constructor
  · intro h t th ht
    exact (h t th ht).2.1
  · intro h t th ht
    refine ⟨hI.arg t th ht, h t th ht, ?_⟩
    intro p hp
    exact ((h t th ht).1 (some p) (hI.runs t th p ht hp)).symm

/-- What a step of a worker does: its `switch`, a step towards or inside the procedure,
or its reply. -/
theorem servRequest_cases {t : ℕ} {pc pc' : ServPC κ} (h : servRequest n t s pc = some (s', pc')) :
    (pc = .switch ∧ s' = s ∧ pc'.chosen = some (procedure s.rqProc) ∧
        ∀ p msg a x, pc' ≠ .returned p msg a x) ∨
      (pc ≠ .switch ∧ (∀ p msg, pc ≠ .sendreply p msg) ∧ pc'.chosen = pc.chosen ∧
        (∀ p msg a x, pc' ≠ .returned p msg a x) ∧
        (s' = s ∨ ∃ p c, pc.chosen = some (some p) ∧
          (PcServer.server ℕ n).next s.server (t, p) = some c ∧ s' = { s with server := c })) ∨
      (∃ p msg a x, pc = .sendreply p msg ∧ s' = s ∧ s.transp = some (a, x) ∧
        pc' = .returned p msg a x) := by
  cases pc with
  | switch =>
    refine Or.inl ⟨rfl, ?_⟩
    simp only [servRequest] at h
    split_ifs at h with h0 h1 h2 <;> cases h
    · refine ⟨rfl, ?_, by simp⟩
      rw [h0]
      rfl
    · refine ⟨rfl, ?_, by simp⟩
      rw [h1]
      rfl
    · refine ⟨rfl, ?_, by simp⟩
      rw [h2]
      rfl
    · refine ⟨rfl, ?_, by simp⟩
      simp [procedure, h1, h2, ServPC.chosen]
  | test p =>
    refine Or.inr (Or.inl ⟨by simp, by simp, ?_⟩)
    simp only [servRequest] at h
    split_ifs at h <;> cases h <;> exact ⟨rfl, by simp, Or.inl rfl⟩
  | call p =>
    refine Or.inr (Or.inl ⟨by simp, by simp, ?_⟩)
    simp only [servRequest] at h
    split at h
    · cases h
      exact ⟨rfl, by simp, Or.inl rfl⟩
    · obtain ⟨c, hc, he⟩ := Option.map_eq_some_iff.mp h
      cases he
      exact ⟨rfl, by simp, Or.inr ⟨p, c, rfl, hc, rfl⟩⟩
  | sendreply p msg =>
    obtain ⟨⟨a, x⟩, ha, he⟩ := Option.map_eq_some_iff.mp h
    cases he
    exact Or.inr (Or.inr ⟨p, msg, a, x, rfl, rfl, ha, rfl⟩)
  | returned p msg a x => cases h

/-- The thread table after a step of worker `t`. -/
theorem thread_cases {f : ℕ → Option (Thread κ)} {t u : ℕ} {x y : Thread κ}
    (h : Function.update f t (some x) u = some y) : (u = t ∧ y = x) ∨ (u ≠ t ∧ f u = some y) := by
  by_cases hu : u = t
  · subst hu
    rw [Function.update_self] at h
    exact Or.inl ⟨rfl, (Option.some.inj h).symm⟩
  · rw [Function.update_of_ne hu] at h
    exact Or.inr ⟨hu, h⟩

/-- The procedure of a worker is kept where its thread only moves on. -/
theorem Inv.move (hI : Inv s) {t : ℕ} {th : Thread κ} (ht : s.thread t = some th)
    {pc : ServPC κ} (hch : ∀ p, th.pc.chosen = some p → pc.chosen = some p) :
    Inv { s with thread := Function.update s.thread t (some { th with pc := pc }) } := by
  refine ⟨hI.last, ?_, ?_, ?_, ?_, ?_⟩
  · intro _
    exact hI.received (Or.inr ⟨t, by simp [ht]⟩)
  · intro u hu
    show Function.update s.thread t _ u = none
    have hut : u ≠ t := by
      rintro rfl
      rw [hI.fresh u hu] at ht
      cases ht
    rw [Function.update_of_ne hut]
    exact hI.fresh u hu
  · intro u hu
    have hut : u ≠ t := by
      rintro rfl
      simp at hu
    simp only [Function.update_of_ne hut] at hu
    exact hI.idle u hu
  · intro u x hx
    rcases thread_cases hx with ⟨rfl, rfl⟩ | ⟨_, hx⟩
    · exact hI.arg u th ht
    · exact hI.arg u x hx
  · intro u x p hx hp
    rcases thread_cases hx with ⟨rfl, rfl⟩ | ⟨_, hx⟩
    · exact hch _ (hI.runs u th p ht hp)
    · exact hI.runs u x p hx hp

/-- A step inside the procedure that the worker has chosen. -/
theorem Inv.call (hI : Inv s) {t : ℕ} {th : Thread κ} {p : Proc}
    {c : Config ℕ (Shared ℕ) Worker} (ht : s.thread t = some th)
    (hp : th.pc.chosen = some (some p))
    (hc : (PcServer.server ℕ n).next s.server (t, p) = some c) : Inv { s with server := c } := by
  obtain ⟨sh, w, hs, rfl⟩ := interleave_next.mp hc
  refine ⟨hI.last, hI.received, hI.fresh, ?_, hI.arg, ?_⟩
  · intro u hu
    have hut : u ≠ t := by
      rintro rfl
      rw [hu] at ht
      cases ht
    show (s.server.set t sh w).loc u = .idle
    rw [Config.set_loc_of_ne hut]
    exact hI.idle u hu
  · intro u x q hx (hq : procOf ((s.server.set t sh w).loc u) = some q)
    by_cases hut : u = t
    · subst hut
      have hxth : x = th := Option.some.inj (hx.symm.trans ht)
      subst hxth
      rw [Config.set_loc_self, procOf_step hs] at hq
      cases hold : procOf (s.server.loc u) with
      | none =>
        rw [hold] at hq
        cases hq
        exact hp
      | some r =>
        rw [hold] at hq
        cases hq
        exact hI.runs u x _ hx hold
    · rw [Config.set_loc_of_ne hut] at hq
      exact hI.runs u x q hx hq

theorem Inv.step (hI : Inv s) {a : Action κ} (h : dispatchStep n s a = some s') : Inv s' := by
  cases a with
  | receive d =>
    simp only [dispatchStep] at h
    split at h
    · cases h
      refine ⟨?_, fun _ => by simp, hI.fresh, hI.idle, hI.arg, hI.runs⟩
      intro d' hd
      cases hd
      exact ⟨rfl, rfl⟩
    · cases h
  | dispatch =>
    simp only [dispatchStep] at h
    split at h
    · cases h
    next d hmain =>
      cases h
      have hlast : s.last ≠ none := hI.received (Or.inl (by rw [hmain]; simp))
      unfold pcProg1
      split
      · exact ⟨hI.last, fun _ => hlast, hI.fresh, hI.idle, hI.arg, hI.runs⟩
      next arg harg =>
        have hnone := hI.fresh s.created (le_refl _)
        refine ⟨hI.last, fun _ => hlast, ?_, ?_, ?_, ?_⟩
        · intro t (ht : s.created + 1 ≤ t)
          show Function.update s.thread s.created _ t = none
          rw [Function.update_of_ne (by omega)]
          exact hI.fresh t (by omega)
        · intro t ht
          by_cases hne : t = s.created
          · subst hne
            exact hI.idle _ hnone
          · simp only [Function.update_of_ne hne] at ht
            exact hI.idle t ht
        · intro t th ht
          rcases thread_cases ht with ⟨rfl, rfl⟩ | ⟨_, ht⟩
          · exact harg
          · exact hI.arg t th ht
        · intro t th p ht hp
          rcases thread_cases ht with ⟨rfl, rfl⟩ | ⟨_, ht⟩
          · have hidle := hI.idle _ hnone
            simp only [hidle] at hp
            cases hp
          · exact hI.runs t th p ht hp
  | serve t =>
    simp only [dispatchStep] at h
    cases ht : s.thread t with
    | none => rw [ht] at h; cases h
    | some th =>
      rw [ht] at h
      obtain ⟨⟨u, pc⟩, hu, rfl⟩ := Option.map_eq_some_iff.mp h
      rcases servRequest_cases hu with ⟨hpc, rfl, -, -⟩ | ⟨-, -, hch, -, hs⟩ |
        ⟨p, msg, a, x, hpc, rfl, -, rfl⟩
      · apply hI.move ht
        rw [hpc]
        intro p hp
        cases hp
      · rcases hs with rfl | ⟨p, c, hp, hc, rfl⟩
        · exact hI.move ht fun p hp => hch.trans hp
        · exact (hI.call ht hp hc).move ht fun p hp => hch.trans hp
      · apply hI.move ht
        rw [hpc]
        exact fun p hp => hp

/-! ## When the identity is kept -/

theorem undisturbed_serve {t : ℕ} {th : Thread κ} {d : Datagram κ} (hd : s.last = some d)
    (ht : s.thread t = some th) : Undisturbed s (.serve t) ↔
      (th.pc = .switch → procedure d.rqProc = procedure th.request.rqProc) ∧
        ∀ p msg, th.pc = .sendreply p msg → d.addr = th.request.addr := by
  simp only [Undisturbed, ht, hd]
  cases th.pc <;> simp

/-- A step of a worker keeps its request exactly when the datagram received last has the
procedure or the client that it reads there. -/
theorem kept_serve {t : ℕ} {th : Thread κ} {pc : ServPC κ} {d : Datagram κ}
    (hrq : s.rqProc = d.rqProc) (htr : s.transp = some (d.addr, d.xid))
    (h : servRequest n t s th.pc = some (s', pc)) :
    Kept { th with pc := pc } ↔ Kept th ∧
      (th.pc = .switch → procedure d.rqProc = procedure th.request.rqProc) ∧
        ∀ p msg, th.pc = .sendreply p msg → d.addr = th.request.addr := by
  rcases servRequest_cases h with ⟨hpc, -, hch, hret⟩ | ⟨hns, hnr, hch, hret, -⟩ |
    ⟨p, msg, a, x, hpc, -, ha, rfl⟩
  · have hkept : Kept th := by
      refine ⟨fun p hp => ?_, fun p msg a x hp => ?_⟩
      · rw [hpc] at hp
        cases hp
      · rw [hpc] at hp
        cases hp
    constructor
    · intro hk
      refine ⟨hkept, fun _ => ?_, fun p msg hp => ?_⟩
      · rw [← hrq]
        exact hk.1 _ hch
      · rw [hpc] at hp
        cases hp
    · rintro ⟨-, hproc, -⟩
      refine ⟨fun p hp => ?_, fun p msg a x hp => absurd hp (hret p msg a x)⟩
      rw [← Option.some.inj (hch.symm.trans hp), hrq]
      exact hproc hpc
  · have hold : ∀ p msg a x, th.pc = .returned p msg a x → False := by
      intro p msg a x hp
      rw [hp] at h
      cases h
    constructor
    · intro hk
      refine ⟨⟨fun p hp => hk.1 p (hch.trans hp), fun p msg a x hp => (hold p msg a x hp).elim⟩,
        fun hp => absurd hp hns, fun p msg hp => absurd hp (hnr p msg)⟩
    · rintro ⟨hk, -⟩
      exact ⟨fun p hp => hk.1 p (hch.symm.trans hp), fun p msg a x hp => absurd hp (hret p msg a x)⟩
  · have haddr : a = d.addr := by
      rw [htr] at ha
      cases ha
      rfl
    have hch : th.pc.chosen = some p := by rw [hpc]; rfl
    constructor
    · intro hk
      refine ⟨⟨fun q hq => ?_, fun q m b y hq => ?_⟩, fun hp => ?_, fun q m _ => ?_⟩
      · exact hk.1 q (hch.symm.trans hq)
      · rw [hpc] at hq
        cases hq
      · rw [hpc] at hp
        cases hp
      · rw [← haddr]
        exact hk.2 p msg a x rfl
    · rintro ⟨hk, -, hsend⟩
      refine ⟨fun q hq => hk.1 q (hch.trans hq), fun q m b y hq => ?_⟩
      cases hq
      rw [haddr]
      exact hsend p msg hpc

/-- A step keeps the identity of all workers exactly when it is undisturbed. -/
theorem Inv.kept_step (hI : Inv s) {a : Action κ} (h : dispatchStep n s a = some s') :
    (∀ t th, s'.thread t = some th → Kept th) ↔
      (∀ t th, s.thread t = some th → Kept th) ∧ Undisturbed s a := by
  cases a with
  | receive d =>
    simp only [dispatchStep] at h
    split at h
    · cases h
      exact ⟨fun hk => ⟨hk, trivial⟩, fun hk => hk.1⟩
    · cases h
  | dispatch =>
    simp only [dispatchStep] at h
    split at h
    · cases h
    next d hmain =>
      cases h
      refine ⟨fun hk => ⟨?_, trivial⟩, fun hk => ?_⟩
      · intro t th ht
        apply hk t th
        have hne : t ≠ s.created := by
          rintro rfl
          rw [hI.fresh _ (le_refl _)] at ht
          cases ht
        unfold pcProg1
        split
        · exact ht
        · show Function.update s.thread s.created _ t = some th
          rwa [Function.update_of_ne hne]
      · unfold pcProg1
        split
        · exact hk.1
        · intro t th ht
          rcases thread_cases ht with ⟨rfl, rfl⟩ | ⟨_, ht⟩
          · constructor
            · intro p hp
              cases hp
            · intro p msg a x hp
              cases hp
          · exact hk.1 t th ht
  | serve t =>
    simp only [dispatchStep] at h
    cases ht : s.thread t with
    | none => rw [ht] at h; cases h
    | some th =>
      rw [ht] at h
      obtain ⟨⟨u, pc⟩, hu, rfl⟩ := Option.map_eq_some_iff.mp h
      have hlast : s.last ≠ none := hI.received (Or.inr ⟨t, by rw [ht]; simp⟩)
      obtain ⟨d, hd⟩ := Option.ne_none_iff_exists'.mp hlast
      obtain ⟨hrq, htr⟩ := hI.last d hd
      have hserve := kept_serve hrq htr hu
      rw [undisturbed_serve hd ht]
      constructor
      · intro hk
        obtain ⟨hkt, hun⟩ := hserve.mp (hk t _ (Function.update_self ..))
        refine ⟨fun v y hv => ?_, hun⟩
        by_cases hvt : v = t
        · subst hvt
          rw [← Option.some.inj (ht.symm.trans hv)]
          exact hkt
        · exact hk v y ((Function.update_of_ne hvt ..).trans hv)
      · rintro ⟨hk, hun⟩ v y hv
        rcases thread_cases hv with ⟨rfl, rfl⟩ | ⟨_, hv⟩
        · exact hserve.mpr ⟨hk v th ht, hun⟩
        · exact hk v y hv

theorem inv_reach (h : (dispatcher κ n).Reach (initial κ n) s) : Inv s :=
  h.invariant (inv_initial n) fun _ _ _ hI _ hs => hI.step hs

/-- **When requests keep their identity.** After a run every worker has run the procedure
of its request, on its argument, and answered to its client, if and only if every step
of the run was undisturbed. -/
theorem identity_iff {tr : List (State κ × Action κ)}
    (h : (dispatcher κ n).Trace (initial κ n) tr s) :
    Identity s ↔ ∀ p ∈ tr, Undisturbed p.1 p.2 := by
  rw [(inv_reach h.reach).identity_iff_kept]
  induction h with
  | nil =>
    constructor
    · intro _ p hp
      cases hp
    · intro _ t th ht
      cases ht
  | @snoc tr u u' a h hn ih =>
    rw [(inv_reach h.reach).kept_step hn, ih]
    constructor
    · rintro ⟨hall, hlast⟩ p hp
      rcases List.mem_append.mp hp with hp | hp
      · exact hall p hp
      · rw [List.mem_singleton.mp hp]
        exact hlast
    · intro hall
      exact ⟨fun p hp => hall p (List.mem_append_left _ hp),
        hall (u, a) (List.mem_append_right _ (List.mem_singleton.mpr rfl))⟩

/-- A request of client `i` for a letter to be produced, and one to consume a letter. -/
def produceRequest {κ : Type} (i : κ) : Datagram κ := ⟨i, 7, PRODUCER, some 100⟩

def consumeRequest {κ : Type} (i : κ) : Datagram κ := ⟨i, 8, CONSUMER, some 200⟩

/-- The first worker replies before the second request arrives; the second worker then
takes its letter and replies. -/
def oneByOneRun {κ : Type} (p c : κ) : List (Action κ) :=
  [.receive (produceRequest p), .dispatch] ++ List.replicate 20 (.serve 0) ++
    [.receive (consumeRequest c), .dispatch] ++ List.replicate 17 (.serve 1)

theorem identity_iff_one_by_one : ∃ (s : State (Fin 2))
    (tr : List (State (Fin 2) × Action (Fin 2))),
    (dispatcher (Fin 2) 1).Trace (initial (Fin 2) 1) tr s ∧
      (s.thread 1).map Thread.pc = some (.returned (some .consumer) (.letter 'a') 1 8) ∧
      Identity s := by
  have hrun : ((dispatcher (Fin 2) 1).exec Undisturbed (initial (Fin 2) 1) (oneByOneRun 0 1)).any
      (fun s => (s.thread 1).map Thread.pc =
        some (.returned (some .consumer) (.letter 'a') 1 8)) = true := by decide +kernel
  obtain ⟨s, hs, hp⟩ := Machine.exists_reachBy_of_exec _ _ hrun
  obtain ⟨tr, htr, hall⟩ := hs.exists_trace
  exact ⟨s, tr, htr, of_decide_eq_true hp, (identity_iff htr).mpr hall⟩

/-- The second request arrives before the worker of the first one reads `rq_proc`. -/
def overwriteRun {κ : Type} (p c : κ) : List (Action κ) :=
  [.receive (produceRequest p), .dispatch, .receive (consumeRequest c), .serve 0]

/-- The worker of a request to produce has the procedure that consumes. -/
theorem runs_other_procedure : ¬ ∀ s : State (Fin 2),
    (dispatcher (Fin 2) 1).Reach (initial (Fin 2) 1) s → Identity s := by
  intro h
  have hrun : ((dispatcher (Fin 2) 1).run (initial (Fin 2) 1) (overwriteRun 0 1)).any
      (fun s => s.thread 0 = some ⟨produceRequest 0, 100, .test .consumer⟩) = true := by
    decide +kernel
  obtain ⟨s, hs, hp⟩ := Machine.exists_reach_of_run _ _ hrun
  obtain ⟨-, ⟨hproc, -⟩, -⟩ := h s hs 0 _ (of_decide_eq_true hp)
  exact absurd (hproc (some .consumer) rfl) (by decide)

end OsLabs.PcRpc.Dispatch
