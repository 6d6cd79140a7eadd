import OsLabs.PcRpc.Clients
import OsLabs.PcRpc.Process
import OsLabs.PcServer.Fifo

/-!
# Consumption over RPC

A call of `consumer_1` takes one letter for each copy of its request that the server
gets to run: two copies of one request remove two letters, of which the call returns one
and the other is lost (`two_letters_for_one_call`). What holds without a record of
requests is `consumption_spec`: in every run a letter taken was taken by one worker for
one copy of one call, so a call removes no more letters than copies of it were
dispatched. Where moreover every worker still finds its own request in the shared
`svc_req` and transport, a letter returned was taken for this very call, and a call that
was dispatched once removes exactly the letter it returns.
-/

namespace OsLabs.PcRpc

open Concurrent PcServer Dispatch

/-! ## The clients' calls -/

/-- The number of calls of a client that have returned. -/
def Client.num : Client → ℕ
  | .asleep m | .calling m | .stopped m => m

/-- The client has begun its call number `j`. -/
def Client.made (x : Client) (j : ℕ) : Prop :=
  match x with
  | .asleep m => j < m
  | .calling m | .stopped m => j ≤ m

variable {κ : Type} {n : ℕ} {kind : κ → Proc} {pid : κ → ℤ} {s s' : Net κ}

/-- The calls that have returned. -/
structure Calls (s : Net κ) : Prop where
  num : ∀ k a, (k, a) ∈ s.returned → k.num < (s.client k.client).num
  all : ∀ i m, m < (s.client i).num → ∃ a, (⟨i, m⟩, a) ∈ s.returned
  once : (s.returned.map Prod.fst).Nodup

/-- A call that has begun is pending, has failed, or has returned. -/
theorem Calls.status (hC : Calls s) {k : Call κ} (h : (s.client k.client).made k.num) :
    pending s k ∨ failed s k ∨ ∃ a, (k, a) ∈ s.returned := by
  have hall := hC.all k.client k.num
  unfold pending failed
  cases hc : s.client k.client with
  | asleep m =>
    rw [hc] at h hall
    exact Or.inr (Or.inr (hall h))
  | calling m =>
    rw [hc] at h hall
    rcases Nat.lt_or_eq_of_le h with hlt | rfl
    · exact Or.inr (Or.inr (hall hlt))
    · exact Or.inl rfl
  | stopped m =>
    rw [hc] at h hall
    rcases Nat.lt_or_eq_of_le h with hlt | rfl
    · exact Or.inr (Or.inr (hall hlt))
    · exact Or.inr (Or.inl rfl)

theorem calls_initial (n : ℕ) : Calls (netInitial κ n) where
  num k a h := by cases h
  all i m h := absurd h (Nat.not_lt_zero m)
  once := List.nodup_nil

/-! ## Workers and calls -/

/-- What the workers and the datagrams have to do with the calls. -/
structure Workers (n : ℕ) (kind : κ → Proc) (pid : κ → ℤ) (s : Net κ) : Prop where
  server : PcServer.Inv n s.process.server
  process : Dispatch.Inv s.process
  made : ∀ d, d ∈ s.requests ∨ Has s.process d →
    ∃ k, d = requestOf kind pid k ∧ (s.client k.client).made k.num
  ready : Ready s.process

/-- What the workers have to do with the letters, as long as each finds its own request. -/
structure Answers (s : Net κ) : Prop where
  kept : ∀ t th, s.process.thread t = some th → Kept th
  answered : ∀ k b, (k, Msg.letter b) ∈ s.replies ∨ (k, b) ∈ s.returned →
    ∃ t, callOf s t = some k ∧ result (s.process.server.loc t) = some b

theorem workers_initial (n : ℕ) (kind : κ → Proc) (pid : κ → ℤ) :
    Workers n kind pid (netInitial κ n) where
  server := inv_initSem n
  process := Dispatch.inv_initial n
  made d h := by
    rcases h with h | h | h | ⟨t, th, h, -⟩ <;> cases h
  ready t th h := by cases h

theorem answers_initial (n : ℕ) : Answers (netInitial κ n) where
  kept t th h := by cases h
  answered k b h := by
    rcases h with h | h <;> cases h

theorem callOf_eq {t : ℕ} {th : Thread κ} (h : s.process.thread t = some th) :
    callOf s t = some ⟨th.request.addr, th.request.xid⟩ := by
  rw [callOf, h]
  rfl

theorem exists_thread {t : ℕ} {k : Call κ} (h : callOf s t = some k) :
    ∃ th, s.process.thread t = some th ∧ k = ⟨th.request.addr, th.request.xid⟩ := by
  obtain ⟨th, ht, he⟩ := Option.map_eq_some_iff.mp h
  exact ⟨th, ht, he.symm⟩

/-- The request of a worker is that of a call that its client has begun. -/
theorem Workers.call (hW : Workers n kind pid s) {t : ℕ} {k : Call κ}
    (h : callOf s t = some k) : ∃ th, s.process.thread t = some th ∧
      th.request = requestOf kind pid k ∧ (s.client k.client).made k.num := by
  obtain ⟨th, ht, rfl⟩ := exists_thread h
  obtain ⟨k, hk, hmade⟩ := hW.made th.request (Or.inr (Or.inr (Or.inr ⟨t, th, ht, rfl⟩)))
  refine ⟨th, ht, ?_, ?_⟩
  · rw [hk]
    rfl
  · rw [hk]
    exact hmade

theorem procedure_number (p : Proc) : procedure (number p) = some p := by
  cases p <;> rfl

/-- The datagram received last asks for one of the two procedures. -/
theorem Workers.rqProc (hW : Workers n kind pid s) (h : s.process.last ≠ none) :
    s.process.rqProc = PRODUCER ∨ s.process.rqProc = CONSUMER := by
  obtain ⟨d, hd⟩ := Option.ne_none_iff_exists'.mp h
  obtain ⟨k, hk, -⟩ := hW.made d (Or.inr (Or.inr (Or.inl hd)))
  rw [(hW.process.last d hd).1, hk]
  show number (kind k.client) = _ ∨ number (kind k.client) = _
  cases kind k.client
  · exact Or.inl rfl
  · exact Or.inr rfl

/-- A step of the server process: it takes datagrams from the network only. -/
theorem Workers.step_process (hn : 0 < n) (hW : Workers n kind pid s) {a : Dispatch.Action κ}
    {u : State κ} (h : dispatchStep n s.process a = some u)
    (hrec : ∀ d, a = .receive d → d ∈ s.requests) {requests : List (Datagram κ)}
    (hsub : ∀ d, d ∈ requests → d ∈ s.requests) (replies : List (Call κ × Msg)) :
    Workers n kind pid { s with process := u, requests := requests, replies := replies } where
  server := serverInv_step hn h hW.server
  process := hW.process.step h
  made d hd := by
    rcases hd with hd | hd
    · exact hW.made d (Or.inl (hsub d hd))
    · rcases has_step h hd with hd | ha
      · exact hW.made d (Or.inr hd)
      · exact hW.made d (Or.inl (hrec d ha))
  ready := ready_step hW.rqProc hW.process h hW.ready

theorem callOf_step (hI : Dispatch.Inv s.process) {a : Dispatch.Action κ} {u : State κ}
    (h : dispatchStep n s.process a = some u) {t : ℕ} {k : Call κ} (hk : callOf s t = some k)
    (requests : List (Datagram κ)) (replies : List (Call κ × Msg)) :
    callOf { s with process := u, requests := requests, replies := replies } t = some k := by
  obtain ⟨th, ht, rfl⟩ := exists_thread hk
  obtain ⟨th', ht', he⟩ := request_step hI h ht
  rw [callOf_eq ht', he]

/-- The workers keep their requests and what they have returned; new are the replies that
are to be accounted for. -/
theorem Answers.step_process (hA : Answers s) (hI : Dispatch.Inv s.process)
    {a : Dispatch.Action κ} {u : State κ} (h : dispatchStep n s.process a = some u)
    (hun : Undisturbed s.process a) {requests : List (Datagram κ)}
    {replies : List (Call κ × Msg)}
    (hnew : ∀ k b, (k, Msg.letter b) ∈ replies → (k, Msg.letter b) ∈ s.replies ∨
      ∃ t, callOf s t = some k ∧ result (s.process.server.loc t) = some b) :
    Answers { s with process := u, requests := requests, replies := replies } where
  kept := (hI.kept_step h).mpr ⟨hA.kept, hun⟩
  answered k b hk := by
    have hold : ∃ t, callOf s t = some k ∧ result (s.process.server.loc t) = some b := by
      rcases hk with hk | hk
      · rcases hnew k b hk with hk | hk
        · exact hA.answered k b (Or.inl hk)
        · exact hk
      · exact hA.answered k b (Or.inr hk)
    obtain ⟨t, ht, hr⟩ := hold
    exact ⟨t, callOf_step hI h ht _ _, result_step h hr⟩

theorem sent_eq_some {u : State κ} {t : ℕ} {k : Call κ} {msg : Msg} (h : sent u t = some (k, msg)) :
    ∃ th p, u.thread t = some th ∧ th.pc = .sendreply p msg ∧
      u.transp = some (k.client, k.num) := by
  unfold sent at h
  split at h
  next r a p m ht =>
    obtain ⟨⟨x, y⟩, hx, he⟩ := Option.map_eq_some_iff.mp h
    cases he
    exact ⟨_, p, ht, rfl, hx⟩
  next => cases h

/-- A worker that still finds its own request in the transport replies to its own call. -/
theorem Workers.sent (hW : Workers n kind pid s) {t : ℕ} (hid : Identified s (.serve t))
    {k : Call κ} {b : Char} (h : sent s.process t = some (k, .letter b)) :
    callOf s t = some k ∧ result (s.process.server.loc t) = some b := by
  obtain ⟨i, m⟩ := k
  obtain ⟨th, p, ht, hpc, htr⟩ := sent_eq_some h
  obtain ⟨b', hb, hr⟩ := hW.ready t th ht p _ hpc
  cases hb
  obtain ⟨d, hd⟩ := Option.ne_none_iff_exists'.mp
    (hW.process.received (Or.inr ⟨t, by rw [ht]; simp⟩))
  have hsame : d.addr = th.request.addr ∧ d.xid = th.request.xid := by
    simpa only [Identified, ht, hd, hpc] using hid
  rw [(hW.process.last d hd).2, hsame.1, hsame.2] at htr
  cases htr
  exact ⟨callOf_eq ht, hr⟩

theorem Identified.undisturbed {t : ℕ} (h : Identified s (.serve t)) :
    Undisturbed s.process (.serve t) := by
  simp only [Identified, Undisturbed] at h ⊢
  split
  next th d ht hd =>
    simp only [ht, hd] at h
    split
    next hpc =>
      simp only [hpc] at h
      exact h
    next hpc =>
      simp only [hpc] at h
      exact h.1
    next => trivial
  next => trivial

structure Inv (n : ℕ) (kind : κ → Proc) (pid : κ → ℤ) (s : Net κ) : Prop where
  workers : Workers n kind pid s
  calls : Calls s

/-- The procedure that a worker runs is the one that its request asks for. -/
theorem Inv.proc_eq (hI : Inv n kind pid s) (hA : Answers s) {t : ℕ} {k : Call κ} {p : Proc}
    (hk : callOf s t = some k) (hp : procOf (s.process.server.loc t) = some p) :
    kind k.client = p := by
  obtain ⟨th, ht, hreq, -⟩ := hI.workers.call hk
  have hchosen := (hA.kept t th ht).1 _ (hI.workers.process.runs t th p ht hp)
  rw [hreq] at hchosen
  have hnumber : procedure (number (kind k.client)) = some p := hchosen.symm
  rw [procedure_number] at hnumber
  exact Option.some.inj hnumber

/-- A letter taken was taken by the worker of a call that has begun. -/
theorem Inv.taken_call (hI : Inv n kind pid s) {t : ℕ} {a : Char} (h : (t, a) ∈ taken s) :
    ∃ k, callOf s t = some k ∧ (pending s k ∨ failed s k ∨ ∃ b, (k, b) ∈ s.returned) := by
  obtain ⟨pc, hl⟩ := (hI.workers.server.taken_iff t a).mp h
  cases ht : s.process.thread t with
  | none =>
    rw [hI.workers.process.idle t ht] at hl
    cases hl
  | some th =>
    obtain ⟨-, -, -, hmade⟩ := hI.workers.call (callOf_eq ht)
    exact ⟨_, callOf_eq ht, hI.calls.status hmade⟩

/-- Letters are taken for calls of consumers only. -/
theorem Inv.taken_consumer (hI : Inv n kind pid s) (hA : Answers s) {t : ℕ} {a : Char}
    (h : (t, a) ∈ taken s) {k : Call κ} (hk : callOf s t = some k) :
    kind k.client = .consumer := by
  obtain ⟨pc, hl⟩ := (hI.workers.server.taken_iff t a).mp h
  exact hI.proc_eq hA hk (by rw [hl]; rfl)

/-! ## Steps of the clients -/

theorem made_next {i : κ} {m : ℕ} (hcall : s.client i = .calling m) (j : ℕ)
    (hj : (s.client i).made j) : (Client.asleep (m + 1)).made j := by
  rw [hcall] at hj
  exact Nat.lt_succ_of_le hj

variable [DecidableEq κ]

theorem made_update {i : κ} {x : Client} (hx : ∀ j, (s.client i).made j → x.made j)
    {k : Call κ} (h : (s.client k.client).made k.num) :
    (Function.update s.client i x k.client).made k.num := by
  by_cases hi : k.client = i
  · rw [hi] at h ⊢
    rw [Function.update_self]
    exact hx _ h
  · rwa [Function.update_of_ne hi]

theorem num_update {i : κ} {x : Client} (hx : x.num = (s.client i).num) (j : κ) :
    (Function.update s.client i x j).num = (s.client j).num := by
  by_cases hj : j = i
  · subst hj
    rw [Function.update_self, hx]
  · rw [Function.update_of_ne hj]

/-- The client `i` sends a copy of the request of its call `m`, and is then at `x`. -/
theorem Workers.send (hW : Workers n kind pid s) {i : κ} {m : ℕ} {x : Client}
    (hx : ∀ j, (s.client i).made j → x.made j) (hm : x.made m) :
    Workers n kind pid { s with
      client := Function.update s.client i x
      requests := requestOf kind pid ⟨i, m⟩ :: s.requests } := by
  refine { hW with made := ?_ }
  rintro d (hd | hd)
  · rcases List.mem_cons.mp hd with rfl | hd
    · refine ⟨⟨i, m⟩, rfl, ?_⟩
      show (Function.update s.client i x i).made m
      rwa [Function.update_self]
    · obtain ⟨k, hk, hmade⟩ := hW.made d (Or.inl hd)
      exact ⟨k, hk, made_update hx hmade⟩
  · obtain ⟨k, hk, hmade⟩ := hW.made d (Or.inr hd)
    exact ⟨k, hk, made_update hx hmade⟩

/-- The client `i` moves to `x`; nothing is sent. -/
theorem Workers.move (hW : Workers n kind pid s) {i : κ} {x : Client}
    (hx : ∀ j, (s.client i).made j → x.made j) (replies : List (Call κ × Msg))
    (returned : List (Call κ × Char)) :
    Workers n kind pid { s with
      client := Function.update s.client i x
      replies := replies
      returned := returned } := by
  refine { hW with made := ?_ }
  intro d hd
  obtain ⟨k, hk, hmade⟩ := hW.made d hd
  exact ⟨k, hk, made_update hx hmade⟩

theorem Calls.move (hC : Calls s) {i : κ} {x : Client} (hx : x.num = (s.client i).num)
    (requests : List (Datagram κ)) (replies : List (Call κ × Msg)) :
    Calls { s with
      client := Function.update s.client i x
      requests := requests
      replies := replies } := by
  refine ⟨?_, ?_, hC.once⟩
  · intro k a hk
    show k.num < (Function.update s.client i x k.client).num
    rw [num_update hx]
    exact hC.num k a hk
  · intro j m hm
    exact hC.all j m (by rw [← num_update hx j]; exact hm)

/-- The first reply with a letter ends the call. -/
theorem Calls.complete (hC : Calls s) {r : Call κ × Char}
    (hcall : s.client r.1.client = .calling r.1.num) (replies : List (Call κ × Msg)) :
    Calls { s with
      client := Function.update s.client r.1.client (.asleep (r.1.num + 1))
      replies := replies
      returned := s.returned ++ [r] } := by
  have hnum : (s.client r.1.client).num = r.1.num := by rw [hcall]; rfl
  have hnew : r.1 ∉ s.returned.map Prod.fst := by
    intro hmem
    obtain ⟨⟨k, a⟩, hk, he⟩ := List.mem_map.mp hmem
    have hlt := hC.num k a hk
    simp only at he
    rw [he, hnum] at hlt
    omega
  refine ⟨?_, ?_, ?_⟩
  · intro k a hk
    show k.num < (Function.update s.client r.1.client (.asleep (r.1.num + 1)) k.client).num
    rcases List.mem_append.mp hk with hk | hk
    · have hlt := hC.num k a hk
      by_cases hi : k.client = r.1.client
      · rw [hi, hnum] at hlt
        rw [hi, Function.update_self]
        exact Nat.lt_succ_of_lt hlt
      · rwa [Function.update_of_ne hi]
    · cases List.mem_singleton.mp hk
      rw [Function.update_self]
      exact Nat.lt_succ_self _
  · intro i m (hm : m < (Function.update s.client r.1.client (.asleep (r.1.num + 1)) i).num)
    by_cases hi : i = r.1.client
    · subst hi
      rw [Function.update_self] at hm
      by_cases hlast : m = r.1.num
      · subst hlast
        exact ⟨r.2, List.mem_append_right _ (List.mem_singleton.mpr rfl)⟩
      · have hlt : m < r.1.num + 1 := hm
        obtain ⟨a, ha⟩ := hC.all r.1.client m (by omega)
        exact ⟨a, List.mem_append_left _ ha⟩
    · rw [Function.update_of_ne hi] at hm
      obtain ⟨a, ha⟩ := hC.all i m hm
      exact ⟨a, List.mem_append_left _ ha⟩
  · show ((s.returned ++ [r]).map Prod.fst).Nodup
    rw [List.map_append, List.nodup_append]
    refine ⟨hC.once, List.nodup_singleton _, ?_⟩
    rintro k hk k' hk' rfl
    exact hnew (by simpa [List.mem_singleton.mp hk'] using hk)

/-! ## Every run -/

theorem Inv.step (hn : 0 < n) (hI : Inv n kind pid s) {a : NetAction κ}
    (h : netStep n kind pid s a = some s') : Inv n kind pid s' := by
  have hW := hI.workers
  have hC := hI.calls
  cases a with
  | call i =>
    simp only [netStep] at h
    split at h
    next m hc =>
      cases h
      refine ⟨hW.send ?_ (le_refl m), hC.move (by rw [hc]; rfl) _ _⟩
      intro j hj
      rw [hc] at hj
      exact Nat.le_of_lt hj
    next => cases h
  | resend i =>
    simp only [netStep] at h
    split at h
    next m hc =>
      cases h
      refine ⟨?_, { hC with }⟩
      have hsend := hW.send (i := i) (m := m) (x := .calling m) (fun j hj => by rwa [hc] at hj)
        (le_refl m)
      rwa [← hc, Function.update_eq_self] at hsend
    next => cases h
  | loseRequest d =>
    cases h
    refine ⟨{ hW with made := ?_ }, { hC with }⟩
    intro d' hd
    exact hW.made d' (hd.imp_left List.mem_of_mem_erase)
  | receive d =>
    simp only [netStep] at h
    split_ifs at h with hd
    obtain ⟨u, hu, rfl⟩ := Option.map_eq_some_iff.mp h
    refine ⟨hW.step_process hn hu ?_ (fun d' => List.mem_of_mem_erase) _, { hC with }⟩
    intro d' hd'
    cases hd'
    exact hd
  | dispatch =>
    obtain ⟨u, hu, rfl⟩ := Option.map_eq_some_iff.mp h
    exact ⟨hW.step_process hn hu (fun d hd => by cases hd) (fun d hd => hd) _, { hC with }⟩
  | serve t =>
    obtain ⟨u, hu, rfl⟩ := Option.map_eq_some_iff.mp h
    exact ⟨hW.step_process hn hu (fun d hd => by cases hd) (fun d hd => hd) _, { hC with }⟩
  | loseReply r =>
    cases h
    exact ⟨{ hW with }, { hC with }⟩
  | complete r =>
    obtain ⟨k, msg⟩ := r
    simp only [netStep] at h
    split_ifs at h with hr
    cases msg with
    | letter a =>
      cases h
      exact ⟨hW.move (made_next hr.2) _ _, hC.complete (r := (k, a)) hr.2 _⟩
    | void | noproc =>
      cases h
      refine ⟨hW.move ?_ _ _, hC.move (by rw [hr.2]; rfl) _ _⟩
      intro j hj
      rwa [hr.2] at hj
  | fail i =>
    simp only [netStep] at h
    split at h
    next m hc =>
      cases h
      refine ⟨hW.move ?_ _ _, hC.move (by rw [hc]; rfl) _ _⟩
      intro j hj
      rwa [hc] at hj
    next => cases h

theorem inv_reach (hn : 0 < n) (h : (net n kind pid).Reach (netInitial κ n) s) :
    Inv n kind pid s :=
  h.invariant ⟨workers_initial n kind pid, calls_initial n⟩ fun _ _ _ hI _ hs => hI.step hn hs

theorem Answers.step (hA : Answers s) (hW : Workers n kind pid s) {a : NetAction κ}
    (hid : Identified s a) (h : netStep n kind pid s a = some s') : Answers s' := by
  cases a with
  | call i | resend i =>
    simp only [netStep] at h
    split at h
    · cases h
      exact { hA with }
    · cases h
  | loseRequest d => cases h; exact { hA with }
  | receive d =>
    simp only [netStep] at h
    split_ifs at h
    obtain ⟨u, hu, rfl⟩ := Option.map_eq_some_iff.mp h
    exact hA.step_process hW.process hu trivial fun k b hk => Or.inl hk
  | dispatch =>
    obtain ⟨u, hu, rfl⟩ := Option.map_eq_some_iff.mp h
    exact hA.step_process hW.process hu trivial fun k b hk => Or.inl hk
  | serve t =>
    obtain ⟨u, hu, rfl⟩ := Option.map_eq_some_iff.mp h
    refine hA.step_process hW.process hu hid.undisturbed ?_
    intro k b hk
    rcases List.mem_append.mp hk with hk | hk
    · exact Or.inr ⟨t, hW.sent hid (Option.mem_toList.mp hk)⟩
    · exact Or.inl hk
  | loseReply r =>
    cases h
    refine { hA with answered := ?_ }
    intro k b hk
    exact hA.answered k b (hk.imp_left List.mem_of_mem_erase)
  | complete r =>
    obtain ⟨k, msg⟩ := r
    simp only [netStep] at h
    split_ifs at h with hr
    have hlost : ∀ k' b, (k', Msg.letter b) ∈ s.replies.erase (k, msg) ∨ (k', b) ∈ s.returned →
        ∃ t, callOf s t = some k' ∧ result (s.process.server.loc t) = some b := by
      intro k' b hk
      exact hA.answered k' b (hk.imp_left List.mem_of_mem_erase)
    cases msg with
    | letter a =>
      cases h
      refine { hA with answered := ?_ }
      rintro k' b (hk | hk)
      · exact hlost k' b (Or.inl hk)
      · rcases List.mem_append.mp hk with hk | hk
        · exact hlost k' b (Or.inr hk)
        · cases List.mem_singleton.mp hk
          exact hA.answered k a (Or.inl hr.1)
    | void | noproc =>
      cases h
      exact { hA with answered := hlost }
  | fail i =>
    simp only [netStep] at h
    split at h
    · cases h
      exact { hA with }
    · cases h

theorem answers_reach (hn : 0 < n) (h : (net n kind pid).ReachBy Identified (netInitial κ n) s) :
    Answers s := by
  have hinv : Inv n kind pid s ∧ Answers s := by
    refine h.invariant (I := fun s => Inv n kind pid s ∧ Answers s)
      ⟨⟨workers_initial n kind pid, calls_initial n⟩, answers_initial n⟩ ?_
    rintro s a s' ⟨hI, hA⟩ hid hs
    exact ⟨hI.step hn hs, hA.step hI.workers hid hs⟩
  exact hinv.2

/-! ## Letters and calls -/

theorem mem_removals {k : Call κ} {p : ℕ × Char} :
    p ∈ removals s k ↔ p ∈ taken s ∧ callOf s p.1 = some k := by
  simp [removals]

/-- A letter that a consumer's call has returned was taken for this call. -/
theorem Inv.returned_taken (hI : Inv n kind pid s) (hA : Answers s) {k : Call κ} {a : Char}
    (hk : kind k.client = .consumer) (h : (k, a) ∈ s.returned) :
    ∃ t, (t, a) ∈ removals s k := by
  obtain ⟨t, ht, hr⟩ := hA.answered k a (Or.inr h)
  refine ⟨t, mem_removals.mpr ⟨?_, ht⟩⟩
  rcases result_cases hr with hl | hl
  · have hproc := hI.proc_eq hA ht (p := .producer) (by rw [hl]; rfl)
    rw [hk] at hproc
    cases hproc
  · exact (hI.workers.server.taken_iff t a).mpr ⟨_, hl⟩

/-- A call removes at most one letter for each copy that was dispatched. -/
theorem Inv.removals_le (hI : Inv n kind pid s) (k : Call κ) :
    (removals s k).length ≤ copies s k := by
  have hnodup : ((removals s k).map Prod.fst).Nodup :=
    hI.workers.server.takenOnce.sublist (List.filter_sublist.map _)
  have hsub : (removals s k).map Prod.fst ⊆
      (List.range s.process.created).filter fun t => callOf s t = some k := by
    intro t ht
    obtain ⟨p, hp, rfl⟩ := List.mem_map.mp ht
    have hcall := (mem_removals.mp hp).2
    have hlt : p.1 < s.process.created := by
      by_contra hge
      obtain ⟨th, hth, -⟩ := exists_thread hcall
      rw [hI.workers.process.fresh p.1 (by omega)] at hth
      cases hth
    simp [hlt, hcall]
  simpa [copies] using List.Nodup.length_le_of_subset hnodup hsub

theorem eq_singleton_of_mem {α : Type} {l : List α} {x : α} (hl : l.length ≤ 1) (hx : x ∈ l) :
    l = [x] := by
  match l, hl with
  | [y], _ => rw [List.mem_singleton.mp hx]

/-- A call of a consumer that was dispatched once removes exactly what it returns. -/
theorem Inv.removals_eq (hI : Inv n kind pid s) (hA : Answers s) {k : Call κ} {a : Char}
    (hk : kind k.client = .consumer) (hone : copies s k = 1) (h : (k, a) ∈ s.returned) :
    ∃ t, removals s k = [(t, a)] := by
  obtain ⟨t, ht⟩ := hI.returned_taken hA hk h
  have hle := hI.removals_le k
  rw [hone] at hle
  exact ⟨t, eq_singleton_of_mem hle ht⟩

/-- **Consumption.** In every run every worker takes at most one letter, and takes it for
the call it was created for, which is pending, has failed or has returned; a call removes
at most one letter for each of its copies that were dispatched, and returns at most once.
In a run in which every worker finds its own request when it reads the shared `svc_req`
and the transport, moreover, letters are taken for calls of consumers only, a letter that a
call of a consumer has returned was taken for this call, and where a single copy of a call
was dispatched, the call returns exactly the letter it removes. -/
theorem consumption_spec {tr : List (Net κ × NetAction κ)} (hn : 1 ≤ n)
    (h : (net n kind pid).Trace (netInitial κ n) tr s) :
    ((taken s).map Prod.fst).Nodup ∧
    (∀ t a, (t, a) ∈ taken s → ∃ k, callOf s t = some k ∧
      (pending s k ∨ failed s k ∨ ∃ b, (k, b) ∈ s.returned)) ∧
    (∀ k, (removals s k).length ≤ copies s k) ∧
    (s.returned.map Prod.fst).Nodup ∧
    ((∀ p ∈ tr, Identified p.1 p.2) →
      (∀ t a k, (t, a) ∈ taken s → callOf s t = some k → kind k.client = .consumer) ∧
      (∀ k a, kind k.client = .consumer → (k, a) ∈ s.returned → ∃ t, (t, a) ∈ removals s k) ∧
      (∀ k a, kind k.client = .consumer → copies s k = 1 → (k, a) ∈ s.returned →
        ∃ t, removals s k = [(t, a)]) ∧
      (∀ k t a, copies s k = 1 → (t, a) ∈ removals s k →
        pending s k ∨ failed s k ∨ (k, a) ∈ s.returned)) := by
  have hI := inv_reach hn h.reach
  refine ⟨hI.workers.server.takenOnce, fun t a => hI.taken_call, hI.removals_le, hI.calls.once, ?_⟩
  intro hid
  have hA := answers_reach hn (h.reachBy hid)
  refine ⟨fun t a k ht hk => hI.taken_consumer hA ht hk, fun k a hk => hI.returned_taken hA hk,
    fun k a hk hone => hI.removals_eq hA hk hone, ?_⟩
  intro k t a hone hrem
  obtain ⟨ht, hcall⟩ := mem_removals.mp hrem
  obtain ⟨k', hk', hstatus⟩ := hI.taken_call ht
  cases hcall.symm.trans hk'
  rcases hstatus with hp | hf | ⟨b, hb⟩
  · exact Or.inl hp
  · exact Or.inr (Or.inl hf)
  · obtain ⟨u, hu⟩ := hI.removals_eq hA (hI.taken_consumer hA ht hcall) hone hb
    rw [hu] at hrem
    cases List.mem_singleton.mp hrem
    exact Or.inr (Or.inr hb)

/-- Two producers and a consumer. -/
def twoProducers : Fin 3 → Proc := ![.producer, .producer, .consumer]

def pids : Fin 3 → ℤ := ![100, 101, 102]

/-- Client `i` calls, its request arrives, and its worker `t` takes `m` steps. -/
def serveCall (i : Fin 3) (t m : ℕ) : List (NetAction (Fin 3)) :=
  [.call i, .receive (requestOf twoProducers pids ⟨i, 0⟩), .dispatch] ++
    List.replicate m (.serve t)

/-- Client `p` produces one letter; the call of client `k` returns it, and a second copy of
its request is still on the network. -/
def oneCopyRun (p k : Fin 3) : List (NetAction (Fin 3)) :=
  serveCall p 0 19 ++ serveCall k 1 17 ++ [.resend k, .complete (⟨k, 0⟩, .letter 'a')]

theorem consumption_spec_one_copy : ∃ s : Net (Fin 3),
    (net 2 twoProducers pids).Reach (netInitial (Fin 3) 2) s ∧
      s.requests = [requestOf twoProducers pids ⟨2, 0⟩] ∧
      ∃ t, removals s ⟨2, 0⟩ = [(t, 'a')] := by
  have hrun : ((net 2 twoProducers pids).exec Identified (netInitial (Fin 3) 2)
      (oneCopyRun 0 2)).any (fun s => s.requests = [requestOf twoProducers pids ⟨2, 0⟩] &&
        copies s ⟨2, 0⟩ = 1 && s.returned = [(⟨2, 0⟩, 'a')]) = true := by
    decide +kernel
  obtain ⟨s, hs, hp⟩ := Machine.exists_reachBy_of_exec _ _ hrun
  simp only [Bool.and_eq_true, decide_eq_true_eq] at hp
  obtain ⟨⟨hreq, hone⟩, hret⟩ := hp
  obtain ⟨tr, htr, hid⟩ := hs.exists_trace
  obtain ⟨-, -, -, -, hspec⟩ := consumption_spec (by decide) htr
  obtain ⟨-, -, honce, -⟩ := hspec hid
  exact ⟨s, hs.reach, hreq, honce ⟨2, 0⟩ 'a' rfl hone (by rw [hret]; simp)⟩

/-- Clients `p` and `q` produce a letter each; the request of client `k` arrives twice, and
its call returns with the reply of the first worker. Every worker finds its own request. -/
def twoCopiesRun (p q k : Fin 3) : List (NetAction (Fin 3)) :=
  serveCall p 0 19 ++ serveCall q 1 20 ++ serveCall k 2 17 ++
    [.resend k, .receive (requestOf twoProducers pids ⟨k, 0⟩), .dispatch] ++
    List.replicate 18 (.serve 3) ++ [.complete (⟨k, 0⟩, .letter 'a')]

/-- Even where every worker finds its own request, a single call can remove two letters,
of which it returns one. -/
theorem two_letters_for_one_call : ¬ ∀ s : Net (Fin 3),
    (net 2 twoProducers pids).ReachBy Identified (netInitial (Fin 3) 2) s →
      (∀ k a, twoProducers k.client = .consumer → (k, a) ∈ s.returned →
        ∃ t, removals s k = [(t, a)]) ∧
      (∀ t a, (t, a) ∈ taken s → ∃ k, callOf s t = some k ∧
        (pending s k ∨ (k, a) ∈ s.returned)) := by
  intro h
  have hrun : ((net 2 twoProducers pids).exec Identified (netInitial (Fin 3) 2)
      (twoCopiesRun 0 1 2)).any (fun s => removals s ⟨2, 0⟩ = [(2, 'a'), (3, 'b')] &&
        s.returned = [(⟨2, 0⟩, 'a')]) = true := by
    decide +kernel
  obtain ⟨s, hs, hp⟩ := Machine.exists_reachBy_of_exec _ _ hrun
  simp only [Bool.and_eq_true, decide_eq_true_eq] at hp
  obtain ⟨t, ht⟩ := (h s hs).1 ⟨2, 0⟩ 'a' rfl (by rw [hp.2]; simp)
  rw [hp.1] at ht
  cases ht

end OsLabs.PcRpc
