import OsLabs.Bakery.Reads
import OsLabs.Concurrent.Machine

/-!
# The bakery server: model

Clients of `os_lab_rpc/bakery/bakery_server.c`. The client with index `ind` (one of
`0, …, n - 1`, with `n` for `COUNT_CLIENTS`) calls `get_number_1_svc` and, after its
reply, `serve_1_svc`; each call runs in a worker thread of its own, and since the calls
of one client follow each other, a client and its worker make one thread here. After a
served round the client may start again. An index without a client is a thread that
never starts.

Every `lock` and `unlock` of `mut[ind]` and every read or write of an entry of `numbers`
or `pids` is one step, the reads of the printing loops included. Tickets do not
overflow. The arithmetic on `arg1` and `arg2` behind `switch (argp->op)` touches nothing
shared and is one step without its result.
-/

namespace OsLabs.Bakery

open Concurrent

/-- The arrays of the server; `locked` is the state of the mutexes `mut`. -/
structure Shared where
  numbers : ℕ → ℕ
  pids : ℕ → ℕ
  locked : ℕ → Bool

/-- The points of `get_number_1_svc`. -/
inductive GetPC
  | lock
  | max (m : MaxPC)
  | storeNum (res : ℕ)
  | storePid (num : ℕ)
  | print (num i : ℕ)
  | unlock (num : ℕ)
deriving DecidableEq, Repr

/-- The points of `serve_1_svc`. -/
inductive ServePC
  | lock (i : ℕ)
  | test (i : ℕ) (w : WaitPC)
  | unlock (i : ℕ) (out : Bool)
  | switch
  | printNum (i : ℕ)
  | printPid (i : ℕ)
  | resetLock
  | resetNum
  | resetPid
  | resetUnlock
deriving DecidableEq, Repr

/-- A client: before its `get_number`, inside it, holding its reply, inside `serve`, and
served. -/
inductive PC
  | idle
  | getNumber (pc : GetPC)
  | replied (num : ℕ)
  | serve (pc : ServePC)
  | served
deriving DecidableEq, Repr

/-- `pthread_mutex_lock(&mut[ind])`. -/
def lockMut (s : Shared) (ind : ℕ) : Option Shared :=
  if s.locked ind then none else some { s with locked := Function.update s.locked ind true }

/-- `pthread_mutex_unlock(&mut[ind])`. -/
def unlockMut (s : Shared) (ind : ℕ) : Shared :=
  { s with locked := Function.update s.locked ind false }

/-- One step of `get_number_1_svc`. -/
def getNumber1Svc (n ind pid : ℕ) (s : Shared) : GetPC → Option (Shared × PC)
  | .lock => (lockMut s ind).map fun s' => (s', .getNumber (.max .init))
  | .max m =>
      match maxNumber n 0 s.numbers m with
      | .inl m' => some (s, .getNumber (.max m'))
      | .inr res => some (s, .getNumber (.storeNum res))
  -- `result->num = max_number() + 1; numbers[ind] = result->num`
  | .storeNum res =>
      some ({ s with numbers := Function.update s.numbers ind (res + 1) },
        .getNumber (.storePid (res + 1)))
  | .storePid num =>
      some ({ s with pids := Function.update s.pids ind pid }, .getNumber (.print num 0))
  | .print num i =>
      if i < n then some (s, .getNumber (.print num (i + 1)))
      else some (s, .getNumber (.unlock num))
  | .unlock num => some (unlockMut s ind, .replied num)

/-- The head of the wait loop of `serve_1_svc`. -/
def serveNext (n i : ℕ) : PC := if i < n then .serve (.lock i) else .serve .switch

/-- One step of `serve_1_svc`. -/
def serve1Svc (n ind : ℕ) (s : Shared) : ServePC → Option (Shared × PC)
  | .lock i => (lockMut s ind).map fun s' => (s', .serve (.test i .nonzero))
  | .test i w =>
      match waitTest s.numbers s.pids ind i w with
      | .inl w' => some (s, .serve (.test i w'))
      | .inr out => some (s, .serve (.unlock i out))
  | .unlock i out => some (unlockMut s ind, if out then .serve (.lock i) else serveNext n (i + 1))
  | .switch => some (s, .serve (.printNum 0))
  | .printNum i =>
      if i < n then some (s, .serve (.printPid i)) else some (s, .serve .resetLock)
  | .printPid i => some (s, .serve (.printNum (i + 1)))
  | .resetLock => (lockMut s ind).map fun s' => (s', .serve .resetNum)
  | .resetNum => some ({ s with numbers := Function.update s.numbers ind 0 }, .serve .resetPid)
  | .resetPid => some ({ s with pids := Function.update s.pids ind 0 }, .serve .resetUnlock)
  | .resetUnlock => some (unlockMut s ind, .served)

/-- One step of a client or of the worker thread that runs its call. -/
def clientStep {n : ℕ} (pid : Fin n → ℕ) (t : Fin n) (_ : Unit) (s : Shared) :
    PC → Option (Shared × PC)
  | .idle => some (s, .getNumber .lock)
  | .getNumber pc => getNumber1Svc n t (pid t) s pc
  | .replied _ => some (s, serveNext n 0)
  | .serve pc => serve1Svc n t s pc
  | .served => some (s, .idle)

/-- The server before the first request. -/
def initial (n : ℕ) : Config (Fin n) Shared PC where
  shared := ⟨fun _ => 0, fun _ => 0, fun _ => false⟩
  loc _ := .idle

/-- The server with its clients, interleaved. -/
def server {n : ℕ} (pid : Fin n → ℕ) : Machine (Config (Fin n) Shared PC) (Fin n × Unit) :=
  interleave (clientStep pid)

/-! ## What a step writes -/

theorem lockMut_eq {s s' : Shared} {ind : ℕ} (h : lockMut s ind = some s') :
    s'.numbers = s.numbers ∧ s'.pids = s.pids := by
  unfold lockMut at h
  split_ifs at h
  cases h
  exact ⟨rfl, rfl⟩

section Writes

variable {n : ℕ} {pid : Fin n → ℕ} {t : Fin n} {s s' : Shared} {x x' : PC}

/-- A step writes `numbers` where it stores or resets the ticket of its own client, and
nowhere else. -/
theorem clientStep_numbers (h : clientStep pid t () s x = some (s', x')) :
    s'.numbers = s.numbers ∨
      (∃ res, x = .getNumber (.storeNum res) ∧ x' = .getNumber (.storePid (res + 1)) ∧
        s'.numbers = Function.update s.numbers t (res + 1)) ∨
      (x = .serve .resetNum ∧ x' = .serve .resetPid ∧
        s'.numbers = Function.update s.numbers t 0) := by
  cases x with
  | idle | replied | served => cases h; exact Or.inl rfl
  | getNumber pc =>
    cases pc with
    | lock =>
      obtain ⟨u, hu, he⟩ := Option.map_eq_some_iff.mp h
      cases he
      exact Or.inl (lockMut_eq hu).1
    | max m =>
      simp only [clientStep, getNumber1Svc] at h
      split at h <;> cases h <;> exact Or.inl rfl
    | storeNum res => cases h; exact Or.inr (Or.inl ⟨res, rfl, rfl, rfl⟩)
    | print num i =>
      simp only [clientStep, getNumber1Svc] at h
      split_ifs at h <;> cases h <;> exact Or.inl rfl
    | storePid | unlock => cases h; exact Or.inl rfl
  | serve pc =>
    cases pc with
    | lock | resetLock =>
      obtain ⟨u, hu, he⟩ := Option.map_eq_some_iff.mp h
      cases he
      exact Or.inl (lockMut_eq hu).1
    | test i w =>
      simp only [clientStep, serve1Svc] at h
      split at h <;> cases h <;> exact Or.inl rfl
    | printNum i =>
      simp only [clientStep, serve1Svc] at h
      split_ifs at h <;> cases h <;> exact Or.inl rfl
    | resetNum => cases h; exact Or.inr (Or.inr ⟨rfl, rfl, rfl⟩)
    | unlock | switch | printPid | resetPid | resetUnlock => cases h; exact Or.inl rfl

theorem clientStep_numbers_of_ne (h : clientStep pid t () s x = some (s', x')) {k : ℕ}
    (hk : k ≠ t) : s'.numbers k = s.numbers k := by
  rcases clientStep_numbers h with he | ⟨_, _, _, he⟩ | ⟨_, _, he⟩
  · rw [he]
  · rw [he, Function.update_of_ne hk]
  · rw [he, Function.update_of_ne hk]

end Writes

/-- The client is past the wait loop: from the `switch` up to the reset of its entry of
`numbers`. -/
def pastWait (pc : PC) : Bool :=
  match pc with
  | .serve .switch | .serve (.printNum _) | .serve (.printPid _) | .serve .resetLock
  | .serve .resetNum => true
  | _ => false

end OsLabs.Bakery
