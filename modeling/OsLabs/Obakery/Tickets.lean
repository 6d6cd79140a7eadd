import OsLabs.Obakery.Model
import Mathlib.Data.List.Basic

/-!
# The single-threaded ticket server: the order of the tickets

The slots are filled in order, so the scan of `max_number` finds the number of slots in
use, and slot `k` keeps the ticket `k + 1`. `number_last` is the largest ticket accepted
so far; a `serve` request is refused exactly when a larger ticket was accepted before it,
wherever the waits time out (`ticket_order`).
-/

namespace OsLabs.Obakery

open Concurrent

variable {F : Type}

/-! ## The parts of a request -/

theorem maxNumber_succ (n : ℕ) (numbers : ℕ → ℕ) :
    maxNumber (n + 1) numbers = max (maxNumber n numbers) (numbers n) := by
  unfold maxNumber
  rw [List.range_succ, List.foldl_append]
  simp only [List.foldl_cons, List.foldl_nil]
  split_ifs with h <;> omega

/-- The scan over slots filled in order finds how many of them are in use. -/
theorem maxNumber_eq {numbers : ℕ → ℕ} {m : ℕ}
    (h : ∀ i, numbers i = if i < m then i + 1 else 0) (n : ℕ) :
    maxNumber n numbers = min n m := by
  induction n with
  | zero => simp [maxNumber]
  | succ n ih =>
    rw [maxNumber_succ, ih, h]
    split_ifs with hn <;> omega

section GetNumber

variable {n : ℕ} {s s' : Server F} {reply : Bakery F}

/-- A request for a ticket draws the next slot, which lies in the arrays. -/
theorem getNumber_spec (h : getNumber1Svc n s = some (s', reply)) :
    s.indexLast < n ∧ s'.indexLast = s.indexLast + 1 ∧ s'.numberLast = s.numberLast ∧
      reply.ind = s.indexLast ∧ reply.num = s'.numbers s.indexLast := by
  unfold getNumber1Svc at h
  simp only [Option.ite_none_right_eq_some, Option.some.injEq, Prod.mk.injEq] at h
  obtain ⟨hlt, rfl, rfl⟩ := h
  exact ⟨hlt, rfl, rfl, rfl, rfl⟩

/-- The slots that were drawn before keep what they hold. -/
theorem getNumber_frame (h : getNumber1Svc n s = some (s', reply)) {i : ℕ}
    (hi : i ≠ s.indexLast) : s'.numbers i = s.numbers i ∧ s'.choosing i = s.choosing i := by
  unfold getNumber1Svc at h
  simp only [Option.ite_none_right_eq_some, Option.some.injEq, Prod.mk.injEq] at h
  obtain ⟨-, rfl, -⟩ := h
  constructor
  · exact Function.update_of_ne hi ..
  · exact (Function.update_of_ne hi ..).trans (Function.update_of_ne hi ..)

end GetNumber

/-- The wait on `choosing` does not block where the slot is not choosing. -/
theorem waitSlots_isSome {s : Server F} {ind : ℕ} (h : s.choosing ind = 0) (ticks : ℕ → ℕ)
    (js : List ℕ) : (waitSlots s ind ticks js).isSome = true := by
  induction js with
  | nil => rfl
  | cons j js ih =>
    rw [waitSlots, if_pos h, Option.isSome_map]
    exact ih

/-! ## The history -/

section History

variable {log : List (Handled F)}

@[simp] theorem issued_append (log log' : List (Handled F)) :
    issued (log ++ log') = issued log ++ issued log' := List.filterMap_append

@[simp] theorem accepted_append (log log' : List (Handled F)) :
    accepted (log ++ log') = accepted log ++ accepted log' := List.filterMap_append

@[simp] theorem issued_number (reply : Bakery F) : issued [.number reply] = [reply] := rfl

@[simp] theorem issued_served (ind ticket : ℕ) (refused : Bool) (reply : Bakery F) :
    issued [.served ind ticket refused reply] = [] := rfl

@[simp] theorem accepted_number (reply : Bakery F) : accepted [.number reply] = [] := rfl

@[simp] theorem accepted_refused (ind ticket : ℕ) (reply : Bakery F) :
    accepted [.served ind ticket true reply] = [] := rfl

@[simp] theorem accepted_accepted (ind ticket : ℕ) (reply : Bakery F) :
    accepted [.served ind ticket false reply] = [ticket] := rfl

/-- An entry of a list with one more element is one of the old ones, or the new one. -/
theorem getElem?_concat {α : Type*} {xs : List α} {x y : α} {k : ℕ}
    (h : (xs ++ [x])[k]? = some y) :
    (k < xs.length ∧ xs[k]? = some y) ∨ (k = xs.length ∧ y = x) := by
  rcases Nat.lt_trichotomy k xs.length with hlt | heq | hgt
  · rw [List.getElem?_append_left hlt] at h
    exact Or.inl ⟨hlt, h⟩
  · subst heq
    rw [List.getElem?_concat_length] at h
    exact Or.inr ⟨rfl, (Option.some.inj h).symm⟩
  · rw [List.getElem?_eq_none (by simp; omega)] at h
    cases h

/-- A property of every entry and of what came before it, when one entry is added. -/
theorem forall_entry_concat {P : List (Handled F) → Handled F → Prop} {e : Handled F}
    (h : ∀ (k : ℕ) e', log[k]? = some e' → P (log.take k) e') (he : P log e) :
    ∀ (k : ℕ) e', (log ++ [e])[k]? = some e' → P ((log ++ [e]).take k) e' := by
  intro k e' hk
  rcases getElem?_concat hk with ⟨hlt, hold⟩ | ⟨rfl, rfl⟩
  · rw [List.take_append_of_le_length (by omega)]
    exact h k e' hold
  · rw [List.take_left]
    exact he

end History

/-! ## The invariant -/

/-- A `serve` request is refused exactly when a larger ticket was accepted before. -/
def RefusedRight (past : List (Handled F)) : Handled F → Prop
  | .number _ => True
  | .served ind ticket refused _ =>
      ticket = ind + 1 ∧ (refused = true ↔ ∃ t ∈ accepted past, ticket < t)

structure Inv (n : ℕ) (c : Service F) : Prop where
  indexLast : c.server.indexLast = (issued c.log).length
  choosing : ∀ i, c.server.choosing i = 0
  numbers : ∀ i, c.server.numbers i = if i < (issued c.log).length then i + 1 else 0
  bound : (issued c.log).length ≤ n
  replies : ∀ (k : ℕ) (reply : Bakery F), (issued c.log)[k]? = some reply →
    reply.ind = k ∧ reply.num = k + 1
  last : c.server.numberLast = 0 ∨ c.server.numberLast ∈ accepted c.log
  largest : ∀ t ∈ accepted c.log, t ≤ c.server.numberLast
  sorted : (accepted c.log).Pairwise (· ≤ ·)
  refused : ∀ k e, c.log[k]? = some e → RefusedRight (c.log.take k) e

theorem inv_initial [Zero F] (n : ℕ) : Inv n (initial F) where
  indexLast := rfl
  choosing _ := rfl
  numbers _ := rfl
  bound := Nat.zero_le n
  replies := by simp [initial, issued]
  last := Or.inl rfl
  largest := by simp [initial, accepted]
  sorted := List.Pairwise.nil
  refused := by simp [initial]

section Steps

variable {n : ℕ} {c : Service F}

/-- The slots are filled in order, and the scan finds the number of them. -/
theorem Inv.scan (hI : Inv n c) : maxNumber n c.server.numbers = c.server.indexLast := by
  have hbound := hI.bound
  rw [maxNumber_eq hI.numbers, hI.indexLast]
  omega

theorem Inv.getNumber (hI : Inv n c) (hlt : (issued c.log).length < n) :
    ∃ s reply, getNumber1Svc n c.server = some (s, reply) ∧
      Inv n ⟨s, c.log ++ [.number reply]⟩ ∧ s.numberLast = c.server.numberLast := by
  have hlen : c.server.indexLast < n := by
    rw [hI.indexLast]
    exact hlt
  unfold getNumber1Svc
  simp only [if_pos hlen, hI.scan]
  refine ⟨_, _, rfl, ?_, rfl⟩
  have hlog : issued (c.log ++ [Handled.number { c.server.numberResult with
      num := (Function.update c.server.numbers c.server.indexLast (c.server.indexLast + 1)
        c.server.indexLast : ℕ), ind := c.server.indexLast }]) = issued c.log ++
      [{ c.server.numberResult with
        num := (c.server.indexLast : ℤ) + 1, ind := c.server.indexLast }] := by
    simp
  constructor
  · simp [hI.indexLast]
  · intro i
    by_cases hi : i = c.server.indexLast
    · simp [hi]
    · simp [hi, hI.choosing i]
  · intro i
    by_cases hi : i = c.server.indexLast
    · simp [hi, hI.indexLast]
    · have hne : i ≠ (issued c.log).length := by
        rw [← hI.indexLast]
        exact hi
      simp only [Function.update_of_ne hi, issued_append, issued_number, List.length_append,
        List.length_singleton, hI.numbers i]
      split_ifs <;> omega
  · simp only [issued_append, issued_number, List.length_append, List.length_singleton]
    omega
  · intro k reply hk
    simp only [hlog] at hk
    rcases getElem?_concat hk with ⟨-, hold⟩ | ⟨rfl, rfl⟩
    · exact hI.replies k reply hold
    · exact ⟨by simp only [hI.indexLast], by simp only [hI.indexLast]⟩
  · simpa using hI.last
  · simpa using hI.largest
  · simpa using hI.sorted
  · exact forall_entry_concat hI.refused trivial

/-- An issued index is a slot in use. -/
theorem Inv.issued_ind (hI : Inv n c) {ind : ℤ} (h : ∃ reply ∈ issued c.log, reply.ind = ind) :
    ∃ k : ℕ, ind = k ∧ k < (issued c.log).length := by
  obtain ⟨reply, hmem, rfl⟩ := h
  obtain ⟨k, hk⟩ := List.mem_iff_getElem?.mp hmem
  obtain ⟨hlt, -⟩ := List.getElem?_eq_some_iff.mp hk
  exact ⟨k, (hI.replies k reply hk).1, hlt⟩

/-- The ticket of slot `k` is `k + 1`. -/
theorem Inv.ticket (hI : Inv n c) {ind : ℤ} (h : ∃ reply ∈ issued c.log, reply.ind = ind) :
    (0 ≤ ind ∧ ind < n) ∧ c.server.numbers ind.toNat = ind.toNat + 1 := by
  obtain ⟨k, rfl, hlt⟩ := hI.issued_ind h
  have hbound := hI.bound
  rw [Int.toNat_natCast, hI.numbers, if_pos hlt]
  exact ⟨⟨by omega, by omega⟩, rfl⟩

/-- The first test refuses exactly where a larger ticket was accepted before. -/
theorem Inv.refuses_iff (hI : Inv n c) (ind : ℤ) :
    refuses c.server ind = true ↔ ∃ t ∈ accepted c.log, c.server.numbers ind.toNat < t := by
  simp only [refuses, decide_eq_true_eq]
  constructor
  · intro hlt
    rcases hI.last with hzero | hmem
    · omega
    · exact ⟨_, hmem, hlt⟩
  · rintro ⟨t, ht, hlt⟩
    have := hI.largest t ht
    omega

/-- A `serve` request is answered wherever its waits end. -/
theorem Inv.serve [Add F] [Sub F] [Mul F] [Div F] (hI : Inv n c) {argp : Bakery F}
    (h : ∃ reply ∈ issued c.log, reply.ind = argp.ind) (ticks : ℕ → ℕ) :
    ∃ s reply, serve1Svc n c.server argp ticks = some (s, reply) ∧
      Inv n ⟨s, c.log ++ [.served argp.ind.toNat (c.server.numbers argp.ind.toNat)
        (refuses c.server argp.ind) reply]⟩ ∧ c.server.numberLast ≤ s.numberLast := by
  obtain ⟨hlt, hticket⟩ := hI.ticket h
  have hright := hI.refuses_iff argp.ind
  unfold serve1Svc
  rw [if_pos hlt]
  by_cases hr : refuses c.server argp.ind = true
  · rw [if_pos hr, hr]
    rw [hr] at hright
    refine ⟨_, _, rfl, ?_, le_refl _⟩
    constructor
    · simpa using hI.indexLast
    · exact hI.choosing
    · simpa using hI.numbers
    · simpa using hI.bound
    · simpa using hI.replies
    · simpa using hI.last
    · simpa using hI.largest
    · simpa using hI.sorted
    · exact forall_entry_concat hI.refused ⟨hticket, hright⟩
  · have hnot : refuses c.server argp.ind = false := by simpa using hr
    have hle : c.server.numberLast ≤ c.server.numbers argp.ind.toNat := by
      simpa [refuses] using hnot
    obtain ⟨ends, hends⟩ := Option.isSome_iff_exists.mp
      (waitSlots_isSome (hI.choosing argp.ind.toNat) ticks (List.range n))
    simp only [hends, hnot, Option.map_some]
    rw [hnot] at hright
    refine ⟨_, _, rfl, ?_, hle⟩
    constructor
    · simpa using hI.indexLast
    · exact hI.choosing
    · simpa using hI.numbers
    · simpa using hI.bound
    · simpa using hI.replies
    · exact Or.inr (by simp)
    · intro t ht
      rw [accepted_append, accepted_accepted, List.mem_append, List.mem_singleton] at ht
      rcases ht with hold | rfl
      · exact le_trans (hI.largest t hold) hle
      · exact le_refl _
    · rw [accepted_append, accepted_accepted, List.pairwise_append]
      refine ⟨hI.sorted, List.pairwise_singleton _ _, ?_⟩
      intro t ht t' ht'
      rw [List.mem_singleton.mp ht']
      exact le_trans (hI.largest t ht) hle
    · exact forall_entry_concat hI.refused ⟨hticket, hright⟩

end Steps

/-! ## Whole histories -/

section Runs

variable [Add F] [Sub F] [Mul F] [Div F] {n : ℕ} {c : Service F}

theorem Inv.handles (hI : Inv n c) {r : Request F} (hr : Allowed n c r) :
    ∃ c', (service F n).next c r = some c' ∧ Inv n c' ∧
      c.server.numberLast ≤ c'.server.numberLast := by
  rcases r with argp | ⟨argp, ticks⟩
  · obtain ⟨s, reply, hs, hI', hle⟩ := hI.getNumber hr
    exact ⟨_, by simp [service, bakeryProg1, hs], hI', le_of_eq hle.symm⟩
  · obtain ⟨s, reply, hs, hI', hle⟩ := hI.serve hr ticks
    exact ⟨_, by simp [service, bakeryProg1, hs], hI', hle⟩

variable [Zero F]

theorem inv_reach (h : (service F n).ReachBy (Allowed n) (initial F) c) : Inv n c := by
  apply h.invariant (inv_initial n)
  intro c r c' hI hr hn
  obtain ⟨c'', hn', hI', -⟩ := hI.handles hr
  rw [hn] at hn'
  cases hn'
  exact hI'

/-- **The order of the tickets.** After every history of at most `n` requests for a ticket
and of `serve` requests on issued indices, wherever their waits time out: the `k`-th
request for a ticket was answered with index `k` and ticket `k + 1` (from `k = 0`), and
the slot still holds it; no slot is choosing, so a further request is answered, and it
does not lower `number_last`; the accepted tickets do not decrease; and each `serve`
request was refused exactly where a larger ticket had been accepted before it. -/
theorem ticket_order (h : (service F n).ReachBy (Allowed n) (initial F) c) :
    (∀ (k : ℕ) reply, (issued c.log)[k]? = some reply →
      reply.ind = k ∧ reply.num = k + 1 ∧ c.server.numbers k = k + 1) ∧
    (∀ i, c.server.choosing i = 0) ∧
    (∀ r, Allowed n c r → ∃ c', (service F n).next c r = some c' ∧
      c.server.numberLast ≤ c'.server.numberLast) ∧
    (accepted c.log).Pairwise (· ≤ ·) ∧
    ∀ (k : ℕ) ind ticket refused reply,
      c.log[k]? = some (.served ind ticket refused reply) → ticket = ind + 1 ∧
        (refused = true ↔ ∃ t ∈ accepted (c.log.take k), ticket < t) := by
  have hI := inv_reach h
  refine ⟨?_, hI.choosing, ?_, hI.sorted, ?_⟩
  · intro k reply hk
    obtain ⟨hind, hnum⟩ := hI.replies k reply hk
    have hslot := (hI.ticket ⟨reply, List.mem_of_getElem? hk, rfl⟩).2
    rw [hind, Int.toNat_natCast] at hslot
    exact ⟨hind, hnum, hslot⟩
  · intro r hr
    obtain ⟨c', hn, -, hle⟩ := hI.handles hr
    exact ⟨c', hn, hle⟩
  · intro k ind ticket refused reply hk
    exact hI.refused k _ hk

end Runs

/-! ### A history with a refusal -/

instance (n : ℕ) (c : Service F) : (r : Request F) → Decidable (Allowed n c r)
  | .getNumber _ => inferInstanceAs (Decidable (_ < _))
  | .serve .. => inferInstanceAs (Decidable (∃ reply ∈ _, _))

/-- An argument with the operation `op` for the slot `ind`. -/
def argument (ind op : ℤ) : Bakery ℤ := { Bakery.zero ℤ with ind := ind, op := op }

/-- Two tickets are drawn; the second is served, and then the first is refused. -/
def lateHistory : List (Request ℤ) :=
  [.getNumber (argument 0 0), .getNumber (argument 0 0), .serve (argument 1 0) fun _ => 3,
    .serve (argument 0 0) fun _ => 3]

theorem ticket_order_late : ∃ c : Service ℤ, accepted c.log = [2] ∧
    ∃ reply, (issued c.log)[1]? = some reply ∧ reply.num = 2 ∧ c.server.numbers 1 = 2 := by
  have hrun : ((service ℤ 2).exec (Allowed 2) (initial ℤ) lateHistory).any
      (fun c => accepted c.log = [2] ∧ (issued c.log)[1]?.isSome = true) = true := by decide
  obtain ⟨c, hc, hp⟩ := Machine.exists_reachBy_of_exec _ _ hrun
  obtain ⟨hacc, hsome⟩ : accepted c.log = [2] ∧ (issued c.log)[1]?.isSome = true := by
    simpa using hp
  obtain ⟨reply, hreply⟩ := Option.isSome_iff_exists.mp hsome
  obtain ⟨-, hnum, hslot⟩ := (ticket_order hc).1 1 reply hreply
  exact ⟨c, hacc, reply, hreply, hnum, hslot⟩

end OsLabs.Obakery
