import OsLabs.Concurrent.Machine
import Mathlib.Data.Fin.Basic

/-!
# Tickets drawn by a scan that is not atomic

A client draws a ticket by scanning the tickets of the others and taking one more than
the maximum it found; `0` stands for no ticket. The scan reads one entry at a time, and
an entry found above the running maximum is read a second time when it is copied, so the
entry may have changed in between.

A client `j` that holds a ticket has *settled* client `i` for `Q` (`Settled`) when the
draw that `i` may be in has not missed the ticket of `j` (`Seen`), and the ticket that
`i` may hold satisfies `Q`. The one fact that carries the mutual exclusion of the bakery
protocols is `Step.settled`: as long as `j` keeps its ticket and `Q` accepts every
greater ticket, no step of anybody breaks this. The second read of a scan is harmless
there, because a client that gives up its ticket has settled everybody in the order of
`Before`, so no smaller ticket is left behind.
-/

namespace OsLabs.Concurrent.Tickets

/-- Where a client stands with its ticket: it has none; it has read the entries below `k`
with maximum `r`; it has found entry `k` above `r` and is about to copy it; it holds a
ticket. -/
inductive Phase
  | idle
  | scan (k r : ℕ)
  | copy (k r : ℕ)
  | held
deriving DecidableEq, Repr

/-- The tickets, one entry for each client, and the phase of every client. -/
structure View (n : ℕ) where
  num : ℕ → ℕ
  phase : Fin n → Phase

variable {n : ℕ} {pid : Fin n → ℕ}

/-- The entries that are not zero belong to the clients that hold a ticket. -/
def View.WF (v : View n) : Prop := ∀ i, v.phase i = .held ↔ v.num i ≠ 0

/-- The draw of `i`, if it is in one, has not missed the ticket of `j`: once it has read
entry `j`, the maximum it has found, or is about to copy, accounts for it. -/
def Seen (v : View n) (j i : Fin n) : Prop :=
  match v.phase i with
  | .scan k r => j < k → v.num j ≤ r
  | .copy k _ => j < k → v.num j < v.num k
  | _ => True

instance (v : View n) (j i : Fin n) : Decidable (Seen v j i) := by
  unfold Seen
  cases v.phase i <;> infer_instance

structure Settled (v : View n) (j i : Fin n) (Q : ℕ → Prop) : Prop where
  seen : Seen v j i
  held : v.phase i = .held → Q (v.num i)

/-- The ticket `m` of client `i` comes after the ticket of client `j`. -/
def Before (pid : Fin n → ℕ) (v : View n) (j i : Fin n) (m : ℕ) : Prop :=
  v.num j < m ∨ (v.num j = m ∧ pid j < pid i)

theorem Settled.mono {v : View n} {j i : Fin n} {Q Q' : ℕ → Prop} (h : Settled v j i Q)
    (hQ : ∀ m, Q m → Q' m) : Settled v j i Q' := ⟨h.seen, fun hi => hQ _ (h.held hi)⟩

/-- Two clients cannot both come before each other. -/
theorem not_both_before {v : View n} {i j : Fin n} (hi : v.phase i = .held)
    (hj : v.phase j = .held) (hij : Settled v i j (Before pid v i j))
    (hji : Settled v j i (Before pid v j i)) : False := by
  have h1 := hij.held hj
  have h2 := hji.held hi
  unfold Before at h1 h2
  omega

/-! ## Steps -/

/-- One step of the scan of a draw. -/
inductive Draw (num : ℕ → ℕ) : Phase → Phase → Prop
  | skip {k r k' r' : ℕ} (hr : r ≤ r') (hk : k' ≤ k ∨ (k' = k + 1 ∧ num k ≤ r')) :
      Draw num (.scan k r) (.scan k' r')
  | see {k r : ℕ} (hr : r < num k) : Draw num (.scan k r) (.copy k r)
  | copy {k r k' : ℕ} (hk : k' ≤ k + 1) : Draw num (.copy k r) (.scan k' (num k))

/-- One step of client `t`. A client gives up its ticket only when it has settled every
other client in the order of the tickets. -/
inductive Step (pid : Fin n → ℕ) (v : View n) (t : Fin n) : View n → Prop
  | stay : Step pid v t v
  | start (ht : v.phase t = .idle) :
      Step pid v t ⟨v.num, Function.update v.phase t (.scan 0 0)⟩
  | draw {p : Phase} (hp : Draw v.num (v.phase t) p) :
      Step pid v t ⟨v.num, Function.update v.phase t p⟩
  | publish {k r : ℕ} (ht : v.phase t = .scan k r) (hk : n ≤ k) :
      Step pid v t ⟨Function.update v.num t (r + 1), Function.update v.phase t .held⟩
  | reset (ht : v.phase t = .held)
      (hall : ∀ i, i ≠ t → Settled v t i (Before pid v t i)) :
      Step pid v t ⟨Function.update v.num t 0, Function.update v.phase t .idle⟩

variable {v v' : View n} {t i j : Fin n}

theorem val_ne (h : i ≠ t) : (i : ℕ) ≠ (t : ℕ) := fun he => h (Fin.ext he)

/-- A client changes nobody else's ticket. -/
theorem Step.num_of_ne (h : Step pid v t v') (hj : j ≠ t) : v'.num j = v.num j := by
  cases h with
  | stay => rfl
  | start => rfl
  | draw => rfl
  | publish => exact Function.update_of_ne (val_ne hj) ..
  | reset => exact Function.update_of_ne (val_ne hj) ..

theorem Step.phase_of_ne (h : Step pid v t v') (hj : j ≠ t) : v'.phase j = v.phase j := by
  cases h with
  | stay => rfl
  | _ => exact Function.update_of_ne hj ..

/-- An entry changes only when its client takes its ticket, the entry having been zero,
or gives it up. -/
theorem Step.num_cases (hwf : v.WF) (h : Step pid v t v') (k : ℕ) :
    v'.num k = v.num k ∨ (k = t ∧ v.num k = 0) ∨
      (k = t ∧ v.phase t = .held ∧ ∀ i, i ≠ t → Settled v t i (Before pid v t i)) := by
  cases h with
  | stay => exact Or.inl rfl
  | start => exact Or.inl rfl
  | draw => exact Or.inl rfl
  | publish ht hk =>
    by_cases hkt : k = t
    · have hz : v.num t = 0 := by
        by_contra hne
        have := (hwf t).mpr hne
        simp [ht] at this
      exact Or.inr (Or.inl ⟨hkt, by rw [hkt, hz]⟩)
    · exact Or.inl (Function.update_of_ne hkt ..)
  | reset ht hall =>
    by_cases hkt : k = t
    · exact Or.inr (Or.inr ⟨hkt, ht, hall⟩)
    · exact Or.inl (Function.update_of_ne hkt ..)

theorem Draw.ne_held {num : ℕ → ℕ} {p q : Phase} (h : Draw num p q) :
    p ≠ .held ∧ q ≠ .held := by
  cases h <;> simp

theorem Step.wf (hwf : v.WF) (h : Step pid v t v') : v'.WF := by
  intro i
  by_cases hi : i = t
  · subst hi
    cases h with
    | stay => exact hwf i
    | start ht => simpa [ht] using hwf i
    | draw hp =>
      have hne := hp.ne_held
      have := hwf i
      simp only [hne.1, false_iff, not_not] at this
      simp [hne.2, this]
    | publish => simp
    | reset => simp
  · rw [h.num_of_ne hi, h.phase_of_ne hi]
    exact hwf i

/-- **Settled stays settled.** While `j` holds its ticket, what it has settled about `i`
is kept by every step of the others, the steps of `i` included. -/
theorem Step.settled {Q : ℕ → Prop} (hwf : v.WF) (h : Step pid v t v') (hj : v.phase j = .held)
    (hjt : j ≠ t) (hQ : ∀ m, v.num j < m → Q m) (hs : Settled v j i Q) : Settled v' j i Q := by
  have hnum := h.num_of_ne hjt
  by_cases hit : i = t
  · subst hit
    have hseen := hs.seen
    cases h with
    | stay => exact hs
    | start ht => exact ⟨by simp [Seen], by simp⟩
    | draw hp =>
      unfold Seen at hseen
      generalize v.phase i = p at hp hseen
      cases hp with
      | @skip k r k' r' hr hk =>
        refine ⟨?_, by simp⟩
        simp only [Seen, Function.update_self]
        intro hlt
        rcases hk with hk | ⟨rfl, hk⟩
        · exact (hseen (by omega)).trans hr
        · by_cases hjk : (j : ℕ) = k
          · rw [hjk]
            exact hk
          · exact (hseen (by omega)).trans hr
      | @see k r hr =>
        refine ⟨?_, by simp⟩
        simp only [Seen, Function.update_self]
        intro hlt
        exact lt_of_le_of_lt (hseen hlt) hr
      | @copy k r k' hk =>
        refine ⟨?_, by simp⟩
        simp only [Seen, Function.update_self]
        intro hlt
        by_cases hjk : (j : ℕ) = k
        · rw [hjk]
        · exact (hseen (by omega)).le
    | @publish k r ht hk =>
      refine ⟨by simp [Seen], fun _ => ?_⟩
      simp only [Function.update_self]
      unfold Seen at hseen
      rw [ht] at hseen
      have hle := hseen (by have := j.isLt; omega)
      exact hQ _ (by omega)
    | reset => exact ⟨by simp [Seen], by simp⟩
  · have hphase := h.phase_of_ne hit
    refine ⟨?_, ?_⟩
    · have hseen := hs.seen
      unfold Seen at hseen ⊢
      rw [hphase, hnum]
      cases hp : v.phase i with
      | idle => trivial
      | held => trivial
      | scan k r =>
        rw [hp] at hseen
        exact hseen
      | copy k r =>
        rw [hp] at hseen
        intro hlt
        have hless := hseen hlt
        -- the copied entry is above the ticket of `j`, so its client cannot leave before `j`
        rcases h.num_cases hwf k with hk | ⟨_, hk⟩ | ⟨rfl, ht, hall⟩
        · rwa [hk]
        · omega
        · have hbefore := (hall j hjt).held hj
          unfold Before at hbefore
          omega
    · intro hi
      rw [h.num_of_ne hit]
      exact hs.held (by rwa [← hphase])

/-! ## Threads with tickets -/

section Threads

variable {σ l : Type*} {num : σ → ℕ → ℕ} {ph : l → Phase} {c : Config (Fin n) σ l} {s : σ} {x : l}

/-- The tickets of threads over a shared store: `num` reads them from the store, `ph` the
phase of a thread from its local state. -/
def viewOf (num : σ → ℕ → ℕ) (ph : l → Phase) (c : Config (Fin n) σ l) : View n :=
  ⟨num c.shared, fun i => ph (c.loc i)⟩

theorem viewOf_set : viewOf num ph (c.set t s x) =
    ⟨num s, Function.update (viewOf num ph c).phase t (ph x)⟩ := by
  simp only [viewOf, Config.set_shared, View.mk.injEq, true_and]
  ext i
  by_cases hi : i = t
  · subst hi
    simp
  · simp [hi]

/-- A move of a thread that changes neither a ticket nor its phase. -/
theorem viewOf_stay (hs : num s = num c.shared) (hx : ph x = ph (c.loc t)) :
    viewOf num ph (c.set t s x) = viewOf num ph c := by
  rw [viewOf_set, hs, hx]
  simp [viewOf]

/-- A move that changes no ticket and ends at a point with a ticket. -/
theorem viewOf_stay_of_held (hwf : (viewOf num ph c).WF) (hwf' : (viewOf num ph (c.set t s x)).WF)
    (hs : num s = num c.shared) (hx : ph x = .held) :
    viewOf num ph (c.set t s x) = viewOf num ph c := by
  have hne : num s t ≠ 0 := (hwf' t).mp (by simpa [viewOf] using hx)
  have hheld : ph (c.loc t) = .held := (hwf t).mpr (by rwa [hs] at hne)
  exact viewOf_stay hs (hx.trans hheld.symm)

theorem Step.of_stay (hs : num s = num c.shared) (hx : ph x = ph (c.loc t)) :
    Step pid (viewOf num ph c) t (viewOf num ph (c.set t s x)) := by
  rw [viewOf_stay hs hx]
  exact .stay

/-- The rule for what threads know of each other. `K own p q i y` is what a thread at `y`
with ticket `own` and pid `p` has settled about the client of entry `i` with pid `q`, if
anything; it has a ticket then, and greater tickets are accepted. If what thread `t`
knows after its step was true before it, then what every thread knows is true after it. -/
theorem Step.settled_threads {K : ℕ → ℕ → ℕ → ℕ → l → Option (ℕ → Prop)}
    (h : Step pid (viewOf num ph c) t (viewOf num ph (c.set t s x)))
    (hwf : (viewOf num ph c).WF)
    (hheld : ∀ {own p q i y Q}, K own p q i y = some Q → ph y = .held)
    (hlt : ∀ {own p q i y Q m}, K own p q i y = some Q → own < m → Q m)
    (hold : ∀ j i : Fin n, i ≠ j → ∀ Q, K (num c.shared j) (pid j) (pid i) i (c.loc j) = some Q →
      Settled (viewOf num ph c) j i Q)
    (hown : ∀ i : Fin n, i ≠ t → ∀ Q, K (num s t) (pid t) (pid i) i x = some Q →
      num s = num c.shared ∧ Settled (viewOf num ph c) t i Q) {j i : Fin n} (hij : i ≠ j)
    {Q : ℕ → Prop} (hQ : K (num s j) (pid j) (pid i) i ((c.set t s x).loc j) = some Q) :
    Settled (viewOf num ph (c.set t s x)) j i Q := by
  by_cases hjt : j = t
  · subst hjt
    rw [Config.set_loc_self] at hQ
    obtain ⟨hnum, hs⟩ := hown i hij Q hQ
    rw [viewOf_stay_of_held hwf (h.wf hwf) hnum (hheld hQ)]
    exact hs
  · rw [Config.set_loc_of_ne hjt] at hQ
    have hnum : num s j = num c.shared j := h.num_of_ne hjt
    rw [hnum] at hQ
    exact h.settled hwf (hheld hQ) hjt (fun m => hlt hQ)
      (hold j i hij Q hQ)

end Threads

end OsLabs.Concurrent.Tickets
