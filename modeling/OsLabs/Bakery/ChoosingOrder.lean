import OsLabs.Bakery.ChoosingExclusion

/-!
# The bakery server with `choosing`: first come, first served

With the flags a client that has found `choosing[i]` false cannot be overtaken by a later
draw of client `i`, whatever entries that draw reads a second time: a client gives up its
ticket only when it has settled all others, so the entry a draw falls back to is not below
a ticket that still stands. Hence nothing has to be assumed of the run here. Between the
store of a ticket of client `A` and its reset, every other client is served once at most,
and not at all if its scan begins after that store (`overtaken_once`).
-/

namespace OsLabs.Bakery.Choosing

open Concurrent Concurrent.Tickets

variable {n : ℕ} {pid : Fin n → ℕ} {A B : Fin n} {m : ℕ}

/-- The client has stored its ticket and not yet reset it. -/
def stored : PC → Bool
  | .getNumber (.clearChoosing _) | .replied _ | .serve _ => true
  | _ => false

/-- The client is not in a call with a ticket, and has not begun to look for one. -/
def beforeScan : PC → Bool
  | .idle | .served | .getNumber .storePid | .getNumber .setChoosing => true
  | _ => false

/-- The action resets the entry of client `A`. -/
def Resets (A : Fin n) (c : Config (Fin n) Shared PC) (a : Fin n × Unit) : Prop :=
  a.1 = A ∧ c.loc A = .serve .resetNum

instance (c : Config (Fin n) Shared PC) (a : Fin n × Unit) : Decidable (Resets A c a) :=
  inferInstanceAs (Decidable (_ ∧ _))

/-- How often client `B` has been served in a run. -/
def timesServed (B : Fin n) (tr : List (Config (Fin n) Shared PC × (Fin n × Unit))) : ℕ :=
  tr.countP fun p => Resets B p.1 p.2

theorem maxPhase_ne_held (mp : MaxPC) : mp.phase ≠ .held := by
  cases mp <;> simp [MaxPC.phase]

theorem stored_iff {x : PC} : stored x = true ↔ x.phase n = .held := by
  cases x with
  | getNumber pc =>
    cases pc with
    | max mp => simpa [stored, PC.phase] using maxPhase_ne_held mp
    | _ => simp [stored, PC.phase]
  | _ => simp [stored, PC.phase]

theorem phase_of_beforeScan {x : PC} (h : beforeScan x = true) : x.phase n = .idle := by
  cases x with
  | getNumber pc => cases pc <;> first | rfl | cases h
  | idle | served => rfl
  | _ => cases h

/-- A client with a ticket keeps it up to its reset. -/
theorem stored_step {s s' : Shared} {x x' : PC} {t : Fin n}
    (h : clientStep pid t () s x = some (s', x')) (hx : stored x = true)
    (hreset : x ≠ .serve .resetNum) : stored x' = true ∧ s'.numbers = s.numbers := by
  have hnext (i : ℕ) : stored (serveNext n i) = true := by
    unfold serveNext
    split_ifs <;> rfl
  cases x with
  | idle | served => cases hx
  | replied num =>
    cases h
    exact ⟨hnext 0, rfl⟩
  | getNumber pc =>
    cases pc with
    | clearChoosing num =>
      cases h
      exact ⟨rfl, rfl⟩
    | _ => cases hx
  | serve pc =>
    cases pc with
    | choose i =>
      cases h
      refine ⟨?_, rfl⟩
      split_ifs <;> rfl
    | test i w =>
      simp only [clientStep, serve1Svc] at h
      split at h
      · cases h
        exact ⟨rfl, rfl⟩
      · cases h
        refine ⟨?_, rfl⟩
        split_ifs
        · rfl
        · exact hnext (i + 1)
    | resetNum => exact absurd rfl hreset
    | _ =>
      cases h
      exact ⟨rfl, rfl⟩

/-! ## What a ticket is owed -/

/-- Client `A` holds the ticket `m`, and client `B` cannot get a ticket that is not after
it. -/
structure Owed (A B : Fin n) (m : ℕ) (c : Config (Fin n) Shared PC) : Prop where
  stored : stored (c.loc A) = true
  number : c.shared.numbers A = m
  settled : Settled (view c) A B (m < ·)

section Steps

variable {c : Config (Fin n) Shared PC} {t : Fin n} {s : Shared} {x : PC}

theorem owed_of_beforeScan (hA : stored (c.loc A) = true) (hB : beforeScan (c.loc B) = true) :
    Owed A B (c.shared.numbers A) c where
  stored := hA
  number := rfl
  settled := by
    have hidle : (view c).phase B = .idle := phase_of_beforeScan hB
    refine ⟨?_, ?_⟩
    · rw [Seen, hidle]
      trivial
    · intro hheld
      rw [hidle] at hheld
      cases hheld

/-- What `A` is owed by `B` does not change up to the reset of `A`. -/
theorem Owed.step (hI : Inv pid c) (hO : Owed A B m c)
    (h : clientStep pid t () c.shared (c.loc t) = some (s, x)) (hreset : ¬ Resets A c (t, ())) :
    Owed A B m (c.set t s x) := by
  have hview := step_view hI h
  by_cases htA : t = A
  · subst htA
    have hne : c.loc t ≠ .serve .resetNum := fun he => hreset ⟨rfl, he⟩
    obtain ⟨hstored, hnum⟩ := stored_step h hO.stored hne
    have hsame : view (c.set t s x) = view c := by
      apply viewOf_stay hnum
      rw [stored_iff.mp hstored, stored_iff.mp hO.stored]
    refine ⟨?_, ?_, ?_⟩
    · rw [Config.set_loc_self]
      exact hstored
    · rw [Config.set_shared, hnum]
      exact hO.number
    · rw [hsame]
      exact hO.settled
  · have hAt : A ≠ t := Ne.symm htA
    refine ⟨?_, ?_, ?_⟩
    · rw [Config.set_loc_of_ne hAt]
      exact hO.stored
    · exact (hview.num_of_ne hAt).trans hO.number
    · apply hview.settled hI.wf (stored_iff.mp hO.stored) hAt _ hO.settled
      intro k hk
      rwa [← hO.number]

/-- Whoever owes to `A` waits for it. -/
theorem Owed.not_pastWait (hI : Inv pid c) (hO : Owed A B m c) : pastWait (c.loc B) = false := by
  by_contra hpast
  rw [Bool.not_eq_false] at hpast
  have hAB : A ≠ B := by
    rintro rfl
    have := hO.settled.held (stored_iff.mp hO.stored)
    rw [← hO.number] at this
    exact lt_irrefl _ this
  have hheld : (view c).phase B = .held := pastWait_held hpast
  have hgreater : m < c.shared.numbers B := hO.settled.held hheld
  have hsettled := hI.settled B A hAB _ (pastWait_settles hpast)
  have hless : Before pid (view c) B A (c.shared.numbers A) :=
    hsettled.held (stored_iff.mp hO.stored)
  rw [hO.number] at hless
  rcases hless with hless | ⟨heq, -⟩
  · exact absurd (hgreater.trans hless) (lt_irrefl _)
  · exact absurd heq hgreater.ne'

/-- A client that resets its entry begins its next scan after that. -/
theorem beforeScan_of_resets (h : clientStep pid t () c.shared (c.loc t) = some (s, x))
    (hreset : Resets B c (t, ())) : t = B ∧ beforeScan x = true := by
  obtain ⟨htB, hl⟩ := hreset
  obtain rfl : t = B := htB
  rw [hl] at h
  cases h
  exact ⟨rfl, rfl⟩

end Steps

/-! ## First come, first served -/

/-- How often client `B` may be served before a client that holds its ticket. -/
def allowance (c : Config (Fin n) Shared PC) (B : Fin n) : ℕ :=
  if beforeScan (c.loc B) then 0 else 1

/-- The state of the account of `B` with `A`: either it still has its one turn, or it owes. -/
theorem account {c c' : Config (Fin n) Shared PC} (hpid : Function.Injective pid)
    (h : (server pid).Reach (initial n) c) (hA : stored (c.loc A) = true) (hAB : A ≠ B)
    {tr : List (Config (Fin n) Shared PC × (Fin n × Unit))} (htr : (server pid).Trace c tr c')
    (hreset : ∀ p ∈ tr, ¬ Resets A p.1 p.2) :
    stored (c'.loc A) = true ∧ c'.shared.numbers A = c.shared.numbers A ∧
      (timesServed B tr < allowance c B ∨
        (timesServed B tr ≤ allowance c B ∧ Owed A B (c.shared.numbers A) c')) := by
  induction htr with
  | nil =>
    refine ⟨hA, rfl, ?_⟩
    unfold allowance
    split_ifs with hB
    · exact Or.inr ⟨le_refl 0, owed_of_beforeScan hA hB⟩
    · exact Or.inl (by simp [timesServed])
  | @snoc tr d d' a htr hn ih =>
    obtain ⟨t, e⟩ := a
    rw [List.forall_mem_append, List.forall_mem_singleton] at hreset
    obtain ⟨hstored, hnum, hacc⟩ := ih hreset.1
    have hI := inv_reach hpid (Machine.ReachBy.trans h htr.reach)
    have htimes : timesServed B (tr ++ [(d, (t, e))]) =
        timesServed B tr + if Resets B d (t, e) then 1 else 0 := by
      simp [timesServed, List.countP_append, List.countP_singleton]
    obtain ⟨s, x, hs, rfl⟩ := interleave_next.mp hn
    -- the ticket of `A` stands, whether `B` owes anything or not
    have hkeep : stored ((d.set t s x).loc A) = true ∧
        (d.set t s x).shared.numbers A = c.shared.numbers A := by
      by_cases htA : t = A
      · subst htA
        have hne : d.loc t ≠ .serve .resetNum := fun he => hreset.2 ⟨rfl, he⟩
        obtain ⟨hst, he⟩ := stored_step hs hstored hne
        rw [Config.set_loc_self, Config.set_shared, he]
        exact ⟨hst, hnum⟩
      · rw [Config.set_loc_of_ne (Ne.symm htA)]
        exact ⟨hstored, ((step_view hI hs).num_of_ne (Ne.symm htA)).trans hnum⟩
    refine ⟨hkeep.1, hkeep.2, ?_⟩
    rw [htimes]
    by_cases hB : Resets B d (t, e)
    · rw [if_pos hB]
      rcases hacc with hless | ⟨-, hO⟩
      · obtain ⟨rfl, hscan⟩ := beforeScan_of_resets hs hB
        refine Or.inr ⟨hless, ?_⟩
        rw [← hkeep.2]
        apply owed_of_beforeScan hkeep.1
        rw [Config.set_loc_self]
        exact hscan
      · have hpast := hO.not_pastWait hI
        rw [hB.2] at hpast
        cases hpast
    · rw [if_neg hB]
      rcases hacc with hless | ⟨hle, hO⟩
      · exact Or.inl hless
      · exact Or.inr ⟨hle, hO.step hI hs hreset.2⟩

/-- **First come, first served.** In every run from a reachable state in which client `A`
has stored its ticket, and in which `A` does not reset it, every other client is past its
wait loops once at most, and never if its scan begins in that run. -/
theorem overtaken_once {c c' : Config (Fin n) Shared PC} (hpid : Function.Injective pid)
    (h : (server pid).Reach (initial n) c) (hA : stored (c.loc A) = true) (hAB : A ≠ B)
    {tr : List (Config (Fin n) Shared PC × (Fin n × Unit))} (htr : (server pid).Trace c tr c')
    (hreset : ∀ p ∈ tr, ¬ Resets A p.1 p.2) :
    timesServed B tr + (pastWait (c'.loc B)).toNat ≤ allowance c B := by
  obtain ⟨-, -, hless | ⟨hle, hO⟩⟩ := account hpid h hA hAB htr hreset
  · have hone := Bool.toNat_le (pastWait (c'.loc B))
    have : allowance c B ≤ 1 := by
      unfold allowance
      split_ifs <;> simp
    omega
  · rw [hO.not_pastWait (inv_reach hpid (Machine.ReachBy.trans h htr.reach))]
    exact hle

/-- Clients `0` and `1` scan before either has stored its ticket; both take the ticket `1`. -/
def bothScan : List (Fin 3 × Unit) :=
  List.replicate 6 (0, ()) ++ List.replicate 6 (1, ()) ++ List.replicate 3 (0, ())

/-- Client `1` has the smaller pid and is served before client `0`, then comes again and
waits with the ticket `2`. -/
def servedFirst : List (Fin 3 × Unit) :=
  List.replicate 40 (1, ()) ++ List.replicate 40 (1, ())

/-- Client `0` does not reset its entry in the run, and client `1` is served once and draws
a second ticket. -/
def ServedOnce (tr : List (Config (Fin 3) Shared PC × (Fin 3 × Unit)))
    (c' : Config (Fin 3) Shared PC) : Prop :=
  (∀ p ∈ tr, ¬ Resets 0 p.1 p.2) ∧ timesServed 1 tr = 1 ∧ c'.shared.numbers 1 = 2

instance (tr : List (Config (Fin 3) Shared PC × (Fin 3 × Unit)))
    (c' : Config (Fin 3) Shared PC) : Decidable (ServedOnce tr c') :=
  inferInstanceAs (Decidable (_ ∧ _ ∧ _))

theorem overtaken_once_same_ticket : ∃ c c' : Config (Fin 3) Shared PC, ∃ tr,
    stored (c.loc 0) = true ∧ (server threePids).Trace c tr c' ∧ ServedOnce tr c' ∧
      pastWait (c'.loc 1) = false := by
  have hrun : ((server threePids).run (initial 3) bothScan).any (fun c =>
      (stored (c.loc 0) && beforeScan (c.loc 1) = false) &&
        ((server threePids).record c servedFirst).any fun q => ServedOnce q.1 q.2) = true := by
    decide +kernel
  obtain ⟨c, hc, hp⟩ := Machine.exists_reach_of_run _ _ hrun
  simp only [Bool.and_eq_true, decide_eq_true_eq] at hp
  obtain ⟨⟨hA, hB⟩, hrec⟩ := hp
  obtain ⟨tr, c', htr, hq⟩ := Machine.exists_trace_of_record _ (fun tr c' => ServedOnce tr c') hrec
  have honce : ServedOnce tr c' := of_decide_eq_true hq
  have hbound := overtaken_once threePids_injective hc hA (by decide : (0 : Fin 3) ≠ 1) htr honce.1
  refine ⟨c, c', tr, hA, htr, honce, ?_⟩
  by_contra hpast
  rw [Bool.not_eq_false] at hpast
  rw [honce.2.1, hpast, allowance, hB] at hbound
  exact absurd hbound (by decide)

end OsLabs.Bakery.Choosing
