import Mathlib.Data.Fin.VecNotation
import OsLabs.Pc.Accounting

/-!
# Producers and consumers with `SEM_UNDO`: the end of the buffer

`BEMPTY` bounds how many letters wait in the buffer. The pointers count all letters
stored and all letters taken: they are advanced and never set back to the first cell. So
the cells that are stored to and read are those of the buffer exactly as long as each
letter is stored with fewer than `n` letters before it (`bounds_iff`).
-/

namespace OsLabs.Pc

open Concurrent

variable {ι : Type} {n : ℕ} {c : Config ι Shared Process} {t : ι}

/-! ## The conditions on a step -/

/-- The step does not terminate its process. -/
def Stays (c : Config ι Shared Process) (a : ι × Event) : Prop :=
  exits a.2 (c.loc a.1) = false

instance (c : Config ι Shared Process) (a : ι × Event) : Decidable (Stays c a) :=
  inferInstanceAs (Decidable (_ = _))

/-- The cell that the step stores to through `*prod_ptr`, or reads through `*cons_ptr`, is
one of the `n` cells of the buffer. -/
def InBounds (n : ℕ) (c : Config ι Shared Process) (a : ι × Event) : Prop :=
  match a.2, (c.loc a.1).pc with
  | .run, .producer (.store p _) | .run, .consumer (.take p) => p < n
  | _, _ => True

/-- A letter is stored with fewer than `n` letters stored before it. -/
def StoresInRoom (n : ℕ) (c : Config ι Shared Process) (a : ι × Event) : Prop :=
  a.2 = .run → ∀ p l, (c.loc a.1).pc = .producer (.store p l) → c.shared.stored.length < n

/-! ## One step -/

section Step

variable {s s' : Shared} {x x' : Process}

theorem stored_callSemop {ops : List (SemBuf SemNum)} {next : PC} {asleep : Option PC}
    (h : callSemop s x ops next asleep = some (s', x')) : s'.stored = s.stored := by
  rcases callSemop_cases h with ⟨v, -, rfl, -⟩ | ⟨-, rfl, -⟩
  · rfl
  · rfl

theorem stored_producer {pc : ProdPC} (h : producer s x pc = some (s', x')) :
    s'.stored = s.stored ∨ ∃ p l, pc = .store p l ∧ s'.stored = s.stored ++ [p] := by
  cases pc with
  | store p l =>
    cases h
    exact Or.inr ⟨p, l, rfl, rfl⟩
  | wait | waitSleep | signal | signalSleep =>
    simp only [producer] at h
    exact Or.inl (stored_callSemop h)
  | head =>
    left
    simp only [producer, exit] at h
    split_ifs at h
    · cases h
      rfl
    · cases h
      rfl
  | _ =>
    cases h
    exact Or.inl rfl

theorem stored_consumer {pc : ConsPC} (h : consumer s x pc = some (s', x')) :
    s'.stored = s.stored := by
  cases pc with
  | wait | waitSleep | signal | signalSleep =>
    simp only [consumer] at h
    exact stored_callSemop h
  | head =>
    simp only [consumer, exit] at h
    split_ifs at h
    · cases h
      rfl
    · cases h
      rfl
  | _ =>
    cases h
    rfl

/-- A letter is stored by a producer at its store, and by nobody else. -/
theorem stored_step {e : Event} (h : processStep t e s x = some (s', x')) :
    s'.stored = s.stored ∨
      ∃ p l, e = .run ∧ x.pc = .producer (.store p l) ∧ s'.stored = s.stored ++ [p] := by
  unfold processStep at h
  split at h
  · cases h
  · left
    simp only [handler, exit, Option.some.injEq] at h
    split_ifs at h
    · cases h
      rfl
    · cases h
      rfl
  · rename_i pc hpc
    rcases stored_producer h with hs | ⟨p, l, rfl, hs⟩
    · exact Or.inl hs
    · exact Or.inr ⟨p, l, rfl, hpc, hs⟩
  · exact Or.inl (stored_consumer h)

end Step

/-! ## Whole runs -/

/-- At a store or a read the pointer is inside exactly when a store finds room: a letter
that is taken was stored inside. -/
theorem Inv.inBounds_iff (hI : Inv n c) (hroom : c.shared.stored.length ≤ n) (e : Event) :
    InBounds n c (t, e) ↔ StoresInRoom n c (t, e) := by
  unfold InBounds StoresInRoom
  cases e with
  | sigint => exact iff_of_true trivial fun h => by cases h
  | run =>
    cases hpc : (c.loc t).pc with
    | exited status => exact iff_of_true trivial fun _ _ _ h => by cases h
    | producer pc =>
      cases pc with
      | store p l =>
        obtain ⟨-, rfl⟩ := hI.store_eq hpc
        constructor
        · intro hlt _ _ _ _
          exact hlt
        · intro hlt
          exact hlt rfl _ _ rfl
      | _ => exact iff_of_true trivial fun _ _ _ h => by cases h
    | consumer pc =>
      cases pc with
      | take p =>
        obtain ⟨hs, rfl⟩ := hI.take_eq hpc
        refine iff_of_true ?_ fun _ _ _ h => by cases h
        exact Nat.lt_of_lt_of_le hs.taken_lt hroom
      | _ => exact iff_of_true trivial fun _ _ _ h => by cases h

variable [DecidableEq ι] {role : ι → Role}

theorem room_reach (h : (children ι).ReachBy (StoresInRoom n) (initial n role) c) :
    c.shared.stored.length ≤ n := by
  apply h.interleave_invariant (I := fun c => c.shared.stored.length ≤ n)
  · exact Nat.zero_le n
  · intro c t e s x hle hc hs
    show s.stored.length ≤ n
    rcases stored_step hs with hs | ⟨p, l, he, hpc, hs⟩
    · rw [hs]
      exact hle
    · rw [hs, List.length_append]
      exact hc he p l hpc

/-- **The buffer is used once.** For any number of producers and consumers, every
interleaving of their `semop` calls and runs of any length in which no process terminates:
all cells stored to and all cells read are cells of the buffer if and only if each letter
is stored with fewer than `n` letters stored before it. -/
theorem bounds_iff {tr : List (Config ι Shared Process × (ι × Event))}
    (h : (children ι).Trace (initial n role) tr c) (hstays : ∀ p ∈ tr, Stays p.1 p.2) :
    (∀ p ∈ tr, InBounds n p.1 p.2) ↔ ∀ p ∈ tr, StoresInRoom n p.1 p.2 := by
  have hstep (c : Config ι Shared Process) (a : ι × Event) (c' : Config ι Shared Process)
      (hc : (children ι).ReachBy (fun c a => Stays c a ∧ StoresInRoom n c a) (initial n role) c)
      (_ : (children ι).next c a = some c') :
      Stays c a ∧ InBounds n c a ↔ Stays c a ∧ StoresInRoom n c a := by
    have hclean : (children ι).ReachBy ExitsClean (initial n role) c := by
      refine hc.mono fun c a ha hexit => ?_
      rw [ha.1] at hexit
      cases hexit
    have hroom := room_reach (hc.mono fun _ _ ha => ha.2)
    rw [(inv_reach hclean).inBounds_iff hroom]
  have hiff := h.forall_iff (R := fun c a => Stays c a ∧ InBounds n c a) hstep
  constructor
  · intro hin p hp
    exact (hiff.mp (fun p hp => ⟨hstays p hp, hin p hp⟩) p hp).2
  · intro hroom p hp
    exact (hiff.mpr (fun p hp => ⟨hstays p hp, hroom p hp⟩) p hp).2

/-- The steps of `consumer` up to the end of its first section. -/
def consumeOne {ι : Type} (t : ι) : List (ι × Event) := List.replicate 8 (t, .run)

/-- Ten letters stored, one of them taken, and the producer at its next store. -/
def eleventhStore {ι : Type} (t u : ι) : List (ι × Event) :=
  (List.replicate 10 (produceOne t)).flatten ++ consumeOne u ++ List.replicate 5 (t, .run)

/-- A letter stored and taken in the buffer of `N_BUF = 10` cells. -/
theorem bounds_iff_one : ∃ (tr : List (Config (Fin 2) Shared Process × (Fin 2 × Event)))
    (c : Config (Fin 2) Shared Process),
    (children (Fin 2)).Trace (initial 10 oneAndOne) tr c ∧ c.shared.stored = [0] ∧
      c.shared.taken = [0] ∧ ∀ p ∈ tr, InBounds 10 p.1 p.2 := by
  have hrun : ((children (Fin 2)).record (initial 10 oneAndOne)
      (produceOne 0 ++ consumeOne 1)).any (fun q =>
        (q.1.all fun p => Stays p.1 p.2 && p.1.shared.stored.length < 10) &&
          (q.2.shared.stored = [0] && q.2.shared.taken = [0])) = true := by
    decide +kernel
  obtain ⟨tr, c, htr, hp⟩ := Machine.exists_trace_of_record _
    (fun tr (c : Config (Fin 2) Shared Process) =>
      (tr.all fun p => Stays p.1 p.2 && p.1.shared.stored.length < 10) &&
        (c.shared.stored = [0] && c.shared.taken = [0])) hrun
  simp only [Bool.and_eq_true, List.all_eq_true, decide_eq_true_eq] at hp
  obtain ⟨hall, hstored, htaken⟩ := hp
  refine ⟨tr, c, htr, hstored, htaken, (bounds_iff htr fun p hmem => (hall p hmem).1).mpr ?_⟩
  intro p hmem _ _ _ _
  exact (hall p hmem).2

/-- With `N_BUF = 10` the eleventh letter is stored behind the buffer, in a run in which no
process terminates, though a letter has been taken before. -/
theorem leaves_buffer : ¬ ∀ (tr : List (Config (Fin 2) Shared Process × (Fin 2 × Event)))
    (c : Config (Fin 2) Shared Process),
    (children (Fin 2)).Trace (initial 10 oneAndOne) tr c → (∀ p ∈ tr, Stays p.1 p.2) →
      ∀ p ∈ tr, InBounds 10 p.1 p.2 := by
  intro h
  have hrun : ((children (Fin 2)).exec Stays (initial 10 oneAndOne) (eleventhStore 0 1)).any
      (fun c => (c.loc 0).pc = .producer (.store 10 'k') ∧ c.shared.taken = [0]) = true := by
    decide +kernel
  obtain ⟨c, hc, hp⟩ := Machine.exists_reachBy_of_exec _ _ hrun
  obtain ⟨hpc, -⟩ : (c.loc 0).pc = .producer (.store 10 'k') ∧ c.shared.taken = [0] := by
    simpa using hp
  obtain ⟨tr, htr, hstays⟩ := hc.exists_trace
  have hnext : ∃ s x, processStep (0 : Fin 2) .run c.shared (c.loc 0) = some (s, x) := by
    simp [processStep, hpc, producer]
  obtain ⟨s, x, hstore⟩ := hnext
  have hlast : Stays c (0, .run) := by simp [Stays, exits, hpc]
  have hin : InBounds 10 c (0, .run) := by
    apply h _ _ (htr.snoc_interleave hstore) _ (c, (0, .run)) (by simp)
    simpa only [List.forall_mem_append, List.forall_mem_singleton] using ⟨hstays, hlast⟩
  simp [InBounds, hpc] at hin

end OsLabs.Pc
