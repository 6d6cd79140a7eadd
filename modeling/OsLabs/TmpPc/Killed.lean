import OsLabs.Concurrent.Termination
import OsLabs.TmpPc.Model

/-!
# The readers-writers monitor without `SEM_UNDO`: processes that are killed

No increment is lost, whoever is killed and wherever. But what a process was inside when it
was killed stays taken for ever: the number is never changed again, and behind a writer the
others come to a stand one after the other. That is the only way to a stand: where no step is
possible, each process is dead or waits for one that has died inside (`killed_inside`).
-/

namespace OsLabs.TmpPc

open Concurrent Concurrent.ReadersWriters

/-! ## The arrays -/

/-- The arrays and the initial values of `tmp_pc.c`. -/
def encoding : Encoding SemNum where
  init := initMonitor
  ops
    | .startRead => startRead
    | .stopRead => stopRead
    | .startWrite => startWrite
    | .stopWrite => stopWrite

/-- The values for the readers and writers inside. -/
def rep (m : Inside) : SemNum → ℕ
  | .activeReaders => m.reads
  | .activeWriter => m.writes
  | .binWriter => 1 - m.writes
  | .writeQueue | .readQueue => 0

theorem encoding_faithful : encoding.Faithful rep where
  init := by
    funext k
    cases k <;> rfl
  call := by
    intro m _ a w
    rcases a with _ | _ | _ | _
    · have hrep : Function.update (Function.update (Function.update (rep m) .readQueue 1)
          .activeReaders (m.reads + 1)) .readQueue 0 = rep ⟨m.reads + 1, m.writes⟩ := by
        funext k
        cases k <;> rfl
      simp [encoding, startRead, rep, hrep, eq_comm (b := w)]
    · have hrep : Function.update (rep m) .activeReaders (m.reads - 1) =
          rep ⟨m.reads - 1, m.writes⟩ := by
        funext k
        cases k <;> rfl
      simp [encoding, stopRead, rep, hrep, eq_comm (b := w)]
    · have hrep : Function.update (Function.update (Function.update (Function.update (rep m)
          .writeQueue 1) .binWriter (1 - m.writes - 1)) .activeWriter (m.writes + 1))
          .writeQueue 0 = rep ⟨m.reads, m.writes + 1⟩ := by
        funext k
        cases k <;> simp [rep, Function.update]
      have hcall : semop (rep m) startWrite = some w ↔ (m.reads = 0 ∧ m.writes = 0) ∧
          Function.update (Function.update (Function.update (Function.update (rep m)
            .writeQueue 1) .binWriter (1 - m.writes - 1)) .activeWriter (m.writes + 1))
            .writeQueue 0 = w := by
        have hfree : 0 < 1 - m.writes ↔ m.writes = 0 := by omega
        simp [startWrite, rep, hfree, and_assoc]
      simp only [encoding, hcall, Inside.steps_startWrite, hrep]
      constructor
      · rintro ⟨hm, rfl⟩
        exact ⟨_, ⟨hm, rfl⟩, rfl⟩
      · rintro ⟨_, ⟨hm, rfl⟩, rfl⟩
        exact ⟨hm, rfl⟩
    · have hrep (h : 0 < m.writes) : Function.update (Function.update (rep m) .activeWriter
          (m.writes - 1)) .binWriter (1 - m.writes + 1) = rep ⟨m.reads, m.writes - 1⟩ := by
        funext k
        cases k <;> simp [rep, Function.update]
        omega
      have hcall : semop (rep m) stopWrite = some w ↔ 0 < m.writes ∧ Function.update
          (Function.update (rep m) .activeWriter (m.writes - 1)) .binWriter
          (1 - m.writes + 1) = w := by
        simp [stopWrite, rep]
      simp only [encoding, hcall, Inside.steps_stopWrite]
      constructor
      · rintro ⟨hw, rfl⟩
        exact ⟨_, ⟨hw, rfl⟩, hrep hw⟩
      · rintro ⟨_, ⟨hw, rfl⟩, rfl⟩
        exact ⟨hw, hrep hw⟩

/-! ## One step -/

section Step

variable {ι : Type} {t : ι} {e : Event} {s s' : Shared} {x x' : PC}

theorem callSemop_spec {a : Call} {next : PC}
    (h : callSemop s (encoding.ops a) next = some (s', x'))
    (hafter : x.inside.after a = some next.inside) :
    s'.number = s.number ∧ s'.increments = s.increments ∧ x' = next ∧
      semop s.sem (encoding.ops a) = some s'.sem ∧ x.inside.after a = some x'.inside := by
  obtain ⟨v, hv, hp⟩ := Option.map_eq_some_iff.mp h
  cases hp
  exact ⟨rfl, rfl, rfl, hv, hafter⟩

/-- What a step does to the semaphores: nothing, or one of the four calls. -/
theorem step_moves (h : processStep t e s x = some (s', x')) :
    encoding.Moves s.sem x.inside s'.sem x'.inside := by
  cases e with
  | kill =>
    cases x with
    | dead i => cases h
    | reader pc | writer pc =>
      cases h
      exact Or.inl ⟨rfl, rfl⟩
  | run =>
    cases x with
    | dead i => cases h
    | reader pc =>
      cases pc with
      | sleep | print =>
        cases h
        exact Or.inl ⟨rfl, rfl⟩
      | start =>
        have hcall := callSemop_spec (a := .startRead) (x := .reader .start) h rfl
        exact Or.inr ⟨.startRead, hcall.2.2.2⟩
      | stop =>
        have hcall := callSemop_spec (a := .stopRead) (x := .reader .stop) h rfl
        exact Or.inr ⟨.stopRead, hcall.2.2.2⟩
    | writer pc =>
      cases pc with
      | sleep | load | store v | print =>
        cases h
        exact Or.inl ⟨rfl, rfl⟩
      | start =>
        have hcall := callSemop_spec (a := .startWrite) (x := .writer .start) h rfl
        exact Or.inr ⟨.startWrite, hcall.2.2.2⟩
      | stop =>
        have hcall := callSemop_spec (a := .stopWrite) (x := .writer .stop) h rfl
        exact Or.inr ⟨.stopWrite, hcall.2.2.2⟩

/-- What a step does to the number: a store, or nothing; the value to store has just been
read. -/
theorem step_number (h : processStep t e s x = some (s', x')) :
    (∃ v, x = .writer (.store v) ∧ x' = .writer .print ∧ s'.number = v + 1 ∧
      s'.increments = s.increments + 1) ∨
    (s'.number = s.number ∧ s'.increments = s.increments ∧
      ∀ v, x' = .writer (.store v) → v = s.number) := by
  cases e with
  | kill =>
    cases x with
    | dead i => cases h
    | reader pc | writer pc =>
      cases h
      exact Or.inr ⟨rfl, rfl, nofun⟩
  | run =>
    cases x with
    | dead i => cases h
    | reader pc =>
      right
      cases pc with
      | sleep | print =>
        cases h
        exact ⟨rfl, rfl, nofun⟩
      | start =>
        obtain ⟨hnumber, hincrements, rfl, -⟩ :=
          callSemop_spec (a := .startRead) (x := .reader .start) h rfl
        exact ⟨hnumber, hincrements, nofun⟩
      | stop =>
        obtain ⟨hnumber, hincrements, rfl, -⟩ :=
          callSemop_spec (a := .stopRead) (x := .reader .stop) h rfl
        exact ⟨hnumber, hincrements, nofun⟩
    | writer pc =>
      cases pc with
      | store v =>
        cases h
        exact Or.inl ⟨v, rfl, rfl, rfl, rfl⟩
      | load =>
        cases h
        refine Or.inr ⟨rfl, rfl, ?_⟩
        intro v hv
        cases hv
        rfl
      | sleep | print =>
        cases h
        exact Or.inr ⟨rfl, rfl, nofun⟩
      | start =>
        obtain ⟨hnumber, hincrements, rfl, -⟩ :=
          callSemop_spec (a := .startWrite) (x := .writer .start) h rfl
        exact Or.inr ⟨hnumber, hincrements, nofun⟩
      | stop =>
        obtain ⟨hnumber, hincrements, rfl, -⟩ :=
          callSemop_spec (a := .stopWrite) (x := .writer .stop) h rfl
        exact Or.inr ⟨hnumber, hincrements, nofun⟩

end Step

/-! ## The invariant -/

section Invariant

variable {ι : Type} [Fintype ι] {c c' : Config ι Shared PC} {role : ι → Role}

/-- Who is inside, the dead included. -/
abbrev allInside (loc : ι → PC) : ι → Inside := insideOf PC.inside loc

structure Inv (c : Config ι Shared PC) : Prop
    extends Represents rep c.shared.sem (allInside c.loc) where
  counted : c.shared.number = c.shared.increments
  follows : ∀ t v, c.loc t = .writer (.store v) → v = c.shared.number

theorem inv_initial (role : ι → Role) : Inv (initial role) := by
  have hout : allInside (initial role).loc = fun _ => ⟨0, 0⟩ := by
    funext t
    simp only [insideOf, initial]
    cases role t <;> rfl
  refine ⟨?_, rfl, ?_⟩
  · rw [hout]
    exact encoding_faithful.represents_init
  · intro t v ht
    simp only [initial] at ht
    cases hr : role t with
    | reader | writer =>
      rw [hr] at ht
      cases ht

/-- There is one writer inside at most. -/
theorem Inv.writer_unique (hI : Inv c) {t u : ι} (ht : 0 < (c.loc t).inside.writes)
    (hu : 0 < (c.loc u).inside.writes) : t = u :=
  eq_of_writes hI.safe.1 ht hu

variable [DecidableEq ι]

theorem Inv.step {a : ι × Event} (hI : Inv c) (hn : (children ι).next c a = some c') :
    Inv c' := by
  obtain ⟨t, e⟩ := a
  obtain ⟨s, x, hs, rfl⟩ := interleave_next.mp hn
  have hR : Represents rep (c.set t s x).shared.sem (allInside (c.set t s x).loc) := by
    rw [allInside, insideOf_set]
    exact encoding_faithful.represents_move hI.toRepresents (step_moves hs)
  rcases step_number hs with ⟨v, hx, rfl, hnumber, hincrements⟩ | ⟨hnumber, hincrements, hread⟩
  · refine ⟨hR, ?_, ?_⟩
    · rw [Config.set_shared, hnumber, hincrements, hI.follows t v hx, hI.counted]
      exact (Nat.cast_succ _).symm
    · intro u w hu
      by_cases hut : u = t
      · rw [hut, Config.set_loc_self] at hu
        cases hu
      · -- a second writer at its store would be inside
        rw [Config.set_loc_of_ne hut] at hu
        refine absurd (hI.writer_unique ?_ ?_) hut
        · rw [hu]
          exact Nat.one_pos
        · rw [hx]
          exact Nat.one_pos
  · refine ⟨hR, ?_, ?_⟩
    · rw [Config.set_shared, hnumber, hincrements]
      exact hI.counted
    · intro u w hu
      rw [Config.set_shared, hnumber]
      by_cases hut : u = t
      · rw [hut, Config.set_loc_self] at hu
        exact hread w hu
      · rw [Config.set_loc_of_ne hut] at hu
        exact hI.follows u w hu

theorem inv_reach (h : (children ι).Reach (initial role) c) : Inv c :=
  h.invariant (inv_initial role) fun _ _ _ hI _ hn => hI.step hn

/-! ## What is left behind -/

/-- Somebody has died in a read or in a write. -/
def LeftReading (c : Config ι Shared PC) : Prop := ∃ t i, c.loc t = .dead i ∧ 0 < i.reads

def LeftWriting (c : Config ι Shared PC) : Prop := ∃ t i, c.loc t = .dead i ∧ 0 < i.writes

/-- No process can make a step. -/
def Wedged (c : Config ι Shared PC) : Prop := ∀ t, (children ι).next c (t, .run) = none

/-- The process is dead, or waits for one that has died inside. -/
def Settled (c : Config ι Shared PC) : PC → Prop
  | .dead _ => True
  | .reader .start => LeftWriting c
  | .writer .start => LeftReading c ∨ LeftWriting c
  | _ => False

omit [Fintype ι] in
theorem next_eq_none_iff {t : ι} {e : Event} :
    (children ι).next c (t, e) = none ↔ processStep t e c.shared (c.loc t) = none :=
  Option.map_eq_none_iff

omit [DecidableEq ι] in
/-- Where a process cannot make a step it is dead, or waits to start. -/
theorem Inv.starts_of_none (hI : Inv c) {t : ι}
    (h : processStep t .run c.shared (c.loc t) = none) :
    (∃ i, c.loc t = .dead i) ∨
    (c.loc t = .reader .start ∧ 0 < (total (allInside c.loc)).writes) ∨
    (c.loc t = .writer .start ∧
      (0 < (total (allInside c.loc)).reads ∨ 0 < (total (allInside c.loc)).writes)) := by
  cases hx : c.loc t with
  | dead i => exact Or.inl ⟨i, rfl⟩
  | reader pc =>
    rw [hx] at h
    cases pc with
    | sleep | print => cases h
    | start =>
      have hnone := Option.map_eq_none_iff.mp h
      rw [hI.sem] at hnone
      exact Or.inr (Or.inl ⟨rfl, (encoding_faithful.startRead_waits hI.safe).mp hnone⟩)
    | stop =>
      have hi : (c.loc t).inside.after .stopRead = some ⟨0, 0⟩ := by
        rw [hx]
        rfl
      have hgo := encoding_faithful.stop_goes_on hI.toRepresents (Or.inl rfl) hi
      exact absurd (Option.map_eq_none_iff.mp h) hgo
  | writer pc =>
    rw [hx] at h
    cases pc with
    | sleep | load | store v | print => cases h
    | start =>
      have hnone := Option.map_eq_none_iff.mp h
      rw [hI.sem] at hnone
      exact Or.inr (Or.inr ⟨rfl, (encoding_faithful.startWrite_waits hI.safe).mp hnone⟩)
    | stop =>
      have hi : (c.loc t).inside.after .stopWrite = some ⟨0, 0⟩ := by
        rw [hx]
        rfl
      have hgo := encoding_faithful.stop_goes_on hI.toRepresents (Or.inr rfl) hi
      exact absurd (Option.map_eq_none_iff.mp h) hgo

omit [DecidableEq ι] in
theorem writes_pos_of_left (h : LeftWriting c) : 0 < (total (allInside c.loc)).writes := by
  obtain ⟨t, i, ht, hi⟩ := h
  have hle := writes_le_total (allInside c.loc) t
  unfold allInside insideOf at hle
  rw [ht] at hle
  exact Nat.lt_of_lt_of_le hi hle

omit [DecidableEq ι] in
theorem reads_pos_of_left (h : LeftReading c) : 0 < (total (allInside c.loc)).reads := by
  obtain ⟨t, i, ht, hi⟩ := h
  have hle := reads_le_total (allInside c.loc) t
  unfold allInside insideOf at hle
  rw [ht] at hle
  exact Nat.lt_of_lt_of_le hi hle

/-- A state without steps is one in which the dead hold up all others. -/
theorem Inv.wedged_iff (hI : Inv c) : Wedged c ↔ ∀ t, Settled c (c.loc t) := by
  constructor
  · intro hw
    have hstarts := fun t => hI.starts_of_none (next_eq_none_iff.mp (hw t))
    -- who is inside is neither at `sleep` nor at `start`, so it is dead
    have hdead (f : Inside → ℕ) (hf : f ⟨0, 0⟩ = 0) (hpos : 0 < ∑ u, f (allInside c.loc u)) :
        ∃ t i, c.loc t = .dead i ∧ 0 < f i := by
      obtain ⟨t, -, ht⟩ := Finset.exists_ne_zero_of_sum_ne_zero (Nat.ne_of_gt hpos)
      rcases hstarts t with ⟨i, hi⟩ | ⟨hx, -⟩ | ⟨hx, -⟩
      · rw [allInside, insideOf, hi] at ht
        exact ⟨t, i, hi, Nat.pos_of_ne_zero ht⟩
      · rw [allInside, insideOf, hx] at ht
        exact absurd hf ht
      · rw [allInside, insideOf, hx] at ht
        exact absurd hf ht
    have hreading := hdead Inside.reads rfl
    have hwriting := hdead Inside.writes rfl
    intro t
    rcases hstarts t with ⟨i, hi⟩ | ⟨hx, hpos⟩ | ⟨hx, hpos⟩
    · rw [hi]
      trivial
    · rw [hx]
      exact hwriting hpos
    · rw [hx]
      exact hpos.imp hreading hwriting
  · intro hs t
    apply next_eq_none_iff.mpr
    have ht := hs t
    cases hx : c.loc t with
    | dead i => rfl
    | reader pc =>
      rw [hx] at ht
      cases pc with
      | start =>
        apply Option.map_eq_none_iff.mpr
        rw [hI.sem]
        exact (encoding_faithful.startRead_waits hI.safe).mpr (writes_pos_of_left ht)
      | _ => exact ht.elim
    | writer pc =>
      rw [hx] at ht
      cases pc with
      | start =>
        apply Option.map_eq_none_iff.mpr
        rw [hI.sem]
        exact (encoding_faithful.startWrite_waits hI.safe).mpr
          (ht.imp reads_pos_of_left writes_pos_of_left)
      | _ => exact ht.elim

omit [Fintype ι] in
theorem dead_stays {a : ι × Event} (hn : (children ι).next c a = some c') {t : ι} {i : Inside}
    (ht : c.loc t = .dead i) : c'.loc t = .dead i := by
  obtain ⟨u, e⟩ := a
  obtain ⟨s, x, hs, rfl⟩ := interleave_next.mp hn
  by_cases htu : t = u
  · rw [← htu, ht] at hs
    cases hs
  · rw [Config.set_loc_of_ne htu]
    exact ht

omit [Fintype ι] in
theorem LeftReading.step {a : ι × Event} (h : LeftReading c)
    (hn : (children ι).next c a = some c') : LeftReading c' := by
  obtain ⟨t, i, ht, hi⟩ := h
  exact ⟨t, i, dead_stays hn ht, hi⟩

omit [Fintype ι] in
theorem LeftWriting.step {a : ι × Event} (h : LeftWriting c)
    (hn : (children ι).next c a = some c') : LeftWriting c' := by
  obtain ⟨t, i, ht, hi⟩ := h
  exact ⟨t, i, dead_stays hn ht, hi⟩

omit [DecidableEq ι] in
/-- Beside one that has died inside, nobody writes. -/
theorem Inv.dead_of_writes (hI : Inv c) (h : LeftReading c ∨ LeftWriting c) {t : ι}
    (ht : 0 < (c.loc t).inside.writes) : ∃ i, c.loc t = .dead i := by
  rcases h with hr | ⟨u, i, hu, hi⟩
  · have hreads := reads_pos_of_left hr
    have hwrites := Nat.lt_of_lt_of_le ht (writes_le_total (allInside c.loc) t)
    rcases hI.safe.2 with hzero | hzero
    · omega
    · omega
  · have hsame : t = u := hI.writer_unique ht (by rw [hu]; exact hi)
    rw [hsame]
    exact ⟨i, hu⟩

/-- The number that has been left behind stays. -/
theorem Inv.number_step {a : ι × Event} (hI : Inv c) (h : LeftReading c ∨ LeftWriting c)
    (hn : (children ι).next c a = some c') : c'.shared.number = c.shared.number := by
  obtain ⟨t, e⟩ := a
  obtain ⟨s, x, hs, rfl⟩ := interleave_next.mp hn
  rcases step_number hs with ⟨v, hx, -⟩ | ⟨hnumber, -⟩
  · have ht : 0 < (c.loc t).inside.writes := by
      rw [hx]
      exact Nat.one_pos
    obtain ⟨i, hi⟩ := hI.dead_of_writes h ht
    rw [hx] at hi
    cases hi
  · exact hnumber

/-- The steps of the processes, not the signals. -/
def Event.own : Event → Bool
  | .run => true
  | .kill => false

/-- The steps left behind a dead writer. -/
def PC.stepsLeft : PC → ℕ
  | .reader .sleep | .writer .sleep => 1
  | _ => 0

omit [DecidableEq ι] in
/-- Behind a dead writer only the sleeping make a step. -/
theorem Inv.sleeps_of_left (hI : Inv c) (h : LeftWriting c) {t : ι} {s : Shared} {x : PC}
    (hs : processStep t .run c.shared (c.loc t) = some (s, x)) :
    (c.loc t = .reader .sleep ∧ x = .reader .start) ∨
      (c.loc t = .writer .sleep ∧ x = .writer .start) := by
  have hwrites := writes_pos_of_left h
  have hreads : (total (allInside c.loc)).reads = 0 := by
    rcases hI.safe.2 with hzero | hzero
    · omega
    · exact hzero
  have houtR : (c.loc t).inside.reads = 0 :=
    Nat.eq_zero_of_le_zero ((reads_le_total (allInside c.loc) t).trans (Nat.le_of_eq hreads))
  have houtW : (∃ i, c.loc t = .dead i) ∨ (c.loc t).inside.writes = 0 := by
    rcases Nat.eq_zero_or_pos (c.loc t).inside.writes with hzero | hpos
    · exact Or.inr hzero
    · exact Or.inl (hI.dead_of_writes (Or.inr h) hpos)
  cases hx : c.loc t with
  | dead i =>
    rw [hx] at hs
    cases hs
  | reader pc =>
    rw [hx] at hs houtR
    cases pc with
    | sleep =>
      cases hs
      exact Or.inl ⟨rfl, rfl⟩
    | start =>
      obtain ⟨v, hv, -⟩ := Option.map_eq_some_iff.mp hs
      have hnone := (encoding_faithful.startRead_waits hI.safe).mpr hwrites
      rw [← hI.sem] at hnone
      exact absurd (hnone.symm.trans hv) nofun
    | print | stop => cases houtR
  | writer pc =>
    rw [hx] at hs houtW
    cases pc with
    | sleep =>
      cases hs
      exact Or.inr ⟨rfl, rfl⟩
    | start =>
      obtain ⟨v, hv, -⟩ := Option.map_eq_some_iff.mp hs
      have hnone := (encoding_faithful.startWrite_waits hI.safe).mpr (Or.inr hwrites)
      rw [← hI.sem] at hnone
      exact absurd (hnone.symm.trans hv) nofun
    | load | store v | print | stop =>
      rcases houtW with ⟨i, hi⟩ | hzero
      · cases hi
      · cases hzero

theorem windsDown (hI : Inv c) (h : LeftWriting c) :
    (children ι).EachWindsDown Event.own Wedged 1 c := by
  have hrank : ∀ x : PC, x.stepsLeft ≤ 1 := by
    intro x
    unfold PC.stepsLeft
    split
    · exact Nat.le_refl 1
    · exact Nat.le_refl 1
    · exact Nat.zero_le 1
  apply interleave_windsDown (fun c => Inv c ∧ LeftWriting c) PC.stepsLeft hrank ⟨hI, h⟩
  · intro c t e s x hc hs
    have hn : (children ι).next c (t, e) = some (c.set t s x) :=
      interleave_next.mpr ⟨s, x, hs, rfl⟩
    refine ⟨⟨hc.1.step hn, hc.2.step hn⟩, ?_⟩
    cases e with
    | run =>
      rcases hc.1.sleeps_of_left hc.2 hs with ⟨hx, rfl⟩ | ⟨hx, rfl⟩
      · rw [hx]
        exact Nat.le_refl 1
      · rw [hx]
        exact Nat.le_refl 1
    | kill =>
      have hx : x.stepsLeft = 0 := by
        cases hloc : c.loc t with
        | dead i =>
          rw [hloc] at hs
          cases hs
        | reader pc | writer pc =>
          rw [hloc] at hs
          cases hs
          rfl
      rw [hx]
      exact Nat.zero_le _
  · intro c hc hnone t
    exact next_eq_none_iff.mpr (hnone t .run rfl)

/-- **Killed inside.** The number counts the stores, whoever is killed. No step is possible
exactly where every process is dead or waits for one that has died in its section. Once
somebody has died in its section, the number is never changed again and no write begins;
and behind a writer that has died there each process makes one step at most. -/
theorem killed_inside (h : (children ι).Reach (initial role) c) :
    c.shared.number = c.shared.increments ∧
    (Wedged c ↔ ∀ t, Settled c (c.loc t)) ∧
    (LeftReading c ∨ LeftWriting c → ∀ c', (children ι).Reach c c' →
      c'.shared.number = c.shared.number ∧
      ∀ t, 0 < (c'.loc t).inside.writes → ∃ i, c'.loc t = .dead i) ∧
    (LeftWriting c →
      (children ι).EachWindsDown Event.own Wedged 1 c) := by
  have hI := inv_reach h
  refine ⟨hI.counted, hI.wedged_iff, ?_, windsDown hI⟩
  intro hleft c' h'
  have hkept : Inv c' ∧ (LeftReading c' ∨ LeftWriting c') ∧
      c'.shared.number = c.shared.number := by
    apply h'.invariant ⟨hI, hleft, rfl⟩
    intro c₁ a c₂ hc₁ _ hn
    obtain ⟨hI₁, hleft₁, hnumber⟩ := hc₁
    exact ⟨hI₁.step hn, hleft₁.imp (fun hl => hl.step hn) (fun hl => hl.step hn),
      (hI₁.number_step hleft₁ hn).trans hnumber⟩
  exact ⟨hkept.2.2, fun t ht => hkept.1.dead_of_writes hkept.2.1 ht⟩

end Invariant

/-- One writer and one reader. -/
def onePair (t : Fin 2) : Role := if t = 0 then .writer else .reader

/-- The writer is killed between its read and its write of the number. -/
theorem killed_inside_writer : ∃ c : Config (Fin 2) Shared PC,
    (children (Fin 2)).Reach (initial onePair) c ∧ LeftWriting c ∧ Wedged c := by
  have hrun : ((children (Fin 2)).run (initial onePair)
      [(0, .run), (0, .run), (0, .run), (0, .kill), (1, .run)]).any (fun c =>
        c.loc 0 = .dead ⟨0, 1⟩ && c.loc 1 = .reader .start) = true := by
    decide
  obtain ⟨c, hc, hp⟩ := Machine.exists_reach_of_run _ _ hrun
  simp only [Bool.and_eq_true, decide_eq_true_eq] at hp
  have hleft : LeftWriting c := ⟨0, ⟨0, 1⟩, hp.1, Nat.one_pos⟩
  refine ⟨c, hc, hleft, (killed_inside hc).2.1.mpr ?_⟩
  rw [Fin.forall_fin_two, hp.1, hp.2]
  exact ⟨trivial, hleft⟩

end OsLabs.TmpPc
