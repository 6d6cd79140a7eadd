import OsLabs.Winwr.Wakeup

/-!
# The readers-writers monitor on Windows events: waiting readers

Runs in which the four calls `start_read`, `stop_read`, `start_write` and `stop_write` are
not interrupted, except where they wait for an event (`Uninterrupted`). There the tests
of `start_read` are right when they are made: a reader that comes while a writer is
inside or waits does come to its wait for `can_read`.

But every `start_read` ends with a `SetEvent(can_read)`, whether or not a reader waits,
and the event stays set until a wait consumes it. A reader that comes later and has to
wait consumes the signal of an earlier reader and goes on at once. It waits for a
`stop_write` exactly where it comes to an event that is not set (`waits_iff`): nobody
sets `can_read` then but a writer that leaves.
-/

namespace OsLabs.Winwr

open Concurrent

/-! ## Uninterrupted calls -/

/-- The thread is inside one of the four calls, and not at its wait for an event. -/
def midCall (x : Thread) : Bool :=
  match x with
  | .reader .testWriter | .reader .testQueue | .reader .lock | .reader .decQueue
  | .reader .incActive | .reader .setRead | .reader .release => true
  | .reader .testZero | .reader .setWrite => true
  | .writer .testReaders | .writer .testWriter | .writer .decQueue | .writer .incActive => true
  | .writer .resetWrite | .writer .testQueue | .writer .setRead | .writer .setWrite => true
  | _ => false

/-- The mutex is in the hands of the reader. -/
def holdsMutex (x : Thread) : Bool :=
  match x with
  | .reader .decQueue | .reader .incActive | .reader .setRead | .reader .release => true
  | _ => false

/-- The writer is inside or waits: it has raised `writers_queue` and not yet come to the
end of `stop_write`. -/
def holdsOff (x : Thread) : Bool :=
  match x with
  | .reader _ => false
  | .writer pc =>
      match pc with
      | .head | .sleep | .incQueue | .exited => false
      | _ => true

variable {ι : Type}

/-- The thread that moves interrupts nobody. -/
def Uninterrupted (c : Config ι (Shared ι) Thread) (a : ι × Event) : Prop :=
  a.2 = .run → ∀ u, u ≠ a.1 → midCall (c.loc u) = false

/-- The action is not the last one of a `stop_write`. -/
def EndsNoWrite (c : Config ι (Shared ι) Thread) (a : ι × Event) : Prop :=
  a.2 = .run → c.loc a.1 ≠ .writer .setRead ∧ c.loc a.1 ≠ .writer .setWrite

/-- A writer is active or queued. -/
def Busy (s : Shared ι) : Prop := 0 < s.activeWriter ∨ 0 < s.writersQueue

/-- Reader `r` is about to enter `start_read`, while a writer is active or queued. -/
structure Arrives (c : Config ι (Shared ι) Thread) (r : ι) : Prop where
  enters : c.loc r = .reader .incQueue
  busy : Busy c.shared
  uninterrupted : Uninterrupted c (r, .run)

/-- Once it has entered `start_read`, reader `r` is not active as long as no writer has
executed `stop_write`. -/
def WaitsForWriter [DecidableEq ι] (c : Config ι (Shared ι) Thread) (r : ι) : Prop :=
  ∀ c₁ c₂, (program ι).next c (r, .run) = some c₁ →
    (program ι).ReachBy (fun d a => Uninterrupted d a ∧ EndsNoWrite d a) c₁ c₂ →
    inRead (c₂.loc r) = false

instance [Fintype ι] [DecidableEq ι] (c : Config ι (Shared ι) Thread) (a : ι × Event) :
    Decidable (Uninterrupted c a) :=
  inferInstanceAs (Decidable (_ = _ → ∀ _, _ ≠ _ → _ = _))

section Steps

variable {t : ι} {e : Event} {s s' : Shared ι} {x x' : Thread}

/-- `can_read` is set by a reader that comes in and by a writer that leaves, and a reader
comes in past an event that is set, or where it has found nobody. -/
theorem signal_step (h : threadStep t e s x = some (s', x'))
    (hsig : s'.canRead = true ∨ willSetRead x' = true) :
    s.canRead = true ∨ willSetRead x = true ∨ (e = .run ∧ x = .writer .setRead) ∨
      (x = .reader .testQueue ∧ s.writersQueue = 0) := by
  cases e with
  | ctrlC =>
    cases h
    rcases hsig with hset | hx
    · exact Or.inl hset
    · exact Or.inr (Or.inl hx)
  | run =>
    cases x with
    | reader pc =>
      cases pc with
      | head | testWriter | testZero =>
        cases h
        dsimp only at hsig
        split_ifs at hsig <;> exact Or.inl (hsig.resolve_right Bool.false_ne_true)
      | testQueue =>
        cases h
        by_cases hq : s.writersQueue = 0
        · exact Or.inr (Or.inr (Or.inr ⟨rfl, hq⟩))
        · dsimp only at hsig
          rw [if_pos hq] at hsig
          exact Or.inl (hsig.resolve_right Bool.false_ne_true)
      | wait =>
        obtain ⟨hset, -⟩ := step_wait_canRead.mp h
        exact Or.inl hset
      | lock | decQueue | incActive | setRead => exact Or.inr (Or.inl rfl)
      | sleep | incQueue | release | read | decActive | setWrite =>
        cases h
        exact Or.inl (hsig.resolve_right Bool.false_ne_true)
      | exited => cases h
    | writer pc =>
      cases pc with
      | head | testReaders | testWriter | test | testQueue =>
        cases h
        dsimp only at hsig
        split_ifs at hsig <;> exact Or.inl (hsig.resolve_right Bool.false_ne_true)
      | wait =>
        obtain ⟨-, he⟩ := step_wait_canWrite.mp h
        cases he
        exact Or.inl (hsig.resolve_right Bool.false_ne_true)
      | setRead => exact Or.inr (Or.inr (Or.inl ⟨rfl, rfl⟩))
      | exited => cases h
      | _ =>
        cases h
        exact Or.inl (hsig.resolve_right Bool.false_ne_true)

/-- A writer holds the readers off until it comes to the end of `stop_write`. -/
theorem holdsOff_step (h : threadStep t e s x = some (s', x')) (hx : holdsOff x = true) :
    holdsOff x' = true ∨ (e = .run ∧ (x = .writer .setRead ∨ x = .writer .setWrite)) := by
  cases e with
  | ctrlC => cases h; exact Or.inl hx
  | run =>
    cases x with
    | reader pc => cases hx
    | writer pc =>
      cases pc with
      | head | sleep | incQueue | exited => cases hx
      | testReaders | testWriter | test | testQueue =>
        cases h
        dsimp only
        split_ifs <;> exact Or.inl rfl
      | wait =>
        obtain ⟨-, he⟩ := step_wait_canWrite.mp h
        cases he
        exact Or.inl rfl
      | setRead => exact Or.inr ⟨rfl, Or.inl rfl⟩
      | setWrite => exact Or.inr ⟨rfl, Or.inr rfl⟩
      | _ =>
        cases h
        exact Or.inl rfl

/-- A reader comes to its second test where the first one has found no active writer. -/
theorem testQueue_step (h : threadStep t e s x = some (s', x')) (hx : x' = .reader .testQueue) :
    s'.writersQueue = s.writersQueue ∧
      (x = .reader .testQueue ∨ (x = .reader .testWriter ∧ s.activeWriter = 0)) := by
  cases e with
  | ctrlC => cases h; exact ⟨rfl, Or.inl hx⟩
  | run =>
    cases x with
    | reader pc =>
      cases pc with
      | testWriter =>
        cases h
        by_cases hw : s.activeWriter = 0
        · exact ⟨rfl, Or.inr ⟨rfl, hw⟩⟩
        · rw [if_pos hw] at hx
          cases hx
      | head | testQueue | testZero =>
        cases h
        split_ifs at hx <;> cases hx
      | wait =>
        obtain ⟨-, he⟩ := step_wait_canRead.mp h
        cases he
        cases hx
      | lock =>
        obtain ⟨-, he⟩ := step_wait_mutex.mp h
        cases he
        cases hx
      | exited => cases h
      | _ =>
        cases h
        cases hx
    | writer pc =>
      obtain ⟨p, _, he⟩ := Option.map_eq_some_iff.mp h
      cases he
      cases hx

/-- The mutex is taken and released by the readers that hold it. -/
theorem mutex_step (h : threadStep t e s x = some (s', x')) :
    (s'.mutex = s.mutex ∧ (holdsMutex x = true → holdsMutex x' = true)) ∨
      (s'.mutex = some t ∧ holdsMutex x' = true) ∨ s'.mutex = none := by
  cases e with
  | ctrlC => cases h; exact Or.inl ⟨rfl, id⟩
  | run =>
    cases x with
    | reader pc =>
      cases pc with
      | lock =>
        obtain ⟨-, he⟩ := step_wait_mutex.mp h
        cases he
        exact Or.inr (Or.inl ⟨rfl, rfl⟩)
      | decQueue | incActive | setRead =>
        cases h
        exact Or.inl ⟨rfl, fun _ => rfl⟩
      | release =>
        cases h
        exact Or.inr (Or.inr rfl)
      | wait =>
        obtain ⟨-, he⟩ := step_wait_canRead.mp h
        cases he
        exact Or.inl ⟨rfl, fun hx => by cases hx⟩
      | exited => cases h
      | _ =>
        cases h
        exact Or.inl ⟨rfl, fun hx => by cases hx⟩
    | writer pc =>
      cases pc with
      | wait =>
        obtain ⟨-, he⟩ := step_wait_canWrite.mp h
        cases he
        exact Or.inl ⟨rfl, fun hx => by cases hx⟩
      | exited => cases h
      | _ =>
        cases h
        exact Or.inl ⟨rfl, fun hx => by cases hx⟩

theorem midCall_of_holdsMutex (h : holdsMutex x = true) : midCall x = true := by
  cases x with
  | reader pc => cases pc <;> first | rfl | cases h
  | writer pc => cases h

theorem midCall_of_willSetRead (h : willSetRead x = true) : midCall x = true := by
  cases x with
  | reader pc => cases pc <;> first | rfl | cases h
  | writer pc => cases h

theorem inRead_of_beforeReadWait (h : beforeReadWait x = true) : inRead x = false := by
  cases x with
  | reader pc => cases pc <;> first | rfl | cases h
  | writer pc => rfl

theorem holdsOff_of_counted (h : inWritersQueue x = true ∨ inWrite x = true) :
    holdsOff x = true := by
  cases x with
  | reader pc => rcases h with h | h <;> cases h
  | writer pc => cases pc <;> first | rfl | (rcases h with h | h <;> cases h)

/-- A writer that holds the readers off is counted, where it is not in the middle of a
call. -/
theorem counted_of_holdsOff (h : holdsOff x = true) (hx : midCall x = false) :
    inWritersQueue x = true ∨ inWrite x = true := by
  cases x with
  | reader pc => cases h
  | writer pc =>
    cases pc with
    | wait => exact Or.inl rfl
    | test | reset | load | store | print | decActive => exact Or.inr rfl
    | head | sleep | incQueue | exited => cases h
    | _ => cases hx

end Steps

variable [DecidableEq ι] {c d : Config ι (Shared ι) Thread} {r t : ι}

/-! ## Every uninterrupted run -/

/-- One thread at most is in the middle of a call, and the mutex is in the hands of a
reader that is. -/
structure Calls (c : Config ι (Shared ι) Thread) : Prop where
  one : ∀ t u, midCall (c.loc t) = true → midCall (c.loc u) = true → t = u
  mutex : ∀ t, c.shared.mutex = some t → holdsMutex (c.loc t) = true

/-- While one thread moves, no other one is in the middle of a call, unless the step is
the console handler's. -/
theorem Calls.step (hM : Calls c) {e : Event} {s : Shared ι} {x : Thread}
    (hu : Uninterrupted c (t, e)) (h : threadStep t e c.shared (c.loc t) = some (s, x)) :
    Calls (c.set t s x) := by
  have hctrl : e = .ctrlC → s.mutex = c.shared.mutex ∧ x = c.loc t := by
    rintro rfl
    cases h
    exact ⟨rfl, rfl⟩
  refine ⟨Config.unique_set (p := fun y => midCall y = true) hM.one ?_, ?_⟩
  · intro hx u hut hmid
    cases e with
    | run =>
      rw [hu rfl u hut] at hmid
      cases hmid
    | ctrlC =>
      rw [(hctrl rfl).2] at hx
      exact hut (hM.one u t hmid hx)
  · intro u hmutex
    rw [Config.set_shared] at hmutex
    rcases mutex_step h with ⟨hm, hkeep⟩ | ⟨hm, hx⟩ | hm
    · have hold := hM.mutex u (hm ▸ hmutex)
      by_cases hut : u = t
      · subst hut
        rw [Config.set_loc_self]
        exact hkeep hold
      · rwa [Config.set_loc_of_ne hut]
    · obtain rfl : t = u := Option.some.inj (hm.symm.trans hmutex)
      rwa [Config.set_loc_self]
    · rw [hm] at hmutex
      cases hmutex

theorem calls_reach {role : ι → Role}
    (h : (program ι).ReachBy Uninterrupted (initial role) c) : Calls c := by
  apply h.interleave_invariant
  · refine ⟨fun t _ ht => ?_, fun t ht => by cases ht⟩
    have hstart : midCall (role t).start = true := ht
    cases hr : role t <;> rw [hr] at hstart <;> cases hstart
  · intro c t e s x hM hu hs
    exact hM.step hu hs

/-! ## A reader that comes to an event that is not set -/

variable [Fintype ι]

/-- `can_read` is not set, and no reader is about to set it; a writer holds the readers
off, and no reader is about to pass it; reader `r` has not passed its wait. -/
structure Waiting (c : Config ι (Shared ι) Thread) (r : ι) : Prop where
  counters : Counters c
  calls : Calls c
  signal : c.shared.canRead = false
  setters : ∀ u, willSetRead (c.loc u) = false
  writer : ∃ w, holdsOff (c.loc w) = true
  queue : ∀ u, c.loc u = .reader .testQueue → c.shared.writersQueue ≠ 0
  before : beforeReadWait (c.loc r) = true

omit [DecidableEq ι] in
/-- A reader that has found no active writer has found a queued one. -/
theorem Waiting.queued (hW : Waiting c r) {u : ι} (hu : c.loc u = .reader .testWriter)
    (hzero : c.shared.activeWriter = 0) : c.shared.writersQueue ≠ 0 := by
  obtain ⟨w, hw⟩ := hW.writer
  have hmid : midCall (c.loc w) = false := by
    by_contra hmid
    have hwu : w = u := hW.calls.one w u (by simpa using hmid) (by rw [hu]; rfl)
    rw [hwu, hu] at hw
    cases hw
  rcases counted_of_holdsOff hw hmid with hq | hin
  · rw [hW.counters.writersQueue]
    exact_mod_cast (count_pos hq).ne'
  · rw [hW.counters.not_inWrite hzero w] at hin
    cases hin

theorem Waiting.step (hW : Waiting c r) {e : Event} {s : Shared ι} {x : Thread}
    (hu : Uninterrupted c (t, e)) (hend : EndsNoWrite c (t, e))
    (h : threadStep t e c.shared (c.loc t) = some (s, x)) : Waiting (c.set t s x) r := by
  have hquiet : ¬ (s.canRead = true ∨ willSetRead x = true) := by
    intro hsig
    rcases signal_step h hsig with hs | hx | ⟨rfl, hx⟩ | ⟨hx, hzero⟩
    · rw [hW.signal] at hs
      cases hs
    · rw [hW.setters t] at hx
      cases hx
    · exact (hend rfl).1 hx
    · exact hW.queue t hx hzero
  rw [not_or, Bool.not_eq_true, Bool.not_eq_true] at hquiet
  refine ⟨hW.counters.step h, hW.calls.step hu h, hquiet.1, ?_, ?_, ?_, ?_⟩
  · exact Config.forall_set (P := fun _ y => willSetRead y = false) hquiet.2
      fun u _ => hW.setters u
  · rcases Config.exists_set (p := fun y => holdsOff y = true) hW.writer t s x with ht | hother
    · rcases holdsOff_step h ht with hx | ⟨rfl, hx | hx⟩
      · exact ⟨t, by rwa [Config.set_loc_self]⟩
      · exact absurd hx (hend rfl).1
      · exact absurd hx (hend rfl).2
    · exact hother
  · refine Config.forall_set
      (P := fun _ (y : Thread) => y = .reader .testQueue → s.writersQueue ≠ 0) ?_ ?_
    · intro hx
      obtain ⟨hq, hold | ⟨htest, hzero⟩⟩ := testQueue_step h hx
      · rw [hq]
        exact hW.queue t hold
      · rw [hq]
        exact hW.queued htest hzero
    · intro u hut hloc
      cases e with
      | run =>
        have hmid := hu rfl u hut
        rw [hloc] at hmid
        cases hmid
      | ctrlC =>
        cases h
        exact hW.queue u hloc
  · by_cases hrt : r = t
    · subst hrt
      rw [Config.set_loc_self]
      exact (beforeReadWait_step h hW.before).resolve_right (by simp [hquiet.2])
    · rw [Config.set_loc_of_ne hrt]
      exact hW.before

/-- A reader that arrives at an event that is not set begins to wait. -/
theorem Arrives.waiting (ha : Arrives c r) (hC : Counters c) (hM : Calls c)
    (hsig : c.shared.canRead = false) {c₁ : Config ι (Shared ι) Thread}
    (hn : (program ι).next c (r, .run) = some c₁) : Waiting c₁ r := by
  obtain ⟨s, x, hs, rfl⟩ := interleave_next.mp hn
  have hquiet : ∀ u, u ≠ r → midCall (c.loc u) = false := ha.uninterrupted rfl
  have hC' := hC.step hs
  have hM' := hM.step ha.uninterrupted hs
  rw [ha.enters] at hs
  cases hs
  refine ⟨hC', hM', hsig, ?_, ?_, ?_, ?_⟩
  · refine Config.forall_set (P := fun _ y => willSetRead y = false) rfl fun u hu => ?_
    by_contra hset
    have hmid := hquiet u hu
    rw [midCall_of_willSetRead (by simpa using hset)] at hmid
    cases hmid
  · have hsome : ∃ w, holdsOff (c.loc w) = true := by
      rcases ha.busy with hw | hq
      · obtain ⟨w, hw⟩ := hC.exists_inWrite hw.ne'
        exact ⟨w, holdsOff_of_counted (Or.inr hw)⟩
      · obtain ⟨w, hw⟩ := hC.exists_inWritersQueue hq.ne'
        exact ⟨w, holdsOff_of_counted (Or.inl hw)⟩
    refine (Config.exists_set (p := fun y => holdsOff y = true) hsome r _ _).resolve_left ?_
    rw [ha.enters]
    exact Bool.false_ne_true
  · intro u hu
    by_cases hur : u = r
    · rw [hur, Config.set_loc_self] at hu
      cases hu
    · rw [Config.set_loc_of_ne hur] at hu
      have hmid := hquiet u hur
      rw [hu] at hmid
      cases hmid
  · rw [Config.set_loc_self]
    rfl

omit [DecidableEq ι] [Fintype ι] in
/-- Alone, a reader passes its wait for an event that is set. -/
theorem passes_wait {s : Shared ι} (hsig : s.canRead = true) (hmutex : s.mutex = none) :
    ∃ s', Solo threadStep (fun x => ∃ pc, x = .reader pc) r s (.reader .wait) s'
      (.reader .setRead) := by
  have hwait : threadStep r .run s (.reader .wait) =
      some ({ s with canRead := false }, .reader .lock) := step_wait_canRead.mpr ⟨hsig, rfl⟩
  have hlock : threadStep r .run { s with canRead := false } (.reader .lock) =
      some ({ s with canRead := false, mutex := some r }, .reader .decQueue) :=
    step_wait_mutex.mpr ⟨hmutex, rfl⟩
  let s₁ : Shared ι := { s with canRead := false, mutex := some r }
  let s₂ : Shared ι := { s₁ with readersQueue := s₁.readersQueue - 1 }
  let s₃ : Shared ι := { s₂ with activeReaders := s₂.activeReaders + 1 }
  have hqueue : threadStep r .run s₁ (.reader .decQueue) = some (s₂, .reader .incActive) := rfl
  have hactive : threadStep r .run s₂ (.reader .incActive) = some (s₃, .reader .setRead) := rfl
  exact ⟨s₃, .head ⟨_, rfl⟩ hwait (.head ⟨_, rfl⟩ hlock
    (.head ⟨_, rfl⟩ hqueue (.single ⟨_, rfl⟩ hactive)))⟩

omit [DecidableEq ι] [Fintype ι] in
/-- Alone, a reader that finds a writer goes on past an event that is set. -/
theorem passes_tests {s : Shared ι} (hbusy : Busy s) (hsig : s.canRead = true)
    (hmutex : s.mutex = none) :
    ∃ s', Solo threadStep (fun x => ∃ pc, x = .reader pc) r s (.reader .testWriter) s'
      (.reader .setRead) := by
  obtain ⟨s', hs'⟩ := passes_wait (r := r) hsig hmutex
  by_cases hw : s.activeWriter = 0
  · have hq : s.writersQueue ≠ 0 := by
      rcases hbusy with hpos | hpos
      · omega
      · omega
    have htest : threadStep r .run s (.reader .testWriter) = some (s, .reader .testQueue) := by
      simp [threadStep, reader, hw]
    have hqueue : threadStep r .run s (.reader .testQueue) = some (s, .reader .wait) := by
      simp [threadStep, reader, hq]
    exact ⟨s', .head ⟨_, rfl⟩ htest (.head ⟨_, rfl⟩ hqueue hs')⟩
  · have htest : threadStep r .run s (.reader .testWriter) = some (s, .reader .wait) := by
      simp [threadStep, reader, hw]
    exact ⟨s', .head ⟨_, rfl⟩ htest hs'⟩

omit [Fintype ι] in
/-- A reader that arrives at an event that is set can go on at once. -/
theorem Arrives.passes (ha : Arrives c r) (hM : Calls c) (hsig : c.shared.canRead = true) :
    ¬ WaitsForWriter c r := by
  intro hwait
  have hmutex : c.shared.mutex = none := by
    by_contra hne
    obtain ⟨u, hu⟩ := Option.ne_none_iff_exists'.mp hne
    have hholds := hM.mutex u hu
    by_cases hur : u = r
    · rw [hur, ha.enters] at hholds
      cases hholds
    · have hmid := ha.uninterrupted rfl u hur
      rw [midCall_of_holdsMutex hholds] at hmid
      cases hmid
  let s := { c.shared with readersQueue := c.shared.readersQueue + 1 }
  have hstep : threadStep r .run c.shared (c.loc r) = some (s, .reader .testWriter) := by
    rw [ha.enters]
    rfl
  have hn := interleave_next.mpr ⟨_, _, hstep, rfl⟩
  obtain ⟨s', hs'⟩ := passes_tests (r := r) (s := s) ha.busy hsig hmutex
  have halone : Solo threadStep (fun x => ∃ pc, x = .reader pc) r
      (c.set r s (.reader .testWriter)).shared ((c.set r s (.reader .testWriter)).loc r) s'
      (.reader .setRead) := by
    rw [Config.set_shared, Config.set_loc_self]
    exact hs'
  have hcond : ∀ (s₁ : Shared ι) (x : Thread) (e : Event), (∃ pc, x = .reader pc) →
      Uninterrupted ((c.set r s (.reader .testWriter)).set r s₁ x) (r, e) ∧
        EndsNoWrite ((c.set r s (.reader .testWriter)).set r s₁ x) (r, e) := by
    rintro s₁ x e ⟨pc, rfl⟩
    constructor
    · intro _ u hu
      have hur : u ≠ r := hu
      rw [Config.set_loc_of_ne hur, Config.set_loc_of_ne hur]
      exact ha.uninterrupted rfl u hur
    · intro _
      rw [Config.set_loc_self]
      exact ⟨by simp, by simp⟩
  have hread := hwait _ _ hn (halone.reachBy hcond)
  rw [Config.set_loc_self] at hread
  cases hread

/-- **When a reader waits for a writer.** In every uninterrupted run: a reader that enters
`start_read` while a writer is active or queued does not become active before some writer
has executed `stop_write`, however the run goes on, if and only if it finds `can_read` not
set when it enters. -/
theorem waits_iff {role : ι → Role} (h : (program ι).ReachBy Uninterrupted (initial role) c)
    (ha : Arrives c r) : WaitsForWriter c r ↔ c.shared.canRead = false := by
  have hC := counters_reach h.reach
  have hM := calls_reach h
  constructor
  · intro hwait
    by_contra hsig
    exact ha.passes hM (by simpa using hsig) hwait
  · intro hsig c₁ c₂ hn hrun
    apply inRead_of_beforeReadWait
    have hW : Waiting c₂ r := by
      apply hrun.interleave_invariant (I := fun d => Waiting d r) (ha.waiting hC hM hsig hn)
      intro d t e s x hW hc hs
      exact hW.step hc.1 hc.2 hs
    exact hW.before

/-! ## A signal that is left behind -/

/-- A reader and a writer. -/
def readerAndWriter : Fin 2 → Role := ![.reader, .writer]

/-- The writer is inside; the reader comes for the first time. -/
def firstArrival {ι : Type} (r w : ι) : List (ι × Event) :=
  List.replicate 7 (w, .run) ++ List.replicate 2 (r, .run)

/-- The reader has waited for nobody and has left; now the writer is inside, and the
reader comes again. -/
def secondArrival {ι : Type} (r w : ι) : List (ι × Event) :=
  List.replicate 14 (r, .run) ++ firstArrival r w

/-- A run to a state in which the reader arrives, and `can_read` is or is not set. -/
theorem exists_arrival {as : List (Fin 2 × Event)} {sig : Bool}
    (h : ((program (Fin 2)).exec Uninterrupted (initial readerAndWriter) as).any
      (fun c => c.loc 0 = .reader .incQueue && 0 < c.shared.activeWriter &&
        decide (Uninterrupted c (0, .run)) && c.shared.canRead = sig) = true) :
    ∃ c, (program (Fin 2)).ReachBy Uninterrupted (initial readerAndWriter) c ∧
      Arrives c 0 ∧ c.shared.canRead = sig := by
  obtain ⟨c, hc, hp⟩ := Machine.exists_reachBy_of_exec as _ h
  simp only [Bool.and_eq_true, decide_eq_true_eq] at hp
  obtain ⟨⟨⟨henter, hbusy⟩, hu⟩, hsig⟩ := hp
  exact ⟨c, hc, ⟨henter, Or.inl hbusy, hu⟩, hsig⟩

/-- The reader that comes while the writer is inside waits for it. -/
theorem waits_iff_first : ∃ c, (program (Fin 2)).ReachBy Uninterrupted (initial readerAndWriter) c ∧
    Arrives c 0 ∧ WaitsForWriter c 0 := by
  have hrun : ((program (Fin 2)).exec Uninterrupted (initial readerAndWriter)
      (firstArrival 0 1)).any (fun c => c.loc 0 = .reader .incQueue && 0 < c.shared.activeWriter &&
        decide (Uninterrupted c (0, .run)) && c.shared.canRead = false) = true := by
    decide +kernel
  obtain ⟨c, hc, ha, hsig⟩ := exists_arrival hrun
  exact ⟨c, hc, ha, (waits_iff hc ha).mpr hsig⟩

/-- The second time it goes on at once: the `SetEvent(can_read)` of its own first
`start_read` is still there. -/
theorem passes_on_old_signal :
    ¬ ∀ c, (program (Fin 2)).ReachBy Uninterrupted (initial readerAndWriter) c →
      ∀ r, Arrives c r → WaitsForWriter c r := by
  intro h
  have hrun : ((program (Fin 2)).exec Uninterrupted (initial readerAndWriter)
      (secondArrival 0 1)).any (fun c => c.loc 0 = .reader .incQueue && 0 < c.shared.activeWriter &&
        decide (Uninterrupted c (0, .run)) && c.shared.canRead = true) = true := by
    decide +kernel
  obtain ⟨c, hc, ha, hsig⟩ := exists_arrival hrun
  exact ha.passes (calls_reach hc) hsig (h c hc 0 ha)

end OsLabs.Winwr
