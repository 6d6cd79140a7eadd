import OsLabs.Winwr.Decisions
import Mathlib.Data.Fin.VecNotation

/-!
# The readers-writers monitor on Windows events: exclusion

`start_write` tests `active_readers` and `active_writer`, or waits for `can_write`, and
raises `active_writer` some steps later; nothing keeps another thread from coming in
meanwhile. Two writers that both find the counters zero are both let in
(`two_writers_inside`), and so are all the writers that wait when `can_write` is set.

What the tests and the events are for is seen where nothing has overtaken them: in a run
in which no thread enters on a look at the counters that a later entry has outdated, nobody
is inside together with a writer (`guarded_exclusion`). A test that lets a thread pass has
read zero; a wait lets it pass on an event that was signalled by somebody who knew the
counters to be zero; and a counter that was zero is zero still if nobody has entered since
(`Justified`). So the guard of every entry is false when the thread enters, and exclusion
follows by counting (`Exclusive.step`).
-/

namespace OsLabs.Winwr

open Concurrent

variable {ι : Type}

/-- Where the action is the entry of a writer or a reader, the test by which its
`start_write` or `start_read` keeps it out is false in that state. -/
def EntersFree (c : Config ι (Shared ι) Thread) (a : ι × Event) : Prop :=
  a.2 = .run →
    (c.loc a.1 = .writer .incActive → c.shared.activeReaders = 0 ∧ c.shared.activeWriter = 0) ∧
      (c.loc a.1 = .reader .incActive → c.shared.activeWriter = 0)

section Steps

variable {t : ι} {e : Event} {s s' : Shared ι} {x x' : Thread}

/-- A thread comes into its section only by raising its counter. -/
theorem enters_cases (h : threadStep t e s x = some (s', x')) :
    (inWrite x' = true → inWrite x = true ∨ (e = .run ∧ x = .writer .incActive)) ∧
      (inRead x' = true → inRead x = true ∨ (e = .run ∧ x = .reader .incActive)) := by
  cases e with
  | ctrlC => cases h; exact ⟨Or.inl, Or.inl⟩
  | run =>
    cases x with
    | reader pc =>
      cases pc with
      | incActive => cases h; exact ⟨Or.inl, fun _ => Or.inr ⟨rfl, rfl⟩⟩
      | wait =>
        obtain ⟨-, he⟩ := step_wait_canRead.mp h
        cases he
        exact ⟨Or.inl, Or.inl⟩
      | lock =>
        obtain ⟨-, he⟩ := step_wait_mutex.mp h
        cases he
        exact ⟨Or.inl, Or.inl⟩
      | head | testWriter | testQueue | testZero =>
        cases h
        dsimp only
        split_ifs <;> exact ⟨Or.inl, Or.inl⟩
      | exited => cases h
      | _ =>
        cases h
        simp [inRead, inWrite]
    | writer pc =>
      cases pc with
      | incActive => cases h; exact ⟨fun _ => Or.inr ⟨rfl, rfl⟩, Or.inl⟩
      | wait =>
        obtain ⟨-, he⟩ := step_wait_canWrite.mp h
        cases he
        exact ⟨Or.inl, Or.inl⟩
      | head | testReaders | testWriter | test | testQueue =>
        cases h
        dsimp only
        split_ifs <;> exact ⟨Or.inl, Or.inl⟩
      | exited => cases h
      | _ =>
        cases h
        simp [inRead, inWrite]

theorem not_inRead_of_inWrite (h : inWrite x = true) : inRead x = false := by
  cases x with
  | reader pc => cases h
  | writer pc => rfl

end Steps

/-! ## What the marks vouch for -/

/-- The points at which a thread goes by `active_readers == 0`. -/
def goesByReaders (x : Thread) : Bool :=
  match x with
  | .writer .testWriter | .writer .decQueue | .writer .incActive | .writer .resetWrite
  | .writer .testQueue | .writer .setRead | .writer .setWrite | .reader .setWrite => true
  | _ => false

/-- The points at which a thread goes by `active_writer == 0`. -/
def goesByWriter (x : Thread) : Bool :=
  match x with
  | .writer .decQueue | .writer .incActive | .writer .resetWrite | .writer .testQueue
  | .writer .setRead | .writer .setWrite | .reader .testQueue | .reader .lock | .reader .decQueue
  | .reader .incActive | .reader .setRead | .reader .release | .reader .read | .reader .decActive
  | .reader .testZero | .reader .setWrite => true
  | _ => false

/-- As long as nobody has entered since, the counters that one goes by are zero. -/
def Vouches (s : Shared ι) (k : Since) (r w : Bool) : Prop :=
  (r = true → k.reader = false → s.activeReaders = 0) ∧
    (w = true → k.writer = false → s.activeWriter = 0)

theorem vouches_nothing (s : Shared ι) (k : Since) : Vouches s k false false := by
  constructor <;> intro h <;> cases h

theorem vouches_readers {s : Shared ι} {k : Since}
    (h : k.reader = false → s.activeReaders = 0) : Vouches s k true false := by
  refine ⟨fun _ => h, ?_⟩
  intro hw
  cases hw

theorem vouches_writer {s : Shared ι} {k : Since}
    (h : k.writer = false → s.activeWriter = 0) : Vouches s k false true := by
  refine ⟨?_, fun _ => h⟩
  intro hr
  cases hr

section Marks

variable {t : ι} {s s' : Shared ι} {m : Marks ι} {k : Since} {x x' : Thread}

theorem Since.after_reader (h : (k.after x).reader = false) :
    k.reader = false ∧ x ≠ .reader .incActive := by
  unfold Since.after at h
  split at h
  · cases h
  · exact ⟨h, by simp⟩
  next hx _ => exact ⟨h, hx⟩

theorem Since.after_writer (h : (k.after x).writer = false) :
    k.writer = false ∧ x ≠ .writer .incActive := by
  unfold Since.after at h
  split at h
  · exact ⟨h, by simp⟩
  · cases h
  next _ hx => exact ⟨h, hx⟩

/-- What a mark vouches for outlasts a step: a counter leaves zero by an entry only, and
an entry is noted in the mark. -/
theorem Vouches.after {r w : Bool} (hV : Vouches s k r w)
    (hpos : 0 ≤ s'.activeReaders ∧ 0 ≤ s'.activeWriter)
    (h : threadStep t .run s x = some (s', x')) : Vouches s' (k.after x) r w := by
  obtain ⟨-, hreaders, -, hwriter⟩ := step_counters h
  obtain ⟨hinW, hinR⟩ := enters_cases h
  constructor
  · intro hr hk
    obtain ⟨hk, hx⟩ := Since.after_reader hk
    have hzero := hV.1 hr hk
    cases hin : inRead x' with
    | false =>
      rw [hin, Bool.toNat_false] at hreaders
      omega
    | true =>
      rcases hinR hin with hold | ⟨-, hinc⟩
      · rw [hin, hold] at hreaders
        omega
      · exact absurd hinc hx
  · intro hw hk
    obtain ⟨hk, hx⟩ := Since.after_writer hk
    have hzero := hV.2 hw hk
    cases hin : inWrite x' with
    | false =>
      rw [hin, Bool.toNat_false] at hwriter
      omega
    | true =>
      rcases hinW hin with hold | ⟨-, hinc⟩
      · rw [hin, hold] at hwriter
        omega
      · exact absurd hinc hx

/-- The mark of the thread that moves: a test that lets it pass has read zero, a wait lets
it pass on an event that stands for zero, and a writer that leaves has been alone. -/
theorem Vouches.own (hV : Vouches s k (goesByReaders x) (goesByWriter x))
    (hR : s.canRead = true → Vouches s m.canRead false true)
    (hW : s.canWrite = true → Vouches s m.canWrite true true)
    (hleave : x = .writer .decActive → s'.activeReaders = 0 ∧ s'.activeWriter = 0)
    (h : threadStep t .run s x = some (s', x')) :
    Vouches s' (m.own k x) (goesByReaders x') (goesByWriter x') := by
  cases x with
  | reader pc =>
    cases pc with
    | testWriter =>
      cases h
      dsimp only
      split_ifs with hz
      · exact vouches_nothing _ _
      · exact vouches_writer fun _ => not_not.mp hz
    | wait =>
      obtain ⟨hset, he⟩ := step_wait_canRead.mp h
      cases he
      exact hR hset
    | lock =>
      obtain ⟨-, he⟩ := step_wait_mutex.mp h
      cases he
      exact hV
    | testZero =>
      cases h
      dsimp only
      split_ifs with hz
      · exact ⟨fun _ _ => hz, hV.2⟩
      · exact vouches_nothing _ _
    | testQueue =>
      cases h
      dsimp only
      split_ifs
      · exact vouches_nothing _ _
      · exact hV
    | head =>
      cases h
      dsimp only
      split_ifs <;> exact vouches_nothing _ _
    | incActive | decActive => cases h; exact vouches_writer (hV.2 rfl)
    | decQueue | setRead | release | read => cases h; exact hV
    | sleep | incQueue | setWrite => cases h; exact vouches_nothing _ _
    | exited => cases h
  | writer pc =>
    cases pc with
    | testReaders =>
      cases h
      dsimp only
      split_ifs with hz
      · exact vouches_nothing _ _
      · exact vouches_readers fun _ => not_not.mp hz
    | testWriter =>
      cases h
      dsimp only
      split_ifs with hz
      · exact vouches_nothing _ _
      · exact ⟨hV.1, fun _ _ => not_not.mp hz⟩
    | wait =>
      obtain ⟨hset, he⟩ := step_wait_canWrite.mp h
      cases he
      exact hW hset
    | decActive =>
      obtain ⟨hr, hw⟩ := hleave rfl
      exact ⟨fun _ _ => hr, fun _ _ => hw⟩
    | head | test =>
      cases h
      dsimp only
      split_ifs <;> exact vouches_nothing _ _
    | testQueue =>
      cases h
      dsimp only
      split_ifs <;> exact hV
    | decQueue | resetWrite => cases h; exact hV
    | sleep | incQueue | incActive | reset | load | store | print | setRead | setWrite =>
      cases h
      exact vouches_nothing _ _
    | exited => cases h

/-- `can_read` is signalled by a reader that is inside and by a writer that has left. -/
theorem Vouches.onCanRead (hV : Vouches s k (goesByReaders x) (goesByWriter x))
    (hR : s.canRead = true → Vouches s m.canRead false true)
    (hpos : 0 ≤ s'.activeReaders ∧ 0 ≤ s'.activeWriter)
    (h : threadStep t .run s x = some (s', x')) (hset : s'.canRead = true) :
    Vouches s' (m.onCanRead k x) false true := by
  have hold : x = .reader .setRead ∨ x = .writer .setRead ∨
      s.canRead = true ∧ m.onCanRead k x = m.canRead.after x := by
    cases x with
    | reader pc =>
      cases pc with
      | setRead => exact Or.inl rfl
      | wait =>
        obtain ⟨-, he⟩ := step_wait_canRead.mp h
        cases he
        cases hset
      | lock =>
        obtain ⟨-, he⟩ := step_wait_mutex.mp h
        cases he
        exact Or.inr (Or.inr ⟨hset, rfl⟩)
      | exited => cases h
      | _ => cases h; exact Or.inr (Or.inr ⟨hset, rfl⟩)
    | writer pc =>
      cases pc with
      | setRead => exact Or.inr (Or.inl rfl)
      | wait =>
        obtain ⟨-, he⟩ := step_wait_canWrite.mp h
        cases he
        exact Or.inr (Or.inr ⟨hset, rfl⟩)
      | exited => cases h
      | _ => cases h; exact Or.inr (Or.inr ⟨hset, rfl⟩)
  have hafter := hV.after hpos h
  rcases hold with rfl | rfl | ⟨hwas, hmark⟩
  · exact hafter
  · exact vouches_writer (hafter.2 rfl)
  · rw [hmark]
    exact (hR hwas).after hpos h

/-- `can_write` is signalled by a reader that has found `active_readers` at zero and by a
writer that has left. -/
theorem Vouches.onCanWrite (hV : Vouches s k (goesByReaders x) (goesByWriter x))
    (hW : s.canWrite = true → Vouches s m.canWrite true true)
    (hpos : 0 ≤ s'.activeReaders ∧ 0 ≤ s'.activeWriter)
    (h : threadStep t .run s x = some (s', x')) (hset : s'.canWrite = true) :
    Vouches s' (m.onCanWrite k x) true true := by
  have hold : x = .reader .setWrite ∨ x = .writer .setWrite ∨
      s.canWrite = true ∧ m.onCanWrite k x = m.canWrite.after x := by
    cases x with
    | reader pc =>
      cases pc with
      | setWrite => exact Or.inl rfl
      | wait =>
        obtain ⟨-, he⟩ := step_wait_canRead.mp h
        cases he
        exact Or.inr (Or.inr ⟨hset, rfl⟩)
      | lock =>
        obtain ⟨-, he⟩ := step_wait_mutex.mp h
        cases he
        exact Or.inr (Or.inr ⟨hset, rfl⟩)
      | exited => cases h
      | _ => cases h; exact Or.inr (Or.inr ⟨hset, rfl⟩)
    | writer pc =>
      cases pc with
      | setWrite => exact Or.inr (Or.inl rfl)
      | wait =>
        obtain ⟨-, he⟩ := step_wait_canWrite.mp h
        cases he
        exact Or.inr (Or.inr ⟨hset, rfl⟩)
      | resetWrite => cases h; cases hset
      | exited => cases h
      | _ => cases h; exact Or.inr (Or.inr ⟨hset, rfl⟩)
  have hafter := hV.after hpos h
  rcases hold with rfl | rfl | ⟨hwas, hmark⟩
  · exact hafter
  · exact hafter
  · rw [hmark]
    exact (hW hwas).after hpos h

end Marks

variable [Fintype ι] {c : Config ι (Shared ι) Thread}

/-- The counters are exact, and a writer inside is alone. -/
structure Exclusive (c : Config ι (Shared ι) Thread) : Prop where
  counters : Counters c
  alone : ∀ a, inWrite (c.loc a) = true →
    ∀ u, (inWrite (c.loc u) = true → u = a) ∧ inRead (c.loc u) = false

theorem exclusive_initial (role : ι → Role) : Exclusive (initial role) := by
  refine ⟨counters_initial role, ?_⟩
  intro a ha
  have hstart : inWrite (role a).start = true := ha
  cases hr : role a <;> rw [hr] at hstart <;> cases hstart

variable [DecidableEq ι]

theorem Exclusive.step (hE : Exclusive c) {t : ι} {e : Event} {s : Shared ι} {x : Thread}
    (hc : EntersFree c (t, e)) (h : threadStep t e c.shared (c.loc t) = some (s, x)) :
    Exclusive (c.set t s x) := by
  obtain ⟨hinW, hinR⟩ := enters_cases h
  have hnobody := fun hz => hE.counters.not_inWrite hz
  refine ⟨hE.counters.step h, ?_⟩
  intro a ha u
  by_cases hat : a = t
  · subst hat
    rw [Config.set_loc_self] at ha
    by_cases hua : u = a
    · subst hua
      rw [Config.set_loc_self]
      exact ⟨fun _ => rfl, not_inRead_of_inWrite ha⟩
    · rw [Config.set_loc_of_ne hua]
      rcases hinW ha with hold | ⟨rfl, hinc⟩
      · exact hE.alone a hold u
      · -- the writer enters with both counters at zero
        obtain ⟨hr, hw⟩ := (hc rfl).1 hinc
        refine ⟨fun hu => ?_, hE.counters.not_inRead hr u⟩
        rw [hnobody hw u] at hu
        cases hu
  · rw [Config.set_loc_of_ne hat] at ha
    by_cases hut : u = t
    · subst hut
      rw [Config.set_loc_self]
      have hbusy : c.shared.activeWriter ≠ 0 := by
        intro hz
        rw [hnobody hz a] at ha
        cases ha
      constructor
      · intro hx
        rcases hinW hx with hold | ⟨rfl, hinc⟩
        · exact (hE.alone a ha u).1 hold
        · exact absurd ((hc rfl).1 hinc).2 hbusy
      · by_contra hx
        rcases hinR (by simpa using hx) with hold | ⟨rfl, hinc⟩
        · rw [(hE.alone a ha u).2] at hold
          cases hold
        · exact absurd ((hc rfl).2 hinc) hbusy
    · rw [Config.set_loc_of_ne hut]
      exact hE.alone a ha u

/-- A writer that leaves has been alone: both counters are then zero. -/
theorem Exclusive.leaves (hE : Exclusive c) {t : ι} {s : Shared ι} {x : Thread}
    (hC : Counters (c.set t s x)) (ht : inWrite (c.loc t) = true) (hr : inRead x = false)
    (hw : inWrite x = false) : s.activeReaders = 0 ∧ s.activeWriter = 0 := by
  have hnoRead : ∀ u, inRead ((c.set t s x).loc u) = false := by
    intro u
    by_cases hu : u = t
    · subst hu
      rwa [Config.set_loc_self]
    · rw [Config.set_loc_of_ne hu]
      exact (hE.alone t ht u).2
  have hnoWrite : ∀ u, inWrite ((c.set t s x).loc u) = false := by
    intro u
    by_cases hu : u = t
    · subst hu
      rwa [Config.set_loc_self]
    · rw [Config.set_loc_of_ne hu]
      by_contra hin
      exact hu ((hE.alone t ht u).1 (by simpa using hin))
  constructor
  · have hcount := hC.activeReaders
    rw [count_eq_zero_iff.mpr hnoRead] at hcount
    exact hcount
  · have hcount := hC.activeWriter
    rw [count_eq_zero_iff.mpr hnoWrite] at hcount
    exact hcount

/-! ## Every run -/

section Run

variable {c : Config ι (Shared ι × Marks ι) Thread}

/-- The marks are right: a thread between its look at the counters and what it does on the
strength of it, and an event that is signalled, stand for counters that are zero, unless
somebody has entered since. -/
structure Justified (c : Config ι (Shared ι × Marks ι) Thread) : Prop where
  thread : ∀ u, Vouches c.shared.1 (c.shared.2.thread u) (goesByReaders (c.loc u))
    (goesByWriter (c.loc u))
  canRead : c.shared.1.canRead = true → Vouches c.shared.1 c.shared.2.canRead false true
  canWrite : c.shared.1.canWrite = true → Vouches c.shared.1 c.shared.2.canWrite true true

omit [Fintype ι] [DecidableEq ι] in
/-- An entry on a mark that vouches is free. -/
theorem Justified.entersFree (hJ : Justified c) {a : ι × Event} (h : EntersFresh c a) :
    EntersFree (plain c) a := by
  intro hrun
  have hmark := hJ.thread a.1
  constructor
  · intro hloc
    have hloc : c.loc a.1 = .writer .incActive := hloc
    obtain ⟨hr, hw⟩ := (h hrun).1 hloc
    rw [hloc] at hmark
    exact ⟨hmark.1 rfl hr, hmark.2 rfl hw⟩
  · intro hloc
    have hloc : c.loc a.1 = .reader .incActive := hloc
    rw [hloc] at hmark
    exact hmark.2 rfl ((h hrun).2 hloc)

theorem Justified.step (hJ : Justified c) (hE : Exclusive (plain c)) {t : ι} {e : Event}
    {s : Shared ι} {x : Thread} (h : threadStep t e c.shared.1 (c.loc t) = some (s, x)) :
    Justified (c.set t (s, c.shared.2.event t (c.loc t) e) x) := by
  cases e with
  | ctrlC =>
    cases h
    refine ⟨?_, hJ.canRead, hJ.canWrite⟩
    intro u
    show Vouches c.shared.1 (c.shared.2.thread u) _ _
    rw [Config.set_loc, Function.update_eq_self]
    exact hJ.thread u
  | run =>
    have hC : Counters ((plain c).set t s x) := hE.counters.step h
    have hpos : 0 ≤ s.activeReaders ∧ 0 ≤ s.activeWriter := by
      have hr : s.activeReaders = _ := hC.activeReaders
      have hw : s.activeWriter = _ := hC.activeWriter
      omega
    have hown := hJ.thread t
    refine ⟨?_, hown.onCanRead hJ.canRead hpos h, hown.onCanWrite hJ.canWrite hpos h⟩
    intro u
    by_cases hu : u = t
    · subst hu
      rw [Config.set_loc_self]
      show Vouches s ((c.shared.2.step u (c.loc u)).thread u) _ _
      rw [Marks.step_thread_self]
      refine hown.own hJ.canRead hJ.canWrite ?_ h
      intro hx
      have hin : inWrite (c.loc u) = true := by rw [hx]; rfl
      rw [hx] at h
      cases h
      exact hE.leaves hC hin rfl rfl
    · rw [Config.set_loc_of_ne hu]
      show Vouches s ((c.shared.2.step t (c.loc t)).thread u) _ _
      rw [Marks.step_thread_of_ne hu]
      exact (hJ.thread u).after hpos h

omit [Fintype ι] [DecidableEq ι] in
theorem justified_initial (role : ι → Role) : Justified (trackedInitial role) := by
  refine ⟨?_, (fun h => by cases h), (fun h => by cases h)⟩
  intro u
  show Vouches _ _ (goesByReaders (role u).start) (goesByWriter (role u).start)
  cases role u <;> exact vouches_nothing _ _

/-- **Exclusion.** In a run in which nobody enters on a look at the counters that another
thread's entry has outdated, a writer inside is alone: no other writer and no reader is
inside. -/
theorem guarded_exclusion {role : ι → Role}
    (h : (tracked ι).ReachBy EntersFresh (trackedInitial role) c) {t : ι}
    (ht : inWrite (c.loc t) = true) (u : ι) :
    (inWrite (c.loc u) = true → u = t) ∧ inRead (c.loc u) = false := by
  have hinv : Exclusive (plain c) ∧ Justified c := by
    apply h.interleave_invariant ⟨exclusive_initial role, justified_initial role⟩
    rintro c t e s x ⟨hE, hJ⟩ hc hs
    obtain ⟨⟨s', x'⟩, hs', he⟩ := Option.map_eq_some_iff.mp hs
    cases he
    exact ⟨hE.step (hJ.entersFree hc) hs', hJ.step hE hs'⟩
  exact hinv.1.alone t ht u

end Run

/-- A reader and two writers. -/
def oneReader : Fin 3 → Role := ![.reader, .writer, .writer]

/-- The reader and the second writer wait while the first writer is inside; it lets the
reader in by `can_read`, and the reader lets the second writer in by `can_write`. -/
def handedOnRun {ι : Type} (r w w' : ι) : List (ι × Event) :=
  List.replicate 7 (w, .run) ++ List.replicate 4 (r, .run) ++ List.replicate 5 (w', .run) ++
    List.replicate 8 (w, .run) ++ List.replicate 10 (r, .run) ++ List.replicate 3 (w', .run)

theorem guarded_exclusion_handed_on :
    ∃ c : Config (Fin 3) (Shared (Fin 3) × Marks (Fin 3)) Thread,
      (tracked (Fin 3)).ReachBy EntersFresh (trackedInitial oneReader) c ∧
        inWrite (c.loc 2) = true ∧ c.shared.1.buf = 'b' ∧
        ∀ u, (inWrite (c.loc u) = true → u = 2) ∧ inRead (c.loc u) = false := by
  have hrun : ((tracked (Fin 3)).exec EntersFresh (trackedInitial oneReader)
      (handedOnRun 0 1 2)).any (fun c => inWrite (c.loc 2) && c.shared.1.buf = 'b') = true := by
    decide +kernel
  obtain ⟨c, hc, hp⟩ := Machine.exists_reachBy_of_exec _ _ hrun
  simp only [Bool.and_eq_true, decide_eq_true_eq] at hp
  exact ⟨c, hc, hp.1, hp.2, guarded_exclusion hc hp.1⟩

/-- Both writers find the counters zero before either raises `active_writer`. -/
def bothTestRun {ι : Type} (w w' : ι) : List (ι × Event) :=
  List.replicate 5 (w, .run) ++ List.replicate 7 (w', .run) ++ List.replicate 2 (w, .run)

/-- Two writers are between `start_write` and `stop_write`. -/
theorem two_writers_inside : ¬ ∀ c : Config (Fin 3) (Shared (Fin 3)) Thread,
    (program (Fin 3)).Reach (initial oneReader) c → ∀ t, inWrite (c.loc t) = true →
      ∀ u, (inWrite (c.loc u) = true → u = t) ∧ inRead (c.loc u) = false := by
  intro h
  have hrun : ((program (Fin 3)).run (initial oneReader) (bothTestRun 1 2)).any
      (fun c => c.loc 1 = .writer .test && c.loc 2 = .writer .test) = true := by decide +kernel
  obtain ⟨c, hc, hp⟩ := Machine.exists_reach_of_run _ _ hrun
  simp only [Bool.and_eq_true, decide_eq_true_eq] at hp
  have h1 : inWrite (c.loc 1) = true := by rw [hp.1]; rfl
  have h2 : inWrite (c.loc 2) = true := by rw [hp.2]; rfl
  exact absurd ((h c hc 1 h1 2).1 h2) (by decide)

end OsLabs.Winwr
