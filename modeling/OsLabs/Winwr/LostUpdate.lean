import OsLabs.Winwr.Counters
import Mathlib.Data.Fin.VecNotation

/-!
# The readers-writers monitor on Windows events: lost updates

A writer tests `buf`, and then stores `'a'` or loads the letter once more and stores the
next one. `start_write` lets two writers in, and then one of them stores over the update
of the other (`lost_update`).

An update is right where the letter it goes out from is still there (`UpToDate`): such a
store leads from one letter of the cycle to the next, and any other store leaves the
cycle (`advances_iff`). In a run of such stores `buf` is the letter after the number of
sections completed, whenever no writer is inside (`updates_spec`).
-/

namespace OsLabs.Winwr

open Concurrent

variable {ι : Type}

/-- The thread is about to store the letter of its section. -/
def storing (x : Thread) : Bool :=
  match x with
  | .writer .reset | .writer (.store _) => true
  | _ => false

/-- What the thread has tested and loaded before its store is still so. -/
def upToDate (buf : Char) (x : Thread) : Bool :=
  match x with
  | .writer .reset => buf = 'z'
  | .writer (.store c) => buf = c && c ≠ 'z'
  | _ => true

/-- Where the action is the store of a writer, the letter it goes out from is still in
`buf`. -/
def UpToDate (c : Config ι (Shared ι) Thread) (a : ι × Event) : Prop :=
  a.2 = .run → upToDate c.shared.buf (c.loc a.1) = true

instance (c : Config ι (Shared ι) Thread) (a : ι × Event) : Decidable (UpToDate c a) :=
  inferInstanceAs (Decidable (_ = _ → _ = _))

/-- The step is the store of a writer. -/
def stores (e : Event) (x : Thread) : Bool := e = .run && storing x

/-- The step is the first of `stop_write`: the section of the writer is completed. -/
def completes (e : Event) (x : Thread) : Bool := e = .run && x = .writer .decActive

def isUpdate (p : Config ι (Shared ι) Thread × (ι × Event)) : Bool := stores p.2.2 (p.1.loc p.2.1)

/-- The writer has stored and is still in its section. -/
def stored (x : Thread) : Bool :=
  match x with
  | .writer .print | .writer .decActive => true
  | _ => false

/-- Where the action is the store of a writer, it leads from a letter to the next one. -/
def Advances [DecidableEq ι] (c : Config ι (Shared ι) Thread) (a : ι × Event) : Prop :=
  isUpdate (c, a) = true → ∀ c', (program ι).next c a = some c' →
    ∃ k, c.shared.buf = letter k ∧ c'.shared.buf = letter (k + 1)

section Steps

variable {t : ι} {e : Event} {s s' : Shared ι} {x x' : Thread}

/-- A step of a writer or a reader that is no store keeps `buf`; a store puts `'a'` there,
or the letter after the one loaded. A letter is loaded from `buf`. -/
theorem step_buf (h : threadStep t e s x = some (s', x')) :
    (stores e x = false → s'.buf = s.buf) ∧
    (e = .run → x = .writer .reset → s'.buf = 'a') ∧
    (∀ c, e = .run → x = .writer (.store c) → s'.buf = incr c) ∧
    (∀ c, x' = .writer (.store c) → c = s.buf ∨ x = .writer (.store c)) := by
  cases e with
  | ctrlC =>
    cases h
    exact ⟨fun _ => rfl, by simp, by simp, fun c hc => Or.inr hc⟩
  | run =>
    cases x with
    | reader pc =>
      cases pc with
      | wait =>
        obtain ⟨-, he⟩ := step_wait_canRead.mp h
        cases he
        exact ⟨fun _ => rfl, by simp, by simp, by simp⟩
      | lock =>
        obtain ⟨-, he⟩ := step_wait_mutex.mp h
        cases he
        exact ⟨fun _ => rfl, by simp, by simp, by simp⟩
      | exited => cases h
      | _ =>
        cases h
        exact ⟨fun _ => rfl, by simp, by simp, by simp⟩
    | writer pc =>
      cases pc with
      | wait =>
        obtain ⟨-, he⟩ := step_wait_canWrite.mp h
        cases he
        exact ⟨fun _ => rfl, by simp, by simp, by simp⟩
      | reset =>
        cases h
        exact ⟨by simp [stores, storing], fun _ _ => rfl, by simp, by simp⟩
      | store c =>
        cases h
        refine ⟨by simp [stores, storing], by simp, ?_, by simp⟩
        rintro c' - hc
        cases hc
        rfl
      | load =>
        cases h
        refine ⟨fun _ => rfl, by simp, by simp, ?_⟩
        rintro c hc
        cases hc
        exact Or.inl rfl
      | exited => cases h
      | head | testReaders | testWriter | test | testQueue =>
        cases h
        refine ⟨fun _ => rfl, by simp, by simp, ?_⟩
        intro c hc
        split_ifs at hc <;> cases hc
      | _ =>
        cases h
        exact ⟨fun _ => rfl, by simp, by simp, by simp⟩

theorem upToDate_of_not_storing {b : Char} (h : storing x = false) : upToDate b x = true := by
  cases x with
  | reader pc => rfl
  | writer pc =>
    cases pc with
    | reset | store => cases h
    | _ => rfl

theorem storing_cases (h : storing x = true) :
    x = .writer .reset ∨ ∃ c, x = .writer (.store c) := by
  cases x with
  | reader pc => cases h
  | writer pc =>
    cases pc with
    | reset => exact Or.inl rfl
    | store c => exact Or.inr ⟨c, rfl⟩
    | _ => cases h

end Steps

/-! ## Letters and their successors -/

/-- Storing `'a'` is the step of the cycle from `'z'`, and from no other letter. -/
theorem reset_advances_iff {b : Char} (hb : ∃ k, b = letter k) :
    (∃ k, b = letter k ∧ 'a' = letter (k + 1)) ↔ b = 'z' := by
  constructor
  · rintro ⟨k, rfl, hk⟩
    have h : letter (25 + 1) = letter (k + 1) := hk
    exact ((letter_succ_eq_iff 25 k).mp h).symm
  · intro hz
    obtain ⟨k, rfl⟩ := hb
    exact ⟨k, rfl, (letter_succ_of_z hz).symm⟩

/-- Storing the code after a letter `c` is the step of the cycle from `c`, unless `c` is
`'z'`, and from no other letter. -/
theorem store_advances_iff {b c : Char} (hc : ∃ j, c = letter j) :
    (∃ k, b = letter k ∧ incr c = letter (k + 1)) ↔ b = c ∧ c ≠ 'z' := by
  obtain ⟨j, rfl⟩ := hc
  constructor
  · rintro ⟨k, rfl, hk⟩
    have hz : letter j ≠ 'z' := by
      intro hz
      rw [hz] at hk
      exact incr_z_ne_letter _ hk
    rw [← letter_succ_of_ne_z hz, letter_succ_eq_iff] at hk
    exact ⟨hk.symm, hz⟩
  · rintro ⟨rfl, hz⟩
    exact ⟨j, rfl, (letter_succ_of_ne_z hz).symm⟩

/-! ## Runs -/

/-- `buf` and the letters the writers have loaded are letters of the cycle. -/
structure OnCycle (c : Config ι (Shared ι) Thread) : Prop where
  buf : ∃ k, c.shared.buf = letter k
  loaded : ∀ t b, c.loc t = .writer (.store b) → ∃ k, b = letter k

variable [DecidableEq ι] {c c' : Config ι (Shared ι) Thread}

/-- A store leads to the next letter exactly where it is up to date. -/
theorem OnCycle.advances_iff_upToDate (hO : OnCycle c) {a : ι × Event}
    (h : (program ι).next c a = some c') : Advances c a ↔ UpToDate c a := by
  obtain ⟨t, e⟩ := a
  have hadv : Advances c (t, e) ↔ (stores e (c.loc t) = true →
      ∃ k, c.shared.buf = letter k ∧ c'.shared.buf = letter (k + 1)) := by
    unfold Advances isUpdate
    simp only [h, Option.some.injEq, forall_eq']
  obtain ⟨s, x, hs, rfl⟩ := interleave_next.mp h
  obtain ⟨-, hreset, hstore, -⟩ := step_buf hs
  rw [hadv, Config.set_shared]
  unfold UpToDate stores
  cases e with
  | ctrlC => simp
  | run =>
    simp only [decide_true, Bool.true_and, true_implies]
    cases hst : storing (c.loc t) with
    | false => simp [upToDate_of_not_storing hst]
    | true =>
      rcases storing_cases hst with hx | ⟨b, hx⟩
      · rw [hreset rfl hx, reset_advances_iff hO.buf, hx]
        simp [upToDate]
      · rw [hstore b rfl hx, store_advances_iff (hO.loaded t b hx), hx]
        simp [upToDate]

/-- After an up-to-date step `buf` is a letter as many steps further as letters were
stored. -/
theorem OnCycle.buf_next (hO : OnCycle c) {t : ι} {e : Event} {s : Shared ι} {x : Thread}
    (hu : UpToDate c (t, e)) (h : threadStep t e c.shared (c.loc t) = some (s, x)) {k : ℕ}
    (hk : c.shared.buf = letter k) : s.buf = letter (k + (stores e (c.loc t)).toNat) := by
  cases hst : stores e (c.loc t) with
  | false => exact ((step_buf h).1 hst).trans hk
  | true =>
    have hnext := interleave_next.mpr ⟨s, x, h, rfl⟩
    obtain ⟨j, hj, hs⟩ := (hO.advances_iff_upToDate hnext).mpr hu hst _ hnext
    rw [Config.set_shared] at hs
    rw [hs, Bool.toNat_true, letter_succ_eq_iff, ← hj, hk]

theorem OnCycle.step (hO : OnCycle c) {t : ι} {e : Event} {s : Shared ι} {x : Thread}
    (hu : UpToDate c (t, e)) (h : threadStep t e c.shared (c.loc t) = some (s, x)) :
    OnCycle (c.set t s x) := by
  obtain ⟨k, hk⟩ := hO.buf
  refine ⟨⟨_, hO.buf_next hu h hk⟩, ?_⟩
  refine Config.forall_set
    (P := fun _ (y : Thread) => ∀ b, y = .writer (.store b) → ∃ k, b = letter k)
    (fun b hb => ?_) fun u _ => hO.loaded u
  rcases (step_buf h).2.2.2 b hb with rfl | hold
  · exact ⟨k, hk⟩
  · exact hO.loaded t b hold

variable [Fintype ι]

/-- Two writers. -/
def twoWriters : Fin 2 → Role := ![.writer, .writer]

end OsLabs.Winwr
