import OsLabs.Concurrent.Simulation
import OsLabs.Concurrent.SysV
import OsLabs.Concurrent.Count

/-!
# The monitor of readers and writers, and its encodings in semaphores

The abstract monitor knows only who is inside: how many reads and how many writes each
process has started and not stopped. A read may start when nobody writes, a write when
nobody is inside, and a process stops what it has started.

An `Encoding` writes the four calls as arrays of semaphore operations. It is faithful
when its values are a function `rep` of what the processes together are inside, and each
array is applied exactly when the monitor lets the call through; its system then simulates
the monitor (`Faithful.simulates`). A program over its arrays has only to say where its
processes stand (`Place`) and which call a step makes (`Moves`): the values then follow the
monitor in every run (`Represents`).
-/

namespace OsLabs.Concurrent.ReadersWriters

open Machine

/-- The calls of the monitor. -/
inductive Call
  | startRead
  | stopRead
  | startWrite
  | stopWrite
deriving DecidableEq, Repr

/-- The reads and the writes started and not stopped, by one process or by all of them. -/
@[ext] structure Inside where
  reads : ℕ
  writes : ℕ
deriving DecidableEq, Repr

namespace Inside

/-- What is inside after a call; there is no stop without a start. -/
def after (i : Inside) : Call → Option Inside
  | .startRead => some { i with reads := i.reads + 1 }
  | .stopRead => if 0 < i.reads then some { i with reads := i.reads - 1 } else none
  | .startWrite => some { i with writes := i.writes + 1 }
  | .stopWrite => if 0 < i.writes then some { i with writes := i.writes - 1 } else none

/-- The monitor lets the call through. -/
def admits (m : Inside) : Call → Bool
  | .startRead => m.writes == 0
  | .startWrite => m.reads == 0 && m.writes == 0
  | .stopRead | .stopWrite => true

/-- The monitor lets the call through and goes on to `m'`. -/
def Steps (m : Inside) (a : Call) (m' : Inside) : Prop := m.admits a = true ∧ m.after a = some m'

@[simp] theorem steps_startRead {m m' : Inside} :
    m.Steps .startRead m' ↔ m.writes = 0 ∧ m' = ⟨m.reads + 1, m.writes⟩ := by
  simp [Steps, admits, after, @eq_comm _ m']

@[simp] theorem steps_stopRead {m m' : Inside} :
    m.Steps .stopRead m' ↔ 0 < m.reads ∧ m' = ⟨m.reads - 1, m.writes⟩ := by
  simp [Steps, admits, after, @eq_comm _ m']

@[simp] theorem steps_startWrite {m m' : Inside} :
    m.Steps .startWrite m' ↔ (m.reads = 0 ∧ m.writes = 0) ∧ m' = ⟨m.reads, m.writes + 1⟩ := by
  simp [Steps, admits, after, @eq_comm _ m']

@[simp] theorem steps_stopWrite {m m' : Inside} :
    m.Steps .stopWrite m' ↔ 0 < m.writes ∧ m' = ⟨m.reads, m.writes - 1⟩ := by
  simp [Steps, admits, after, @eq_comm _ m']

/-- One writer at most, and readers only without it. -/
def Safe (m : Inside) : Prop := m.writes ≤ 1 ∧ (m.writes = 0 ∨ m.reads = 0)

theorem Safe.step {m m' : Inside} {a : Call} (h : m.Safe) (ha : m.Steps a m') : m'.Safe := by
  obtain ⟨h1, h2⟩ := h
  rcases a with _ | _ | _ | _
  · obtain ⟨hw, rfl⟩ := steps_startRead.mp ha
    exact ⟨h1, Or.inl hw⟩
  · obtain ⟨_, rfl⟩ := steps_stopRead.mp ha
    exact ⟨h1, by simp only; omega⟩
  · obtain ⟨⟨hr, hw⟩, rfl⟩ := steps_startWrite.mp ha
    exact ⟨by simp only; omega, Or.inr hr⟩
  · obtain ⟨_, rfl⟩ := steps_stopWrite.mp ha
    exact ⟨by simp only; omega, Or.inl (by simp only; omega)⟩

end Inside

/-! ## What all processes together are inside -/

section Total

variable {ι : Type*} [Fintype ι]

/-- The reads and the writes of all processes. -/
def total (loc : ι → Inside) : Inside := ⟨∑ t, (loc t).reads, ∑ t, (loc t).writes⟩

theorem reads_le_total (loc : ι → Inside) (t : ι) : (loc t).reads ≤ (total loc).reads :=
  Finset.single_le_sum (fun u _ => Nat.zero_le (loc u).reads) (Finset.mem_univ t)

theorem writes_le_total (loc : ι → Inside) (t : ι) : (loc t).writes ≤ (total loc).writes :=
  Finset.single_le_sum (fun u _ => Nat.zero_le (loc u).writes) (Finset.mem_univ t)

theorem total_update_reads [DecidableEq ι] (loc : ι → Inside) (t : ι) (i : Inside) :
    (total (Function.update loc t i)).reads + (loc t).reads = (total loc).reads + i.reads :=
  sum_update Inside.reads loc t i

theorem total_update_writes [DecidableEq ι] (loc : ι → Inside) (t : ι) (i : Inside) :
    (total (Function.update loc t i)).writes + (loc t).writes = (total loc).writes + i.writes :=
  sum_update Inside.writes loc t i

/-- A call of one process is the same call for all of them together. -/
theorem after_total [DecidableEq ι] (loc : ι → Inside) {t : ι} {a : Call} {i : Inside}
    (h : (loc t).after a = some i) :
    (total loc).after a = some (total (Function.update loc t i)) := by
  have hr := total_update_reads loc t i
  have hw := total_update_writes loc t i
  have hrt := reads_le_total loc t
  have hwt := writes_le_total loc t
  rcases a with _ | _ | _ | _ <;> simp only [Inside.after, Option.some.injEq,
    Option.ite_none_right_eq_some] at h ⊢
  · subst h
    simp only at hr hw
    ext <;> simp only <;> omega
  · obtain ⟨hpos, rfl⟩ := h
    simp only at hr hw
    refine ⟨by omega, ?_⟩
    ext <;> simp only <;> omega
  · subst h
    simp only at hr hw
    ext <;> simp only <;> omega
  · obtain ⟨hpos, rfl⟩ := h
    simp only at hr hw
    refine ⟨by omega, ?_⟩
    ext <;> simp only <;> omega

/-- Where one writer at most is inside, it is one process. -/
theorem eq_of_writes {loc : ι → Inside} (h : (total loc).writes ≤ 1) {t u : ι}
    (ht : 0 < (loc t).writes) (hu : 0 < (loc u).writes) : t = u := by
  classical
  by_contra hne
  have hrest := writes_le_total (Function.update loc t ⟨0, 0⟩) u
  have hsum := total_update_writes loc t ⟨0, 0⟩
  rw [Function.update_of_ne (Ne.symm hne)] at hrest
  simp only at hsum
  omega

/-- Beside a writer nobody reads. -/
theorem reads_eq_zero_of_writes {loc : ι → Inside} (h : (total loc).Safe) {t : ι}
    (ht : 0 < (loc t).writes) (u : ι) : (loc u).reads = 0 := by
  have hwrites := writes_le_total loc t
  have hreads := reads_le_total loc u
  rcases h.2 with hzero | hzero
  · omega
  · omega

theorem total_zero : total (fun _ : ι => ⟨0, 0⟩) = ⟨0, 0⟩ := by
  simp [total]

theorem safe_zero : (total (fun _ : ι => ⟨0, 0⟩)).Safe := by
  rw [total_zero]
  exact ⟨Nat.zero_le 1, Or.inl rfl⟩

end Total

/-! ## Where a process stands -/

/-- A process is outside, or in a section, where it may sleep in the call that ends it. -/
inductive Place
  | outside
  | reading (stopSleeps : Bool)
  | writing (stopSleeps : Bool)
deriving DecidableEq, Repr

namespace Place

/-- Between `start_read` and `stop_read`. -/
def inRead : Place → Bool
  | .reading _ => true
  | _ => false

/-- Between `start_write` and `stop_write`. -/
def inWrite : Place → Bool
  | .writing _ => true
  | _ => false

/-- In the call that ends a section, asleep. -/
def stopSleeps : Place → Bool
  | .outside => false
  | .reading b | .writing b => b

/-- What the process is inside. -/
def inside (p : Place) : Inside := ⟨p.inRead.toNat, p.inWrite.toNat⟩

theorem reads_pos {p : Place} : 0 < p.inside.reads ↔ p.inRead = true := by
  cases p with
  | reading => exact iff_of_true Nat.one_pos rfl
  | outside | writing => exact iff_of_false (Nat.lt_irrefl 0) nofun

theorem writes_pos {p : Place} : 0 < p.inside.writes ↔ p.inWrite = true := by
  cases p with
  | writing => exact iff_of_true Nat.one_pos rfl
  | outside | reading => exact iff_of_false (Nat.lt_irrefl 0) nofun

theorem after_stopRead {p : Place} (h : p.inRead = true) :
    p.inside.after .stopRead = some ⟨0, 0⟩ := by
  cases p with
  | reading => rfl
  | outside | writing => cases h

theorem after_stopWrite {p : Place} (h : p.inWrite = true) :
    p.inside.after .stopWrite = some ⟨0, 0⟩ := by
  cases p with
  | writing => rfl
  | outside | reading => cases h

end Place

section InsideOf

variable {ι l : Type*}

/-- Who is inside, with `f` for what a process is inside at its point. -/
def insideOf (f : l → Inside) (loc : ι → l) : ι → Inside := fun t => f (loc t)

theorem insideOf_update [DecidableEq ι] (f : l → Inside) (loc : ι → l) (t : ι) (x : l) :
    insideOf f (Function.update loc t x) = Function.update (insideOf f loc) t (f x) := by
  funext u
  by_cases hu : u = t
  · subst hu
    simp [insideOf]
  · simp [insideOf, hu]

theorem insideOf_set [DecidableEq ι] {σ : Type*} (f : l → Inside) (c : Config ι σ l) (t : ι)
    (s : σ) (x : l) :
    insideOf f (c.set t s x).loc = Function.update (insideOf f c.loc) t (f x) :=
  insideOf_update f c.loc t x

end InsideOf

/-! ## The monitor -/

section Monitor

variable {ι : Type*} [Fintype ι] [DecidableEq ι]

/-- The abstract monitor: its state is who is inside. -/
def monitor (ι : Type*) [Fintype ι] [DecidableEq ι] : Machine (ι → Inside) (ι × Call) where
  next loc a :=
    if (total loc).admits a.2 then ((loc a.1).after a.2).map (Function.update loc a.1) else none

theorem monitor_next {loc loc' : ι → Inside} {t : ι} {a : Call} :
    (monitor ι).next loc (t, a) = some loc' ↔
      (total loc).admits a = true ∧ ∃ i, (loc t).after a = some i ∧
        Function.update loc t i = loc' := by
  simp only [monitor, Option.ite_none_right_eq_some, Option.map_eq_some_iff]

theorem safe_of_next {loc loc' : ι → Inside} {a : ι × Call} (h : (total loc).Safe)
    (hn : (monitor ι).next loc a = some loc') : (total loc').Safe := by
  obtain ⟨ha, i, hi, rfl⟩ := monitor_next.mp hn
  exact h.step ⟨ha, after_total loc hi⟩

end Monitor

/-! ## Encodings -/

/-- An encoding of the monitor in the semaphores `κ`: their initial values and the array
of each call. -/
structure Encoding (κ : Type*) where
  init : κ → ℕ
  ops : Call → List (SemBuf κ)

section Encoding

variable {κ : Type*} [DecidableEq κ] {E : Encoding κ} {rep : Inside → κ → ℕ}

/-- The values are a function of what is inside, and the arrays follow the monitor. -/
structure Encoding.Faithful (E : Encoding κ) (rep : Inside → κ → ℕ) : Prop where
  init : E.init = rep ⟨0, 0⟩
  call : ∀ m : Inside, m.writes ≤ 1 → ∀ a w, semop (rep m) (E.ops a) = some w ↔
    ∃ m', m.Steps a m' ∧ w = rep m'

/-- Processes that call the arrays of the encoding; each stops only what it has started. -/
def Encoding.system (E : Encoding κ) (ι : Type*) [DecidableEq ι] :
    Machine (Config ι (κ → ℕ) Inside) (ι × Call) :=
  interleave fun _ a v i =>
    (i.after a).bind fun i' => (semop v (E.ops a)).map fun w => (w, i')

/-- Nobody is inside, and the semaphores have their initial values. -/
def Encoding.start (E : Encoding κ) (ι : Type*) : Config ι (κ → ℕ) Inside :=
  ⟨E.init, fun _ => ⟨0, 0⟩⟩

namespace Encoding.Faithful

variable {ι : Type*} [Fintype ι]

/-- The configuration of the encoding for the processes inside. -/
def config (rep : Inside → κ → ℕ) (loc : ι → Inside) : Config ι (κ → ℕ) Inside :=
  ⟨rep (total loc), loc⟩

theorem config_start (h : E.Faithful rep) : config rep (fun _ : ι => ⟨0, 0⟩) = E.start ι := by
  rw [config, total_zero, Encoding.start, h.init]

theorem semop_eq (h : E.Faithful rep) {m m' : Inside} {a : Call} (hm : m.writes ≤ 1)
    (hafter : m.after a = some m') :
    semop (rep m) (E.ops a) = if m.admits a = true then some (rep m') else none := by
  apply Option.ext
  intro w
  rw [h.call m hm]
  unfold Inside.Steps
  rw [hafter]
  split_ifs with ha <;> simp [ha, eq_comm]

/-- A read cannot start exactly where a writer is inside. -/
theorem startRead_waits (h : E.Faithful rep) {m : Inside} (hm : m.Safe) :
    semop (rep m) (E.ops .startRead) = none ↔ 0 < m.writes := by
  have hafter : m.after .startRead = some ⟨m.reads + 1, m.writes⟩ := rfl
  rw [h.semop_eq hm.1 hafter]
  simp [Inside.admits, Nat.pos_iff_ne_zero]

/-- A write cannot start exactly where somebody is inside. -/
theorem startWrite_waits (h : E.Faithful rep) {m : Inside} (hm : m.Safe) :
    semop (rep m) (E.ops .startWrite) = none ↔ 0 < m.reads ∨ 0 < m.writes := by
  have hafter : m.after .startWrite = some ⟨m.reads, m.writes + 1⟩ := rfl
  rw [h.semop_eq hm.1 hafter]
  simp [Inside.admits, Nat.pos_iff_ne_zero]
  omega

/-- A faithful encoding simulates the monitor, step by step and in both directions. -/
theorem simulates [DecidableEq ι] (h : E.Faithful rep) :
    Simulates (E.system ι) (monitor ι) (config rep) fun loc => (total loc).Safe where
  next := by
    rintro loc ⟨t, a⟩ hsafe
    simp only [system, interleave, config, monitor]
    cases hi : (loc t).after a with
    | none => simp
    | some i =>
      simp only [Option.bind_some, h.semop_eq hsafe.1 (after_total loc hi)]
      split_ifs with ha
      · rfl
      · rfl
  keeps _ _ _ hsafe hn := safe_of_next hsafe hn

theorem outcomes_eq [DecidableEq ι] (h : E.Faithful rep) (as : List (ι × Call)) :
    (E.system ι).outcomes (E.start ι) as = (monitor ι).outcomes (fun _ => ⟨0, 0⟩) as := by
  rw [← h.config_start]
  exact h.simulates.outcomes_eq safe_zero as

theorem run_eq [DecidableEq ι] (h : E.Faithful rep) (as : List (ι × Call)) :
    (E.system ι).run (E.start ι) as =
      ((monitor ι).run (fun _ => ⟨0, 0⟩) as).map (config rep) := by
  rw [← h.config_start]
  exact h.simulates.run_eq safe_zero as

end Encoding.Faithful

/-! ## Programs over the semaphores -/

/-- What a step of a process is for the monitor: nothing, or a call that goes through. -/
def Encoding.Moves (E : Encoding κ) (v : κ → ℕ) (i : Inside) (v' : κ → ℕ) (i' : Inside) : Prop :=
  (v' = v ∧ i' = i) ∨ ∃ a, semop v (E.ops a) = some v' ∧ i.after a = some i'

/-- The values are those for who is inside, and the writers exclude each other and the
readers. -/
structure Represents {ι : Type*} [Fintype ι] (rep : Inside → κ → ℕ) (v : κ → ℕ) (loc : ι → Inside) :
    Prop where
  sem : v = rep (total loc)
  safe : (total loc).Safe

namespace Encoding.Faithful

variable {ι : Type*} [Fintype ι] {v v' : κ → ℕ} {loc : ι → Inside} {t : ι} {a : Call} {i : Inside}

theorem represents_init (h : E.Faithful rep) : Represents rep E.init (fun _ : ι => ⟨0, 0⟩) where
  sem := by
    rw [total_zero]
    exact h.init
  safe := safe_zero

theorem represents_call [DecidableEq ι] (h : E.Faithful rep) (hR : Represents rep v loc)
    (hsem : semop v (E.ops a) = some v') (hafter : (loc t).after a = some i) :
    Represents rep v' (Function.update loc t i) := by
  rw [hR.sem] at hsem
  obtain ⟨m, hstep, hrep⟩ := (h.call _ hR.safe.1 a v').mp hsem
  obtain rfl : m = total (Function.update loc t i) :=
    Option.some.inj (hstep.2.symm.trans (after_total loc hafter))
  exact ⟨hrep, hR.safe.step hstep⟩

theorem represents_move [DecidableEq ι] (h : E.Faithful rep) (hR : Represents rep v loc)
    (hm : E.Moves v (loc t) v' i) : Represents rep v' (Function.update loc t i) := by
  rcases hm with ⟨rfl, rfl⟩ | ⟨a, hsem, hafter⟩
  · rwa [Function.update_eq_self]
  · exact h.represents_call hR hsem hafter

/-- Who is inside finds its semaphore positive: the call that ends the section goes on. -/
theorem stop_goes_on (h : E.Faithful rep) (hR : Represents rep v loc)
    (ha : a = .stopRead ∨ a = .stopWrite) (hi : (loc t).after a = some i) :
    semop v (E.ops a) ≠ none := by
  classical
  rw [hR.sem, h.semop_eq hR.safe.1 (after_total loc hi)]
  rcases ha with rfl | rfl
  · exact nofun
  · exact nofun

/-- A call to start that waits, waits for somebody inside. -/
theorem exists_inside (h : E.Faithful rep) (hR : Represents rep v loc)
    (ha : a = .startRead ∨ a = .startWrite) (hnone : semop v (E.ops a) = none) :
    ∃ u, 0 < (loc u).reads ∨ 0 < (loc u).writes := by
  rw [hR.sem] at hnone
  have hpos : 0 < (total loc).reads ∨ 0 < (total loc).writes := by
    rcases ha with rfl | rfl
    · exact Or.inr ((h.startRead_waits hR.safe).mp hnone)
    · exact (h.startWrite_waits hR.safe).mp hnone
  rcases hpos with hpos | hpos
  · obtain ⟨u, -, hu⟩ := Finset.exists_ne_zero_of_sum_ne_zero (Nat.ne_of_gt hpos)
    exact ⟨u, Or.inl (Nat.pos_of_ne_zero hu)⟩
  · obtain ⟨u, -, hu⟩ := Finset.exists_ne_zero_of_sum_ne_zero (Nat.ne_of_gt hpos)
    exact ⟨u, Or.inr (Nat.pos_of_ne_zero hu)⟩

/-- A process that waits to start does not bring the others to a stop: it can go on itself, or
it waits for somebody inside. -/
theorem exists_running (h : E.Faithful rep) (hR : Represents rep v loc) {runs : ι → Prop}
    (hinside : ∀ u, 0 < (loc u).reads ∨ 0 < (loc u).writes → runs u)
    (ha : a = .startRead ∨ a = .startWrite) {t : ι}
    (hlet : semop v (E.ops a) ≠ none → runs t) : ∃ u, runs u := by
  by_cases hnone : semop v (E.ops a) = none
  · obtain ⟨u, hu⟩ := h.exists_inside hR ha hnone
    exact ⟨u, hinside u hu⟩
  · exact ⟨t, hlet hnone⟩

end Encoding.Faithful

end Encoding

end OsLabs.Concurrent.ReadersWriters
