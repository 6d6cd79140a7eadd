import OsLabs.Wr.Encodings

/-!
# The readers-writers monitor with `SEM_UNDO`: crash safety

The adjustments of a process are the exact inverse of what it holds at its point
(`heldBy`): nothing outside the sections, one reader or one writer inside. So a
termination at any point whatsoever is, for the semaphores, the end of the section its
process was in, and the values stay those of the abstract monitor for the living
processes (`crash_safety`).
-/

namespace OsLabs.TmpWr

open Concurrent Concurrent.ReadersWriters

/-! ## Sections -/

/-- Where the process stands. -/
def place (x : Process) : Place :=
  match x.pc with
  | .reader .read | .reader .stop => .reading false
  | .reader .stopSleep => .reading true
  | .writer .test | .writer .reset | .writer .load | .writer (.store _) | .writer .print
  | .writer .stop => .writing false
  | .writer .stopSleep => .writing true
  | _ => .outside

/-- The process is alive between `start_read` and `stop_read`. -/
def inRead (x : Process) : Bool := (place x).inRead

/-- The process is alive between `start_write` and `stop_write`. -/
def inWrite (x : Process) : Bool := (place x).inWrite

/-- The process sleeps in the call that ends a section. -/
def stopSleeps (x : Process) : Bool := (place x).stopSleeps

/-- The process has terminated. -/
def dead (x : Process) : Bool :=
  match x.pc with
  | .dead _ => true
  | _ => false

/-- What the process is inside, as the monitor sees it. -/
def sections (x : Process) : Inside := (place x).inside

/-- The adjustments that undo exactly what is inside. -/
def heldBy (i : Inside) : SemNum → ℤ
  | .cActiveR => -i.reads
  | .bSem => -i.writes
  | .bActiveW => i.writes
  | .cWaitingR | .cWaitingW => 0

/-- The arrays keep the adjustments the inverse of what is inside. -/
theorem adjust_heldBy {i i' : Inside} {a : Call} (h : i.after a = some i') :
    adjust (heldBy i) (encoding.ops a) = heldBy i' := by
  funext k
  rcases a with _ | _ | _ | _ <;> simp only [Inside.after, Option.some.injEq,
    Option.ite_none_right_eq_some] at h
  · subst h
    cases k <;> simp [encoding, semStartRead, adjust, heldBy, Function.update]
    omega
  · obtain ⟨_, rfl⟩ := h
    cases k <;> simp [encoding, semStopRead, adjust, heldBy, Function.update]
    omega
  · subst h
    cases k <;> simp [encoding, semStartWrite, adjust, heldBy, Function.update]
    omega
  · obtain ⟨_, rfl⟩ := h
    cases k <;> simp [encoding, semStopWrite, adjust, heldBy, Function.update]
    · omega
    · omega

/-- The end of a process takes it out of the values. -/
theorem undo_heldBy {m i : Inside} (hr : i.reads ≤ m.reads) (hw : i.writes ≤ m.writes)
    (hm : m.writes ≤ 1) :
    undo (rep m) (heldBy i) = rep ⟨m.reads - i.reads, m.writes - i.writes⟩ := by
  funext k
  cases k <;> simp only [undo, rep, heldBy] <;> omega

/-! ## One step -/

section Step

variable {s s' : Shared} {x x' : Process}

/-- The step leaves the semaphores and the section of its process as they are. -/
def Quiet (s : Shared) (x : Process) (s' : Shared) (x' : Process) : Prop :=
  s'.sem = s.sem ∧ x'.semadj = x.semadj ∧ sections x' = sections x

/-- The step applies an array, and its process enters or leaves a section. -/
def Called (a : Call) (s : Shared) (x : Process) (s' : Shared) (x' : Process) : Prop :=
  semop s.sem (encoding.ops a) = some s'.sem ∧ x'.semadj = adjust x.semadj (encoding.ops a) ∧
    (sections x).after a = some (sections x')

/-- The step is the end of its process. -/
def Ended (s : Shared) (x : Process) (s' : Shared) (x' : Process) : Prop :=
  s'.sem = undo s.sem x.semadj ∧ (x'.semadj = fun _ => 0) ∧ sections x' = ⟨0, 0⟩

theorem callSemop_cases {ops : List (SemBuf SemNum)} {next : PC} {asleep : Option PC}
    (h : callSemop s x ops next asleep = some (s', x')) :
    (semop s.sem ops = some s'.sem ∧ x' = { x with pc := next, semadj := adjust x.semadj ops }) ∨
      (semop s.sem ops = none ∧ s' = s ∧ ∃ pc, asleep = some pc ∧ x' = { x with pc := pc }) := by
  unfold callSemop at h
  cases hv : semop s.sem ops with
  | some v =>
    rw [hv] at h
    cases h
    exact Or.inl ⟨rfl, rfl⟩
  | none =>
    rw [hv] at h
    obtain ⟨pc, rfl, hpc⟩ := Option.map_eq_some_iff.mp h
    cases hpc
    exact Or.inr ⟨rfl, rfl, pc, rfl, rfl⟩

/-- What a step does to the semaphores: nothing, one of the four calls, or the end of its
process. -/
def Moved (s : Shared) (x : Process) (s' : Shared) (x' : Process) : Prop :=
  stopSleeps x' = false ∧ (Quiet s x s' x' ∨ (∃ a, Called a s x s' x') ∨ Ended s x s' x')

theorem moved_of_exit {how : End} (h : exit s x how = (s', x')) : Moved s x s' x' := by
  cases h
  exact ⟨rfl, Or.inr (Or.inr ⟨rfl, rfl, rfl⟩)⟩

theorem moved_of_quiet (hx : stopSleeps x' = false) (h : Quiet s x s' x') : Moved s x s' x' :=
  ⟨hx, Or.inl h⟩

theorem moved_of_start {a : Call} {next : PC} {asleep : Option PC}
    (h : callSemop s x (encoding.ops a) next asleep = some (s', x'))
    (hnext : (sections x).after a = some (sections { x with pc := next }) ∧
      stopSleeps { x with pc := next } = false)
    (hsleep : ∀ pc, asleep = some pc → sections { x with pc := pc } = sections x ∧
      stopSleeps { x with pc := pc } = false) : Moved s x s' x' := by
  rcases callSemop_cases h with ⟨hv, rfl⟩ | ⟨-, rfl, pc, hpc, rfl⟩
  · exact ⟨hnext.2, Or.inr (Or.inl ⟨a, hv, rfl, hnext.1⟩)⟩
  · exact ⟨(hsleep pc hpc).2, Or.inl ⟨rfl, rfl, (hsleep pc hpc).1⟩⟩

/-- A call that ends a section does not wait. -/
theorem moved_of_stop {a : Call} {next : PC} {asleep : Option PC}
    (h : callSemop s x (encoding.ops a) next asleep = some (s', x'))
    (hgo : semop s.sem (encoding.ops a) ≠ none)
    (hnext : (sections x).after a = some (sections { x with pc := next }) ∧
      stopSleeps { x with pc := next } = false) : Moved s x s' x' := by
  rcases callSemop_cases h with ⟨hv, rfl⟩ | ⟨hv, -⟩
  · exact ⟨hnext.2, Or.inr (Or.inl ⟨a, hv, rfl, hnext.1⟩)⟩
  · exact absurd hv hgo

theorem reader_moved {pc : ReaderPC} (hpc : x.pc = .reader pc)
    (hr : inRead x = true → semop s.sem semStopRead ≠ none)
    (h : reader s x pc = some (s', x')) : Moved s x s' x' := by
  obtain ⟨_, fl, adj⟩ := x
  subst hpc
  cases pc with
  | head =>
    cases fl with
    | true =>
      cases h
      exact moved_of_quiet rfl ⟨rfl, rfl, rfl⟩
    | false => exact moved_of_exit (Option.some.inj h)
  | sleep =>
    cases h
    exact moved_of_quiet rfl ⟨rfl, rfl, rfl⟩
  | start =>
    refine moved_of_start (a := .startRead) h ⟨rfl, rfl⟩ ?_
    rintro pc ⟨⟩
    exact ⟨rfl, rfl⟩
  | startSleep =>
    refine moved_of_start (a := .startRead) h ⟨rfl, rfl⟩ ?_
    rintro pc ⟨⟩
  | read =>
    cases h
    exact moved_of_quiet rfl ⟨rfl, rfl, rfl⟩
  | stop => exact moved_of_stop (a := .stopRead) h (hr rfl) ⟨rfl, rfl⟩
  | stopSleep => exact moved_of_stop (a := .stopRead) h (hr rfl) ⟨rfl, rfl⟩

theorem writer_moved {pc : WriterPC} (hpc : x.pc = .writer pc)
    (hw : inWrite x = true → semop s.sem semStopWrite ≠ none)
    (h : writer s x pc = some (s', x')) : Moved s x s' x' := by
  obtain ⟨_, fl, adj⟩ := x
  subst hpc
  cases pc with
  | head =>
    cases fl with
    | true =>
      cases h
      exact moved_of_quiet rfl ⟨rfl, rfl, rfl⟩
    | false => exact moved_of_exit (Option.some.inj h)
  | start =>
    refine moved_of_start (a := .startWrite) h ⟨rfl, rfl⟩ ?_
    rintro pc ⟨⟩
    exact ⟨rfl, rfl⟩
  | startSleep =>
    refine moved_of_start (a := .startWrite) h ⟨rfl, rfl⟩ ?_
    rintro pc ⟨⟩
  | test =>
    cases h
    by_cases hz : s.ch = 'z'
    · rw [if_pos hz]
      exact moved_of_quiet rfl ⟨rfl, rfl, rfl⟩
    · rw [if_neg hz]
      exact moved_of_quiet rfl ⟨rfl, rfl, rfl⟩
  | stop => exact moved_of_stop (a := .stopWrite) h (hw rfl) ⟨rfl, rfl⟩
  | stopSleep => exact moved_of_stop (a := .stopWrite) h (hw rfl) ⟨rfl, rfl⟩
  | sleep | reset | load | store c | print =>
    cases h
    exact moved_of_quiet rfl ⟨rfl, rfl, rfl⟩

theorem sigHandler_moved (hx : stopSleeps x = false) (h : sigHandler s x = (s', x')) :
    Moved s x s' x' := by
  unfold sigHandler at h
  split_ifs at h with ha
  · -- `EINTR`: the process terminates with the adjustments it has
    cases h
    exact ⟨rfl, Or.inr (Or.inr ⟨rfl, rfl, rfl⟩)⟩
  · cases h
    exact moved_of_quiet hx ⟨rfl, rfl, rfl⟩

/-- Every step is of one of these kinds where the calls that end a section do not wait. -/
theorem step_moved {ι : Type} {t : ι} {e : Event} (hx : stopSleeps x = false)
    (hr : inRead x = true → semop s.sem semStopRead ≠ none)
    (hw : inWrite x = true → semop s.sem semStopWrite ≠ none)
    (h : processStep t e s x = some (s', x')) : Moved s x s' x' := by
  unfold processStep at h
  split at h
  · cases h
  · exact sigHandler_moved hx (Option.some.inj h)
  · exact moved_of_exit (Option.some.inj h)
  · exact reader_moved ‹_› hr h
  · exact writer_moved ‹_› hw h

end Step

/-! ## The invariant -/

section Invariant

variable {ι : Type} [Fintype ι] {c : Config ι Shared Process}

structure Inv (c : Config ι Shared Process) : Prop
    extends Represents rep c.shared.sem (insideOf sections c.loc) where
  semadj : ∀ t, (c.loc t).semadj = heldBy (sections (c.loc t))
  awake : ∀ t, stopSleeps (c.loc t) = false

theorem inv_initial (role : ι → Role) : Inv (initial role) := by
  have hout : insideOf sections (initial role).loc = fun _ => ⟨0, 0⟩ := by
    funext t
    simp only [insideOf, initial]
    cases role t <;> rfl
  refine ⟨?_, fun t => ?_, fun t => ?_⟩
  · rw [hout]
    exact encoding_faithful.represents_init
  · have ht : sections ((initial role).loc t) = ⟨0, 0⟩ := congrFun hout t
    rw [ht]
    funext k
    cases k <;> rfl
  · simp only [initial]
    cases role t <;> rfl

variable [DecidableEq ι] {t : ι} {s : Shared} {x : Process}

/-- What a step of one process has to keep. -/
theorem Inv.set (hI : Inv c)
    (hR : Represents rep s.sem (Function.update (insideOf sections c.loc) t (sections x)))
    (hadj : x.semadj = heldBy (sections x)) (hawake : stopSleeps x = false) :
    Inv (c.set t s x) where
  toRepresents := by
    rw [insideOf_set]
    exact hR
  semadj := Config.forall_set (P := fun _ y => y.semadj = heldBy (sections y)) hadj
    fun u _ => hI.semadj u
  awake := Config.forall_set (P := fun _ y => stopSleeps y = false) hawake fun u _ => hI.awake u

theorem Inv.quiet (hI : Inv c) (hx : stopSleeps x = false)
    (h : Quiet c.shared (c.loc t) s x) : Inv (c.set t s x) := by
  obtain ⟨hsem, hadj, hsec⟩ := h
  refine hI.set (encoding_faithful.represents_move hI.toRepresents (Or.inl ⟨hsem, hsec⟩)) ?_ hx
  rw [hadj, hsec, hI.semadj]

theorem Inv.called (hI : Inv c) (hx : stopSleeps x = false) {a : Call}
    (h : Called a c.shared (c.loc t) s x) : Inv (c.set t s x) := by
  obtain ⟨hsem, hadj, hafter⟩ := h
  refine hI.set (encoding_faithful.represents_call hI.toRepresents hsem hafter) ?_ hx
  rw [hadj, hI.semadj]
  exact adjust_heldBy hafter

/-- The end of a process takes it out of those inside. -/
theorem total_ended (loc : ι → Inside) (t : ι) :
    total (Function.update loc t ⟨0, 0⟩) =
      ⟨(total loc).reads - (loc t).reads, (total loc).writes - (loc t).writes⟩ := by
  have hr := total_update_reads loc t ⟨0, 0⟩
  have hw := total_update_writes loc t ⟨0, 0⟩
  simp only at hr hw ⊢
  ext
  · simp only
    omega
  · simp only
    omega

theorem Inv.ended (hI : Inv c) (hx : stopSleeps x = false)
    (h : Ended c.shared (c.loc t) s x) : Inv (c.set t s x) := by
  obtain ⟨hsem, hadj, hsec⟩ := h
  have hrt := reads_le_total (insideOf sections c.loc) t
  have hwt := writes_le_total (insideOf sections c.loc) t
  have hleft := total_ended (insideOf sections c.loc) t
  refine hI.set ⟨?_, ?_⟩ ?_ hx
  · rw [hsem, hI.semadj, hI.sem, hsec, hleft]
    exact undo_heldBy hrt hwt hI.safe.1
  · rw [hsec, hleft]
    obtain ⟨h1, h2⟩ := hI.safe
    exact ⟨by simp only; omega, by simp only; omega⟩
  · rw [hadj, hsec]
    funext k
    cases k <;> rfl

theorem Inv.moved (hI : Inv c) (h : Moved c.shared (c.loc t) s x) : Inv (c.set t s x) := by
  obtain ⟨hx, hquiet | ⟨a, hcalled⟩ | hended⟩ := h
  · exact hI.quiet hx hquiet
  · exact hI.called hx hcalled
  · exact hI.ended hx hended

theorem inv_reach {role : ι → Role} (h : (children ι).Reach (initial role) c) : Inv c := by
  apply h.interleave_invariant (inv_initial role)
  intro c t e s x hI _ hstep
  apply hI.moved
  refine step_moved (hI.awake t) (fun hin => ?_) (fun hin => ?_) hstep
  · exact encoding_faithful.stop_goes_on hI.toRepresents (Or.inl rfl) (Place.after_stopRead hin)
  · exact encoding_faithful.stop_goes_on hI.toRepresents (Or.inr rfl) (Place.after_stopWrite hin)

end Invariant

/-! ## Progress -/

section Progress

variable {ι : Type} {c : Config ι Shared Process}

/-- The process can make a step of its program. -/
def CanRun (c : Config ι Shared Process) (t : ι) : Prop :=
  ∃ s x, processStep t .run c.shared (c.loc t) = some (s, x)

theorem callSemop_awake (s : Shared) (x : Process) (ops : List (SemBuf SemNum)) (next pc : PC) :
    ∃ s' x', callSemop s x ops next (some pc) = some (s', x') := by
  unfold callSemop
  cases semop s.sem ops with
  | some v => exact ⟨_, _, rfl⟩
  | none => exact ⟨_, _, rfl⟩

theorem run_of_awake {s : Shared} {x : Process} (t : ι) (hx : dead x = false)
    (ha : x.pc.asleep = false) : ∃ s' x', processStep t .run s x = some (s', x') := by
  obtain ⟨pc, fl, adj⟩ := x
  rcases pc with pc | pc | how
  · cases pc with
    | head | sleep | read => exact ⟨_, _, rfl⟩
    | start | stop => exact callSemop_awake ..
    | startSleep | stopSleep => cases ha
  · cases pc with
    | head | sleep | test | reset | load | store | print => exact ⟨_, _, rfl⟩
    | start | stop => exact callSemop_awake ..
    | startSleep | stopSleep => cases ha
  · cases hx

/-- A process asleep waits to start a section. -/
theorem asleep_cases {x : Process} (ha : x.pc.asleep = true) (hstop : stopSleeps x = false) :
    x.pc = .reader .startSleep ∨ x.pc = .writer .startSleep := by
  obtain ⟨pc, fl, adj⟩ := x
  rcases pc with pc | pc | how
  · cases pc with
    | startSleep => exact Or.inl rfl
    | stopSleep => cases hstop
    | _ => cases ha
  · cases pc with
    | startSleep => exact Or.inr rfl
    | stopSleep => cases hstop
    | _ => cases ha
  · cases ha

theorem awake_of_inside {x : Process} (hin : inRead x = true ∨ inWrite x = true)
    (hstop : stopSleeps x = false) : dead x = false ∧ x.pc.asleep = false := by
  have hout : place x ≠ .outside := by
    intro hplace
    simp only [inRead, inWrite, hplace] at hin
    rcases hin with hin | hin <;> cases hin
  constructor
  · by_contra hdead
    obtain ⟨pc, fl, adj⟩ := x
    rcases pc with pc | pc | how
    · exact hdead rfl
    · exact hdead rfl
    · exact hout rfl
  · by_contra ha
    apply hout
    rcases asleep_cases (by simpa using ha) hstop with hpc | hpc
    · simp only [place, hpc]
    · simp only [place, hpc]

theorem canRun_of_semop {t : ι} {a : Call} (hs : semop c.shared.sem (encoding.ops a) ≠ none)
    (ha : (a = .startRead ∧ (c.loc t).pc = .reader .startSleep) ∨
      (a = .startWrite ∧ (c.loc t).pc = .writer .startSleep)) : CanRun c t := by
  obtain ⟨v, hv⟩ := Option.ne_none_iff_exists'.mp hs
  unfold CanRun
  rcases ha with ⟨rfl, hpc⟩ | ⟨rfl, hpc⟩
  · have hcall : semop c.shared.sem semStartRead = some v := hv
    simp only [processStep, hpc, reader, callSemop, hcall]
    exact ⟨_, _, rfl⟩
  · have hcall : semop c.shared.sem semStartWrite = some v := hv
    simp only [processStep, hpc, writer, callSemop, hcall]
    exact ⟨_, _, rfl⟩

variable [Fintype ι]

/-- Whoever waits, waits for somebody inside, and that process can run. -/
theorem Inv.progress (hI : Inv c) {t : ι} (ht : dead (c.loc t) = false) :
    ∃ u, dead (c.loc u) = false ∧ CanRun c u := by
  by_cases ha : (c.loc t).pc.asleep = true
  · have hinside : ∀ u, inRead (c.loc u) = true ∨ inWrite (c.loc u) = true →
        dead (c.loc u) = false ∧ CanRun c u := by
      intro u hu
      obtain ⟨hlive, hawake⟩ := awake_of_inside hu (hI.awake u)
      exact ⟨hlive, run_of_awake u hlive hawake⟩
    have hpos := fun u hu => hinside u (Or.imp Place.reads_pos.mp Place.writes_pos.mp hu)
    rcases asleep_cases ha (hI.awake t) with hpc | hpc
    · exact encoding_faithful.exists_running hI.toRepresents hpos (Or.inl rfl)
        fun hs => ⟨ht, canRun_of_semop hs (Or.inl ⟨rfl, hpc⟩)⟩
    · exact encoding_faithful.exists_running hI.toRepresents hpos (Or.inr rfl)
        fun hs => ⟨ht, canRun_of_semop hs (Or.inr ⟨rfl, hpc⟩)⟩
  · exact ⟨t, ht, run_of_awake t ht (by simpa using ha)⟩

end Progress

/-! ## Crash safety -/

section CrashSafety

variable {ι : Type} [Fintype ι] {c : Config ι Shared Process}

/-- **Crash safety.** In every state reached by any number of readers and writers, under
every interleaving of their `semop` calls and with any of them terminated at any point
(by `exit` or killed, also inside a section): `C_ACTIVE_R` counts the living readers
between `start_read` and `stop_read`, `B_SEM` the living writers between `start_write` and
`stop_write` and is `1 - B_ACTIVE_W`, the waiting counters are zero, a writer in its
section is alone, and while a process lives some living process can take a step. -/
theorem crash_safety [DecidableEq ι] {role : ι → Role} (h : (children ι).Reach (initial role) c) :
    c.shared.sem .cActiveR = count inRead c.loc ∧
    c.shared.sem .bSem = count inWrite c.loc ∧
    c.shared.sem .bSem + c.shared.sem .bActiveW = 1 ∧
    c.shared.sem .cWaitingR = 0 ∧ c.shared.sem .cWaitingW = 0 ∧
    (∀ t u, inWrite (c.loc t) = true → inWrite (c.loc u) = true → t = u) ∧
    (∀ t u, inWrite (c.loc t) = true → inRead (c.loc u) = false) ∧
    (∀ t, dead (c.loc t) = false → ∃ u, dead (c.loc u) = false ∧ CanRun c u) := by
  have hI := inv_reach h
  refine ⟨?_, ?_, ?_, ?_, ?_, ?_, ?_, fun t => hI.progress⟩
  · rw [hI.sem]
    rfl
  · rw [hI.sem]
    rfl
  · have hone := hI.safe.1
    rw [hI.sem]
    simp only [rep]
    omega
  · rw [hI.sem]
    rfl
  · rw [hI.sem]
    rfl
  · intro t u ht hu
    exact eq_of_writes hI.safe.1 (Place.writes_pos.mpr ht) (Place.writes_pos.mpr hu)
  · intro t u ht
    have hreads := reads_eq_zero_of_writes hI.safe (Place.writes_pos.mpr ht) u
    exact Bool.toNat_eq_zero.mp hreads

/-- One reader and two writers. -/
def threeChildren : Fin 3 → Role := ![.reader, .writer, .writer]

/-- A reader is killed in its section, then a writer in its own; the other writer, which
slept in `start_write`, goes on. -/
def killedRun {ι : Type} (r w u : ι) : List (ι × Event) :=
  [(r, .run), (r, .run), (r, .run), (w, .run), (w, .run), (w, .run), (r, .sigkill), (w, .run),
    (w, .run), (u, .run), (u, .run), (u, .run), (w, .sigkill), (u, .run)]

theorem crash_safety_killed : ∃ c : Config (Fin 3) Shared Process,
    dead (c.loc 0) = true ∧ dead (c.loc 1) = true ∧ inWrite (c.loc 2) = true ∧
      c.shared.sem .bSem = count inWrite c.loc := by
  have hrun : ((children (Fin 3)).run (initial threeChildren) (killedRun 0 1 2)).any
      (fun c => dead (c.loc 0) && dead (c.loc 1) && inWrite (c.loc 2)) = true := by decide
  obtain ⟨c, hc, hp⟩ := Machine.exists_reach_of_run _ _ hrun
  simp only [Bool.and_eq_true] at hp
  exact ⟨c, hp.1.1, hp.1.2, hp.2, (crash_safety hc).2.1⟩

end CrashSafety

end OsLabs.TmpWr
