import Mathlib.Data.Fintype.Defs
import OsLabs.Daemon.Steps

/-!
# The daemon and its test build: invariant

What a process relies on at each of its points (`Stage`), and that nobody but itself
disturbs it. In `daemon.c` a process that has passed `lockfile` holds the lock of the file
that `LOCKFILE` names until it exits; in `daemon_test.c` only until it closes that file. So
in the test build the invariant is kept by the runs in which a lock is granted only where
`LOCKFILE` still names the locked file and nobody runs on without a lock (`Timely`), and in
`daemon.c` every run is such a run.
-/

namespace OsLabs.Daemon

open Concurrent Files FileSystem

/-- The process has written its pid and closed `LOCKFILE`, or gone on without closing it,
and it has not exited. -/
def PC.wrotePid : PC → Bool
  | .openConf | .truncConf _ | .writeConf _ | .closeConf _ => true
  | .setup | .running | .removeLock | .removeConf | .quit => true
  | _ => false

variable {ι : Type} {b : Build} {t u : ι} {e : Event} {fs fs' : FileSystem Path ι}
  {x x' : Process} {fd conffd : Fd} {lockText confText : List UInt8} {pc : PC}

/-! ## What a process relies on -/

/-- `fd` is at the start of the file that `LOCKFILE` names, and the process has its lock. -/
structure HoldsAt (t : ι) (fs : FileSystem Path ι) (fd : Fd) : Prop where
  offset : fd.offset = 0
  names : fs.names .lockFile = some fd.inode
  lock : fs.lock fd.inode = some t

/-- In `daemon.c` the process has the lock of the file that `LOCKFILE` names. -/
def Held (b : Build) (t : ι) (fs : FileSystem Path ι) : Prop :=
  b = .daemon → ∃ i, fs.names .lockFile = some i ∧ fs.lock i = some t

/-- The lock, and the pid in `LOCKFILE`. -/
structure Locked (b : Build) (t : ι) (fs : FileSystem Path ι) (lockText : List UInt8) : Prop where
  held : Held b t fs
  content : fs.content .lockFile = some lockText

/-- `conffd` is at the start of the file that `CONFFILE` names. -/
structure Opened (fs : FileSystem Path ι) (conffd : Fd) : Prop where
  offset : conffd.offset = 0
  names : fs.names .confFile = some conffd.inode

/-- What a process relies on at its point. -/
def Stage (b : Build) (t : ι) (fs : FileSystem Path ι) (lockText confText : List UInt8) :
    PC → Prop
  | .start | .returnedOne | .exited _ => True
  | .lockfile fd | .refused fd =>
      fd.offset = 0 ∧ (b = .daemon → fs.names .lockFile = some fd.inode)
  | .truncate fd => HoldsAt t fs fd
  | .writePid fd => HoldsAt t fs fd ∧ fs.data fd.inode = []
  | .closeLock fd =>
      b = .daemonTest ∧ HoldsAt t fs fd ∧ fs.content .lockFile = some lockText
  | .openConf => Locked b t fs lockText
  | .truncConf conffd => Locked b t fs lockText ∧ Opened fs conffd
  | .writeConf conffd => Locked b t fs lockText ∧ Opened fs conffd ∧ fs.data conffd.inode = []
  | .closeConf conffd =>
      Locked b t fs lockText ∧ Opened fs conffd ∧ fs.content .confFile = some confText
  | .setup | .running => Locked b t fs lockText ∧ fs.content .confFile = some confText
  | .removeLock => b = .daemonTest
  | .removeConf | .quit => Held b t fs

/-- Nobody but `t` has passed `lockfile`, where `t` has. -/
structure Inv (b : Build) (c : Config ι (FileSystem Path ι) Process) : Prop where
  stage : ∀ t, Stage b t c.shared (c.loc t).lockText (c.loc t).confText (c.loc t).pc
  unique : ∀ t u, (c.loc t).pc.pastLock = true → (c.loc u).pc.pastLock = true → t = u

/-! ## The others -/

section Calm

theorem HoldsAt.calm (h : HoldsAt u fs fd) (hut : u ≠ t) (hcalm : Calm t fs fs') :
    HoldsAt u fs' fd :=
  ⟨h.offset, hcalm.names _ _ h.names, hcalm.lock _ _ hut h.lock⟩

theorem Held.calm (h : Held b u fs) (hut : u ≠ t) (hcalm : Calm t fs fs') : Held b u fs' := by
  intro hb
  obtain ⟨i, hname, hlock⟩ := h hb
  exact ⟨i, hcalm.names _ _ hname, hcalm.lock _ _ hut hlock⟩

theorem Locked.calm (h : Locked b u fs lockText) (hut : u ≠ t) (hcalm : Calm t fs fs') :
    Locked b u fs' lockText :=
  ⟨h.held.calm hut hcalm, hcalm.content h.content⟩

theorem Opened.calm (h : Opened fs conffd) (hcalm : Calm t fs fs') : Opened fs' conffd :=
  ⟨h.offset, hcalm.names _ _ h.names⟩

/-- What a process outside the lock does leaves every other one what it relies on. -/
theorem Stage.calm (h : Stage b u fs lockText confText pc) (hut : u ≠ t)
    (hcalm : Calm t fs fs') : Stage b u fs' lockText confText pc := by
  cases pc with
  | start | returnedOne | exited => trivial
  | lockfile fd | refused fd => exact ⟨h.1, fun hb => hcalm.names _ _ (h.2 hb)⟩
  | truncate fd => exact HoldsAt.calm h hut hcalm
  | writePid fd =>
    obtain ⟨hholds, hdata⟩ := h
    exact ⟨hholds.calm hut hcalm, (hcalm.data_eq hholds.names).trans hdata⟩
  | closeLock fd =>
    obtain ⟨hb, hholds, hcontent⟩ := h
    exact ⟨hb, hholds.calm hut hcalm, hcalm.content hcontent⟩
  | openConf => exact Locked.calm h hut hcalm
  | truncConf conffd => exact ⟨h.1.calm hut hcalm, h.2.calm hcalm⟩
  | writeConf conffd =>
    obtain ⟨hlocked, hopen, hdata⟩ := h
    exact ⟨hlocked.calm hut hcalm, hopen.calm hcalm, (hcalm.data_eq hopen.names).trans hdata⟩
  | closeConf conffd =>
    obtain ⟨hlocked, hopen, hcontent⟩ := h
    exact ⟨hlocked.calm hut hcalm, hopen.calm hcalm, hcalm.content hcontent⟩
  | setup | running => exact ⟨h.1.calm hut hcalm, hcalm.content h.2⟩
  | removeLock => exact h
  | removeConf | quit => exact Held.calm h hut hcalm

/-- Outside the lock a process relies, in `daemon.c`, on nothing but the name `LOCKFILE`. -/
theorem Stage.outside (h : Stage b u fs lockText confText pc) (hout : pc.pastLock = false)
    (hnames : b = .daemon → ∀ i, fs.names .lockFile = some i → fs'.names .lockFile = some i) :
    Stage b u fs' lockText confText pc := by
  cases pc with
  | start | returnedOne | exited => trivial
  | lockfile fd | refused fd => exact ⟨h.1, fun hb => hnames hb _ (h.2 hb)⟩
  | _ => cases hout

end Calm

/-! ## The process itself -/

section Own

/-- The lock is granted for the file that `LOCKFILE` names. -/
def GrantNamed [DecidableEq ι] (t : ι) (fs : FileSystem Path ι) (fd : Fd) : Prop :=
  ∀ fs', fs.setLock t fd.inode = some fs' → fs.names .lockFile = some fd.inode

theorem HoldsAt.held (h : HoldsAt t fs fd) (b : Build) : Held b t fs :=
  fun _ => ⟨fd.inode, h.names, h.lock⟩

theorem HoldsAt.truncate (h : HoldsAt t fs fd) : HoldsAt t (fs.truncate fd.inode) fd :=
  ⟨h.offset, h.names, h.lock⟩

theorem HoldsAt.write (h : HoldsAt t fs fd) (bytes : List UInt8) :
    HoldsAt t (fs.write fd bytes).1 fd :=
  ⟨h.offset, h.names, h.lock⟩

theorem Locked.openCreate (h : Locked b t fs lockText) (p : Path) :
    Locked b t (fs.openCreate p).1 lockText := by
  refine ⟨?_, (openCreate_calm t).content h.content⟩
  intro hb
  obtain ⟨i, hname, hlock⟩ := h.held hb
  refine ⟨i, (openCreate_calm t).names _ _ hname, ?_⟩
  rw [openCreate_lock]
  exact hlock

/-- `CONFFILE` is another file than the one that holds the pid. -/
theorem Opened.names_ne (h : Opened fs conffd) : fs.names .lockFile ≠ some conffd.inode := by
  intro hname
  cases fs.injective _ _ _ hname h.names

theorem Locked.update (h : Locked b t fs lockText) (hopen : Opened fs conffd)
    (new : List UInt8) :
    Locked b t { fs with data := Function.update fs.data conffd.inode new } lockText :=
  ⟨h.held, (content_update hopen.names_ne).trans h.content⟩

/-- Closing `CONFFILE` leaves the lock of `LOCKFILE`. -/
theorem Locked.close [DecidableEq ι] (h : Locked b t fs lockText) (hopen : Opened fs conffd) :
    Locked b t (fs.close t conffd.inode) lockText := by
  refine ⟨?_, h.content⟩
  intro hb
  obtain ⟨i, hname, hlock⟩ := h.held hb
  refine ⟨i, hname, ?_⟩
  have hne : i ≠ conffd.inode := by
    rintro rfl
    exact hopen.names_ne hname
  simpa [FileSystem.close, release, hne] using hlock

variable [DecidableEq ι]

theorem alreadyRunning_stage (hterm : pc.terminating = false)
    (h : Stage b t fs x.lockText x.confText pc)
    (hgrant : ∀ fd, pc = .lockfile fd → GrantNamed t fs fd) :
    Stage b t (alreadyRunning b t fs x pc).1 x.lockText x.confText
      (alreadyRunning b t fs x pc).2 := by
  cases pc with
  | start => exact ⟨openCreate_offset, fun _ => openCreate_names⟩
  | lockfile fd =>
    simp only [alreadyRunning]
    cases hlock : fs.setLock t fd.inode with
    | none => exact h
    | some fs₁ =>
      have hname := hgrant fd rfl fs₁ hlock
      obtain ⟨-, rfl⟩ := setLock_eq_some.mp hlock
      exact ⟨h.1, hname, Function.update_self ..⟩
  | refused | returnedOne | exited => trivial
  | truncate fd => exact ⟨HoldsAt.truncate h, truncate_data fs fd.inode⟩
  | writePid fd =>
    obtain ⟨hholds, hdata⟩ := h
    have hcontent : (fs.write fd x.lockText).1.content .lockFile = some x.lockText :=
      write_content hholds.names hdata hholds.offset
    cases b with
    | daemon => exact ⟨(hholds.write _).held _, hcontent⟩
    | daemonTest => exact ⟨rfl, hholds.write _, hcontent⟩
  | closeLock fd =>
    obtain ⟨rfl, -, hcontent⟩ := h
    refine ⟨?_, hcontent⟩
    intro hb
    cases hb
  | openConf => exact ⟨Locked.openCreate h _, openCreate_offset, openCreate_names⟩
  | truncConf conffd =>
    obtain ⟨hlocked, hopen⟩ := h
    exact ⟨hlocked.update hopen [], ⟨hopen.offset, hopen.names⟩, truncate_data fs _⟩
  | writeConf conffd =>
    obtain ⟨hlocked, hopen, hdata⟩ := h
    exact ⟨hlocked.update hopen _, ⟨hopen.offset, hopen.names⟩,
      write_content hopen.names hdata hopen.offset⟩
  | closeConf conffd =>
    obtain ⟨hlocked, hopen, hcontent⟩ := h
    exact ⟨hlocked.close hopen, hcontent⟩
  | setup | running => exact h
  | removeLock | removeConf | quit => cases hterm

theorem thrFn_stage (hterm : pc.terminating = true) (h : Stage b t fs lockText confText pc) :
    Stage b t (thrFn t fs pc).1 lockText confText (thrFn t fs pc).2 := by
  cases pc with
  | removeLock =>
    intro hb
    rw [show b = .daemonTest from h] at hb
    cases hb
  | removeConf =>
    intro hb
    obtain ⟨i, hname, hlock⟩ := h hb
    exact ⟨i, (remove_names_of_ne (by decide)).trans hname, hlock⟩
  | quit => trivial
  | _ => cases hterm

theorem sigterm_stage (h : Stage b t fs lockText confText pc) :
    Stage b t (sigterm b t fs pc).1 lockText confText (sigterm b t fs pc).2 := by
  cases pc with
  | running =>
    cases b with
    | daemon => exact h.1.held
    | daemonTest => rfl
  | removeLock | removeConf | quit => exact h
  | _ => trivial

theorem step_stage (h : Stage b t fs x.lockText x.confText x.pc)
    (hgrant : e = .run → ∀ fd, x.pc = .lockfile fd → GrantNamed t fs fd)
    (hs : processStep b t e fs x = some (fs', x')) :
    Stage b t fs' x'.lockText x'.confText x'.pc := by
  obtain ⟨⟨hlockText, hconfText⟩, hcases⟩ := step_cases hs
  rw [hlockText, hconfText]
  rcases hcases with ⟨rfl, hpc⟩ | ⟨hterm, rfl, hpc⟩ | ⟨hrun, hterm, rfl, hpc⟩
  · rw [hpc]
    exact sigterm_stage h
  · rw [hpc]
    exact thrFn_stage hterm h
  · rw [hpc]
    exact alreadyRunning_stage hterm h (hgrant hrun)

/-- Only the SIGTERM branch of the test build takes the name `LOCKFILE` away. -/
theorem step_names {i : ℕ} (hpc : x.pc ≠ .removeLock) (hname : fs.names .lockFile = some i)
    (hs : processStep b t e fs x = some (fs', x')) : fs'.names .lockFile = some i := by
  obtain ⟨-, ⟨rfl, -⟩ | ⟨hterm, rfl, -⟩ | ⟨-, hterm, rfl, -⟩⟩ := step_cases hs
  · cases x.pc <;> exact hname
  · generalize x.pc = pc at hpc hterm
    cases pc with
    | removeLock => exact absurd rfl hpc
    | removeConf => exact (remove_names_of_ne (by decide)).trans hname
    | quit => exact hname
    | _ => cases hterm
  · generalize x.pc = pc at hterm
    cases pc with
    | start | openConf => exact (openCreate_calm t).names _ _ hname
    | lockfile fd =>
      simp only [alreadyRunning]
      cases hlock : fs.setLock t fd.inode with
      | none => exact hname
      | some fs₁ => exact (setLock_calm hlock).names _ _ hname
    | _ => exact hname

/-- A process gets past `lockfile` by the grant of the lock. -/
theorem step_pastLock (hs : processStep b t e fs x = some (fs', x'))
    (hpast : x'.pc.pastLock = true) : x.pc.pastLock = true ∨
      (e = .run ∧ ∃ fd, x.pc = .lockfile fd ∧ ∃ fs₁, fs.setLock t fd.inode = some fs₁) := by
  obtain ⟨-, ⟨-, hpc⟩ | ⟨hterm, -⟩ | ⟨hrun, -, -, hpc⟩⟩ := step_cases hs
  · left
    rw [hpc] at hpast
    generalize x.pc = pc at hpast
    cases pc with
    | running | removeLock | removeConf | quit => rfl
    | _ => cases hpast
  · left
    generalize x.pc = pc at hterm
    cases pc with
    | removeLock | removeConf | quit => rfl
    | _ => cases hterm
  · rw [hpc] at hpast
    generalize x.pc = pc at hpast
    cases pc with
    | start | refused | returnedOne | exited => cases hpast
    | lockfile fd =>
      right
      refine ⟨hrun, fd, rfl, ?_⟩
      simp only [alreadyRunning] at hpast
      cases hlock : fs.setLock t fd.inode with
      | none =>
        rw [hlock] at hpast
        cases hpast
      | some fs₁ => exact ⟨fs₁, rfl⟩
    | _ => exact Or.inl rfl

end Own

/-! ## Runs -/

section Runs

variable {c : Config ι (FileSystem Path ι) Process}

theorem inv_initial (fs : FileSystem Path ι) (who : ι → Identity) : Inv b (initial fs who) :=
  ⟨fun _ => trivial, fun t _ ht => by cases ht⟩

/-- Who has passed `lockfile`, and has not run on without a lock, has the lock of the file
that `LOCKFILE` names. -/
theorem Stage.lock {i : ℕ} (h : Stage b u fs lockText confText pc) (hpast : pc.pastLock = true)
    (hwrote : b = .daemonTest → pc.wrotePid = false) (hname : fs.names .lockFile = some i) :
    fs.lock i = some u := by
  have hholds : ∀ {fd : Fd}, HoldsAt u fs fd → fs.lock i = some u := by
    intro fd hfd
    rw [hfd.names] at hname
    rw [← Option.some.inj hname]
    exact hfd.lock
  have hheld : pc.wrotePid = true → Held b u fs → fs.lock i = some u := by
    intro hpc h
    have hb : b = .daemon := by
      cases b with
      | daemon => rfl
      | daemonTest => rw [hwrote rfl] at hpc; cases hpc
    obtain ⟨j, hj, hlock⟩ := h hb
    rw [hj] at hname
    rw [← Option.some.inj hname]
    exact hlock
  cases pc with
  | truncate fd => exact hholds h
  | writePid fd => exact hholds h.1
  | closeLock fd => exact hholds h.2.1
  | openConf => exact hheld rfl (Locked.held h)
  | truncConf | writeConf | closeConf | setup | running => exact hheld rfl h.1.held
  | removeLock =>
    rw [show b = .daemonTest from h] at hwrote
    cases hwrote rfl
  | removeConf | quit => exact hheld rfl h
  | _ => cases hpast

/-- While a process is up, the two files hold what it has written. -/
theorem Inv.files (hI : Inv b c) (hup : (c.loc t).pc.up = true) :
    c.shared.content .lockFile = some (c.loc t).lockText ∧
      c.shared.content .confFile = some (c.loc t).confText := by
  have hstage := hI.stage t
  generalize (c.loc t).pc = pc at hup hstage
  cases pc with
  | setup | running => exact ⟨hstage.1.content, hstage.2⟩
  | _ => cases hup

variable [DecidableEq ι]

/-- The descriptor for which the action gets a process the lock, where it does. -/
def granted (c : Config ι (FileSystem Path ι) Process) (a : ι × Event) : Option Fd :=
  match (c.loc a.1).pc, a.2 with
  | .lockfile fd, .run => if (c.shared.setLock a.1 fd.inode).isSome then some fd else none
  | _, _ => none

/-- Where the action grants a lock, `LOCKFILE` names the locked file, and every process that
has written its pid and run on without a lock has exited. -/
def Timely (b : Build) (c : Config ι (FileSystem Path ι) Process) (a : ι × Event) : Prop :=
  ∀ fd ∈ granted c a, c.shared.names .lockFile = some fd.inode ∧
    (b = .daemonTest → ∀ u, (c.loc u).pc.wrotePid = false)

instance [Fintype ι] (c : Config ι (FileSystem Path ι) Process) (a : ι × Event) :
    Decidable (Timely b c a) :=
  inferInstanceAs (Decidable (∀ fd ∈ granted c a, c.shared.names .lockFile = some fd.inode ∧
    (b = .daemonTest → ∀ u, (c.loc u).pc.wrotePid = false)))

theorem granted_eq_some : granted c (t, e) = some fd ↔
    e = .run ∧ (c.loc t).pc = .lockfile fd ∧ (c.shared.setLock t fd.inode).isSome = true := by
  simp only [granted]
  generalize (c.loc t).pc = pc
  cases pc with
  | lockfile fd' =>
    cases e with
    | sigterm => simp
    | run =>
      simp only [Option.ite_none_right_eq_some, Option.some.injEq, PC.lockfile.injEq, true_and]
      constructor
      · rintro ⟨hlock, rfl⟩
        exact ⟨rfl, hlock⟩
      · rintro ⟨rfl, hlock⟩
        exact ⟨hlock, rfl⟩
  | _ => simp

theorem granted_of_setLock (hpc : (c.loc t).pc = .lockfile fd)
    (hlock : c.shared.setLock t fd.inode = some fs') : granted c (t, .run) = some fd :=
  granted_eq_some.mpr ⟨rfl, hpc, by rw [hlock, Option.isSome_some]⟩

/-- Nobody is past `lockfile` where the lock is granted. -/
theorem Inv.free (hI : Inv b c) (hc : Timely b c (t, .run)) (hpc : (c.loc t).pc = .lockfile fd)
    (hlock : c.shared.setLock t fd.inode = some fs') : ∀ u, (c.loc u).pc.pastLock = false := by
  obtain ⟨hname, hwrote⟩ := hc fd (granted_of_setLock hpc hlock)
  intro u
  by_contra hpast
  rw [Bool.not_eq_false] at hpast
  have hu := (hI.stage u).lock hpast (fun hb => hwrote hb u) hname
  rcases (setLock_eq_some.mp hlock).1 with hnone | hself
  · rw [hu] at hnone
    cases hnone
  · rw [hu] at hself
    rw [Option.some.inj hself, hpc] at hpast
    cases hpast

/-- Who gets past `lockfile` finds nobody else past it. -/
theorem Inv.alone (hI : Inv b c) (hc : Timely b c (t, e))
    (hs : processStep b t e c.shared (c.loc t) = some (fs', x')) (hx : x'.pc.pastLock = true)
    (hut : u ≠ t) : ¬ (c.loc u).pc.pastLock = true := by
  intro hu
  rcases step_pastLock hs hx with hpast | ⟨rfl, fd, hpc, fs₁, hlock⟩
  · exact hut (hI.unique u t hu hpast)
  · rw [hI.free hc hpc hlock u] at hu
    cases hu

/-- What another process relies on is left alone. -/
theorem Inv.stage_others (hI : Inv b c)
    (hs : processStep b t e c.shared (c.loc t) = some (fs', x')) (hut : u ≠ t) :
    Stage b u fs' (c.loc u).lockText (c.loc u).confText (c.loc u).pc := by
  by_cases hpast : (c.loc t).pc.pastLock = true
  · -- the one process that has passed: the others only rely on the name
    refine (hI.stage u).outside ?_ ?_
    · by_contra hup
      exact hut (hI.unique u t (by simpa using hup) hpast)
    · rintro rfl i hname
      refine step_names ?_ hname hs
      intro hpc
      have hstage := hI.stage t
      rw [hpc] at hstage
      cases hstage
  · exact (hI.stage u).calm hut (outside_calm (by simpa using hpast) hs)

theorem inv_step (hI : Inv b c) (hc : Timely b c (t, e))
    (hs : processStep b t e c.shared (c.loc t) = some (fs', x')) : Inv b (c.set t fs' x') := by
  constructor
  · refine Config.forall_set
      (P := fun u (y : Process) => Stage b u fs' y.lockText y.confText y.pc) ?_
      fun u hut => hI.stage_others hs hut
    refine step_stage (hI.stage t) ?_ hs
    rintro rfl fd hpc fs₁ hlock
    exact (hc fd (granted_of_setLock hpc hlock)).1
  · exact Config.unique_set (p := fun y : Process => y.pc.pastLock = true) hI.unique
      fun hx u hut => hI.alone hc hs hx hut

end Runs

end OsLabs.Daemon
