import OsLabs.LesPc.Invariant
import Mathlib.Data.Fin.VecNotation

/-!
# Producers and consumers on one ring of letters: the drift of the pointers

The letter `'z'` stands in the last cell, 25 cells behind the first, and both pointers go
back by 26: one too many. After the first round of the alphabet `*ptr_prod` points to
`ptr_alpha_now` itself. So the pointers stay in the ring, and the letters taken are those
that were stored, exactly as long as each store is one of the first 26 (`ring_iff`).
-/

namespace OsLabs.LesPc

open Concurrent Concurrent.BoundedBuffer Bytes

variable {g : Segment} {s s' : Shared} {ι : Type} {t : ι} {x x' : Process}

/-! ## Whole runs -/

section Runs

variable {c : Config ι Shared Process} {m : ℕ → UInt8} {role : ι → Role}

/-- At most one process is inside, and the globals are in the shape of its point. -/
def Inv (g : Segment) (c : Config ι Shared Process) : Prop :=
  Guarded (fun x => inSection x = true) (Quiet g) (Inside g) c

/-- A letter is stored with fewer than `SIZE_BUF` letters stored before it. -/
def StoresInRoom (c : Config ι Shared Process) (a : ι × Event) : Prop :=
  a.2 = .run → ∀ p b, (c.loc a.1).pc = .producer (.store p b) → c.shared.stored.length < sizeBuf

/-- The step of a process at `pc` follows `*ptr_prod` or `*ptr_cons` to a cell. -/
def FollowsToCell (g : Segment) : PC → Prop
  | .producer (.store p _) | .producer (.printCell p) => ∃ k < sizeBuf, p = cell g k
  | .consumer (.take p) | .consumer (.testCell p) => ∃ k < sizeBuf, p = cell g k
  | _ => True

/-- Where the step follows a pointer, it stays in the ring. -/
def InRing (g : Segment) (c : Config ι Shared Process) (a : ι × Event) : Prop :=
  a.2 = .run → FollowsToCell g (c.loc a.1).pc

theorem inv_initial (g : Segment) (m : ℕ → UInt8) (role : ι → Role) :
    Inv g (initial g m role) := by
  refine Or.inl ⟨⟨⟨rfl, rfl, rfl⟩, Nat.zero_le _, rfl, rfl, holds_layout g m⟩, fun t => ?_⟩
  simp only [initial]
  cases role t <;> exact Bool.false_ne_true

theorem Inv.taken_prefix (hI : Inv g c) : c.shared.taken <+: c.shared.stored := by
  have hshape : ∃ h i q j, Shape g c.shared h i q j := by
    rcases hI with ⟨hQ, -⟩ | ⟨t, hin, -⟩
    · exact ⟨_, _, _, _, hQ⟩
    · obtain ⟨h, i, q, j, -, hS⟩ := inside_shape hin
      exact ⟨h, i, q, j, hS⟩
  obtain ⟨h, i, q, j, hS⟩ := hshape
  rw [hS.stored, hS.taken]
  exact codes_prefix hS.accounts.taken_le

/-- Only the store of a 27th letter follows a pointer out of the ring. -/
theorem Inv.inRing_iff (hI : Inv g c) (t : ι) (e : Event) :
    InRing g c (t, e) ↔ StoresInRoom c (t, e) := by
  have hin := hI.owner (t := t)
  unfold InRing StoresInRoom
  cases e with
  | sigint | eintr => exact iff_of_true (fun he => by cases he) (fun he => by cases he)
  | run =>
    dsimp only
    generalize c.loc t = x at hin ⊢
    obtain ⟨pc, flag⟩ := x
    cases pc with
    | exited => exact iff_of_true (fun _ => trivial) (fun _ _ _ hpc => by cases hpc)
    | producer pc =>
      cases pc with
      | store p b =>
        obtain ⟨hS, rfl, -⟩ := hin rfl
        constructor
        · intro hring _ _ _ _
          obtain ⟨k, hk, hpos⟩ := hring rfl
          by_contra hfull
          rw [pos, if_neg hfull, cell] at hpos
          omega
        · intro hroom _
          have hlt : c.shared.stored.length < sizeBuf := hroom rfl _ _ rfl
          exact ⟨_, hlt, pos_of_lt hlt⟩
      | printCell p =>
        refine iff_of_true (fun _ => ?_) (fun _ _ _ hpc => by cases hpc)
        obtain ⟨k, hk, hS, rfl⟩ := hin rfl
        have hlt : k < sizeBuf := by
          have := hS.room
          omega
        exact ⟨k, hlt, pos_of_lt hlt⟩
      | _ => exact iff_of_true (fun _ => trivial) (fun _ _ _ hpc => by cases hpc)
    | consumer pc =>
      refine iff_of_true (fun _ => ?_) (fun _ _ _ hpc => by cases hpc)
      cases pc with
      | take p =>
        obtain ⟨hS, rfl⟩ := hin rfl
        have hlt := Nat.lt_of_lt_of_le hS.accounts.taken_lt hS.room
        exact ⟨_, hlt, pos_of_lt hlt⟩
      | testCell p =>
        obtain ⟨k, hk, hS, rfl⟩ := hin rfl
        have hlt : k < sizeBuf := by
          have := hS.accounts.taken_le
          have := hS.room
          omega
        exact ⟨k, hlt, pos_of_lt hlt⟩
      | _ => trivial

variable [DecidableEq ι]

theorem inv_reach (h : (children ι g).ReachBy StoresInRoom (initial g m role) c) : Inv g c := by
  apply h.interleave_invariant (inv_initial g m role)
  intro c t e s x hI hc hs
  apply Guarded.step hI
  · intro hsec hin
    exact inside_step hsec hin hc hs
  · intro hout
    exact outside_step hout hs

/-- **The ring is used for one round.** In every run of any number of producers and
consumers, whatever the memory held before: `*ptr_prod` and `*ptr_cons` point to one of
the 26 cells wherever they are followed, and the letters taken are a prefix of the letters
stored, if and only if each letter is stored with fewer than 26 letters before it. -/
theorem ring_iff {tr : List (Config ι Shared Process × (ι × Event))}
    (h : (children ι g).Trace (initial g m role) tr c) :
    ((∀ p ∈ tr, InRing g p.1 p.2) ∧ c.shared.taken <+: c.shared.stored) ↔
      ∀ p ∈ tr, StoresInRoom p.1 p.2 := by
  have hiff : (∀ p ∈ tr, InRing g p.1 p.2) ↔ ∀ p ∈ tr, StoresInRoom p.1 p.2 := by
    apply h.forall_iff
    intro c a c' hc _
    exact (inv_reach hc).inRing_iff a.1 a.2
  rw [hiff]
  constructor
  · intro hall
    exact hall.1
  · intro hall
    have hI := inv_reach (h.reachBy hall)
    exact ⟨hall, hI.taken_prefix⟩

end Runs

/-! ## The 27th letter -/

/-- Only a store adds to the letters stored. -/
theorem stored_step {e : Event} (h : processStep g t e s x = some (s', x')) :
    s.stored.length ≤ s'.stored.length ∧ (e = .run →
      ∀ p b, x.pc = .producer (.store p b) → s.stored.length < s'.stored.length) := by
  obtain ⟨pc, flag⟩ := x
  cases e with
  | sigint =>
    cases pc <;> cases h <;> exact ⟨le_refl _, fun he => by cases he⟩
  | eintr =>
    cases pc with
    | exited => cases h
    | producer pc | consumer pc =>
      simp only [processStep, Option.ite_none_right_eq_some] at h
      obtain ⟨-, he⟩ := h
      cases he
      exact ⟨le_refl _, fun he => by cases he⟩
  | run =>
    cases pc with
    | exited => cases h
    | producer pc =>
      obtain ⟨⟨s₁, y⟩, hs, hx⟩ := Option.map_eq_some_iff.mp h
      cases hx
      cases pc with
      | store p a =>
        cases hs
        simp
      | start | stop =>
        simp only [producer, Option.map_eq_some_iff] at hs
        obtain ⟨v, -, he⟩ := hs
        cases he
        exact ⟨le_refl _, fun _ _ _ hpc => by cases hpc⟩
      | _ =>
        cases hs
        exact ⟨le_refl _, fun _ _ _ hpc => by cases hpc⟩
    | consumer pc =>
      obtain ⟨⟨s₁, y⟩, hs, hx⟩ := Option.map_eq_some_iff.mp h
      cases hx
      cases pc with
      | start | stop =>
        simp only [consumer, Option.map_eq_some_iff] at hs
        obtain ⟨v, -, he⟩ := hs
        cases he
        exact ⟨le_refl _, fun _ _ _ hpc => by cases hpc⟩
      | _ =>
        cases hs
        exact ⟨le_refl _, fun _ _ _ hpc => by cases hpc⟩

/-- A run that has stored 26 letters at most has stored each of them in a cell. -/
theorem storesInRoom_of_length_le [DecidableEq ι] {c c₀ : Config ι Shared Process}
    {tr : List (Config ι Shared Process × (ι × Event))} (h : (children ι g).Trace c₀ tr c)
    (hle : c.shared.stored.length ≤ sizeBuf) : ∀ p ∈ tr, StoresInRoom p.1 p.2 := by
  induction h with
  | nil => intro p hp; cases hp
  | @snoc tr c c' a h hn ih =>
    obtain ⟨t, e⟩ := a
    obtain ⟨s, x, hs, rfl⟩ := interleave_next.mp hn
    obtain ⟨hmono, hstore⟩ := stored_step hs
    have hle : s.stored.length ≤ sizeBuf := hle
    rw [List.forall_mem_append, List.forall_mem_singleton]
    refine ⟨ih (by omega), fun hrun p b hpc => ?_⟩
    have hlt : c.shared.stored.length < s.stored.length := hstore hrun p b hpc
    show c.shared.stored.length < sizeBuf
    omega

section Alone

variable {d e : ℕ}

/-- A producer comes to its store, with the pointer and the letter it finds. -/
theorem produce_stores (hs : Accounts sems sizeBuf s.sem .outside d e) (hlt : d < sizeBuf + e) :
    ∃ v, Accounts sems sizeBuf v .cellClaimed d e ∧
      Solo (processStep g) (fun _ => True) t s ⟨.producer .head, true⟩ { s with sem := v }
        ⟨.producer (.store (loadPtr s.mem g.ptrProd) (s.mem g.ptrAlphaNow)), true⟩ := by
  obtain ⟨v, hv⟩ := hs.can_startProduce hlt
  have hstart : processStep g t .run s ⟨.producer .start, true⟩ =
      some ({ s with sem := v }, ⟨.producer .loadPtr, true⟩) := by
    have hv : semop s.sem startProduce = some v := hv
    simp only [processStep, producer, hv, Option.map_some]
  refine ⟨v, (hs.startProduce hv).2, .head (e := .run) trivial rfl ?_⟩
  refine .head (e := .run) trivial rfl (.head trivial hstart ?_)
  exact .head (e := .run) trivial rfl (.single (e := .run) trivial rfl)

/-- A producer goes on from its store to the head of its loop. -/
theorem produce_ends (hs : Accounts sems sizeBuf s.sem .cellClaimed d e) {p : ℕ} {a : UInt8} :
    ∃ s', Solo (processStep g) (fun _ => True) t s ⟨.producer (.store p a), true⟩ s'
        ⟨.producer .head, true⟩ ∧
      s'.stored.length = s.stored.length + 1 ∧
      Accounts sems sizeBuf s'.sem .outside (d + 1) e := by
  let s₁ : Shared := { s with mem := Function.update s.mem p a, stored := s.stored ++ [a] }
  have hstore : Solo (processStep g) (fun _ => True) t s ⟨.producer (.store p a), true⟩ s₁
      ⟨.producer .test, true⟩ :=
    .head (e := .run) trivial rfl (.head (e := .run) trivial rfl (.single (e := .run) trivial rfl))
  -- either way, the pointer and the letter are set
  obtain ⟨m, hm⟩ : ∃ m, Solo (processStep g) (fun _ => True) t s₁ ⟨.producer .test, true⟩
      { s₁ with mem := m } ⟨.producer .stop, true⟩ := by
    by_cases hz : s₁.mem g.ptrAlphaNow = 'z'.toUInt8
    · have htest : processStep g t .run s₁ ⟨.producer .test, true⟩ =
          some (s₁, ⟨.producer .decLoad, true⟩) := by
        simp only [processStep, producer, if_pos hz, Option.map_some]
      exact ⟨_, .head trivial htest (.head (e := .run) trivial rfl
        (.head (e := .run) trivial rfl (.single (e := .run) trivial rfl)))⟩
    · have htest : processStep g t .run s₁ ⟨.producer .test, true⟩ =
          some (s₁, ⟨.producer .incLoad, true⟩) := by
        simp only [processStep, producer, if_neg hz, Option.map_some]
      exact ⟨_, .head trivial htest (.head (e := .run) trivial rfl (.head (e := .run) trivial rfl
        (.head (e := .run) trivial rfl (.single (e := .run) trivial rfl))))⟩
  obtain ⟨v, hv⟩ := Accounts.can_stopProduce sems s.sem
  have hstop : processStep g t .run { s₁ with mem := m } ⟨.producer .stop, true⟩ =
      some ({ s₁ with mem := m, sem := v }, ⟨.producer .head, true⟩) := by
    have hv : semop s₁.sem stopProduce = some v := hv
    simp only [processStep, producer, hv, Option.map_some]
  exact ⟨_, hstore.trans (hm.trans (.single trivial hstop)), List.length_append,
    hs.store.stopProduce hv⟩

/-- A consumer runs once through its loop. -/
theorem consume_ends (hs : Accounts sems sizeBuf s.sem .outside d e) (hlt : e < d) :
    ∃ s', Solo (processStep g) (fun _ => True) t s ⟨.consumer .head, true⟩ s'
        ⟨.consumer .head, true⟩ ∧
      s'.stored = s.stored ∧ Accounts sems sizeBuf s'.sem .outside d (e + 1) := by
  obtain ⟨v, hv⟩ := hs.can_startConsume hlt
  have hstart : processStep g t .run s ⟨.consumer .start, true⟩ =
      some ({ s with sem := v }, ⟨.consumer .loadPtr, true⟩) := by
    have hv : semop s.sem startConsume = some v := hv
    simp only [processStep, consumer, hv, Option.map_some]
  let p : ℕ := loadPtr s.mem g.ptrCons
  let s₁ : Shared := { s with sem := v, taken := s.taken ++ [s.mem p] }
  have htake : Solo (processStep g) (fun _ => True) t s ⟨.consumer .head, true⟩ s₁
      ⟨.consumer (.testCell p), true⟩ := by
    refine .head (e := .run) trivial rfl (.head (e := .run) trivial rfl (.head trivial hstart ?_))
    exact .head (e := .run) trivial rfl
      (.head (e := .run) trivial rfl (.single (e := .run) trivial rfl))
  obtain ⟨m, hm⟩ : ∃ m, Solo (processStep g) (fun _ => True) t s₁
      ⟨.consumer (.testCell p), true⟩ { s₁ with mem := m } ⟨.consumer .stop, true⟩ := by
    by_cases hz : s₁.mem p = 'z'.toUInt8
    · have htest : processStep g t .run s₁ ⟨.consumer (.testCell p), true⟩ =
          some (s₁, ⟨.consumer .decLoad, true⟩) := by
        simp only [processStep, consumer, if_pos hz, Option.map_some]
      exact ⟨_, .head trivial htest (.head (e := .run) trivial rfl
        (.single (e := .run) trivial rfl))⟩
    · have htest : processStep g t .run s₁ ⟨.consumer (.testCell p), true⟩ =
          some (s₁, ⟨.consumer .incLoad, true⟩) := by
        simp only [processStep, consumer, if_neg hz, Option.map_some]
      exact ⟨_, .head trivial htest (.head (e := .run) trivial rfl
        (.single (e := .run) trivial rfl))⟩
  obtain ⟨w, hw⟩ := Accounts.can_stopConsume sems v
  have hstop : processStep g t .run { s₁ with mem := m } ⟨.consumer .stop, true⟩ =
      some ({ s₁ with mem := m, sem := w }, ⟨.consumer .head, true⟩) := by
    have hw : semop s₁.sem stopConsume = some w := hw
    simp only [processStep, consumer, hw, Option.map_some]
  exact ⟨_, htake.trans (hm.trans (.single trivial hstop)), rfl,
    (hs.startConsume hv).2.take.stopConsume hw⟩

end Alone

/-- The segment is the second page. -/
def page : Segment := ⟨4096, by decide⟩

/-- A producer and a consumer. -/
def oneAndOne : Fin 2 → Role := ![.producer, .consumer]

/-- The producer fills the ring. -/
theorem fills (m : ℕ → UInt8) {k : ℕ} (hk : k ≤ sizeBuf) : ∃ c : Config (Fin 2) Shared Process,
    (children (Fin 2) g).Reach (initial g m oneAndOne) c ∧ c.shared.stored.length = k ∧
      Accounts sems sizeBuf c.shared.sem .outside k 0 ∧ c.loc 0 = ⟨.producer .head, true⟩ ∧
      c.loc 1 = ⟨.consumer .head, true⟩ := by
  induction k with
  | zero => exact ⟨_, .refl, rfl, ⟨rfl, rfl, rfl⟩, rfl, rfl⟩
  | succ k ih =>
    obtain ⟨c, hc, hlen, hsem, h0, h1⟩ := ih (Nat.le_of_succ_le hk)
    obtain ⟨v, hv, hstore⟩ := produce_stores (g := g) (t := (0 : Fin 2)) hsem hk
    obtain ⟨s, hend, hlen', hsem'⟩ := produce_ends (g := g) (t := (0 : Fin 2))
      (s := { c.shared with sem := v }) (p := loadPtr c.shared.mem g.ptrProd)
      (a := c.shared.mem g.ptrAlphaNow) hv
    have hrun : Solo (processStep g) (fun _ => True) (0 : Fin 2) c.shared (c.loc 0) s
        ⟨.producer .head, true⟩ := by
      rw [h0]
      exact hstore.trans hend
    refine ⟨_, hc.trans (hrun.reachBy fun _ _ _ _ => trivial), ?_, hsem', ?_, ?_⟩
    · rw [Config.set_shared, hlen', hlen]
    · exact Config.set_loc_self ..
    · rw [Config.set_loc_of_ne (by decide)]
      exact h1

/-- The ring is filled, one letter is taken, and the next store follows `*ptr_prod` to
`ptr_alpha_now`. -/
theorem leaves_ring : ¬ ∀ (g : Segment) (m : ℕ → UInt8)
    (tr : List (Config (Fin 2) Shared Process × (Fin 2 × Event)))
    (c : Config (Fin 2) Shared Process),
    (children (Fin 2) g).Trace (initial g m oneAndOne) tr c →
      (∀ p ∈ tr, InRing g p.1 p.2) ∧ c.shared.taken <+: c.shared.stored := by
  intro h
  let g := page
  obtain ⟨c, hc, hlen, hsem, h0, h1⟩ := fills (g := g) (fun _ => 0) (le_refl sizeBuf)
  obtain ⟨s₁, htake, hkeep, hsem₁⟩ := consume_ends (g := g) (t := (1 : Fin 2)) hsem (by decide)
  obtain ⟨v, -, hstore⟩ := produce_stores (g := g) (t := (0 : Fin 2)) hsem₁ (by decide)
  let s₂ : Shared := { s₁ with sem := v }
  let x₂ : Process :=
    ⟨.producer (.store (loadPtr s₁.mem g.ptrProd) (s₁.mem g.ptrAlphaNow)), true⟩
  let c₁ : Config (Fin 2) Shared Process := c.set 1 s₁ ⟨.consumer .head, true⟩
  have htake : Solo (processStep g) (fun _ => True) (1 : Fin 2) c.shared (c.loc 1) s₁
      ⟨.consumer .head, true⟩ := by
    rw [h1]
    exact htake
  have hstore : Solo (processStep g) (fun _ => True) (0 : Fin 2) c₁.shared (c₁.loc 0) s₂ x₂ := by
    have hloc : c₁.loc 0 = ⟨.producer .head, true⟩ := by
      rw [Config.set_loc_of_ne (by decide)]
      exact h0
    rw [hloc]
    exact hstore
  obtain ⟨tr, htr, -⟩ := ((hc.trans (htake.reachBy fun _ _ _ _ => trivial)).trans
    (hstore.reachBy fun _ _ _ _ => trivial)).exists_trace
  have hlen₂ : (c₁.set 0 s₂ x₂).shared.stored.length = sizeBuf := by
    rw [Config.set_shared, ← hlen, ← hkeep]
  -- all the stores so far were in the ring, and the one that comes is not
  have hI := inv_reach (htr.reachBy (storesInRoom_of_length_le htr (le_of_eq hlen₂)))
  have hloc₂ : (c₁.set 0 s₂ x₂).loc 0 = x₂ := Config.set_loc_self ..
  obtain ⟨⟨s₃, x₃⟩, hs₃⟩ : ∃ p, processStep g (0 : Fin 2) .run (c₁.set 0 s₂ x₂).shared
      ((c₁.set 0 s₂ x₂).loc 0) = some p := by
    rw [hloc₂]
    exact ⟨_, rfl⟩
  have hring := (h g _ _ _ (htr.snoc_interleave hs₃)).1 _
    (List.mem_append_right _ (List.mem_singleton.mpr rfl))
  have hroom := (hI.inRing_iff 0 .run).mp hring rfl _ _ (congrArg Process.pc hloc₂)
  rw [hlen₂] at hroom
  exact Nat.lt_irrefl _ hroom

/-- One letter stored and taken. -/
theorem ring_iff_one : ∃ (tr : List (Config (Fin 2) Shared Process × (Fin 2 × Event)))
    (c : Config (Fin 2) Shared Process),
    (children (Fin 2) page).Trace
      (initial page (fun _ => 0) oneAndOne) tr c ∧
    c.shared.stored.length = 1 ∧ c.shared.taken <+: c.shared.stored := by
  have hrun : ((children (Fin 2) page).record
      (initial page (fun _ => 0) oneAndOne)
      (List.replicate 14 (0, .run) ++ List.replicate 10 (1, .run))).any
      (fun q => q.2.shared.stored.length = 1 && q.2.shared.taken.length = 1) = true := by
    decide +kernel
  obtain ⟨tr, c, htr, hp⟩ := Machine.exists_trace_of_record _
    (fun _ (c : Config (Fin 2) Shared Process) =>
      c.shared.stored.length = 1 && c.shared.taken.length = 1) hrun
  simp only [Bool.and_eq_true, decide_eq_true_eq] at hp
  have hroom := storesInRoom_of_length_le htr (by rw [hp.1]; decide)
  exact ⟨tr, c, htr, hp.1, ((ring_iff htr).mpr hroom).2⟩

end OsLabs.LesPc
