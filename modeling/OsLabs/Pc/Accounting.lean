import Mathlib.Data.Fin.VecNotation
import OsLabs.Concurrent.Owner
import OsLabs.Pc.Model

/-!
# Producers and consumers with `SEM_UNDO`: the accounting

`BEMPTY` is lowered by one process and raised by another, so an adjustment of `SEM_UNDO`
grows with every section its process has completed, and the termination of a process
that has completed one breaks the accounting. Where every process that terminates has
zero adjustments of `BEMPTY` and `BFULL`, the accounting holds in every state
(`accounting`): at most one process is inside a section, and its stage says what each
semaphore and each pointer still lacks (`Sound`).
-/

namespace OsLabs.Pc

open Concurrent

/-! ## The semaphore arrays -/

theorem semop_pProd {v w : SemNum → ℕ} : semop v pProd = some w ↔
    0 < v .bempty ∧ 0 < v .binary ∧
      w = Function.update (Function.update v .bempty (v .bempty - 1)) .binary
        (v .binary - 1) := by
  simp [pProd, @eq_comm _ w]

theorem semop_vProd {v w : SemNum → ℕ} : semop v vProd = some w ↔
    w = Function.update (Function.update v .binary (v .binary + 1)) .bfull (v .bfull + 1) := by
  simp [vProd, @eq_comm _ w]

theorem semop_pCons {v w : SemNum → ℕ} : semop v pCons = some w ↔
    0 < v .bfull ∧ 0 < v .binary ∧
      w = Function.update (Function.update v .bfull (v .bfull - 1)) .binary
        (v .binary - 1) := by
  simp [pCons, @eq_comm _ w]

theorem semop_vCons {v w : SemNum → ℕ} : semop v vCons = some w ↔
    w = Function.update (Function.update v .binary (v .binary + 1)) .bempty
      (v .bempty + 1) := by
  simp [vCons, @eq_comm _ w]

/-! ## The stages of a section -/

/-- Where a process stands in its section: what it has claimed, and what of its work the
shared memory shows. -/
inductive Stage
  | outside
  | cellClaimed
  | letterStored
  | prodAdvanced
  | letterClaimed
  | letterTaken
  | consAdvanced
deriving DecidableEq, Repr

def stage (x : Process) : Stage :=
  match x.pc with
  | .producer .loadPtr | .producer (.loadAlfa _) | .producer (.store _ _) => .cellClaimed
  | .producer .printPtr | .producer (.printCell _) | .producer .incLoad
  | .producer (.incStore _) => .letterStored
  | .producer .test | .producer .reset | .producer .alfaLoad | .producer (.alfaStore _)
  | .producer .signal | .producer .signalSleep => .prodAdvanced
  | .consumer .loadPtr | .consumer (.take _) => .letterClaimed
  | .consumer .incLoad | .consumer (.incStore _) => .letterTaken
  | .consumer .signal | .consumer .signalSleep => .consAdvanced
  | _ => .outside

namespace Stage

/-- `BINARY` is taken. -/
def busy : Stage → ℕ
  | .outside => 0
  | _ => 1

/-- A letter stored and not yet counted by `BFULL`, or counted out before it is taken. -/
def fullDebt : Stage → ℕ
  | .letterStored | .prodAdvanced | .letterClaimed => 1
  | _ => 0

/-- A cell claimed before the letter is stored, or free and not yet counted by `BEMPTY`. -/
def emptyDebt : Stage → ℕ
  | .cellClaimed | .letterTaken | .consAdvanced => 1
  | _ => 0

/-- A letter stored that `*prod_ptr` has not passed. -/
def prodLag : Stage → ℕ
  | .letterStored => 1
  | _ => 0

/-- A letter taken that `*cons_ptr` has not passed. -/
def consLag : Stage → ℕ
  | .letterTaken => 1
  | _ => 0

end Stage

/-- The calls by which a process enters and leaves its section. -/
inductive Crosses : List (SemBuf SemNum) → Stage → Stage → Prop
  | pProd : Crosses pProd .outside .cellClaimed
  | vProd : Crosses vProd .prodAdvanced .outside
  | pCons : Crosses pCons .outside .letterClaimed
  | vCons : Crosses vCons .consAdvanced .outside

/-! ## One step -/

/-- The pointers a process has read are those in the shared memory, and it does not
sleep in the call that ends its section. -/
def Fresh (s : Shared) (x : Process) : Prop :=
  match x.pc with
  | .producer (.loadAlfa p) | .producer (.store p _) | .producer (.printCell p)
  | .producer (.incStore p) => p = s.prodPtr
  | .consumer (.take p) | .consumer (.incStore p) => p = s.consPtr
  | .producer .signalSleep | .consumer .signalSleep => False
  | _ => True

/-- What a step can do: nothing the accounting sees, one of the four calls, the store or
the read of a cell, or an advance of a pointer. -/
inductive Move (s : Shared) (x : Process) : Shared → Process → Prop
  | quiet {cell : ℕ → Char} {alfa : Char} {x' : Process} (hx : stage x' = stage x)
      (hadj : x'.semadj = x.semadj) : Move s x { s with cell := cell, alfa := alfa } x'
  | call {ops : List (SemBuf SemNum)} {v : SemNum → ℕ} {x' : Process}
      (hv : semop s.sem ops = some v) (hx : Crosses ops (stage x) (stage x'))
      (hadj : x'.semadj = adjust x.semadj ops) : Move s x { s with sem := v } x'
  | store {cell : ℕ → Char} {x' : Process} (hx : stage x = .cellClaimed)
      (hx' : stage x' = .letterStored) (hadj : x'.semadj = x.semadj) :
      Move s x { s with cell := cell, stored := s.stored ++ [s.prodPtr] } x'
  | incProd {x' : Process} (hx : stage x = .letterStored) (hx' : stage x' = .prodAdvanced)
      (hadj : x'.semadj = x.semadj) : Move s x { s with prodPtr := s.prodPtr + 1 } x'
  | take {x' : Process} (hx : stage x = .letterClaimed) (hx' : stage x' = .letterTaken)
      (hadj : x'.semadj = x.semadj) : Move s x { s with taken := s.taken ++ [s.consPtr] } x'
  | incCons {x' : Process} (hx : stage x = .letterTaken) (hx' : stage x' = .consAdvanced)
      (hadj : x'.semadj = x.semadj) : Move s x { s with consPtr := s.consPtr + 1 } x'

/-- The step terminates its process, outside its section. -/
def Ended (s : Shared) (x : Process) (s' : Shared) (x' : Process) : Prop :=
  s' = { s with sem := undo s.sem x.semadj } ∧ stage x = .outside ∧ stage x' = .outside ∧
    x'.semadj = fun _ => 0

/-- A step is a move, or the termination that its event causes. -/
def Stepped (e : Event) (s : Shared) (x : Process) (s' : Shared) (x' : Process) : Prop :=
  (Move s x s' x' ∨ (exits e x = true ∧ Ended s x s' x')) ∧ Fresh s' x'

section Step

variable {s s' : Shared} {x x' : Process}

theorem callSemop_cases {ops : List (SemBuf SemNum)} {next : PC} {asleep : Option PC}
    (h : callSemop s x ops next asleep = some (s', x')) :
    (∃ v, semop s.sem ops = some v ∧ s' = { s with sem := v } ∧
      x' = { x with pc := next, semadj := adjust x.semadj ops }) ∨
      (semop s.sem ops = none ∧ s' = s ∧ ∃ pc, asleep = some pc ∧ x' = { x with pc := pc }) := by
  unfold callSemop at h
  cases hv : semop s.sem ops with
  | some v =>
    rw [hv] at h
    cases h
    exact Or.inl ⟨v, rfl, rfl, rfl⟩
  | none =>
    rw [hv] at h
    obtain ⟨pc, rfl, hpc⟩ := Option.map_eq_some_iff.mp h
    cases hpc
    exact Or.inr ⟨rfl, rfl, pc, rfl, rfl⟩

/-- The call that enters a section is applied, or its process sleeps outside. -/
theorem stepped_of_wait {ops : List (SemBuf SemNum)} {next : PC} {asleep : Option PC}
    (h : callSemop s x ops next asleep = some (s', x'))
    (hnext : ∀ adj, Crosses ops (stage x) (stage ⟨next, x.fSigint, adj⟩) ∧
      Fresh s' ⟨next, x.fSigint, adj⟩)
    (hsleep : ∀ pc, asleep = some pc → stage { x with pc := pc } = stage x ∧
      Fresh s' { x with pc := pc }) : Stepped .run s x s' x' := by
  rcases callSemop_cases h with ⟨v, hv, rfl, rfl⟩ | ⟨-, rfl, pc, hpc, rfl⟩
  · exact ⟨Or.inl <| .call hv (hnext _).1 rfl, (hnext _).2⟩
  · exact ⟨Or.inl <| .quiet (hsleep pc hpc).1 rfl, (hsleep pc hpc).2⟩

/-- The call that leaves a section raises two semaphores and never waits. -/
theorem stepped_of_signal {ops : List (SemBuf SemNum)} {next : PC} {asleep : Option PC}
    (h : callSemop s x ops next asleep = some (s', x')) (hgo : semop s.sem ops ≠ none)
    (hnext : ∀ adj, Crosses ops (stage x) (stage ⟨next, x.fSigint, adj⟩) ∧
      Fresh s' ⟨next, x.fSigint, adj⟩) : Stepped .run s x s' x' := by
  rcases callSemop_cases h with ⟨v, hv, rfl, rfl⟩ | ⟨hv, -⟩
  · exact ⟨Or.inl <| .call hv (hnext _).1 rfl, (hnext _).2⟩
  · exact absurd hv hgo

theorem vProd_goes_on (s : Shared) : semop s.sem vProd ≠ none := by
  rw [semop_vProd.mpr rfl]
  exact Option.some_ne_none _

theorem vCons_goes_on (s : Shared) : semop s.sem vCons ≠ none := by
  rw [semop_vCons.mpr rfl]
  exact Option.some_ne_none _

theorem producer_stepped {pc : ProdPC} (hpc : x.pc = .producer pc) (hx : Fresh s x)
    (h : producer s x pc = some (s', x')) : Stepped .run s x s' x' := by
  obtain ⟨_, fSigint, semadj⟩ := x
  subst hpc
  cases pc with
  | head =>
    cases fSigint with
    | true =>
      cases h
      exact ⟨Or.inl <| .quiet rfl rfl, trivial⟩
    | false =>
      cases h
      exact ⟨Or.inr ⟨rfl, rfl, rfl, rfl, rfl⟩, trivial⟩
  | wait =>
    refine stepped_of_wait h (fun _ => ⟨.pProd, trivial⟩) ?_
    rintro pc ⟨⟩
    exact ⟨rfl, trivial⟩
  | waitSleep =>
    refine stepped_of_wait h (fun _ => ⟨.pProd, trivial⟩) ?_
    rintro pc ⟨⟩
  | store p a =>
    cases h
    obtain rfl : p = s.prodPtr := hx
    exact ⟨Or.inl <| .store rfl rfl rfl, trivial⟩
  | incStore p =>
    cases h
    obtain rfl : p = s.prodPtr := hx
    exact ⟨Or.inl <| .incProd rfl rfl rfl, trivial⟩
  | test =>
    cases h
    by_cases hz : s.alfa = 'z'
    · rw [if_pos hz]
      exact ⟨Or.inl <| .quiet rfl rfl, trivial⟩
    · rw [if_neg hz]
      exact ⟨Or.inl <| .quiet rfl rfl, trivial⟩
  | signal =>
    have hcall : callSemop s _ vProd (.producer .head)
        (some (.producer .signalSleep)) = some (s', x') := h
    exact stepped_of_signal hcall (vProd_goes_on s) fun _ => ⟨.vProd, trivial⟩
  | signalSleep => exact hx.elim
  | loadAlfa p =>
    cases h
    exact ⟨Or.inl <| .quiet rfl rfl, hx⟩
  | loadPtr | printPtr | incLoad =>
    cases h
    exact ⟨Or.inl <| .quiet rfl rfl, rfl⟩
  | sleep | printCell p | reset | alfaLoad | alfaStore a =>
    cases h
    exact ⟨Or.inl <| .quiet rfl rfl, trivial⟩

theorem consumer_stepped {pc : ConsPC} (hpc : x.pc = .consumer pc) (hx : Fresh s x)
    (h : consumer s x pc = some (s', x')) : Stepped .run s x s' x' := by
  obtain ⟨_, fSigint, semadj⟩ := x
  subst hpc
  cases pc with
  | head =>
    cases fSigint with
    | true =>
      cases h
      exact ⟨Or.inl <| .quiet rfl rfl, trivial⟩
    | false =>
      cases h
      exact ⟨Or.inr ⟨rfl, rfl, rfl, rfl, rfl⟩, trivial⟩
  | wait =>
    refine stepped_of_wait h (fun _ => ⟨.pCons, trivial⟩) ?_
    rintro pc ⟨⟩
    exact ⟨rfl, trivial⟩
  | waitSleep =>
    refine stepped_of_wait h (fun _ => ⟨.pCons, trivial⟩) ?_
    rintro pc ⟨⟩
  | take p =>
    cases h
    obtain rfl : p = s.consPtr := hx
    exact ⟨Or.inl <| .take rfl rfl rfl, trivial⟩
  | incStore p =>
    cases h
    obtain rfl : p = s.consPtr := hx
    exact ⟨Or.inl <| .incCons rfl rfl rfl, trivial⟩
  | signal =>
    have hcall : callSemop s _ vCons (.consumer .head)
        (some (.consumer .signalSleep)) = some (s', x') := h
    exact stepped_of_signal hcall (vCons_goes_on s) fun _ => ⟨.vCons, trivial⟩
  | signalSleep => exact hx.elim
  | loadPtr | incLoad =>
    cases h
    exact ⟨Or.inl <| .quiet rfl rfl, rfl⟩
  | sleep =>
    cases h
    exact ⟨Or.inl <| .quiet rfl rfl, trivial⟩

/-- Only the calls that enter a section can be asleep. -/
theorem outside_of_asleep (hx : Fresh s x) (ha : x.pc.asleep = true) : stage x = .outside := by
  obtain ⟨pc, fSigint, semadj⟩ := x
  rcases pc with pc | pc | status
  · cases pc with
    | waitSleep => rfl
    | signalSleep => exact hx.elim
    | _ => cases ha
  · cases pc with
    | waitSleep => rfl
    | signalSleep => exact hx.elim
    | _ => cases ha
  · cases ha

theorem handler_stepped (hx : Fresh s x) (h : handler s x = (s', x')) :
    Stepped .sigint s x s' x' := by
  unfold handler at h
  split_ifs at h with ha
  · -- `EINTR`
    cases h
    exact ⟨Or.inr ⟨ha, rfl, outside_of_asleep hx ha, rfl, rfl⟩, trivial⟩
  · cases h
    exact ⟨Or.inl <| .quiet rfl rfl, hx⟩

theorem step_stepped {ι : Type} {t : ι} {e : Event} (hx : Fresh s x)
    (h : processStep t e s x = some (s', x')) : Stepped e s x s' x' := by
  unfold processStep at h
  split at h
  · cases h
  · exact handler_stepped hx (Option.some.inj h)
  · exact producer_stepped ‹_› hx h
  · exact consumer_stepped ‹_› hx h

/-- A step that is to terminate its process does. -/
theorem ended_of_exits {ι : Type} {t : ι} {e : Event} (he : exits e x = true)
    (hout : stage x = .outside) (h : processStep t e s x = some (s', x')) : Ended s x s' x' := by
  obtain ⟨pc, fSigint, semadj⟩ := x
  rcases e with _ | _
  · simp only [exits, Bool.and_eq_true, Bool.not_eq_true', Bool.or_eq_true,
      decide_eq_true_eq] at he
    obtain ⟨rfl | rfl, rfl⟩ := he
    · cases h
      exact ⟨rfl, rfl, rfl, rfl⟩
    · cases h
      exact ⟨rfl, rfl, rfl, rfl⟩
  · have hasleep : PC.asleep pc = true := he
    rcases pc with pc | pc | status
    · simp only [processStep, handler, hasleep, if_true] at h
      cases h
      exact ⟨rfl, hout, rfl, rfl⟩
    · simp only [processStep, handler, hasleep, if_true] at h
      cases h
      exact ⟨rfl, hout, rfl, rfl⟩
    · cases h

end Step

/-! ## What holds at each stage -/

/-- A move, from stage to stage. -/
inductive Turn (s : Shared) : Stage → Shared → Stage → Prop
  | quiet {g : Stage} {cell : ℕ → Char} {alfa : Char} :
      Turn s g { s with cell := cell, alfa := alfa } g
  | call {g g' : Stage} {ops : List (SemBuf SemNum)} {v : SemNum → ℕ}
      (hv : semop s.sem ops = some v) (hx : Crosses ops g g') : Turn s g { s with sem := v } g'
  | store {cell : ℕ → Char} :
      Turn s .cellClaimed { s with cell := cell, stored := s.stored ++ [s.prodPtr] } .letterStored
  | incProd : Turn s .letterStored { s with prodPtr := s.prodPtr + 1 } .prodAdvanced
  | take : Turn s .letterClaimed { s with taken := s.taken ++ [s.consPtr] } .letterTaken
  | incCons : Turn s .letterTaken { s with consPtr := s.consPtr + 1 } .consAdvanced

/-- `BINARY` and the pointers, with what the stage of the process in its section lacks; the
letters are stored and taken cell by cell. -/
structure Kept (s : Shared) (g : Stage) : Prop where
  binary : s.sem .binary + g.busy = 1
  prodPtr : s.prodPtr + g.prodLag = s.stored.length
  consPtr : s.consPtr + g.consLag = s.taken.length
  stored : s.stored = List.range s.stored.length
  taken : s.taken = List.range s.taken.length

/-- The same for `BFULL` and `BEMPTY`. -/
structure Sound (n : ℕ) (s : Shared) (g : Stage) : Prop extends Kept s g where
  bfull : s.sem .bfull + g.fullDebt + s.taken.length = s.stored.length
  bempty : s.sem .bempty + g.emptyDebt + s.stored.length = n + s.taken.length

section Turns

variable {n : ℕ} {s s' : Shared} {x x' : Process} {g g' : Stage}

theorem append_range {xs : List ℕ} {p : ℕ} (h : xs = List.range xs.length) (hp : p = xs.length) :
    xs ++ [p] = List.range (xs ++ [p]).length := by
  rw [List.length_append, List.length_singleton, List.range_succ, ← h, hp]

namespace Kept

/-- `BINARY` is positive only where nobody is inside. -/
theorem free (h : Kept s g) (hpos : 0 < s.sem .binary) : g = .outside := by
  have hb := h.binary
  cases g
  · rfl
  all_goals
    simp only [Stage.busy] at hb
    omega

/-- A move of the process inside leads to its next stage, and a process outside that
stays outside changes nothing. -/
theorem turn_of_move (h : Kept s g) (hown : stage x ≠ .outside → g = stage x)
    (hm : Move s x s' x') :
    ((stage x ≠ .outside ∨ g = .outside) ∧ Turn s g s' (stage x')) ∨
      (stage x = .outside ∧ stage x' = .outside ∧ Turn s g s' g) := by
  have hinside (hin : stage x ≠ .outside) (ht : Turn s (stage x) s' (stage x')) :
      (stage x ≠ .outside ∨ g = .outside) ∧ Turn s g s' (stage x') := by
    rw [hown hin]
    exact ⟨Or.inl hin, ht⟩
  -- whoever enters finds the section free
  have henter (hout : stage x = .outside) (hpos : 0 < s.sem .binary)
      (ht : Turn s (stage x) s' (stage x')) :
      (stage x ≠ .outside ∨ g = .outside) ∧ Turn s g s' (stage x') := by
    rw [h.free hpos]
    rw [hout] at ht
    exact ⟨Or.inr rfl, ht⟩
  rcases hm with ⟨hx, -⟩ | ⟨hv, hx, -⟩ | ⟨hx, hx', -⟩ | ⟨hx, hx', -⟩ | ⟨hx, hx', -⟩ | ⟨hx, hx', -⟩
  · by_cases hout : stage x = .outside
    · exact Or.inr ⟨hout, hx.trans hout, .quiet⟩
    · exact Or.inl (hinside hout (hx ▸ .quiet))
  · refine Or.inl ?_
    by_cases hout : stage x = .outside
    · refine henter hout ?_ (.call hv hx)
      rw [hout] at hx
      generalize stage x' = g1 at hx
      cases hx with
      | pProd => exact (semop_pProd.mp hv).2.1
      | pCons => exact (semop_pCons.mp hv).2.1
    · exact hinside hout (.call hv hx)
  · exact Or.inl (hinside (by rw [hx]; nofun) (hx ▸ hx' ▸ .store))
  · exact Or.inl (hinside (by rw [hx]; nofun) (hx ▸ hx' ▸ .incProd))
  · exact Or.inl (hinside (by rw [hx]; nofun) (hx ▸ hx' ▸ .take))
  · exact Or.inl (hinside (by rw [hx]; nofun) (hx ▸ hx' ▸ .incCons))

/-- New values that make up for the new stage. -/
theorem of_sem (h : Kept s g) {v : SemNum → ℕ}
    (hb : v .binary + g'.busy = s.sem .binary + g.busy) (hp : g'.prodLag = g.prodLag)
    (hc : g'.consLag = g.consLag) : Kept { s with sem := v } g' where
  binary := hb.trans h.binary
  prodPtr := by
    rw [hp]
    exact h.prodPtr
  consPtr := by
    rw [hc]
    exact h.consPtr
  stored := h.stored
  taken := h.taken

theorem turn (h : Kept s g) (ht : Turn s g s' g') : Kept s' g' := by
  cases ht with
  | quiet => exact { h with }
  | call hv hx =>
    cases hx with
    | pProd =>
      obtain ⟨-, hbin, rfl⟩ := semop_pProd.mp hv
      refine h.of_sem ?_ rfl rfl
      simp only [Stage.busy, Function.update_self]
      omega
    | vProd =>
      obtain rfl := semop_vProd.mp hv
      exact h.of_sem (by simp [Stage.busy]) rfl rfl
    | pCons =>
      obtain ⟨-, hbin, rfl⟩ := semop_pCons.mp hv
      refine h.of_sem ?_ rfl rfl
      simp only [Stage.busy, Function.update_self]
      omega
    | vCons =>
      obtain rfl := semop_vCons.mp hv
      exact h.of_sem (by simp [Stage.busy]) rfl rfl
  | store =>
    have hptr := h.prodPtr
    refine { h with prodPtr := ?_, stored := append_range h.stored hptr }
    simp only [Stage.prodLag, List.length_append, List.length_singleton] at hptr ⊢
    omega
  | take =>
    have hptr := h.consPtr
    refine { h with consPtr := ?_, taken := append_range h.taken hptr }
    simp only [Stage.consLag, List.length_append, List.length_singleton] at hptr ⊢
    omega
  | incProd | incCons => exact { h with }

end Kept

theorem Sound.turn (h : Sound n s g) (ht : Turn s g s' g') : Sound n s' g' := by
  have hkept := h.toKept.turn ht
  have hfull := h.bfull
  have hempty := h.bempty
  cases ht with
  | quiet | incProd | incCons => exact ⟨hkept, hfull, hempty⟩
  | call hv hx =>
    cases hx with
    | pProd =>
      obtain ⟨hpos, -, rfl⟩ := semop_pProd.mp hv
      refine ⟨hkept, hfull, ?_⟩
      simp [Stage.emptyDebt] at hempty ⊢
      omega
    | vProd =>
      obtain rfl := semop_vProd.mp hv
      refine ⟨hkept, ?_, hempty⟩
      simp [Stage.fullDebt] at hfull ⊢
      omega
    | pCons =>
      obtain ⟨hpos, -, rfl⟩ := semop_pCons.mp hv
      refine ⟨hkept, ?_, hempty⟩
      simp [Stage.fullDebt] at hfull ⊢
      omega
    | vCons =>
      obtain rfl := semop_vCons.mp hv
      refine ⟨hkept, hfull, ?_⟩
      simp [Stage.emptyDebt] at hempty ⊢
      omega
  | store =>
    refine ⟨hkept, ?_, ?_⟩
    · simp only [Stage.fullDebt, List.length_append, List.length_singleton] at hfull ⊢
      omega
    · simp only [Stage.emptyDebt, List.length_append, List.length_singleton] at hempty ⊢
      omega
  | take =>
    refine ⟨hkept, ?_, ?_⟩
    · simp only [Stage.fullDebt, List.length_append, List.length_singleton] at hfull ⊢
      omega
    · simp only [Stage.emptyDebt, List.length_append, List.length_singleton] at hempty ⊢
      omega

end Turns

/-! ## The adjustments -/

/-- What the kernel holds for a process: it gives back `BINARY` where it is inside, and the
adjustments of `BEMPTY` and `BFULL` cancel out up to the claim of the running section. -/
structure Adjusted (x : Process) : Prop where
  binary : x.semadj .binary = (stage x).busy
  bempty : x.semadj .bempty + x.semadj .bfull = (stage x).busy

theorem Adjusted.crosses {x x' : Process} {ops : List (SemBuf SemNum)} (h : Adjusted x)
    (hx : Crosses ops (stage x) (stage x')) (hadj : x'.semadj = adjust x.semadj ops) :
    Adjusted x' := by
  obtain ⟨hb, he⟩ := h
  constructor
  all_goals
    rw [hadj]
    generalize stage x = g0 at hx hb he
    generalize stage x' = g1 at hx
    rcases hx with _ | _ | _ | _ <;>
      simp [pProd, vProd, pCons, vCons, adjust, Function.update, Stage.busy] at hb he ⊢ <;> omega

theorem Adjusted.move {s s' : Shared} {x x' : Process} (h : Adjusted x)
    (hm : Move s x s' x') : Adjusted x' := by
  have hkeep (hadj : x'.semadj = x.semadj) (hbusy : (stage x').busy = (stage x).busy) :
      Adjusted x' := by
    constructor
    · rw [hadj, hbusy, h.binary]
    · rw [hadj, hbusy, h.bempty]
  rcases hm with ⟨hx, hadj⟩ | ⟨-, hx, hadj⟩ | ⟨hx, hx', hadj⟩ | ⟨hx, hx', hadj⟩ | ⟨hx, hx', hadj⟩ |
    ⟨hx, hx', hadj⟩
  · exact hkeep hadj (by rw [hx])
  · exact h.crosses hx hadj
  · exact hkeep hadj (by rw [hx, hx']; rfl)
  · exact hkeep hadj (by rw [hx, hx']; rfl)
  · exact hkeep hadj (by rw [hx, hx']; rfl)
  · exact hkeep hadj (by rw [hx, hx']; rfl)

/-! ## The invariant -/

section Invariant

variable {ι : Type} {n : ℕ} {c : Config ι Shared Process}

/-- At most one process is inside a section, and `P` holds at its stage. -/
structure Ordered (P : Shared → Stage → Prop) (c : Config ι Shared Process) : Prop where
  owner : ∃ g, Owner stage .outside c.loc g ∧ P c.shared g
  fresh : ∀ t, Fresh c.shared (c.loc t)
  adjusted : ∀ t, Adjusted (c.loc t)

abbrev Inv (n : ℕ) (c : Config ι Shared Process) : Prop := Ordered (Sound n) c

/-- The condition on a step: a process that terminates has zero adjustments of `BEMPTY`
and `BFULL`. -/
def ExitsClean (c : Config ι Shared Process) (a : ι × Event) : Prop :=
  exits a.2 (c.loc a.1) = true →
    (c.loc a.1).semadj .bempty = 0 ∧ (c.loc a.1).semadj .bfull = 0

theorem Fresh.congr {s s' : Shared} {x : Process} (h : Fresh s x)
    (hp : s'.prodPtr = s.prodPtr) (hc : s'.consPtr = s.consPtr) : Fresh s' x := by
  unfold Fresh at h ⊢
  rw [hp, hc]
  exact h

theorem Fresh.of_outside {s : Shared} {x : Process} (h : Fresh s x) (hx : stage x = .outside)
    (s' : Shared) : Fresh s' x := by
  obtain ⟨pc, fSigint, semadj⟩ := x
  rcases pc with pc | pc | status
  · cases pc <;> trivial
  · cases pc <;> trivial
  · trivial

theorem Move.pointers {s s' : Shared} {x x' : Process} (hm : Move s x s' x')
    (hout : stage x = .outside) : s'.prodPtr = s.prodPtr ∧ s'.consPtr = s.consPtr := by
  rcases hm with _ | _ | _ | ⟨hx, -⟩ | _ | ⟨hx, -⟩
  · exact ⟨rfl, rfl⟩
  · exact ⟨rfl, rfl⟩
  · exact ⟨rfl, rfl⟩
  · rw [hout] at hx
    cases hx
  · exact ⟨rfl, rfl⟩
  · rw [hout] at hx
    cases hx

/-- The termination of a process with no adjustments leaves the values as they are. -/
theorem undo_of_clean {v : SemNum → ℕ} {adj : SemNum → ℤ} (h : ∀ k, adj k = 0) :
    undo v adj = v := by
  funext k
  exact undo_of_eq_zero (h k)

theorem ordered_initial {P : Shared → Stage → Prop} (n : ℕ) (role : ι → Role)
    (h : P (initial n role).shared .outside) : Ordered P (initial n role) := by
  have hout (t : ι) : stage ((initial n role).loc t) = .outside := by
    simp only [initial]
    cases role t <;> rfl
  refine ⟨⟨.outside, Owner.nobody hout, h⟩, ?_, ?_⟩
  · intro t
    simp only [initial]
    cases role t <;> trivial
  · intro t
    constructor
    · rw [hout]
      rfl
    · rw [hout]
      rfl

theorem kept_initial (n : ℕ) (role : ι → Role) : Kept (initial n role).shared .outside :=
  ⟨rfl, rfl, rfl, rfl, rfl⟩

theorem inv_initial (n : ℕ) (role : ι → Role) : Inv n (initial n role) :=
  ordered_initial n role ⟨kept_initial n role, rfl, rfl⟩

namespace Ordered

variable [DecidableEq ι] {P : Shared → Stage → Prop} {t : ι} {e : Event} {s : Shared}
  {x : Process}

theorem fresh_set (hO : Ordered P c) (hx : Fresh s x)
    (hptr : stage (c.loc t) = .outside →
      s.prodPtr = c.shared.prodPtr ∧ s.consPtr = c.shared.consPtr) (u : ι) :
    Fresh s ((c.set t s x).loc u) := by
  obtain ⟨g, howner, -⟩ := hO.owner
  refine Config.forall_set (P := fun _ => Fresh s) hx ?_ u
  intro u hu
  by_cases hout : stage (c.loc t) = .outside
  · exact (hO.fresh u).congr (hptr hout).1 (hptr hout).2
  · exact (hO.fresh u).of_outside (howner.out_of_ne hout hu) s

theorem adjusted_set (hO : Ordered P c) (hx : Adjusted x) (u : ι) :
    Adjusted ((c.set t s x).loc u) :=
  Config.forall_set (P := fun _ => Adjusted) hx (fun u _ => hO.adjusted u) u

omit [DecidableEq ι] in
/-- A process that is outside gives no adjustment of `BINARY` back. -/
theorem binary_eq_zero (hO : Ordered P c) (hout : stage (c.loc t) = .outside) :
    (c.loc t).semadj .binary = 0 := by
  rw [(hO.adjusted t).binary, hout]
  rfl

/-- What the moves keep, and the terminations, is kept by the steps. -/
theorem step (hO : Ordered P c) (hkept : ∀ g, P c.shared g → Kept c.shared g)
    (hturn : ∀ g s' g', P c.shared g → Turn c.shared g s' g' → P s' g')
    (hexit : ∀ g, P c.shared g → exits e (c.loc t) = true → stage (c.loc t) = .outside →
      P { c.shared with sem := undo c.shared.sem (c.loc t).semadj } g)
    (h : Stepped e c.shared (c.loc t) s x) : Ordered P (c.set t s x) := by
  obtain ⟨g, howner, hP⟩ := hO.owner
  obtain ⟨hm | ⟨hexits, rfl, hout, hout', hadj⟩, hfresh⟩ := h
  · refine ⟨?_, hO.fresh_set hfresh hm.pointers, hO.adjusted_set ((hO.adjusted t).move hm)⟩
    rcases (hkept g hP).turn_of_move howner.eq_stage hm with ⟨hin, ht⟩ | ⟨hout, hout', ht⟩
    · exact ⟨_, howner.move hin, hturn g _ _ hP ht⟩
    · exact ⟨g, howner.stay hout hout', hturn g _ _ hP ht⟩
  · refine ⟨⟨g, howner.stay hout hout', hexit g hP hexits hout⟩,
      hO.fresh_set hfresh fun _ => ⟨rfl, rfl⟩, hO.adjusted_set ?_⟩
    constructor
    · rw [hadj, hout']
      rfl
    · rw [hadj, hout']
      rfl

end Ordered

variable [DecidableEq ι]

theorem Inv.step (hI : Inv n c) {t : ι} {e : Event} {s : Shared} {x : Process}
    (hc : ExitsClean c (t, e)) (h : Stepped e c.shared (c.loc t) s x) : Inv n (c.set t s x) := by
  refine Ordered.step hI (fun _ hs => hs.toKept) (fun _ _ _ hs ht => hs.turn ht) ?_ h
  intro g hs hexits hout
  have hclean (k : SemNum) : (c.loc t).semadj k = 0 := by
    cases k
    · exact hI.binary_eq_zero hout
    · exact (hc hexits).1
    · exact (hc hexits).2
  rw [undo_of_clean hclean]
  exact hs

theorem inv_reach {role : ι → Role}
    (h : (children ι).ReachBy ExitsClean (initial n role) c) : Inv n c := by
  apply h.interleave_invariant (inv_initial n role)
  intro c t e s x hI hc hstep
  exact hI.step hc (step_stepped (hI.fresh t) hstep)

end Invariant

/-! ## The accounting -/

section Accounting

variable {ι : Type} {n : ℕ} {c : Config ι Shared Process}

/-- The cells with a letter stored and not yet taken. -/
def untaken (s : Shared) : List ℕ := s.stored.filter (· ∉ s.taken)

/-- With nobody inside, `BFULL` is the number of letters stored and not yet taken and
`BEMPTY` the rest of the buffer; a consumer is about to take a letter that is there, and a
producer stores over none. -/
structure Accounted (n : ℕ) (c : Config ι Shared Process) : Prop where
  counts : (∀ t, stage (c.loc t) = .outside) →
    c.shared.sem .bfull = (untaken c.shared).length ∧
      c.shared.sem .bempty + (untaken c.shared).length = n
  filled : ∀ t p, (c.loc t).pc = .consumer (.take p) → p ∈ untaken c.shared
  free : ∀ t p a, (c.loc t).pc = .producer (.store p a) → p ∉ untaken c.shared

theorem length_filter_range (m k : ℕ) :
    ((List.range k).filter (· ∉ List.range m)).length = k - m := by
  induction k with
  | zero => simp
  | succ k ih =>
    rw [List.range_succ, List.filter_append, List.length_append, ih]
    by_cases hk : m ≤ k
    · simp [hk]
      omega
    · simp [hk]
      omega

theorem Sound.length_untaken {s : Shared} {g : Stage} (h : Sound n s g) :
    (untaken s).length + s.taken.length = s.stored.length := by
  have hle := h.bfull
  unfold untaken
  rw [h.stored, h.taken]
  have hlen := length_filter_range s.taken.length s.stored.length
  simp only [List.length_range] at hlen ⊢
  omega

theorem Sound.mem_untaken {s : Shared} {g : Stage} (h : Sound n s g) {p : ℕ} :
    p ∈ untaken s ↔ p < s.stored.length ∧ s.taken.length ≤ p := by
  unfold untaken
  rw [List.mem_filter, h.stored, h.taken]
  simp

/-- The stage of a process inside is that of the accounting. -/
theorem Inv.sound_of_stage (hI : Inv n c) {t : ι} {g : Stage} (hstage : stage (c.loc t) = g)
    (hin : g ≠ .outside) : Sound n c.shared g := by
  obtain ⟨g', howner, hs⟩ := hI.owner
  rw [← hstage] at hin ⊢
  rw [← howner.eq_stage hin]
  exact hs

/-- The letter is stored in the cell behind those stored so far. -/
theorem Inv.store_eq (hI : Inv n c) {t : ι} {p : ℕ} {a : Char}
    (hpc : (c.loc t).pc = .producer (.store p a)) :
    Sound n c.shared .cellClaimed ∧ p = c.shared.stored.length := by
  have hs := hI.sound_of_stage (t := t) (g := .cellClaimed) (by simp [stage, hpc]) nofun
  have hptr : p = c.shared.prodPtr := by
    have := hI.fresh t
    rwa [Fresh, hpc] at this
  exact ⟨hs, hptr.trans hs.prodPtr⟩

/-- The letter is taken from the cell behind those taken so far. -/
theorem Inv.take_eq (hI : Inv n c) {t : ι} {p : ℕ}
    (hpc : (c.loc t).pc = .consumer (.take p)) :
    Sound n c.shared .letterClaimed ∧ p = c.shared.taken.length := by
  have hs := hI.sound_of_stage (t := t) (g := .letterClaimed) (by simp [stage, hpc]) nofun
  have hptr : p = c.shared.consPtr := by
    have := hI.fresh t
    rwa [Fresh, hpc] at this
  exact ⟨hs, hptr.trans hs.consPtr⟩

/-- A letter that is being taken has been stored. -/
theorem Sound.taken_lt {s : Shared} (h : Sound n s .letterClaimed) :
    s.taken.length < s.stored.length := by
  have hfull := h.bfull
  simp only [Stage.fullDebt] at hfull
  omega

theorem Inv.accounted (hI : Inv n c) : Accounted n c := by
  constructor
  · intro hout
    obtain ⟨g, howner, hs⟩ := hI.owner
    obtain rfl := howner.of_out hout
    have hlen := hs.length_untaken
    have hfull := hs.bfull
    have hempty := hs.bempty
    simp only [Stage.fullDebt, Stage.emptyDebt] at hfull hempty
    exact ⟨by omega, by omega⟩
  · intro t p hpc
    obtain ⟨hs, rfl⟩ := hI.take_eq hpc
    exact hs.mem_untaken.mpr ⟨hs.taken_lt, Nat.le_refl _⟩
  · intro t p a hpc
    obtain ⟨hs, rfl⟩ := hI.store_eq hpc
    rw [hs.mem_untaken]
    omega

variable [DecidableEq ι]

/-- With nobody inside, a termination that does not meet the condition breaks the
accounting: one of the two adjustments is positive. -/
theorem Inv.clean_of_accounted (hI : Inv n c) (hout : ∀ u, stage (c.loc u) = .outside) {t : ι}
    {s : Shared} {x : Process} (hend : Ended c.shared (c.loc t) s x)
    (hacc : Accounted n (c.set t s x)) :
    (c.loc t).semadj .bempty = 0 ∧ (c.loc t).semadj .bfull = 0 := by
  obtain ⟨rfl, -, hout', -⟩ := hend
  have hout_set (u : ι) : stage ((c.set t { c.shared with
      sem := undo c.shared.sem (c.loc t).semadj } x).loc u) = .outside :=
    Config.forall_set (P := fun _ y => stage y = .outside) hout' (fun u _ => hout u) u
  obtain ⟨hfull, hempty⟩ := hI.accounted.counts hout
  have hcounts : undo c.shared.sem (c.loc t).semadj .bfull = (untaken c.shared).length ∧
      undo c.shared.sem (c.loc t).semadj .bempty + (untaken c.shared).length = n :=
    hacc.counts hout_set
  have hcancel := (hI.adjusted t).bempty
  rw [hout t] at hcancel
  simp only [undo, Stage.busy] at hcounts hcancel
  omega

/-- **The accounting.** For any number of producers and consumers, every interleaving of
their `semop` calls and SIGINT delivered to any process at any time: in a run in which no
process terminates with adjustments of `BEMPTY` or `BFULL`, the accounting holds in every
state. And a step from a state of such a run with nobody inside keeps the accounting
exactly when it meets the condition. -/
theorem accounting {role : ι → Role}
    (h : (children ι).ReachBy ExitsClean (initial n role) c) :
    Accounted n c ∧ ∀ t e c', (∀ u, stage (c.loc u) = .outside) →
      (children ι).next c (t, e) = some c' → (Accounted n c' ↔ ExitsClean c (t, e)) := by
  have hI := inv_reach h
  refine ⟨hI.accounted, ?_⟩
  intro t e c' hout hnext
  constructor
  · intro hacc hexit
    obtain ⟨s, x, hstep, rfl⟩ := interleave_next.mp hnext
    exact hI.clean_of_accounted hout (ended_of_exits hexit (hout t) hstep) hacc
  · intro hclean
    exact (inv_reach (h.step hclean hnext)).accounted

/-- One producer and one consumer. -/
def oneAndOne : Fin 2 → Role := ![.producer, .consumer]

/-- One producer and two consumers. -/
def oneAndTwo : Fin 3 → Role := ![.producer, .consumer, .consumer]

instance (c : Config ι Shared Process) (a : ι × Event) : Decidable (ExitsClean c a) :=
  inferInstanceAs (Decidable (exits a.2 (c.loc a.1) = true → _))

/-- The steps of `producer` up to the end of its first section. -/
def produceOne {ι : Type} (p : ι) : List (ι × Event) := List.replicate 14 (p, .run)

/-- A consumer leaves before it has taken anything; the other stands at the first letter. -/
theorem accounting_clean_exit : ∃ c : Config (Fin 3) Shared Process,
    (c.loc 1).pc = .consumer (.take 0) ∧ 0 ∈ untaken c.shared := by
  have hrun : ((children (Fin 3)).exec ExitsClean (initial 10 oneAndTwo)
      ((2, .sigint) :: (2, .run) :: produceOne 0 ++ List.replicate 4 (1, .run))).any
      (fun c => (c.loc 1).pc = .consumer (.take 0)) = true := by decide
  obtain ⟨c, hc, hp⟩ := Machine.exists_reachBy_of_exec _ _ hrun
  have hpc : (c.loc 1).pc = .consumer (.take 0) := by simpa using hp
  exact ⟨c, hpc, (accounting hc).1.filled 1 0 hpc⟩

/-- The producer stores one letter, a consumer takes it and leaves on SIGINT: its
adjustment raises `BFULL` to 1 with no letter in the buffer, and the other consumer takes
a cell that was never filled. -/
theorem unclean_exit :
    (∃ c : Config (Fin 3) Shared Process, (children (Fin 3)).Reach (initial 10 oneAndTwo) c ∧
      ¬ Accounted 10 c ∧ (∀ t, stage (c.loc t) = .outside) ∧ c.shared.sem .bfull = 1 ∧
        untaken c.shared = []) ∧
    ∃ c : Config (Fin 3) Shared Process, (children (Fin 3)).Reach (initial 10 oneAndTwo) c ∧
      (c.loc 2).pc = .consumer (.take 1) ∧ 1 ∉ c.shared.stored := by
  have hleave : ((children (Fin 3)).run (initial 10 oneAndTwo) (produceOne 0 ++
      List.replicate 8 (1, .run) ++ [(1, .sigint), (1, .run)])).any
      (fun c => (∀ t, stage (c.loc t) = .outside) ∧ c.shared.sem .bfull = 1 ∧
        untaken c.shared = []) = true := by decide
  have htake : ((children (Fin 3)).run (initial 10 oneAndTwo) (produceOne 0 ++
      List.replicate 8 (1, .run) ++ [(1, .sigint), (1, .run)] ++
      List.replicate 4 (2, .run))).any
      (fun c => (c.loc 2).pc = .consumer (.take 1) ∧ 1 ∉ c.shared.stored) = true := by decide
  obtain ⟨c, hc, hp⟩ := Machine.exists_reach_of_run _ _ hleave
  obtain ⟨c', hc', hp'⟩ := Machine.exists_reach_of_run _ _ htake
  obtain ⟨hout, hone, hnil⟩ : (∀ t, stage (c.loc t) = .outside) ∧ c.shared.sem .bfull = 1 ∧
      untaken c.shared = [] := by simpa using hp
  refine ⟨⟨c, hc, ?_, hout, hone, hnil⟩, c', hc', by simpa using hp'⟩
  intro hacc
  have hfull := (hacc.counts hout).1
  rw [hone, hnil] at hfull
  cases hfull

end Accounting

end OsLabs.Pc
