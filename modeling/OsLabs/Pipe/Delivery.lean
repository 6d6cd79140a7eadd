import OsLabs.Concurrent.Termination
import OsLabs.Pipe.Messages

/-!
# Messages through a pipe: delivery

Both programs come to an end, and the parent has then read every byte that was written once,
in the order of the writes, and found the end of the pipe with its last read (`delivered`).
It has printed what it read in the order of the texts, though, and so under the right pid
only where the children wrote in that order (`attributed_iff`).
-/

namespace OsLabs.Pipe

open Concurrent Bytes

variable {p : Program} {c c' : Config Index Shared Child} {stack : ℕ → UInt8}

/-! ## Coming to an end -/

/-- A step of the parent or of a child. -/
def own : Action → Bool
  | .sigint _ => false
  | _ => true

/-- The parent has ended, and no child runs. -/
def Finished (c : Config Index Shared Child) : Prop :=
  (c.shared.pc = .exited ∨ c.shared.pc = .killed) ∧ ∀ i pc flag, c.loc i ≠ .running pc flag

/-- The steps that a child can make at most. -/
def Child.rank : Child → ℕ
  | .running .head _ | .unborn => 5
  | .running .closeRead _ => 4
  | .running .write _ => 3
  | .running .closeWrite _ => 2
  | .running .exit _ => 1
  | _ => 0

/-- The steps that the parent can make at most. -/
def PC.rank : PC → ℕ
  | .fork i => texts.length - i + 5 * texts.length + 3
  | .wait i => texts.length - i + 4 * texts.length + 3
  | .close i => 4 * (texts.length - i) + 3
  | .read i => 4 * (texts.length - i) + 2
  | .print i => 4 * (texts.length - i) + 1
  | .clear i => 4 * (texts.length - i)
  | .lastClose => 3
  | .lastRead => 2
  | .lastPrint => 1
  | .exited | .killed => 0

def rank (c : Config Index Shared Child) : ℕ := c.shared.pc.rank + ∑ i, (c.loc i).rank

theorem childStep_rank (i : Index) (s : Shared) (r flag : Bool) (pc : ChildPC) :
    (childStep p i s r flag pc).2.rank + 1 ≤ (Child.running pc flag).rank := by
  cases pc with
  | head =>
    cases p with
    | prog4 => exact (by decide : 4 + 1 ≤ 5)
    | prog5 =>
      cases flag with
      | false => exact (by decide : 1 + 1 ≤ 5)
      | true => exact (by decide : 4 + 1 ≤ 5)
  | write =>
    cases r with
    | false => exact (by decide : 0 + 1 ≤ 3)
    | true =>
      cases p with
      | prog4 => exact (by decide : 2 + 1 ≤ 3)
      | prog5 => exact (by decide : 1 + 1 ≤ 3)
  | closeRead => exact (by decide : 3 + 1 ≤ 4)
  | closeWrite => exact (by decide : 1 + 1 ≤ 2)
  | exit => exact (by decide : 0 + 1 ≤ 1)

theorem sigintChild_rank {x x' : Child} (h : sigintChild p x = some x') : x'.rank ≤ x.rank := by
  obtain ⟨pc, flag, rfl, rfl | rfl⟩ := sigintChild_spec h
  · exact Nat.zero_le _
  · cases pc with
    | _ => exact Nat.le_refl _

theorem forkLoop_rank (i : Index) : (forkLoop (i + 1)).rank + 1 ≤ (PC.fork i).rank := by
  have hi := i.isLt
  unfold forkLoop
  split
  next h =>
    simp only [PC.rank]
    omega
  next h =>
    simp only [PC.rank]
    omega

theorem waitLoop_rank {i : ℕ} (hi : i < texts.length) :
    (waitLoop (i + 1)).rank + 1 ≤ (PC.wait i).rank := by
  unfold waitLoop
  split
  next h =>
    simp only [PC.rank]
    omega
  next h =>
    simp only [PC.rank]
    omega

theorem readLoop_rank {i : ℕ} (hi : i < texts.length) :
    (readLoop (i + 1)).rank + 1 ≤ (PC.clear i).rank := by
  unfold readLoop
  split
  next h =>
    simp only [PC.rank]
    omega
  next h =>
    simp only [PC.rank]
    omega

theorem receive_rank (hB : Books c) {held : Bool} {s : Shared}
    (h : receive held c.shared = some s) : s.pc.rank + 1 ≤ c.shared.pc.rank := by
  have hturn := hB.turn
  unfold receive at h
  cases hs : c.shared.pc with
  | close i | print i | lastClose | lastPrint =>
    rw [hs] at h
    cases h
    exact Nat.le_refl _
  | clear i =>
    rw [hs] at h hturn
    cases h
    exact readLoop_rank (hturn i rfl)
  | read i | lastRead =>
    rw [hs] at h
    obtain ⟨s₁, -, rfl⟩ := Option.map_eq_some_iff.mp h
    exact Nat.le_refl _
  | fork i | wait i | exited | killed =>
    rw [hs] at h
    cases h

/-- A step of the parent or of a child lowers the rank, and SIGINT does not raise it. -/
theorem rank_move (hB : Books c) {a : Action} (hm : Move p c a c') :
    rank c' + (own a).toNat ≤ rank c := by
  cases hm with
  | child i pc flag h =>
    obtain ⟨pipe, writes, hs⟩ := childStep_frame p i c.shared (readable c) flag pc
    have hpc : (childStep p i c.shared (readable c) flag pc).1.pc = c.shared.pc := by rw [hs]
    have hrank := childStep_rank (p := p) i c.shared (readable c) flag pc
    rw [← h] at hrank
    have hsum := sum_rank_set (s := (childStep p i c.shared (readable c) flag pc).1) hrank
    unfold rank
    rw [Config.set_shared, hpc, Nat.add_assoc]
    exact Nat.add_le_add_left hsum _
  | fork z i h =>
    have hi : c.loc i = .unborn := by
      apply (hB.children.unborn (by rw [h]; exact nofun) i).mpr
      rw [h]
      exact Nat.le_refl _
    have hsum := sum_rank_set (c := c) (t := i) (r := Child.rank) (k := 0)
      (s := { c.shared with pc := forkLoop (i + 1) }) (x := .running .head c.shared.flag)
      (by rw [hi]; exact Nat.le_refl _)
    have hpc := forkLoop_rank i
    rw [← h] at hpc
    show (forkLoop (i + 1)).rank + _ + 1 ≤ c.shared.pc.rank + _
    omega
  | wait z i signaled h hz =>
    have hlt : i < texts.length := by
      have hrange := hB.children.inRange
      rw [h] at hrange
      exact hrange
    have hsum := sum_rank_set (c := c) (t := z) (r := Child.rank) (k := 0)
      (s := { c.shared with pc := waitLoop (i + 1) }) (x := .reaped) (Nat.zero_le _)
    have hpc := waitLoop_rank hlt
    rw [← h] at hpc
    show (waitLoop (i + 1)).rank + _ + 1 ≤ c.shared.pc.rank + _
    omega
  | receive z s h =>
    have hpc := receive_rank hB h
    show s.pc.rank + _ + 1 ≤ c.shared.pc.rank + _
    rw [Nat.add_right_comm]
    exact Nat.add_le_add_right hpc _
  | sigintParent s h =>
    obtain ⟨-, rfl | rfl⟩ := sigintParent_spec h
    · exact Nat.add_le_add_right (Nat.zero_le _) _
    · exact Nat.le_refl _
  | sigintChild i x h =>
    have hrank : x.rank + 0 ≤ (c.loc i).rank := sigintChild_rank h
    exact Nat.add_le_add_left (sum_rank_set (s := c.shared) hrank) _

/-- The parent is at a `read`. -/
def PC.atRead : PC → Bool
  | .read _ | .lastRead => true
  | _ => false

/-- At a `read` the parent has closed its write end. -/
def Closed (s : Shared) : Prop := s.pc.atRead = true → s.writeEnd = false

theorem Closed.of_not_atRead {s : Shared} (h : s.pc.atRead = false) : Closed s :=
  fun h' => absurd (h.symm.trans h') nofun

theorem receive_closed {held : Bool} {s s' : Shared} (h : receive held s = some s') :
    Closed s' := by
  unfold receive at h
  cases hs : s.pc with
  | close i | lastClose =>
    rw [hs] at h
    cases h
    exact fun _ => rfl
  | print i | lastPrint =>
    rw [hs] at h
    cases h
    exact nofun
  | clear i =>
    rw [hs] at h
    cases h
    apply Closed.of_not_atRead
    show (readLoop (i + 1)).atRead = false
    unfold readLoop
    split <;> rfl
  | read i | lastRead =>
    rw [hs] at h
    obtain ⟨s₁, -, rfl⟩ := Option.map_eq_some_iff.mp h
    exact nofun
  | fork i | wait i | exited | killed =>
    rw [hs] at h
    cases h

theorem Closed.move {a : Action} (hc : Closed c.shared) (hm : Move p c a c') :
    Closed c'.shared := by
  cases hm with
  | child i pc flag h =>
    obtain ⟨pipe, writes, hs⟩ := childStep_frame p i c.shared (readable c) flag pc
    rw [Config.set_shared, hs]
    exact hc
  | fork z i h =>
    apply Closed.of_not_atRead
    show (forkLoop (i + 1)).atRead = false
    unfold forkLoop
    split <;> rfl
  | wait z i signaled h hz =>
    apply Closed.of_not_atRead
    show (waitLoop (i + 1)).atRead = false
    unfold waitLoop
    split <;> rfl
  | receive z s h => exact receive_closed h
  | sigintParent s h =>
    obtain ⟨-, rfl | rfl⟩ := sigintParent_spec h
    · exact fun _ => rfl
    · exact hc
  | sigintChild i x h => exact hc

/-- While the parent waits, some child has not been reaped. -/
theorem Children.exists_not_reaped (hC : Children c) {i : ℕ} (h : c.shared.pc = .wait i) :
    ∃ z, c.loc z ≠ .reaped := by
  by_contra hall
  have hcount : count Child.isReaped c.loc = Fintype.card Index := by
    apply count_eq_card_iff.mpr
    intro z
    have hz : c.loc z = .reaped := by
      by_contra hz
      exact hall ⟨z, hz⟩
    rw [hz]
    rfl
  have hrange := hC.inRange
  have hreaped := hC.reaped (by rw [h]; exact nofun)
  rw [h] at hrange hreaped
  rw [hreaped, Fintype.card_fin] at hcount
  exact Nat.ne_of_lt hrange hcount

/-- Behind its `wait`s the parent goes on to its end. -/
theorem exists_receive (hB : Books c) (hc : Closed c.shared)
    (hpc : c.shared.pc.receiving = true) (hne : c.shared.pc ≠ .exited) :
    receive (held p c) c.shared ≠ none := by
  have hread : c.shared.pc.atRead = true → ∀ n, readPipe c.shared (held p c) n ≠ none := by
    intro hat n
    have hheld : held p c = false := by
      unfold held
      rw [hc hat, Bool.false_or, List.any_eq_false]
      intro i _
      rw [hB.children.all_reaped hpc i]
      cases p with
      | _ => exact nofun
    unfold readPipe
    rw [if_neg (by rw [hheld]; exact fun h => absurd h.2 nofun)]
    exact nofun
  unfold receive
  cases hs : c.shared.pc with
  | close i | print i | clear i | lastClose | lastPrint => exact nofun
  | read i | lastRead =>
    rw [hs] at hread
    exact fun h => hread rfl _ (Option.map_eq_none_iff.mp h)
  | exited => exact absurd hs hne
  | fork i | wait i | killed =>
    rw [hs] at hpc
    cases hpc

/-- Where neither the parent nor a child can make a step, both programs have ended. -/
theorem finished_of_stuck (hB : Books c) (hc : Closed c.shared)
    (hnone : ∀ a, own a = true → (main p).next c a = none) : Finished c := by
  have hchild : ∀ i pc flag, c.loc i ≠ .running pc flag := by
    intro i pc flag hi
    have hn := hnone (.child i) rfl
    simp only [main, hi] at hn
    cases hn
  refine ⟨?_, hchild⟩
  have hparent : ∀ z, parentStep p z c = none := fun z => hnone (.parent z) rfl
  by_contra hend
  rw [not_or] at hend
  by_cases hpc : c.shared.pc.receiving = true
  · have hn := hparent ⟨0, by decide⟩
    have hreceive := exists_receive (p := p) hB hc hpc hend.1
    unfold parentStep at hn
    split at hn
    next i h =>
      rw [h] at hpc
      cases hpc
    next i h =>
      rw [h] at hpc
      cases hpc
    next => exact hreceive (Option.map_eq_none_iff.mp hn)
  · cases hs : c.shared.pc with
    | fork i =>
      have hlt : i < texts.length := by
        have hrange := hB.children.inRange
        rw [hs] at hrange
        exact hrange
      have hn := hparent ⟨i, hlt⟩
      unfold parentStep at hn
      simp only [hs, dif_pos hlt] at hn
      cases hn
    | wait i =>
      obtain ⟨z, hz⟩ := hB.children.exists_not_reaped hs
      have hborn : c.loc z ≠ .unborn := by
        intro hx
        have hle := (hB.children.unborn hend.2 z).mp hx
        rw [hs] at hle
        exact Nat.not_le.mpr z.isLt hle
      have hn := hparent z
      unfold parentStep at hn
      simp only [hs] at hn
      cases hx : c.loc z with
      | unborn => exact hborn hx
      | running pc flag => exact hchild z pc flag hx
      | ended signaled =>
        rw [hx] at hn
        cases hn
      | reaped => exact hz hx
    | killed => exact hend.2 hs
    | _ =>
      rw [hs] at hpc
      exact hpc rfl

theorem windsDown (p : Program) (stack : ℕ → UInt8) :
    (main p).WindsDown own Finished 25 (start stack) := by
  have hwinds : (main p).WindsDown own Finished (rank (start stack)) (start stack) := by
    apply Machine.windsDown_of_rank (I := fun c => Books c ∧ Closed c.shared)
    · exact ⟨books_start stack, nofun⟩
    · intro c a c' hI hn
      have hm := move_of_next hn
      exact ⟨⟨hI.1.move hm, hI.2.move hm⟩, rank_move hI.1 hm⟩
    · exact fun c hI => finished_of_stuck hI.1 hI.2
  exact hwinds

/-! ## What has been received -/

/-- Both programs come to an end, after 25 steps at most. Where the parent exits, every child
has been reaped; its three reads have returned, in order, every byte that was written, and
the last of them nothing. Every message it has printed begins with what was read for it, and
the last is empty. -/
theorem delivered (p : Program) (stack : ℕ → UInt8) :
    (main p).WindsDown own Finished 25 (start stack) ∧
    ∀ c, (main p).Reach (start stack) c → c.shared.pc = .exited →
      (∀ i, c.loc i = .reaped) ∧ c.shared.writes.Nodup ∧ c.shared.pipe = [] ∧
      c.shared.chunks = cut counts c.shared.bytes ∧
      c.shared.chunks.flatten = c.shared.bytes ∧ c.shared.chunks.getLast? = some [] ∧
      List.Forall₂ (· <+: ·) c.shared.chunks c.shared.printed ∧
      c.shared.printed.getLast? = some [] := by
  refine ⟨windsDown p stack, fun c h hpc => ?_⟩
  have hB := books_reach h
  have hM := messages_reach h
  have hne : c.shared.pc ≠ .killed := by
    rw [hpc]
    exact nofun
  have hlen : c.shared.chunks.length = texts.length + 1 := by
    rw [hB.reads hne, hpc]
    rfl
  have hprinted : c.shared.printed.length = texts.length + 1 := by
    rw [hM.prints hne, hpc]
    rfl
  have hcounts : counts.take c.shared.chunks.length = counts := by
    rw [hlen]
    rfl
  have hchunks : c.shared.chunks = cut counts c.shared.bytes := by
    rw [← hcounts]
    exact hB.chunks
  have hbound := (bytes_bound hB).1
  have hsum : (texts.map List.length).sum ≤ counts.sum := by decide
  refine ⟨hB.children.all_reaped (by rw [hpc]; rfl), hB.nodup, ?_, hchunks, ?_, ?_, ?_, ?_⟩
  · rw [hB.pipe, hcounts]
    exact List.drop_eq_nil_of_le (hbound.trans hsum)
  · rw [hchunks, flatten_cut]
    exact List.take_of_length_le (hbound.trans hsum)
  · rw [hchunks, counts, cut_snoc, List.getLast?_concat, List.drop_eq_nil_of_le hbound]
    rfl
  · have hbeginning := hM.beginning
    rw [hprinted, ← hlen, List.take_length] at hbeginning
    exact hbeginning
  · exact hM.last hpc

/-- What was read for a child is its text, and nothing where it has written nothing. -/
def Attributed (c : Config Index Shared Child) : Prop :=
  ∀ i : Index, c.shared.chunks[i]? = some (if i ∈ c.shared.writes then text i else [])

theorem cut_iff (ws : List Index) (h : ws.Nodup) :
    (∀ i : Index, (cut counts (ws.map text).flatten)[i]? =
      some (if i ∈ ws then text i else [])) ↔ ws <+: List.finRange texts.length := by
  have hle := h.length_le_card
  match ws with
  | [] => decide
  | [i] =>
    revert i
    decide
  | [i, j] =>
    revert i j
    decide
  | i :: j :: k :: ws =>
    rw [Fintype.card_fin] at hle
    simp only [List.length_cons] at hle
    exact absurd hle (by simp [texts])

/-- The texts have arrived under the right pid exactly where the children wrote in the order
in which they were forked, and none in front of one that wrote was silent. -/
theorem attributed_iff (h : (main p).Reach (start stack) c) (hpc : c.shared.pc = .exited) :
    Attributed c ↔ c.shared.writes <+: List.finRange texts.length := by
  have hB := books_reach h
  have hchunks : c.shared.chunks = cut counts c.shared.bytes := by
    have htake : counts.take c.shared.chunks.length = counts := by
      rw [hB.reads (by rw [hpc]; exact nofun), hpc]
      rfl
    rw [← htake]
    exact hB.chunks
  unfold Attributed
  rw [hchunks]
  exact cut_iff c.shared.writes hB.nodup

/-- Both children of `prog4.c` are there, and the second is faster. -/
def overtakingRun : List Action :=
  let z : Index := ⟨0, by decide⟩
  let i : Index := ⟨1, by decide⟩
  List.replicate 2 (.parent z) ++ List.replicate 5 (.child i) ++ List.replicate 5 (.child z) ++
    [.parent z, .parent i] ++ List.replicate 11 (.parent z)

theorem attributed_iff_overtaking : ∃ c : Config Index Shared Child,
    (main .prog4).Reach (start fun _ => 0) c ∧ c.shared.pc = .exited ∧ ¬ Attributed c := by
  have hrun : ((main .prog4).run (start fun _ => 0) overtakingRun).any (fun c =>
      decide (c.shared.pc = .exited) &&
        !decide (c.shared.writes <+: List.finRange texts.length)) = true := by
    decide
  obtain ⟨c, hc, hp⟩ := Machine.exists_reach_of_run _ _ hrun
  simp only [Bool.and_eq_true, decide_eq_true_eq, Bool.not_eq_true', decide_eq_false_iff_not] at hp
  exact ⟨c, hc, hp.1, fun h => hp.2 ((attributed_iff hc hp.1).mp h)⟩

end OsLabs.Pipe
