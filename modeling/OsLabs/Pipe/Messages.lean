import Mathlib.Data.List.Forall2
import OsLabs.Pipe.Books

/-!
# Messages through a pipe: what is printed

`buf` is not initialised, and `read` puts no zero behind the bytes. All texts together fit
into `buf`, and so `printf` prints what has been read, and behind it what `buf` held before
(`prefix_message`). The last `read` finds nothing, and as the loop has put a zero at the start
of `buf` the last message is empty (`Messages`).
-/

namespace OsLabs.Pipe

open Concurrent Bytes

variable {p : Program} {c c' : Config Index Shared Child} {stack : ℕ → UInt8}

/-- The number of messages. -/
def PC.prints : PC → ℕ
  | .close i | .read i | .print i => i
  | .clear i => i + 1
  | .lastClose | .lastRead | .lastPrint => texts.length
  | .exited => texts.length + 1
  | _ => 0

/-- All texts together are not longer than `buf`, and no byte of them is zero. -/
theorem bytes_bound (hB : Books c) :
    c.shared.bytes.length ≤ (texts.map List.length).sum ∧ 0 ∉ c.shared.bytes := by
  constructor
  · have hsum : c.shared.bytes.length = (c.shared.writes.map fun i => (text i).length).sum := by
      unfold Shared.bytes
      rw [List.length_flatten, List.map_map]
      rfl
    have hle : (c.shared.writes.map fun i => (text i).length).sum ≤ ∑ i, (text i).length := by
      rw [← List.sum_toFinset _ hB.nodup]
      exact Finset.sum_le_univ_sum_of_nonneg fun i => Nat.zero_le _
    rw [hsum]
    exact hle.trans (by decide)
  · intro hmem
    obtain ⟨w, hw, hzero⟩ := List.mem_flatten.mp hmem
    obtain ⟨i, -, rfl⟩ := List.mem_map.mp hw
    have htext : ∀ i, 0 ∉ text i := by decide
    exact htext i hzero

/-- A message begins with what has been read. -/
theorem prefix_message (hB : Books c) {w : List UInt8} (hw : w ∈ c.shared.chunks)
    {buf : ℕ → UInt8} (hbuf : ∀ k b, w[k]? = some b → buf k = b) : w <+: message buf := by
  obtain ⟨hlen, hzero⟩ := bytes_bound hB
  have hsub : ∀ b ∈ w, b ∈ c.shared.bytes := by
    intro b hb
    have hflat : b ∈ c.shared.chunks.flatten := List.mem_flatten.mpr ⟨w, hw, hb⟩
    rw [hB.chunks, flatten_cut] at hflat
    exact List.mem_of_mem_take hflat
  have hle : w.length ≤ c.shared.bytes.length := by
    have hflat : w.length ≤ c.shared.chunks.flatten.length :=
      (List.sublist_flatten_of_mem hw).length_le
    rw [hB.chunks, flatten_cut] at hflat
    exact hflat.trans (List.length_take_le' ..)
  have hroom : (texts.map List.length).sum ≤ 50 := by decide
  apply prefix_readString
  · intro k b hk
    rw [Nat.zero_add]
    exact hbuf k b hk
  · exact fun h => hzero (hsub 0 h)
  · omega

/-- `buf` holds what has been read, and it is to be printed. -/
def PC.printing : PC → Bool
  | .print _ | .lastPrint => true
  | _ => false

/-- The parent is behind the loop, and has not printed the last message. -/
def PC.final : PC → Bool
  | .lastClose | .lastRead | .lastPrint => true
  | _ => false

structure Messages (s : Shared) : Prop where
  prints : s.pc ≠ .killed → s.printed.length = s.pc.prints
  beginning : List.Forall₂ (· <+: ·) (s.chunks.take s.printed.length) s.printed
  filled : s.pc.printing = true → ∀ w, s.chunks[s.printed.length]? = some w →
    ∀ k b, w[k]? = some b → s.buf k = b
  cleared : s.pc.final = true → s.buf 0 = 0
  last : s.pc = .exited → s.printed.getLast? = some []

/-- A step that neither reads nor prints. -/
theorem Messages.quiet {s s' : Shared} (hM : Messages s) (hk : s'.chunks = s.chunks)
    (hp : s'.printed = s.printed) (hb : s'.buf = s.buf)
    (hprints : s'.pc ≠ .killed → s.pc ≠ .killed ∧ s'.pc.prints = s.pc.prints)
    (hprinting : s'.pc.printing = true → s.pc.printing = true)
    (hfinal : s'.pc.final = true → s.pc.final = true)
    (hexited : s'.pc = .exited → s.pc = .exited) : Messages s' := by
  refine ⟨?_, ?_, ?_, ?_, ?_⟩
  · intro hne
    obtain ⟨hne', heq⟩ := hprints hne
    rw [hp, heq]
    exact hM.prints hne'
  · rw [hk, hp]
    exact hM.beginning
  · rw [hk, hp, hb]
    exact fun h => hM.filled (hprinting h)
  · rw [hb]
    exact fun h => hM.cleared (hfinal h)
  · rw [hp]
    exact fun h => hM.last (hexited h)

/-- A step of the parent in front of its reads. -/
theorem Messages.start {s : Shared} {pc : PC} (hM : Messages s)
    (hpc : s.pc ≠ .killed ∧ s.pc.prints = 0)
    (hpc' : pc.prints = 0 ∧ pc.printing = false ∧ pc.final = false ∧ pc ≠ .exited) :
    Messages { s with pc := pc } := by
  obtain ⟨hprints, hprinting, hfinal, hexited⟩ := hpc'
  refine hM.quiet rfl rfl rfl (fun _ => ⟨hpc.1, hprints.trans hpc.2.symm⟩) ?_ ?_ ?_
  · intro h
    exact absurd (hprinting.symm.trans h) nofun
  · intro h
    exact absurd (hfinal.symm.trans h) nofun
  · exact fun h => absurd h hexited

/-- `printf` of what has been read. -/
theorem Messages.print (hB : Books c) (hM : Messages c.shared) {pc : PC}
    (hpc : c.shared.pc.printing = true) (hpc' : pc.printing = false ∧ pc.final = false)
    (hreads : c.shared.pc.reads = c.shared.pc.prints + 1)
    (hprints : pc.prints = c.shared.pc.prints + 1)
    (hlast : pc = .exited → message c.shared.buf = []) :
    Messages { c.shared with
      printed := c.shared.printed ++ [message c.shared.buf]
      pc := pc } := by
  have hne : c.shared.pc ≠ .killed := by
    intro h
    rw [h] at hpc
    cases hpc
  have hlen := hM.prints hne
  have hlt : c.shared.printed.length < c.shared.chunks.length := by
    rw [hB.reads hne, hreads, hlen]
    exact Nat.lt_succ_self _
  have hget := List.getElem?_eq_getElem hlt
  refine ⟨?_, ?_, ?_, ?_, ?_⟩
  · intro _
    show (c.shared.printed ++ [_]).length = pc.prints
    rw [List.length_append, hlen, hprints]
    rfl
  · show List.Forall₂ _ (c.shared.chunks.take (c.shared.printed ++ [_]).length) _
    rw [List.length_append, List.length_singleton, List.take_add_one, hget]
    have hw := prefix_message hB (List.getElem_mem hlt) (hM.filled hpc _ hget)
    exact List.rel_append hM.beginning (.cons hw .nil)
  · intro h
    rw [hpc'.1] at h
    cases h
  · intro h
    rw [hpc'.2] at h
    cases h
  · intro h
    show (c.shared.printed ++ [_]).getLast? = _
    rw [List.getLast?_concat, hlast h]

/-- `read` into `buf`. -/
theorem Messages.read (hB : Books c) (hM : Messages c.shared) {held : Bool} {count : ℕ}
    {s : Shared} {pc : PC} (h : readPipe c.shared held count = some s)
    (hpc : c.shared.pc ≠ .killed) (hreads : c.shared.pc.reads = c.shared.pc.prints)
    (hpc' : pc.printing = true) (hprints : pc.prints = c.shared.pc.prints)
    (hfinal : pc.final = true → c.shared.pipe = [] ∧ c.shared.pc.final = true) :
    Messages { s with pc := pc } := by
  obtain ⟨-, hs⟩ := Option.ite_none_left_eq_some.mp h
  cases hs
  have hlen := hM.prints hpc
  have heq : c.shared.chunks.length = c.shared.printed.length := by
    rw [hB.reads hpc, hreads, hlen]
  refine ⟨fun _ => hlen.trans hprints.symm, ?_, ?_, ?_, ?_⟩
  · show List.Forall₂ _ ((c.shared.chunks ++ [_]).take c.shared.printed.length) _
    rw [List.take_append_of_le_length (Nat.le_of_eq heq.symm)]
    exact hM.beginning
  · intro _ w hw k b hk
    change (c.shared.chunks ++ [c.shared.pipe.take count])[c.shared.printed.length]? = some w at hw
    rw [← heq, List.getElem?_concat_length] at hw
    cases hw
    show fill (c.shared.pipe.take count) c.shared.buf k = b
    unfold fill
    rw [hk]
    rfl
  · intro hf
    obtain ⟨hempty, hf'⟩ := hfinal hf
    show fill (c.shared.pipe.take count) c.shared.buf 0 = 0
    rw [hempty, List.take_nil]
    exact hM.cleared hf'
  · intro hx
    change pc = .exited at hx
    rw [hx] at hpc'
    cases hpc'

/-- Behind the loop the pipe is empty: a child has written once, and the parent has read as
many bytes as the texts have. -/
theorem pipe_empty (hB : Books c) (hpc : c.shared.pc ≠ .killed)
    (hreads : texts.length ≤ c.shared.pc.reads) : c.shared.pipe = [] := by
  have hle := (bytes_bound hB).1
  have hsum : (texts.map List.length).sum ≤ (counts.take c.shared.pc.reads).sum := by
    have htexts : counts.take texts.length = texts.map List.length := by decide
    rw [← htexts]
    exact (List.take_sublist_take_left hreads).sum_le_sum fun _ _ => Nat.zero_le _
  rw [hB.pipe, hB.reads hpc]
  exact List.drop_eq_nil_of_le (hle.trans hsum)

theorem readLoop_spec (i : ℕ) (hi : i < texts.length) :
    (readLoop (i + 1)).prints = i + 1 ∧ (readLoop (i + 1)).printing = false ∧
      readLoop (i + 1) ≠ .exited := by
  unfold readLoop
  split
  next h => exact ⟨rfl, rfl, nofun⟩
  next h => exact ⟨by simp only [PC.prints]; omega, rfl, nofun⟩

theorem Messages.receive (hB : Books c) (hM : Messages c.shared) {held : Bool} {s : Shared}
    (h : Pipe.receive held c.shared = some s) : Messages s := by
  have hpc := (receive_receiving h).1
  have hne := (PC.receiving_spec hpc).2.2.2
  have hturn := hB.turn
  unfold Pipe.receive at h
  cases hs : c.shared.pc with
  | close i =>
    rw [hs] at h
    cases h
    refine hM.quiet rfl rfl rfl ?_ nofun nofun nofun
    exact fun _ => ⟨hne, by rw [hs]; rfl⟩
  | lastClose =>
    rw [hs] at h
    cases h
    refine hM.quiet rfl rfl rfl ?_ nofun ?_ nofun
    · exact fun _ => ⟨hne, by rw [hs]; rfl⟩
    · exact fun _ => by rw [hs]; rfl
  | read i =>
    rw [hs] at h
    obtain ⟨s₁, hs₁, rfl⟩ := Option.map_eq_some_iff.mp h
    refine hM.read hB hs₁ hne ?_ rfl ?_ nofun
    · rw [hs]
      rfl
    · rw [hs]
      rfl
  | lastRead =>
    have hempty : c.shared.pipe = [] := pipe_empty hB hne (by rw [hs]; exact Nat.le_refl _)
    rw [hs] at h
    obtain ⟨s₁, hs₁, rfl⟩ := Option.map_eq_some_iff.mp h
    refine hM.read hB hs₁ hne ?_ rfl ?_ fun _ => ⟨hempty, ?_⟩
    all_goals
      rw [hs]
      rfl
  | print i =>
    rw [hs] at h
    cases h
    refine hM.print hB ?_ ⟨rfl, rfl⟩ ?_ ?_ nofun
    all_goals
      rw [hs]
      rfl
  | lastPrint =>
    have hzero : c.shared.buf 0 = 0 := hM.cleared (by rw [hs]; rfl)
    rw [hs] at h
    cases h
    refine hM.print hB ?_ ⟨rfl, rfl⟩ ?_ ?_ fun _ => ?_
    rotate_right
    · unfold message readString
      rw [if_pos hzero]
    all_goals
      rw [hs]
      rfl
  | clear i =>
    rw [hs] at h hturn
    cases h
    obtain ⟨hprints, hprinting, hexited⟩ := readLoop_spec i (hturn i rfl)
    have hzero : Function.update c.shared.buf 0 0 0 = 0 := Function.update_self ..
    refine ⟨fun _ => ?_, hM.beginning, ?_, fun _ => hzero, ?_⟩
    · show c.shared.printed.length = (readLoop (i + 1)).prints
      rw [hprints, hM.prints hne, hs]
      rfl
    · intro hp
      change (readLoop (i + 1)).printing = true at hp
      rw [hprinting] at hp
      cases hp
    · exact fun hx => absurd hx hexited
  | fork i | wait i | exited | killed =>
    rw [hs] at h
    cases h

theorem Messages.move {a : Action} (hB : Books c) (hM : Messages c.shared) (hm : Move p c a c') :
    Messages c'.shared := by
  cases hm with
  | child i pc flag h =>
    obtain ⟨pipe, writes, hs⟩ := childStep_frame p i c.shared (readable c) flag pc
    rw [Config.set_shared, hs]
    exact hM.quiet rfl rfl rfl (fun h => ⟨h, rfl⟩) id id id
  | fork z i h =>
    have hloop : (forkLoop (i + 1)).prints = 0 ∧ (forkLoop (i + 1)).printing = false ∧
        (forkLoop (i + 1)).final = false ∧ forkLoop (i + 1) ≠ .exited := by
      unfold forkLoop
      split
      · exact ⟨rfl, rfl, rfl, nofun⟩
      · exact ⟨rfl, rfl, rfl, nofun⟩
    exact hM.start (by rw [h]; exact ⟨nofun, rfl⟩) hloop
  | wait z i signaled h hz =>
    have hloop : (waitLoop (i + 1)).prints = 0 ∧ (waitLoop (i + 1)).printing = false ∧
        (waitLoop (i + 1)).final = false ∧ waitLoop (i + 1) ≠ .exited := by
      unfold waitLoop
      split
      · exact ⟨rfl, rfl, rfl, nofun⟩
      · exact ⟨rfl, rfl, rfl, nofun⟩
    exact hM.start (by rw [h]; exact ⟨nofun, rfl⟩) hloop
  | receive z s h => exact hM.receive hB h
  | sigintParent s h =>
    obtain ⟨hne, rfl | rfl⟩ := sigintParent_spec h
    · exact hM.quiet rfl rfl rfl (fun h => absurd rfl h) nofun nofun nofun
    · exact hM.quiet rfl rfl rfl (fun _ => ⟨hne, rfl⟩) id id id
  | sigintChild i x h => exact hM

theorem messages_start (stack : ℕ → UInt8) : Messages (start stack).shared where
  prints _ := rfl
  beginning := .nil
  filled h := by cases h
  cleared h := by cases h
  last h := by cases h

theorem messages_reach (h : (main p).Reach (start stack) c) : Messages c.shared := by
  have hI : Books c ∧ Messages c.shared := by
    apply h.invariant ⟨books_start stack, messages_start stack⟩
    intro c a c' hI _ hn
    have hm := move_of_next hn
    exact ⟨hI.1.move hm, hI.2.move hI.1 hm⟩
  exact hI.2

end OsLabs.Pipe
