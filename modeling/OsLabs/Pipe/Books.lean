import OsLabs.Bytes.Stream
import OsLabs.Concurrent.Count
import OsLabs.Pipe.Model

/-!
# Messages through a pipe: the books

What has been forked, reaped, written and read at each point of the parent. A child that is
there has written at most once, and the parent reads nothing before all children are gone; so
what it has read are the pieces of all that has been written (`Books`).
-/

namespace OsLabs.Pipe

open Concurrent Bytes

variable {p : Program} {c c' : Config Index Shared Child} {stack : ℕ → UInt8}

/-- What a step is. -/
inductive Move (p : Program) (c : Config Index Shared Child) : Action →
    Config Index Shared Child → Prop
  | child (i : Index) (pc : ChildPC) (flag : Bool) (h : c.loc i = .running pc flag) :
      Move p c (.child i)
        (c.set i (childStep p i c.shared (readable c) flag pc).1
          (childStep p i c.shared (readable c) flag pc).2)
  | fork (z i : Index) (h : c.shared.pc = .fork i) :
      Move p c (.parent z)
        (c.set i { c.shared with pc := forkLoop (i + 1) } (.running .head c.shared.flag))
  | wait (z : Index) (i : ℕ) (signaled : Bool) (h : c.shared.pc = .wait i)
      (hz : c.loc z = .ended signaled) :
      Move p c (.parent z) (c.set z { c.shared with pc := waitLoop (i + 1) } .reaped)
  | receive (z : Index) (s : Shared) (h : receive (held p c) c.shared = some s) :
      Move p c (.parent z) { c with shared := s }
  | sigintParent (s : Shared) (h : sigintParent p c.shared = some s) :
      Move p c (.sigint none) { c with shared := s }
  | sigintChild (i : Index) (x : Child) (h : sigintChild p (c.loc i) = some x) :
      Move p c (.sigint (some i)) (c.set i c.shared x)

theorem move_of_next {a : Action} (hn : (main p).next c a = some c') : Move p c a c' := by
  cases a with
  | parent z =>
    change parentStep p z c = some c' at hn
    unfold parentStep at hn
    split at hn
    next i hpc =>
      split at hn
      next hlt =>
        cases hn
        exact .fork z ⟨i, hlt⟩ hpc
      next => cases hn
    next i hpc =>
      split at hn
      next hz =>
        cases hn
        exact .wait z i _ hpc hz
      next => cases hn
    next =>
      obtain ⟨s, hs, rfl⟩ := Option.map_eq_some_iff.mp hn
      exact .receive z s hs
  | child i =>
    simp only [main] at hn
    split at hn
    next hi =>
      cases hn
      exact .child i _ _ hi
    next => cases hn
  | sigint t =>
    cases t with
    | none =>
      obtain ⟨s, hs, rfl⟩ := Option.map_eq_some_iff.mp hn
      exact .sigintParent s hs
    | some i =>
      obtain ⟨x, hx, rfl⟩ := Option.map_eq_some_iff.mp hn
      exact .sigintChild i x hx

/-! ## The children -/

/-- The number of children that have been forked, unless the parent has been killed. -/
def PC.forked : PC → ℕ
  | .fork i => i
  | _ => texts.length

/-- The number of children that `wait` has returned. -/
def PC.waited : PC → ℕ
  | .fork _ => 0
  | .wait i => i
  | _ => texts.length

def Child.isReaped : Child → Bool
  | .reaped => true
  | _ => false

/-- The parent is in the range of its loops. -/
def PC.InRange : PC → Prop
  | .fork i | .wait i => i < texts.length
  | _ => True

structure Children (c : Config Index Shared Child) : Prop where
  inRange : c.shared.pc.InRange
  unborn : c.shared.pc ≠ .killed → ∀ i, c.loc i = .unborn ↔ c.shared.pc.forked ≤ i
  reaped : c.shared.pc ≠ .killed → count Child.isReaped c.loc = c.shared.pc.waited

theorem forkLoop_spec (i : Index) : (forkLoop (i + 1)).InRange ∧ (forkLoop (i + 1)).forked = i + 1 ∧
    (forkLoop (i + 1)).waited = 0 := by
  have hi := i.isLt
  unfold forkLoop
  split
  next h => exact ⟨h, rfl, rfl⟩
  next h =>
    have hpos : 0 < texts.length := Nat.zero_lt_of_lt hi
    exact ⟨hpos, by simp only [PC.forked]; omega, rfl⟩

theorem waitLoop_spec {i : ℕ} (hi : i < texts.length) : (waitLoop (i + 1)).InRange ∧
    (waitLoop (i + 1)).forked = texts.length ∧ (waitLoop (i + 1)).waited = i + 1 := by
  unfold waitLoop
  split
  next h => exact ⟨h, rfl, rfl⟩
  next h => exact ⟨trivial, rfl, by simp only [PC.waited]; omega⟩

/-- The parent behind its `wait`s. -/
def PC.receiving : PC → Bool
  | .fork _ | .wait _ | .killed => false
  | _ => true

theorem PC.receiving_spec {pc : PC} (h : pc.receiving = true) : pc.InRange ∧
    pc.forked = texts.length ∧ pc.waited = texts.length ∧ pc ≠ .killed := by
  cases pc with
  | fork i | wait i | killed => cases h
  | _ => exact ⟨trivial, rfl, rfl, nofun⟩

theorem readLoop_receiving (i : ℕ) : (readLoop i).receiving = true := by
  unfold readLoop
  split <;> rfl

theorem receive_receiving {held : Bool} {s s' : Shared} (h : receive held s = some s') :
    s.pc.receiving = true ∧ s'.pc.receiving = true := by
  unfold receive at h
  cases hpc : s.pc with
  | close i | print i | lastClose | lastPrint =>
    rw [hpc] at h
    cases h
    exact ⟨rfl, rfl⟩
  | clear i =>
    rw [hpc] at h
    cases h
    exact ⟨rfl, readLoop_receiving (i + 1)⟩
  | read i | lastRead =>
    rw [hpc] at h
    obtain ⟨s₁, -, rfl⟩ := Option.map_eq_some_iff.mp h
    exact ⟨rfl, rfl⟩
  | fork i | wait i | exited | killed =>
    rw [hpc] at h
    cases h

/-- A child changes nothing but the pipe and what has been written. -/
theorem childStep_frame (p : Program) (i : Index) (s : Shared) (readable flag : Bool)
    (pc : ChildPC) : ∃ pipe writes, (childStep p i s readable flag pc).1 =
      { s with pipe := pipe, writes := writes } := by
  cases pc with
  | head =>
    cases p with
    | _ => exact ⟨s.pipe, s.writes, rfl⟩
  | write =>
    cases readable with
    | false => exact ⟨s.pipe, s.writes, rfl⟩
    | true => exact ⟨s.pipe ++ text i, s.writes ++ [i], rfl⟩
  | _ => exact ⟨s.pipe, s.writes, rfl⟩

theorem childStep_spec (p : Program) (i : Index) (s : Shared) (readable flag : Bool)
    (pc : ChildPC) : (childStep p i s readable flag pc).2 ≠ .unborn ∧
      (childStep p i s readable flag pc).2.isReaped = false := by
  cases pc with
  | head =>
    cases p with
    | _ => exact ⟨nofun, rfl⟩
  | write =>
    cases readable with
    | false => exact ⟨nofun, rfl⟩
    | true =>
      cases p with
      | _ => exact ⟨nofun, rfl⟩
  | _ => exact ⟨nofun, rfl⟩

/-- SIGINT kills the parent, or sets its `flag`. -/
theorem sigintParent_spec {s s' : Shared} (h : sigintParent p s = some s') :
    s.pc ≠ .killed ∧ (s' = { s with pc := .killed, writeEnd := false } ∨
      s' = { s with flag := true }) := by
  unfold sigintParent at h
  cases hpc : s.pc with
  | exited | killed =>
    rw [hpc] at h
    cases h
  | _ =>
    rw [hpc] at h
    refine ⟨nofun, ?_⟩
    cases p with
    | prog4 =>
      cases h
      exact Or.inl rfl
    | prog5 =>
      cases h
      exact Or.inr rfl

theorem sigintChild_spec {x x' : Child} (h : sigintChild p x = some x') :
    ∃ pc flag, x = .running pc flag ∧ (x' = .ended true ∨ x' = .running pc true) := by
  cases x with
  | running pc flag =>
    refine ⟨pc, flag, rfl, ?_⟩
    cases p with
    | prog4 =>
      cases h
      exact Or.inl rfl
    | prog5 =>
      cases h
      exact Or.inr rfl
  | _ =>
    cases p with
    | _ => cases h

/-- A step that leaves the parent where it is and takes a child on. -/
theorem Children.set (hC : Children c) {i : Index} {s : Shared} {x : Child}
    (hs : s.pc = c.shared.pc) (hi : c.loc i ≠ .unborn) (hx : x ≠ .unborn)
    (hr : (c.loc i).isReaped = false) (hr' : x.isReaped = false) : Children (c.set i s x) where
  inRange := by
    rw [Config.set_shared, hs]
    exact hC.inRange
  unborn hne j := by
    rw [Config.set_shared, hs] at hne ⊢
    rw [← hC.unborn hne j]
    by_cases hji : j = i
    · rw [hji, Config.set_loc_self]
      exact iff_of_false hx hi
    · rw [Config.set_loc_of_ne hji]
  reaped hne := by
    rw [Config.set_shared, hs] at hne ⊢
    have hcount := count_update Child.isReaped c.loc i x
    rw [hr, hr', hC.reaped hne] at hcount
    rw [Config.set_loc]
    exact Nat.add_right_cancel hcount

theorem Children.of_loc (hC : Children c) {s : Shared}
    (hs : s.pc = c.shared.pc ∨ s.pc = .killed ∨
      c.shared.pc.receiving = true ∧ s.pc.receiving = true) :
    Children { c with shared := s } := by
  rcases hs with hs | hs | ⟨hpc, hpc'⟩
  · refine ⟨?_, ?_, ?_⟩
    all_goals
      simp only [hs]
    · exact hC.inRange
    · exact hC.unborn
    · exact hC.reaped
  · refine ⟨?_, fun hne => absurd hs hne, fun hne => absurd hs hne⟩
    simp only [hs]
    trivial
  · obtain ⟨-, hforked, hwaited, hne⟩ := PC.receiving_spec hpc
    obtain ⟨hrange, hforked', hwaited', -⟩ := PC.receiving_spec hpc'
    refine ⟨hrange, fun _ i => ?_, fun _ => ?_⟩
    · rw [hC.unborn hne i, hforked, hforked']
    · exact (hC.reaped hne).trans (hwaited.trans hwaited'.symm)

theorem Children.move {a : Action} (hC : Children c) (hm : Move p c a c') : Children c' := by
  cases hm with
  | child i pc flag h =>
    obtain ⟨hx, hr⟩ := childStep_spec p i c.shared (readable c) flag pc
    obtain ⟨pipe, writes, hs⟩ := childStep_frame p i c.shared (readable c) flag pc
    apply hC.set (by rw [hs]) _ hx _ hr
    · rw [h]
      exact nofun
    · rw [h]
      rfl
  | fork z i h =>
    have hne : c.shared.pc ≠ .killed := by
      rw [h]
      exact nofun
    obtain ⟨hrange, hforked, hwaited⟩ := forkLoop_spec i
    have hi : c.loc i = .unborn := by
      rw [hC.unborn hne i, h]
      exact Nat.le_refl _
    refine ⟨hrange, fun _ j => ?_, fun _ => ?_⟩
    · show _ ↔ (forkLoop (i + 1)).forked ≤ j
      rw [hforked]
      by_cases hji : j = i
      · rw [hji, Config.set_loc_self]
        exact iff_of_false nofun (by omega)
      · have hval : (j : ℕ) ≠ i := fun hv => hji (Fin.ext hv)
        rw [Config.set_loc_of_ne hji, hC.unborn hne j, h]
        show (i : ℕ) ≤ j ↔ _
        omega
    · have hcount := count_update Child.isReaped c.loc i (.running .head c.shared.flag)
      rw [hi, hC.reaped hne, h] at hcount
      exact hcount.trans hwaited.symm
  | wait z i signaled h hz =>
    have hne : c.shared.pc ≠ .killed := by
      rw [h]
      exact nofun
    have hlt : i < texts.length := by
      have := hC.inRange
      rw [h] at this
      exact this
    obtain ⟨hrange, hforked, hwaited⟩ := waitLoop_spec hlt
    refine ⟨hrange, fun _ j => ?_, fun _ => ?_⟩
    · show _ ↔ (waitLoop (i + 1)).forked ≤ j
      rw [hforked]
      have hforked₀ : c.shared.pc.forked = texts.length := by
        rw [h]
        rfl
      by_cases hji : j = z
      · rw [hji, Config.set_loc_self]
        exact iff_of_false nofun (Nat.not_le.mpr z.isLt)
      · rw [Config.set_loc_of_ne hji, hC.unborn hne j, hforked₀]
    · have hcount := count_update Child.isReaped c.loc z .reaped
      rw [hz, hC.reaped hne, h] at hcount
      exact hcount.trans hwaited.symm
  | receive z s h => exact hC.of_loc (Or.inr (Or.inr (receive_receiving h)))
  | sigintParent s h =>
    obtain ⟨-, rfl | rfl⟩ := sigintParent_spec h
    · exact hC.of_loc (Or.inr (Or.inl rfl))
    · exact hC.of_loc (Or.inl rfl)
  | sigintChild i x h =>
    obtain ⟨pc, flag, hi, hx⟩ := sigintChild_spec h
    have hset := fun hx hr => hC.set (i := i) (s := c.shared) (x := x) rfl (by rw [hi]; exact nofun)
      hx (by rw [hi]; rfl) hr
    rcases hx with rfl | rfl
    · exact hset nofun rfl
    · exact hset nofun rfl

theorem children_start (stack : ℕ → UInt8) : Children (start stack) where
  inRange := (by decide : 0 < texts.length)
  unborn _ i := iff_of_true rfl (Nat.zero_le _)
  reaped _ := by simp [start, count, Child.isReaped]; rfl

/-- While the parent receives, no child is left. -/
theorem Children.all_reaped (hC : Children c) (hpc : c.shared.pc.receiving = true) (i : Index) :
    c.loc i = .reaped := by
  obtain ⟨-, -, hwaited, hne⟩ := PC.receiving_spec hpc
  have hcard : count Child.isReaped c.loc = Fintype.card Index :=
    (hC.reaped hne).trans (hwaited.trans (Fintype.card_fin _).symm)
  have hi := count_eq_card_iff.mp hcard i
  cases hx : c.loc i with
  | reaped => rfl
  | _ =>
    rw [hx] at hi
    cases hi

/-! ## The bytes -/

/-- All that has been written. -/
def Shared.bytes (s : Shared) : List UInt8 := (s.writes.map text).flatten

/-- The counts of the reads. -/
def counts : List ℕ := texts.map List.length ++ [1]

/-- The child is behind its `write`. -/
def Child.past : Child → Bool
  | .running .closeWrite _ | .running .exit _ | .ended _ | .reaped => true
  | _ => false

/-- The number of reads that have been made. -/
def PC.reads : PC → ℕ
  | .close i | .read i => i
  | .print i | .clear i => i + 1
  | .lastClose | .lastRead => texts.length
  | .lastPrint | .exited => texts.length + 1
  | _ => 0

/-- The turn of the loop that reads. -/
def PC.turn : PC → Option ℕ
  | .close i | .read i | .print i | .clear i => some i
  | _ => none

structure Books (c : Config Index Shared Child) : Prop where
  children : Children c
  alone : c.shared.chunks ≠ [] → ∀ i, c.loc i = .reaped
  nodup : c.shared.writes.Nodup
  past : ∀ i ∈ c.shared.writes, (c.loc i).past = true
  turn : ∀ i, c.shared.pc.turn = some i → i < texts.length
  reads : c.shared.pc ≠ .killed → c.shared.chunks.length = c.shared.pc.reads
  pipe : c.shared.pipe = c.shared.bytes.drop (counts.take c.shared.chunks.length).sum
  chunks : c.shared.chunks = cut (counts.take c.shared.chunks.length) c.shared.bytes

theorem books_start (stack : ℕ → UInt8) : Books (start stack) where
  children := children_start stack
  alone h := absurd rfl h
  nodup := List.nodup_nil
  past i hi := by cases hi
  turn i hi := by cases hi
  reads _ := rfl
  pipe := rfl
  chunks := rfl

/-- While a child is there, nothing has been read. -/
theorem Books.no_chunks (hB : Books c) {i : Index} (hi : c.loc i ≠ .reaped) :
    c.shared.chunks = [] := by
  by_contra hne
  exact hi (hB.alone hne i)

/-- A step that neither writes nor reads. -/
theorem Books.quiet (hB : Books c) (hC : Children c')
    (hw : c'.shared.writes = c.shared.writes) (hp : c'.shared.pipe = c.shared.pipe)
    (hk : c'.shared.chunks = c.shared.chunks)
    (hloc : ∀ i, c'.loc i = c.loc i ∨ (c.loc i ≠ .reaped ∧
      ((c.loc i).past = true → (c'.loc i).past = true)))
    (hturn : ∀ i, c'.shared.pc.turn = some i → i < texts.length)
    (hreads : c'.shared.pc ≠ .killed → c'.shared.chunks.length = c'.shared.pc.reads) :
    Books c' := by
  have hbytes : c'.shared.bytes = c.shared.bytes := by
    unfold Shared.bytes
    rw [hw]
  refine ⟨hC, ?_, ?_, ?_, hturn, hreads, ?_, ?_⟩
  · rw [hk]
    intro hne i
    rcases hloc i with hi | ⟨hi, -⟩
    · rw [hi]
      exact hB.alone hne i
    · exact absurd (hB.alone hne i) hi
  · rw [hw]
    exact hB.nodup
  · rw [hw]
    intro i hi
    rcases hloc i with hsame | ⟨-, hpast⟩
    · rw [hsame]
      exact hB.past i hi
    · exact hpast (hB.past i hi)
  · rw [hp, hbytes, hk]
    exact hB.pipe
  · rw [hbytes, hk]
    exact hB.chunks

/-- A child moves on; its `write` puts its text behind the others. -/
theorem Books.child (hB : Books c) {i : Index} {pc : ChildPC} {flag : Bool}
    (hi : c.loc i = .running pc flag) :
    Books (c.set i (childStep p i c.shared (readable c) flag pc).1
      (childStep p i c.shared (readable c) flag pc).2) := by
  have hC := hB.children.move (.child (p := p) i pc flag hi)
  have hne : c.loc i ≠ .reaped := by
    rw [hi]
    exact nofun
  have hquiet (x : Child) (hx : (c.loc i).past = true → x.past = true)
      (hC : Children (c.set i c.shared x)) : Books (c.set i c.shared x) := by
    apply hB.quiet hC rfl rfl rfl
    · intro j
      by_cases hji : j = i
      · rw [hji, Config.set_loc_self]
        exact Or.inr ⟨hne, hx⟩
      · rw [Config.set_loc_of_ne hji]
        exact Or.inl rfl
    · exact hB.turn
    · exact hB.reads
  rw [hi] at hquiet
  generalize readable c = r at hC ⊢
  cases pc with
  | write =>
    cases r with
    | false => exact hquiet _ (fun _ => rfl) hC
    | true =>
      have hnone := hB.no_chunks hne
      have hnew : i ∉ c.shared.writes := by
        intro hmem
        have hpast := hB.past i hmem
        rw [hi] at hpast
        cases hpast
      have hpast' : (childStep p i c.shared true flag .write).2.past = true := by
        cases p with
        | prog4 => rfl
        | prog5 => rfl
      have hpipe : c.shared.pipe = c.shared.bytes := by
        rw [hB.pipe, hnone]
        rfl
      have hbytes : (childStep p i c.shared true flag .write).1.bytes =
          c.shared.bytes ++ text i := by
        simp [childStep, Shared.bytes]
      refine ⟨hC, fun hk => absurd hnone hk, ?_, ?_, hB.turn, hB.reads, ?_, ?_⟩
      · show (c.shared.writes ++ [i]).Nodup
        rw [List.nodup_append]
        refine ⟨hB.nodup, List.nodup_singleton i, ?_⟩
        intro j hj k hk
        rw [List.mem_singleton.mp hk]
        rintro rfl
        exact hnew hj
      · intro j hj
        by_cases hji : j = i
        · rw [hji, Config.set_loc_self]
          exact hpast'
        · rw [Config.set_loc_of_ne hji]
          apply hB.past j
          rcases List.mem_append.mp hj with hj | hj
          · exact hj
          · exact absurd (List.mem_singleton.mp hj) hji
      · rw [Config.set_shared, hbytes]
        show c.shared.pipe ++ text i = _
        rw [hpipe]
        show _ = List.drop (counts.take c.shared.chunks.length).sum _
        rw [hnone]
        rfl
      · show c.shared.chunks = cut (counts.take c.shared.chunks.length) _
        rw [hnone]
        rfl
  | head =>
    cases p with
    | prog4 => exact hquiet _ nofun hC
    | prog5 => exact hquiet _ nofun hC
  | closeRead => exact hquiet _ nofun hC
  | closeWrite | exit => exact hquiet _ (fun _ => rfl) hC

/-- A read of the parent takes the next bytes. -/
theorem Books.read (hB : Books c) {held : Bool} {count : ℕ} {s : Shared} {pc : PC}
    (h : readPipe c.shared held count = some s)
    (hcount : counts[c.shared.chunks.length]? = some count)
    (hpc : c.shared.pc.receiving = true) (hpc' : pc.receiving = true)
    (hturn : ∀ i, pc.turn = some i → i < texts.length)
    (hreads : c.shared.chunks.length + 1 = pc.reads) :
    Books { c with shared := { s with pc := pc } } := by
  obtain ⟨-, hs⟩ := Option.ite_none_left_eq_some.mp h
  cases hs
  have hC : ∀ s : Shared, s.pc = pc → Children { c with shared := s } := fun s hs =>
    hB.children.of_loc (Or.inr (Or.inr ⟨hpc, by rw [hs]; exact hpc'⟩))
  have hlen : (c.shared.chunks ++ [c.shared.pipe.take count]).length =
      c.shared.chunks.length + 1 := by simp
  have htake : counts.take (c.shared.chunks.length + 1) =
      counts.take c.shared.chunks.length ++ [count] := by
    rw [List.take_add_one, hcount]
    rfl
  refine ⟨hC _ rfl, fun _ => hB.children.all_reaped hpc, hB.nodup, hB.past, hturn, ?_, ?_, ?_⟩
  · intro _
    exact hlen.trans hreads
  · show c.shared.pipe.drop count = c.shared.bytes.drop (counts.take _).sum
    rw [hlen, htake, List.sum_append, List.sum_singleton, hB.pipe, List.drop_drop]
  · show c.shared.chunks ++ [c.shared.pipe.take count] = cut (counts.take _) c.shared.bytes
    rw [hlen, htake, cut_snoc, ← hB.chunks, hB.pipe]

theorem counts_getElem {i : ℕ} (hi : i < texts.length) :
    counts[i]? = some (texts[i]?.getD []).length := by
  unfold counts
  rw [List.getElem?_append_left (by simpa using hi), List.getElem?_map, List.getElem?_eq_getElem hi]
  rfl

/-- The parent receives. -/
theorem Books.receive (hB : Books c) {held : Bool} {s : Shared}
    (h : Pipe.receive held c.shared = some s) : Books { c with shared := s } := by
  have hC : Children { c with shared := s } :=
    hB.children.of_loc (Or.inr (Or.inr (receive_receiving h)))
  have hpc := (receive_receiving h).1
  have hreads := hB.reads (PC.receiving_spec hpc).2.2.2
  have hturn := hB.turn
  unfold Pipe.receive at h
  cases hs : c.shared.pc with
  | close i | print i =>
    rw [hs] at h hreads hturn
    cases h
    exact hB.quiet hC rfl rfl rfl (fun j => Or.inl rfl) hturn fun _ => hreads
  | clear i =>
    rw [hs] at h hreads hturn
    cases h
    have hi := hturn i rfl
    apply hB.quiet hC rfl rfl rfl fun j => Or.inl rfl
    · intro j hj
      change (readLoop (i + 1)).turn = some j at hj
      unfold readLoop at hj
      split at hj
      next hlt =>
        cases hj
        exact hlt
      next => cases hj
    · intro _
      refine hreads.trans ?_
      show i + 1 = (readLoop (i + 1)).reads
      unfold readLoop
      split
      next => rfl
      next => simp only [PC.reads]; omega
  | lastClose | lastPrint =>
    rw [hs] at h hreads
    cases h
    exact hB.quiet hC rfl rfl rfl (fun j => Or.inl rfl) nofun fun _ => hreads
  | read i =>
    rw [hs] at h hreads hturn
    have hi := hturn i rfl
    obtain ⟨s₁, hs₁, rfl⟩ := Option.map_eq_some_iff.mp h
    refine hB.read hs₁ ?_ hpc rfl hturn ?_
    · rw [hreads]
      exact counts_getElem hi
    · rw [hreads]
      rfl
  | lastRead =>
    rw [hs] at h hreads
    obtain ⟨s₁, hs₁, rfl⟩ := Option.map_eq_some_iff.mp h
    refine hB.read hs₁ ?_ hpc rfl nofun ?_
    · rw [hreads]
      rfl
    · rw [hreads]
      rfl
  | fork i | wait i | exited | killed =>
    rw [hs] at h
    cases h

theorem Books.move {a : Action} (hB : Books c) (hm : Move p c a c') : Books c' := by
  have hC := hB.children.move hm
  cases hm with
  | child i pc flag h => exact hB.child h
  | fork z i h =>
    have hne : c.shared.pc ≠ .killed := by
      rw [h]
      exact nofun
    have hi : c.loc i = .unborn := by
      rw [hB.children.unborn hne i, h]
      exact Nat.le_refl _
    have hnone := hB.no_chunks (i := i) (by rw [hi]; exact nofun)
    apply hB.quiet hC rfl rfl rfl
    · intro j
      by_cases hji : j = i
      · rw [hji, hi]
        exact Or.inr ⟨nofun, nofun⟩
      · rw [Config.set_loc_of_ne hji]
        exact Or.inl rfl
    · intro j hj
      change (forkLoop (i + 1)).turn = some j at hj
      unfold forkLoop at hj
      split at hj
      all_goals cases hj
    · intro _
      show c.shared.chunks.length = (forkLoop (i + 1)).reads
      rw [hnone]
      unfold forkLoop
      split <;> rfl
  | wait z i signaled h hz =>
    have hnone := hB.no_chunks (i := z) (by rw [hz]; exact nofun)
    apply hB.quiet hC rfl rfl rfl
    · intro j
      by_cases hji : j = z
      · rw [hji, hz, Config.set_loc_self]
        exact Or.inr ⟨nofun, fun _ => rfl⟩
      · rw [Config.set_loc_of_ne hji]
        exact Or.inl rfl
    · intro j hj
      change (waitLoop (i + 1)).turn = some j at hj
      unfold waitLoop at hj
      split at hj
      · cases hj
      · cases hj
        decide
    · intro _
      show c.shared.chunks.length = (waitLoop (i + 1)).reads
      rw [hnone]
      unfold waitLoop
      split <;> rfl
  | receive z s h => exact hB.receive h
  | sigintParent s h =>
    obtain ⟨hne, rfl | rfl⟩ := sigintParent_spec h
    · apply hB.quiet hC rfl rfl rfl fun i => Or.inl rfl
      · intro j hj
        cases hj
      · intro hne
        exact absurd rfl hne
    · exact hB.quiet hC rfl rfl rfl (fun i => Or.inl rfl) hB.turn hB.reads
  | sigintChild i x h =>
    obtain ⟨pc, flag, hi, hx⟩ := sigintChild_spec h
    apply hB.quiet hC rfl rfl rfl _ hB.turn hB.reads
    intro j
    by_cases hji : j = i
    · rw [hji, hi, Config.set_loc_self]
      refine Or.inr ⟨nofun, fun hpast => ?_⟩
      rcases hx with rfl | rfl
      · rfl
      · cases pc with
        | closeWrite | exit => rfl
        | _ => cases hpast
    · rw [Config.set_loc_of_ne hji]
      exact Or.inl rfl

theorem books_reach (h : (main p).Reach (start stack) c) : Books c :=
  h.invariant (books_start stack) fun _ _ _ hB _ hn => hB.move (move_of_next hn)

end OsLabs.Pipe
