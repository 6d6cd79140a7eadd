import OsLabs.Shmop.Model

/-!
# A string in shared memory: the handshake

The semaphore goes from one to zero once, so one writer gets through at most, and the reader
prints only behind it. Its string ends within the segment, however many writers are still
copying, since no string reaches the last byte (`handshake`). If nobody else has written, it
is the string of the writer that got through.
-/

namespace OsLabs.Shmop

open Concurrent Bytes

variable {ι : Type}

/-- The process is a writer that has the segment, and may have written to it. -/
def PC.touched : PC → Bool
  | .writer (.memcpy _) | .writer .semop | .writer .exited | .writer .failed => true
  | _ => false

/-- The process is a writer that got through. -/
def PC.through : PC → Bool
  | .writer .exited => true
  | _ => false

/-- What the reader has printed, once it does not wait any more. -/
def PC.printed : PC → Option (List UInt8)
  | .reader (.printf out) | .reader (.shmctl out) | .reader (.semctl out)
  | .reader (.exited out) => some out
  | _ => none

/-- What the reader has printed in the end. -/
def PC.finished : PC → Option (List UInt8)
  | .reader (.shmctl out) | .reader (.semctl out) | .reader (.exited out) => some out
  | _ => none

/-- The writer has written its byte `i`. -/
def PC.Copied (i : ℕ) : PC → Prop
  | .writer (.memcpy copied) => i ∈ copied
  | .writer .semop | .writer .exited | .writer .failed => True
  | _ => False

/-- One writer at most has got through, and the reader waits for it. -/
def Once (c : Config (Option ι) Shared PC) : Prop :=
  ((∀ t, (c.loc (some t)).through = false) ∧ (c.loc none).printed = none ∧
      ∃ v, c.shared.sem = some v ∧ v () = 1) ∨
    ((∃ t, (c.loc (some t)).through = true ∧
        ∀ u, (c.loc (some u)).through = true → u = t) ∧
      ∀ v, c.shared.sem = some v → v () = 0)

/-- The segment and the output where `t` is the only writer that has the segment. -/
structure Alone (arg : ι → CString) (t : ι) (c : Config (Option ι) Shared PC) : Prop where
  mem : ∀ i, (c.shared.mem i = byteAt (arg t) i ∧ (c.loc (some t)).Copied i) ∨
    (c.shared.mem i = 0 ∧ ¬ (c.loc (some t)).Copied i)
  printed : ∀ out, (c.loc none).printed = some out → out <+: (arg t).val
  finished : ∀ out, (c.loc none).finished = some out → out = (arg t).val

structure Inv (n : ℕ) (arg : ι → CString) (c : Config (Option ι) Shared PC) : Prop where
  fits : ∀ t, (c.loc (some t)).touched = true → (arg t).val.length < n
  written : ∀ i, c.shared.mem i ≠ 0 →
    ∃ t, (c.loc (some t)).touched = true ∧ (arg t).val[i]? = some (c.shared.mem i)
  once : Once c
  inside : ∀ out, (c.loc none).printed = some out → out.length < n
  source : ∀ out, (c.loc none).printed = some out → ∀ (i : ℕ) b, out[i]? = some b →
    ∃ t, (c.loc (some t)).touched = true ∧ (arg t).val[i]? = some b
  alone : ∀ t, (∀ u, u ≠ t → (c.loc (some u)).touched = false) → Alone arg t c

section Points

variable {x : PC} {arg : CString} {i : ℕ}

theorem PC.touched_of_through (h : x.through = true) : x.touched = true := by
  unfold PC.through at h
  split at h
  · rfl
  · cases h

theorem PC.copied_of_through (h : x.through = true) (i : ℕ) : x.Copied i := by
  unfold PC.through at h
  split at h
  · trivial
  · cases h

/-- The zero behind the string is its first. -/
theorem byteAt_eq_zero_iff : byteAt arg i = 0 ↔ arg.val.length ≤ i := by
  unfold byteAt
  by_cases h : i < arg.val.length
  · rw [List.getElem?_eq_getElem h, Option.getD_some]
    constructor
    · intro hzero
      have hmem := List.getElem_mem h
      rw [hzero] at hmem
      exact absurd hmem arg.property
    · intro hle
      omega
  · rw [List.getElem?_eq_none (by omega), Option.getD_none]
    simp only [true_iff]
    omega

/-- A prefix with the entry behind it. -/
theorem prefix_concat {α : Type*} {xs ys : List α} {a : α} (h : xs <+: ys)
    (ha : ys[xs.length]? = some a) : xs ++ [a] <+: ys := by
  obtain ⟨rest, rfl⟩ := h
  rw [List.getElem?_append_right (le_refl _), Nat.sub_self] at ha
  cases rest with
  | nil => cases ha
  | cons b rest =>
    obtain rfl : b = a := Option.some.inj ha
    exact ⟨rest, List.append_assoc xs [b] rest⟩

theorem getElem?_of_byteAt_ne (h : byteAt arg i ≠ 0) : arg.val[i]? = some (byteAt arg i) := by
  have hlt : i < arg.val.length := by
    by_contra hle
    exact h (byteAt_eq_zero_iff.mpr (by omega))
  rw [byteAt, List.getElem?_eq_getElem hlt, Option.getD_some]

end Points

section Steps

variable {n : ℕ} {arg : ι → CString} {c c' : Config (Option ι) Shared PC} {t : ι} {s : Shared}

/-- `Once` looks at the semaphore, at who is through, and at whether the reader waits. -/
theorem Once.congr (h : Once c)
    (hthrough : ∀ u, (c'.loc (some u)).through = (c.loc (some u)).through)
    (hprinted : (c'.loc none).printed = (c.loc none).printed)
    (hsem : c'.shared.sem = c.shared.sem) : Once c' := by
  unfold Once
  simp only [hthrough, hprinted, hsem]
  exact h

/-- Behind the wait, a writer is through. -/
theorem Once.exists_through (h : Once c) {out : List UInt8}
    (hout : (c.loc none).printed = some out) : ∃ t, (c.loc (some t)).through = true := by
  rcases h with ⟨-, hwaits, -⟩ | ⟨⟨t, ht, -⟩, -⟩
  · rw [hwaits] at hout
    cases hout
  · exact ⟨t, ht⟩

/-- A reader behind its wait moves on, and the set stays as it is or is removed. -/
theorem Once.advance [DecidableEq ι] (h : Once c) {out : List UInt8}
    (hout : (c.loc none).printed = some out) (x : PC)
    (hsem : s.sem = c.shared.sem ∨ s.sem = none) : Once (c.set none s x) := by
  rcases h with ⟨-, hwaits, -⟩ | ⟨hone, hdown⟩
  · rw [hwaits] at hout
    cases hout
  · have hloc (u : ι) : (c.set none s x).loc (some u) = c.loc (some u) :=
      Config.set_loc_of_ne (by simp) ..
    refine Or.inr ⟨?_, ?_⟩
    · simp only [hloc]
      exact hone
    · intro v hv
      rcases hsem with hsem | hsem
      · exact hdown v (hsem ▸ hv)
      · rw [Config.set_shared, hsem] at hv
        cases hv

theorem inv_initial (n : ℕ) (arg : ι → CString) : Inv n arg (initial ι) where
  fits t h := by cases h
  written i h := absurd rfl h
  once := Or.inl ⟨fun _ => rfl, rfl, _, rfl, rfl⟩
  inside out h := by cases h
  source out h := by cases h
  alone t _ :=
    { mem := fun i => Or.inr ⟨rfl, fun h => h⟩
      printed := fun out h => by cases h
      finished := fun out h => by cases h }

/-- The only writer that has the segment is the one that got through, and its string is
there. -/
theorem Inv.mem_alone (hI : Inv n arg c) (halone : ∀ u, u ≠ t → (c.loc (some u)).touched = false)
    {out : List UInt8} (hout : (c.loc none).printed = some out) (i : ℕ) :
    c.shared.mem i = byteAt (arg t) i := by
  obtain ⟨u, hu⟩ := hI.once.exists_through hout
  have hut : u = t := by
    by_contra hne
    have := halone u hne
    rw [PC.touched_of_through hu] at this
    cases this
  subst hut
  rcases (hI.alone u halone).mem i with ⟨hmem, -⟩ | ⟨-, hnot⟩
  · exact hmem
  · exact absurd (PC.copied_of_through hu i) hnot

/-- A reader that moves on, with its output as it was or before its first byte. -/
theorem Inv.reader_move [DecidableEq ι] (hI : Inv n arg c) {x : PC}
    (honce : Once (c.set none s x))
    (hinside : ∀ out, x.printed = some out → out.length < n)
    (hsource : ∀ out, x.printed = some out → ∀ (i : ℕ) b, out[i]? = some b →
      ∃ t, (c.loc (some t)).touched = true ∧ (arg t).val[i]? = some b)
    (halone : ∀ t, (∀ u, u ≠ t → (c.loc (some u)).touched = false) →
      (∀ out, x.printed = some out → out <+: (arg t).val) ∧
        ∀ out, x.finished = some out → out = (arg t).val)
    (hmem : s.mem = c.shared.mem) : Inv n arg (c.set none s x) := by
  have hloc (u : ι) : (c.set none s x).loc (some u) = c.loc (some u) :=
    Config.set_loc_of_ne (by simp) ..
  constructor
  · intro u hu
    rw [hloc] at hu
    exact hI.fits u hu
  · simp only [Config.set_shared, hmem, hloc]
    exact hI.written
  · exact honce
  · simp only [Config.set_loc_self]
    exact hinside
  · simp only [Config.set_loc_self, hloc]
    exact hsource
  · intro t ht
    simp only [hloc] at ht
    obtain ⟨hprinted, hfinished⟩ := halone t ht
    constructor
    · simp only [Config.set_shared, hmem, hloc]
      exact (hI.alone t ht).mem
    · simp only [Config.set_loc_self]
      exact hprinted
    · simp only [Config.set_loc_self]
      exact hfinished

theorem Inv.reader [DecidableEq ι] (hn : 0 < n) (hI : Inv n arg c) {pc pc' : ReaderPC}
    (hx : c.loc none = .reader pc) (h : reader n c.shared pc = some (s, pc')) :
    Inv n arg (c.set none s (.reader pc')) := by
  cases pc with
  | semop =>
    obtain ⟨v, hv, hw⟩ := Option.bind_eq_some_iff.mp h
    obtain ⟨w, hzero, hp⟩ := Option.map_eq_some_iff.mp hw
    cases hp
    simp only [semop_zero_cons, semop_nil, Option.some.injEq] at hzero
    obtain ⟨hzero, rfl⟩ := hzero
    apply hI.reader_move
    · rcases hI.once with ⟨-, -, w, hw, hone⟩ | ⟨hone, -⟩
      · rw [hv] at hw
        cases hw
        omega
      · have hloc (s : Shared) (x : PC) (u : ι) :
            (c.set none s x).loc (some u) = c.loc (some u) := Config.set_loc_of_ne (by simp) ..
        refine Or.inr ⟨?_, ?_⟩
        · simp only [hloc]
          exact hone
        · intro w hw
          cases hw
          exact hzero
    · intro out hout
      cases hout
      exact hn
    · intro out hout i b hb
      cases hout
      cases hb
    · intro t _
      constructor
      · intro out hout
        cases hout
        exact List.nil_prefix
      · intro out hout
        cases hout
    · rfl
  | printf out =>
    have hout : (c.loc none).printed = some out := by
      rw [hx]
      rfl
    simp only [Shmop.reader] at h
    split_ifs at h with hlt hzero
    · cases h
      apply hI.reader_move
      · exact hI.once.advance hout _ (Or.inl rfl)
      · intro out' hout'
        cases hout'
        exact hlt
      · intro out' hout'
        cases hout'
        exact hI.source out hout
      · intro t ht
        have hprefix := (hI.alone t ht).printed out hout
        constructor
        · intro out' hout'
          cases hout'
          exact hprefix
        · intro out' hout'
          cases hout'
          rw [hI.mem_alone ht hout, byteAt_eq_zero_iff] at hzero
          exact hprefix.eq_of_length (Nat.le_antisymm hprefix.length_le hzero)
      · rfl
    · cases h
      obtain ⟨u, hu, hbyte⟩ := hI.written _ hzero
      have hroom : out.length + 1 < n := by
        obtain ⟨hlen, -⟩ := List.getElem?_eq_some_iff.mp hbyte
        have := hI.fits u hu
        omega
      apply hI.reader_move
      · exact hI.once.advance hout _ (Or.inl rfl)
      · intro out' hout'
        cases hout'
        rw [List.length_append]
        exact hroom
      · intro out' hout' i b hb
        cases hout'
        by_cases hi : i < out.length
        · rw [List.getElem?_append_left hi] at hb
          exact hI.source out hout i b hb
        · have hlast : i = out.length := by
            obtain ⟨hlen, -⟩ := List.getElem?_eq_some_iff.mp hb
            rw [List.length_append, List.length_singleton] at hlen
            omega
          subst hlast
          rw [List.getElem?_concat_length] at hb
          cases hb
          exact ⟨u, hu, hbyte⟩
      · intro t ht
        constructor
        · intro out' hout'
          cases hout'
          rw [hI.mem_alone ht hout] at hzero ⊢
          exact prefix_concat ((hI.alone t ht).printed out hout) (getElem?_of_byteAt_ne hzero)
        · intro out' hout'
          cases hout'
      · rfl
  | shmctl out | semctl out =>
    have hout : (c.loc none).printed = some out := by
      rw [hx]
      rfl
    have hfinished : (c.loc none).finished = some out := by
      rw [hx]
      rfl
    cases h
    apply hI.reader_move
    · refine hI.once.advance hout _ ?_
      simp
    · intro out' hout'
      cases hout'
      exact hI.inside out hout
    · intro out' hout'
      cases hout'
      exact hI.source out hout
    · intro t ht
      constructor
      · intro out' hout'
        cases hout'
        exact (hI.alone t ht).printed out hout
      · intro out' hout'
        cases hout'
        exact (hI.alone t ht).finished out hfinished
    · rfl
  | exited out => cases h

/-- A writer that moves on, and may write bytes of its string. -/
theorem Inv.writer_move [DecidableEq ι] (hI : Inv n arg c) {x : PC}
    (honce : Once (c.set (some t) s x))
    (htouched : (c.loc (some t)).touched = true → x.touched = true)
    (hfits : x.touched = true → (arg t).val.length < n)
    (hmem : ∀ i, s.mem i = c.shared.mem i ∨ (x.touched = true ∧ s.mem i = byteAt (arg t) i))
    (hcopied : (∀ u, u ≠ t → (c.loc (some u)).touched = false) → ∀ i,
      (s.mem i = byteAt (arg t) i ∧ x.Copied i) ∨ (s.mem i = 0 ∧ ¬ x.Copied i)) :
    Inv n arg (c.set (some t) s x) := by
  have hnone : (c.set (some t) s x).loc none = c.loc none := Config.set_loc_of_ne (by simp) ..
  have hne {u : ι} (hu : u ≠ t) : (c.set (some t) s x).loc (some u) = c.loc (some u) :=
    Config.set_loc_of_ne (by simpa using hu) ..
  -- who has had the segment still has it
  have hkeep {u : ι} (hu : (c.loc (some u)).touched = true) :
      ((c.set (some t) s x).loc (some u)).touched = true := by
    by_cases hut : u = t
    · subst hut
      rw [Config.set_loc_self]
      exact htouched hu
    · rw [hne hut]
      exact hu
  constructor
  · intro u hu
    by_cases hut : u = t
    · subst hut
      rw [Config.set_loc_self] at hu
      exact hfits hu
    · rw [hne hut] at hu
      exact hI.fits u hu
  · intro i hi
    rw [Config.set_shared] at hi ⊢
    rcases hmem i with hold | ⟨hx, hnew⟩
    · rw [hold] at hi ⊢
      obtain ⟨u, hu, hbyte⟩ := hI.written i hi
      exact ⟨u, hkeep hu, hbyte⟩
    · rw [hnew] at hi ⊢
      refine ⟨t, ?_, getElem?_of_byteAt_ne hi⟩
      rw [Config.set_loc_self]
      exact hx
  · exact honce
  · rw [hnone]
    exact hI.inside
  · rw [hnone]
    intro out hout i b hb
    obtain ⟨u, hu, hbyte⟩ := hI.source out hout i b hb
    exact ⟨u, hkeep hu, hbyte⟩
  · intro u hu
    have hold (v : ι) (hv : v ≠ u) : (c.loc (some v)).touched = false := by
      have hafter := hu v hv
      by_contra hbefore
      rw [hkeep (by simpa using hbefore)] at hafter
      cases hafter
    have hA := hI.alone u hold
    constructor
    · intro i
      rw [Config.set_shared]
      by_cases hut : u = t
      · subst hut
        rw [Config.set_loc_self]
        exact hcopied hold i
      · have hx : x.touched = false := by
          have := hu t (Ne.symm hut)
          rwa [Config.set_loc_self] at this
        have hsame : s.mem i = c.shared.mem i := by
          rcases hmem i with hsame | ⟨htrue, -⟩
          · exact hsame
          · rw [hx] at htrue
            cases htrue
        rw [hne hut, hsame]
        exact hA.mem i
    · rw [hnone]
      exact hA.printed
    · rw [hnone]
      exact hA.finished

/-- A writer that moves on without the semaphore. -/
theorem Once.writer_move [DecidableEq ι] (h : Once c) {x : PC}
    (hthrough : x.through = (c.loc (some t)).through) (hsem : s.sem = c.shared.sem) :
    Once (c.set (some t) s x) := by
  refine h.congr (fun u => ?_) ?_ hsem
  · by_cases hut : u = t
    · subst hut
      rw [Config.set_loc_self]
      exact hthrough
    · rw [Config.set_loc_of_ne (by simpa using hut)]
  · rw [Config.set_loc_of_ne (by simp)]

/-- Before a writer has the segment, the segment is empty if nobody else has it. -/
theorem Inv.mem_empty (hI : Inv n arg c) (ht : (c.loc (some t)).touched = false)
    (halone : ∀ u, u ≠ t → (c.loc (some u)).touched = false) (i : ℕ) : c.shared.mem i = 0 := by
  by_contra hne
  obtain ⟨u, hu, -⟩ := hI.written i hne
  by_cases hut : u = t
  · rw [hut, ht] at hu
    cases hu
  · rw [halone u hut] at hu
    cases hu

theorem Inv.writer [DecidableEq ι] (hI : Inv n arg c) {e : Event} {pc pc' : WriterPC}
    (hx : c.loc (some t) = .writer pc) (h : writer n (arg t) e c.shared pc = some (s, pc')) :
    Inv n arg (c.set (some t) s (.writer pc')) := by
  unfold Shmop.writer at h
  simp only at h
  split at h
  · -- `shmat`
    have hbefore : (c.loc (some t)).touched = false := by
      rw [hx]
      rfl
    have hthrough : (c.loc (some t)).through = false := by
      rw [hx]
      rfl
    obtain ⟨rfl, hpc⟩ : s = c.shared ∧
        (pc' = .refused ∨ (pc' = .memcpy [] ∧ (arg t).val.length < n)) := by
      split_ifs at h with hbig hok hremoved
      · cases h
        exact ⟨rfl, Or.inl rfl⟩
      · cases h
        exact ⟨rfl, Or.inr ⟨rfl, by omega⟩⟩
      · cases h
        exact ⟨rfl, Or.inl rfl⟩
    have hcopied (i : ℕ) : ¬ (PC.writer pc').Copied i := by
      rcases hpc with rfl | ⟨rfl, -⟩
      · exact fun h => h
      · exact List.not_mem_nil
    apply hI.writer_move
    · refine hI.once.writer_move ?_ rfl
      rw [hthrough]
      rcases hpc with rfl | ⟨rfl, -⟩ <;> rfl
    · intro htouched
      rw [hbefore] at htouched
      cases htouched
    · intro htouched
      rcases hpc with rfl | ⟨-, hlen⟩
      · cases htouched
      · exact hlen
    · exact fun i => Or.inl rfl
    · exact fun halone i => Or.inr ⟨hI.mem_empty hbefore halone i, hcopied i⟩
  · -- a byte of `memcpy`
    rename_i copied i
    split_ifs at h
    cases h
    have hlen : (arg t).val.length < n := hI.fits t (by rw [hx]; rfl)
    apply hI.writer_move
    · refine hI.once.writer_move ?_ rfl
      rw [hx]
      rfl
    · exact fun _ => rfl
    · exact fun _ => hlen
    · intro j
      by_cases hj : j = i
      · subst hj
        exact Or.inr ⟨rfl, Function.update_self ..⟩
      · exact Or.inl (Function.update_of_ne hj ..)
    · intro halone j
      show (Function.update c.shared.mem i _ j = _ ∧ j ∈ i :: copied) ∨
        (Function.update c.shared.mem i _ j = 0 ∧ j ∉ i :: copied)
      have hold : (c.shared.mem j = byteAt (arg t) j ∧ j ∈ copied) ∨
          (c.shared.mem j = 0 ∧ j ∉ copied) := by
        have := (hI.alone t halone).mem j
        rwa [hx] at this
      by_cases hj : j = i
      · subst hj
        exact Or.inl ⟨Function.update_self .., List.mem_cons_self⟩
      · rw [Function.update_of_ne hj, List.mem_cons]
        simpa [hj] using hold
  · -- behind `memcpy`
    rename_i copied
    split_ifs at h with hall
    cases h
    have hlen : (arg t).val.length < n := hI.fits t (by rw [hx]; rfl)
    apply hI.writer_move
    · refine hI.once.writer_move ?_ rfl
      rw [hx]
      rfl
    · exact fun _ => rfl
    · exact fun _ => hlen
    · exact fun i => Or.inl rfl
    · intro halone i
      refine Or.inl ⟨?_, trivial⟩
      have hold := (hI.alone t halone).mem i
      rw [hx] at hold
      rcases hold with ⟨hmem, -⟩ | ⟨hmem, hnot⟩
      · exact hmem
      · -- only behind the string is there nothing to copy
        have hle : (arg t).val.length ≤ i := by
          by_contra hlt
          exact hnot (hall i (by omega))
        rw [hmem, byteAt_eq_zero_iff.mpr hle]
  · -- `semop`
    have hlen : (arg t).val.length < n := hI.fits t (by rw [hx]; rfl)
    have hall (halone : ∀ u, u ≠ t → (c.loc (some u)).touched = false) (i : ℕ) :
        c.shared.mem i = byteAt (arg t) i := by
      have hold := (hI.alone t halone).mem i
      rw [hx] at hold
      rcases hold with ⟨hmem, -⟩ | ⟨-, hnot⟩
      · exact hmem
      · exact absurd trivial hnot
    cases hsem : c.shared.sem with
    | none =>
      rw [hsem] at h
      cases h
      apply hI.writer_move
      · refine hI.once.writer_move ?_ rfl
        rw [hx]
        rfl
      · exact fun _ => rfl
      · exact fun _ => hlen
      · exact fun i => Or.inl rfl
      · exact fun halone i => Or.inl ⟨hall halone i, trivial⟩
    | some v =>
      rw [hsem] at h
      obtain ⟨w, hdown, hp⟩ := Option.map_eq_some_iff.mp h
      cases hp
      simp only [semop_down_cons, semop_nil, Option.some.injEq] at hdown
      obtain ⟨hpos, rfl⟩ := hdown
      apply hI.writer_move
      · rcases hI.once with ⟨hnone, -, w, hw, hone⟩ | ⟨-, hdown⟩
        · rw [hsem] at hw
          cases hw
          refine Or.inr ⟨⟨t, by rw [Config.set_loc_self]; rfl, fun u hu => ?_⟩, ?_⟩
          · by_contra hut
            rw [Config.set_loc_of_ne (by simpa using hut), hnone u] at hu
            cases hu
          · intro w hw
            cases hw
            rw [Function.update_self, hone]
        · have := hdown v hsem
          omega
      · exact fun _ => rfl
      · exact fun _ => hlen
      · exact fun i => Or.inl rfl
      · exact fun halone i => Or.inl ⟨hall halone i, trivial⟩
  · cases h

end Steps

/-! ## Whole runs -/

section Runs

variable [DecidableEq ι] {n : ℕ} {arg : ι → CString} {c : Config (Option ι) Shared PC}

theorem inv_reach (hn : 0 < n) (h : (processes n arg).Reach (initial ι) c) : Inv n arg c := by
  apply h.interleave_invariant (inv_initial n arg)
  intro c t e s x hI _ hs
  cases t with
  | none =>
    cases hx : c.loc none with
    | reader pc =>
      rw [hx] at hs
      obtain ⟨⟨s', pc'⟩, hstep, hp⟩ := Option.map_eq_some_iff.mp hs
      cases hp
      exact hI.reader hn hx hstep
    | writer pc =>
      rw [hx] at hs
      cases hs
  | some t =>
    cases hx : c.loc (some t) with
    | reader pc =>
      rw [hx] at hs
      cases hs
    | writer pc =>
      rw [hx] at hs
      obtain ⟨⟨s', pc'⟩, hstep, hp⟩ := Option.map_eq_some_iff.mp hs
      cases hp
      exact hI.writer hx hstep

/-- **The handshake.** For any number of writers, their bytes written in any order and while
the reader reads: the reader prints only after a writer got through, and one writer at most
ever does; its string ends within the segment, and each byte of it is the byte that some
writer has there; and if no other writer has had the segment, it prints the argument of that
writer. -/
theorem handshake (hn : 0 < n) (h : (processes n arg).Reach (initial ι) c) :
    (∀ t u, (c.loc (some t)).through = true → (c.loc (some u)).through = true → t = u) ∧
    (∀ out, (c.loc none).printed = some out →
      (∃ t, (c.loc (some t)).through = true) ∧ out.length < n ∧
        ∀ (i : ℕ) b, out[i]? = some b → ∃ t, (arg t).val[i]? = some b) ∧
    ∀ t out, (∀ u, u ≠ t → (c.loc (some u)).touched = false) →
      (c.loc none).finished = some out → out = (arg t).val := by
  have hI := inv_reach hn h
  refine ⟨?_, ?_, ?_⟩
  · intro t u ht hu
    rcases hI.once with ⟨hnone, -, -⟩ | ⟨⟨v, -, honly⟩, -⟩
    · rw [hnone t] at ht
      cases ht
    · rw [honly t ht, honly u hu]
  · intro out hout
    refine ⟨hI.once.exists_through hout, hI.inside out hout, fun i b hb => ?_⟩
    obtain ⟨t, -, hbyte⟩ := hI.source out hout i b hb
    exact ⟨t, hbyte⟩
  · intro t out ht hout
    exact (hI.alone t ht).finished out hout

end Runs

/-! ### A run with one writer -/

/-- The string `"hi"`. -/
def hi : CString := ⟨[104, 105], by decide⟩

/-- The bytes of the string are written from its end, and then they are read. -/
def hiRun : List (Option Unit × Event) :=
  [(some (), .shmat true), (some (), .byte 2), (some (), .byte 1), (some (), .byte 0),
    (some (), .run), (some (), .run), (none, .run), (none, .run), (none, .run), (none, .run)]

theorem handshake_hi : ∃ c : Config (Option Unit) Shared PC,
    (c.loc none).finished = some hi.val ∧ (c.loc (some ())).through = true := by
  have hrun : ((processes 4096 fun _ => hi).run (initial Unit) hiRun).any (fun c =>
      ((c.loc none).finished.isSome && (c.loc none).printed.isSome) = true) = true := by decide
  obtain ⟨c, hc, hp⟩ := Machine.exists_reach_of_run _ _ hrun
  obtain ⟨hfinished, hprinted⟩ : (c.loc none).finished.isSome = true ∧
      (c.loc none).printed.isSome = true := by simpa using hp
  obtain ⟨out, hout⟩ := Option.isSome_iff_exists.mp hfinished
  obtain ⟨out', hout'⟩ := Option.isSome_iff_exists.mp hprinted
  obtain ⟨-, hthrough, halone⟩ := handshake (by decide) hc
  obtain ⟨⟨t, ht⟩, -⟩ := hthrough out' hout'
  refine ⟨c, ?_, ht⟩
  rw [hout, halone () out (fun u hu => absurd rfl hu) hout]

end OsLabs.Shmop
