import OsLabs.Concurrent.Tickets
import Mathlib.Data.Finset.Max
import Mathlib.Data.Fintype.Basic
import Mathlib.Data.Prod.Lex

/-!
# The bakery servers: `max_number` and the wait test, read by read

`max_number` and the condition of the wait loop are the same text in the bakery servers.
Both are given here as small machines that make one read of a shared entry at a step, in
the order of the text: `max_number` reads an entry once to compare it and once more to
copy it, and the wait test reads `numbers[i]` up to three times.

`phase` and `known` connect them with the ticket order: what a scan and a wait test have
established at each of their points, and that one read leads from one to the next. A wait
test whose entries nobody writes comes to the value of its condition (`MustWait`).
-/

namespace OsLabs.Bakery

open Concurrent.Tickets

/-- The reads of `max_number`: `res = numbers[0]`, `numbers[i] > res`,
`res = numbers[i]`. -/
inductive MaxPC
  | init
  | test (i res : ℕ)
  | copy (i res : ℕ)
deriving DecidableEq, Repr

/-- The head of the loop: the next entry, or the value returned. -/
def maxNext (n i res : ℕ) : MaxPC ⊕ ℕ := if i < n then .inl (.test i res) else .inr res

/-- One read of `max_number` over `n` entries, with its loop starting at `first`. -/
def maxNumber (n first : ℕ) (numbers : ℕ → ℕ) : MaxPC → MaxPC ⊕ ℕ
  | .init => maxNext n first (numbers 0)
  | .test i res => if numbers i > res then .inl (.copy i res) else maxNext n (i + 1) res
  | .copy i _ => maxNext n (i + 1) (numbers i)

/-- The reads of `numbers[i] != 0 && (numbers[i] < numbers[ind] || numbers[i] ==
numbers[ind] && pids[i] < pids[ind])`. -/
inductive WaitPC
  | nonzero
  | less
  | lessOwn (a : ℕ)
  | equal
  | equalOwn (a : ℕ)
  | pid
  | pidOwn (p : ℕ)
deriving DecidableEq, Repr

/-- One read of the wait test of client `ind` on entry `i`: the next read, or the value
of the condition. -/
def waitTest (numbers pids : ℕ → ℕ) (ind i : ℕ) : WaitPC → WaitPC ⊕ Bool
  | .nonzero => if numbers i ≠ 0 then .inl .less else .inr false
  | .less => .inl (.lessOwn (numbers i))
  | .lessOwn a => if a < numbers ind then .inr true else .inl .equal
  | .equal => .inl (.equalOwn (numbers i))
  | .equalOwn a => if a = numbers ind then .inl .pid else .inr false
  | .pid => .inl (.pidOwn (pids i))
  | .pidOwn p => .inr (p < pids ind)

/-! ## The scan -/

/-- The phase of a client inside `max_number`. -/
def MaxPC.phase : MaxPC → Phase
  | .init => .scan 0 0
  | .test i res => .scan i res
  | .copy i res => .copy i res

/-- The phase after a read of `max_number`. -/
def scanned (n : ℕ) : MaxPC ⊕ ℕ → Phase
  | .inl m => m.phase
  | .inr res => .scan n res

theorem scanned_maxNext (n i res : ℕ) :
    ∃ k ≤ i, scanned n (maxNext n i res) = .scan k res := by
  unfold maxNext
  split_ifs with hi
  · exact ⟨i, le_refl i, rfl⟩
  · exact ⟨n, by omega, rfl⟩

/-- A read of `max_number` is a step of the scan. -/
theorem maxNumber_draw {n first : ℕ} (hfirst : first ≤ 1) (numbers : ℕ → ℕ) (m : MaxPC) :
    Draw numbers m.phase (scanned n (maxNumber n first numbers m)) := by
  cases m with
  | init =>
    obtain ⟨k, hk, he⟩ := scanned_maxNext n first (numbers 0)
    simp only [maxNumber, he]
    refine .skip (Nat.zero_le _) ?_
    by_cases h0 : k = 0
    · exact Or.inl (by omega)
    · exact Or.inr ⟨by omega, le_refl _⟩
  | test i res =>
    simp only [maxNumber]
    split_ifs with hgt
    · exact .see hgt
    · obtain ⟨k, hk, he⟩ := scanned_maxNext n (i + 1) res
      rw [he]
      refine .skip (le_refl _) ?_
      by_cases hki : k ≤ i
      · exact Or.inl hki
      · exact Or.inr ⟨by omega, by omega⟩
  | copy i res =>
    obtain ⟨k, hk, he⟩ := scanned_maxNext n (i + 1) (numbers i)
    simp only [maxNumber, he]
    exact .copy hk

/-! ## The wait test alone -/

/-- The condition of the wait loop of client `ind` on entry `i`. -/
def MustWait (numbers pids : ℕ → ℕ) (ind i : ℕ) : Prop :=
  numbers i ≠ 0 ∧ (numbers i < numbers ind ∨ (numbers i = numbers ind ∧ pids i < pids ind))

instance (numbers pids : ℕ → ℕ) (ind i : ℕ) : Decidable (MustWait numbers pids ind i) :=
  inferInstanceAs (Decidable (_ ≠ _ ∧ (_ ∨ _ ∧ _)))

/-- The least pair of ticket and pid among the entries of the clients with `p`. -/
theorem exists_least {n : ℕ} (numbers pids : ℕ → ℕ) {p : Fin n → Prop} (h : ∃ t, p t) :
    ∃ t, p t ∧ ∀ i, p i → ¬ MustWait numbers pids t i := by
  classical
  obtain ⟨t₀, ht₀⟩ := h
  obtain ⟨t, ht, hmin⟩ := (Finset.univ.filter p).exists_min_image
    (fun i => toLex (numbers i, pids i)) ⟨t₀, by simpa using ht₀⟩
  refine ⟨t, by simpa using ht, ?_⟩
  rintro i hi ⟨-, hless⟩
  have hle := hmin i (by simpa using hi)
  rw [Prod.Lex.toLex_le_toLex] at hle
  simp only at hle
  omega

/-- The reads a wait test has before it. -/
def WaitPC.readsLeft : WaitPC → ℕ
  | .nonzero => 7
  | .less => 6
  | .lessOwn _ => 5
  | .equal => 4
  | .equalOwn _ => 3
  | .pid => 2
  | .pidOwn _ => 1

/-- What a wait test has read is still there. -/
def WaitPC.UpToDate (numbers pids : ℕ → ℕ) (ind i : ℕ) : WaitPC → Prop
  | .nonzero => True
  | .less => numbers i ≠ 0
  | .lessOwn a => numbers i ≠ 0 ∧ a = numbers i
  | .equal => numbers i ≠ 0 ∧ numbers ind ≤ numbers i
  | .equalOwn a => numbers i ≠ 0 ∧ numbers ind ≤ numbers i ∧ a = numbers i
  | .pid => numbers i ≠ 0 ∧ numbers i = numbers ind
  | .pidOwn p => numbers i ≠ 0 ∧ numbers i = numbers ind ∧ p = pids i

section Test

variable {numbers pids : ℕ → ℕ} {ind i : ℕ} {w w' : WaitPC} {out : Bool}

theorem waitTest_readsLeft (h : waitTest numbers pids ind i w = .inl w') :
    w'.readsLeft < w.readsLeft := by
  cases w with
  | less | equal | pid =>
    cases h
    exact Nat.lt_succ_self _
  | nonzero | lessOwn | equalOwn =>
    simp only [waitTest] at h
    split_ifs at h
    cases h
    exact Nat.lt_succ_self _
  | pidOwn => cases h

theorem waitTest_upToDate (hw : w.UpToDate numbers pids ind i)
    (h : waitTest numbers pids ind i w = .inl w') : w'.UpToDate numbers pids ind i := by
  cases w with
  | nonzero =>
    simp only [waitTest] at h
    split_ifs at h with h0
    cases h
    exact h0
  | less =>
    cases h
    exact ⟨hw, rfl⟩
  | lessOwn a =>
    simp only [waitTest] at h
    split_ifs at h with hlt
    cases h
    exact ⟨hw.1, by rw [← hw.2]; omega⟩
  | equal =>
    cases h
    exact ⟨hw.1, hw.2, rfl⟩
  | equalOwn a =>
    simp only [waitTest] at h
    split_ifs at h with heq
    cases h
    exact ⟨hw.1, hw.2.2.symm.trans heq⟩
  | pid =>
    cases h
    exact ⟨hw.1, hw.2, rfl⟩
  | pidOwn => cases h

/-- A test whose reads are up to date gives the value of the condition. -/
theorem waitTest_value (hw : w.UpToDate numbers pids ind i)
    (h : waitTest numbers pids ind i w = .inr out) (hfree : ¬ MustWait numbers pids ind i) :
    out = false := by
  by_contra hout
  rw [Bool.not_eq_false] at hout
  subst hout
  apply hfree
  cases w with
  | nonzero =>
    simp only [waitTest] at h
    split_ifs at h
    cases h
  | lessOwn a =>
    simp only [waitTest] at h
    split_ifs at h with hlt
    exact ⟨hw.1, Or.inl (hw.2 ▸ hlt)⟩
  | equalOwn a =>
    simp only [waitTest] at h
    split_ifs at h
    cases h
  | pidOwn p =>
    simp only [waitTest, Sum.inr.injEq, decide_eq_true_eq] at h
    exact ⟨hw.1, Or.inr ⟨hw.2.1, hw.2.2 ▸ h⟩⟩
  | less | equal | pid => cases h

end Test

/-! ## What the wait test establishes -/

/-- What client `j`, with ticket `own`, knows about the ticket `m` of a client with pid
`p` when it is at a point of its wait test on that client. -/
def WaitPC.known (own p : ℕ) : WaitPC → ℕ → Prop
  | .nonzero | .less => fun _ => True
  | .lessOwn a => fun m => m = a ∨ own < m
  | .equal | .pid => fun m => own ≤ m
  | .equalOwn a => fun m => own ≤ m ∧ (m = a ∨ own < m)
  | .pidOwn q => fun m => own < m ∨ (own ≤ m ∧ q ≤ p)

theorem WaitPC.known_of_lt {own p m : ℕ} (w : WaitPC) (h : own < m) : w.known own p m := by
  cases w <;> simp only [known] <;> omega

variable {n : ℕ} {pid : Fin n → ℕ} {v : View n} {j i : Fin n} {pids : ℕ → ℕ}

/-- One read of the wait test of `j` on `i` keeps what `j` knows, and where the condition
turns out false, `j` has settled `i`. The first read finds a ticket, and then `i` is not
drawing; where it finds none, the draw of `i` must not have missed the ticket of `j`. -/
theorem waitTest_settled (hwf : v.WF) (hij : i ≠ j) (hpid : Function.Injective pid)
    (hown : pids j = pid j) (hother : pids i ≤ pid i) {w : WaitPC}
    (hfirst : w = .nonzero → v.num i = 0 → Seen v j i)
    (hw : w ≠ .nonzero → Settled v j i (w.known (v.num j) (pid i))) :
    match waitTest v.num pids j i w with
    | .inl w' => Settled v j i (w'.known (v.num j) (pid i))
    | .inr out => out = false → Settled v j i (Before pid v j i) := by
  have hne : pid i ≠ pid j := fun h => hij (hpid h)
  cases w with
  | nonzero =>
    simp only [waitTest]
    split_ifs with h0
    · exact ⟨by simp [Seen, (hwf i).mpr h0], fun _ => trivial⟩
    · have hz : v.num i = 0 := by omega
      intro _
      exact ⟨hfirst rfl hz, fun hheld => absurd hz ((hwf i).mp hheld)⟩
  | less =>
    have hs := hw (by simp)
    exact ⟨hs.seen, fun _ => Or.inl rfl⟩
  | lessOwn a =>
    have hs := hw (by simp)
    simp only [waitTest]
    split_ifs with hlt
    · simp
    · refine hs.mono fun m hm => ?_
      simp only [WaitPC.known] at hm ⊢
      omega
  | equal =>
    have hs := hw (by simp)
    exact ⟨hs.seen, fun hheld => ⟨hs.held hheld, Or.inl rfl⟩⟩
  | equalOwn a =>
    have hs := hw (by simp)
    simp only [waitTest]
    split_ifs with heq
    · exact hs.mono fun m hm => hm.1
    · intro _
      refine hs.mono fun m hm => ?_
      simp only [WaitPC.known] at hm
      exact Or.inl (by omega)
  | pid =>
    have hs := hw (by simp)
    exact hs.mono fun m hm => Or.inr ⟨hm, hother⟩
  | pidOwn q =>
    have hs := hw (by simp)
    simp only [waitTest, decide_eq_false_iff_not, not_lt]
    intro hq
    refine hs.mono fun m hm => ?_
    simp only [WaitPC.known] at hm
    unfold Before
    omega

end OsLabs.Bakery
