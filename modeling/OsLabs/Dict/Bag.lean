import OsLabs.Dict.Model
import Mathlib.Data.List.Perm.Basic
import Mathlib.Data.List.Nodup
import Mathlib.Data.Multiset.AddSub

/-!
# The dictionary: a bag of words

For requests handled one at a time, with words that fit their rows, the table is a bag of
words: the words of the rows in use, in whatever order the deletions have left them. The
abstract requests work on a multiset (`Bag.request`); a table refines it whatever its
stale rows hold (`refines_bag`).
-/

namespace OsLabs.Dict

open Bytes

/-! ## The abstract requests -/

namespace Bag

/-- A request on a bag of words, and its reply. -/
def request (b : Multiset (List UInt8)) : Request → Multiset (List UInt8) × ℤ
  | .initw => (0, 1)
  | .insertw word => (word.1 ::ₘ b, (Multiset.card b : ℤ) + 1)
  | .deletew word => if word.1 ∈ b then (b.erase word.1, 1) else (b, 0)
  | .lookupw word => (b, if word.1 ∈ b then 1 else 0)

/-- Requests handled one after the other, and their replies. -/
def requests (b : Multiset (List UInt8)) : List Request → Multiset (List UInt8) × List ℤ
  | [] => (b, [])
  | r :: rs => ((requests (request b r).1 rs).1, (request b r).2 :: (requests (request b r).1 rs).2)

/-- An insertion finds room in the table and in the row. -/
def Fits (b : Multiset (List UInt8)) : Request → Prop
  | .insertw word => Multiset.card b < dictSiz ∧ word.1.length ≤ maxWord
  | _ => True

/-- Every insertion of the requests fits when its turn comes. -/
def AllFit (b : Multiset (List UInt8)) : List Request → Prop
  | [] => True
  | r :: rs => Fits b r ∧ AllFit (request b r).1 rs

end Bag

/-- The words in the rows in use. -/
def contents (s : Table) : Multiset (List UInt8) := rows s

theorem card_contents (s : Table) : Multiset.card (contents s) = s.nwords := by
  simp [contents, rows]

/-! ## Rows -/

theorem row_fits {i : ℕ} (h : i < dictSiz) {k : ℕ} (hk : k ≤ maxWord) : row i + k < size := by
  simp only [row, size, maxWord, dictSiz] at *
  omega

theorem rows_disjoint {i j a k : ℕ} (h : i ≠ j) (hk : k ≤ maxWord) (hlo : row i ≤ a)
    (hhi : a ≤ row i + maxWord) : a < row j ∨ row j + k < a := by
  simp only [row, maxWord] at *
  omega

theorem rowWord_eq {s : Table} {i : ℕ} {w : List UInt8} (h : Holds s.mem (row i) w)
    (hw : 0 ∉ w) (hi : i < dictSiz) (hlen : w.length ≤ maxWord) : rowWord s i = w := by
  have hfit := row_fits hi hlen
  exact readString_eq h hw (by omega)

theorem not_mem_rowWord (s : Table) (i : ℕ) : 0 ∉ rowWord s i := not_mem_readString _ _

section Requests

variable {s : Table}

/-- Row `i` holds the word `w`, terminated and of at most `MAXWORD` bytes. -/
structure InRow (m : ℕ → UInt8) (i : ℕ) (w : List UInt8) : Prop where
  holds : Holds m (row i) w
  nulFree : 0 ∉ w
  length : w.length ≤ maxWord

theorem Sound.inRow (h : Sound s) {i : ℕ} (hi : i < s.nwords) : InRow s.mem i (rowWord s i) :=
  ⟨h.holds i hi, not_mem_rowWord s i, h.length i hi⟩

/-- A change outside a row leaves its word. -/
theorem InRow.congr {m m' : ℕ → UInt8} {i : ℕ} {w : List UInt8} (h : InRow m i w)
    (hm : ∀ a, row i ≤ a → a ≤ row i + maxWord → m' a = m a) : InRow m' i w := by
  refine ⟨h.holds.congr ?_, h.nulFree, h.length⟩
  have hlen := h.length
  intro a hlo hhi
  exact hm a hlo (by omega)

/-- A table is sound when its rows in use hold words, and these are then its words. -/
theorem sound_of_inRow {m : ℕ → UInt8} {n : ℕ} {words : ℕ → List UInt8} (hn : n ≤ dictSiz)
    (h : ∀ i < n, InRow m i (words i)) :
    Sound ⟨m, n⟩ ∧ rows ⟨m, n⟩ = (List.range n).map words := by
  have heq (i : ℕ) (hi : i < n) : rowWord ⟨m, n⟩ i = words i :=
    rowWord_eq (h i hi).holds (h i hi).nulFree (by omega) (h i hi).length
  refine ⟨⟨hn, ?_, ?_⟩, List.map_congr_left fun i hi => heq i (List.mem_range.mp hi)⟩
  · intro i hi
    rw [heq i hi]
    exact (h i hi).length
  · intro i hi
    rw [heq i hi]
    exact (h i hi).holds

theorem sound_initial : Sound initial :=
  ⟨Nat.zero_le _, fun _ hi => absurd hi (Nat.not_lt_zero _),
    fun _ hi => absurd hi (Nat.not_lt_zero _)⟩

theorem sound_empty (m : ℕ → UInt8) : Sound ⟨m, 0⟩ :=
  ⟨Nat.zero_le _, fun _ hi => absurd hi (Nat.not_lt_zero _),
    fun _ hi => absurd hi (Nat.not_lt_zero _)⟩

/-- A word that fits is added behind the rows in use. -/
theorem insertw_spec (h : Sound s) {word : CString} (hfit : Fits s word) :
    ∃ s', insertw s word = some (s', (s.nwords : ℤ) + 1) ∧ Sound s' ∧
      rows s' = rows s ++ [word.1] := by
  obtain ⟨hroom, hlen⟩ := hfit
  obtain ⟨m, hm, hholds, hframe⟩ := strcpy_spec (m := s.mem) (row_fits hroom hlen)
  have hwords (i : ℕ) (hi : i < s.nwords + 1) :
      InRow m i (Function.update (rowWord s) s.nwords word.1 i) := by
    by_cases hlast : i = s.nwords
    · rw [hlast, Function.update_self]
      exact ⟨hholds, word.2, hlen⟩
    · rw [Function.update_of_ne hlast]
      apply (h.inRow (by omega)).congr
      intro a hlo hhi
      exact hframe a (rows_disjoint hlast hlen hlo hhi)
  obtain ⟨hsound, hrows⟩ := sound_of_inRow hroom hwords
  refine ⟨⟨m, s.nwords + 1⟩, ?_, hsound, ?_⟩
  · rw [insertw, hm, Option.map_some]
  · rw [hrows, List.range_succ, List.map_append, List.map_singleton, Function.update_self]
    congr 1
    apply List.map_congr_left
    intro i hi
    exact Function.update_of_ne (Nat.ne_of_lt (List.mem_range.mp hi)) _ _

/-- The scan finds the first row with the word. -/
theorem scan_spec (h : Sound s) (word : CString) {is : List ℕ} (his : ∀ i ∈ is, i < s.nwords) :
    scan s.mem word.1 is = some (is.find? fun i => rowWord s i = word.1) := by
  induction is with
  | nil => rfl
  | cons i is ih =>
    have hi := his i List.mem_cons_self
    have hbound := h.bound
    obtain ⟨d, hd, hiff⟩ := strcmp_spec (h.holds i hi) word.2 (not_mem_rowWord s i)
      (row_fits (by omega) (h.length i hi))
    rw [scan, hd, Option.bind_some, List.find?_cons]
    by_cases heq : rowWord s i = word.1
    · rw [if_pos (hiff.mpr heq.symm)]
      simp [heq]
    · rw [if_neg (fun hzero => heq (hiff.mp hzero).symm),
        ih fun j hj => his j (List.mem_cons_of_mem i hj)]
      simp [heq]

theorem mem_contents {w : List UInt8} : w ∈ contents s ↔ ∃ i < s.nwords, rowWord s i = w := by
  simp [contents, rows]

theorem notMem_of_find {w : List UInt8}
    (h : ((List.range s.nwords).find? fun i => rowWord s i = w) = none) : w ∉ contents s := by
  rw [mem_contents]
  rintro ⟨i, hi, heq⟩
  have := List.find?_eq_none.mp h i (List.mem_range.mpr hi)
  simp [heq] at this

theorem row_of_find {w : List UInt8} {i : ℕ}
    (h : ((List.range s.nwords).find? fun i => rowWord s i = w) = some i) :
    i < s.nwords ∧ rowWord s i = w :=
  ⟨List.mem_range.mp (List.mem_of_find?_eq_some h), by simpa using List.find?_some h⟩

theorem lookupw_spec (h : Sound s) (word : CString) :
    lookupw s word = some (s, if word.1 ∈ contents s then 1 else 0) := by
  rw [lookupw, scan_spec h word fun i hi => List.mem_range.mp hi, Option.map_some]
  cases hfind : (List.range s.nwords).find? fun i => rowWord s i = word.1 with
  | none => simp [notMem_of_find hfind]
  | some i => simp [mem_contents.mpr ⟨i, row_of_find hfind⟩]

/-- The last of the words takes the place of one of them. -/
theorem update_perm (words : ℕ → List UInt8) {i n : ℕ} (hi : i < n + 1) :
    ((List.range (n + 1)).map words).Perm
      (words i :: (List.range n).map (Function.update words i (words n))) := by
  rw [List.range_succ, List.map_append, List.map_singleton]
  apply (List.perm_append_singleton _ _).trans
  by_cases hin : i = n
  · rw [hin, Function.update_eq_self]
  · have hmem : i ∈ List.range n := List.mem_range.mpr (by omega)
    have hsplit := List.perm_cons_erase hmem
    have hrest : ((List.range n).erase i).map (Function.update words i (words n)) =
        ((List.range n).erase i).map words := by
      apply List.map_congr_left
      intro j hj
      exact Function.update_of_ne (List.nodup_range.mem_erase_iff.mp hj).1 _ _
    have hleft := (hsplit.map words).cons (words n)
    have hright := (hsplit.map (Function.update words i (words n))).cons (words i)
    rw [List.map_cons] at hleft hright
    rw [Function.update_self, hrest] at hright
    exact hleft.trans ((List.Perm.swap _ _ _).trans hright.symm)

/-- The last row in use moves into the row of the word, which may be the last itself. -/
theorem delete_row (h : Sound s) {i n : ℕ} (hn : s.nwords = n + 1) (hi : i < n + 1) :
    ∃ m, strmove size s.mem (row i) (row n) size = some m ∧ Sound ⟨m, n⟩ ∧
      contents s = rowWord s i ::ₘ contents ⟨m, n⟩ := by
  have hbound := h.bound
  have hlast : n < s.nwords := by omega
  have hlen := h.length n hlast
  have hle : row i ≤ row n := Nat.mul_le_mul_left _ (by omega)
  have hfit := row_fits (show n < dictSiz by omega) hlen
  obtain ⟨m, hm, hholds, hframe⟩ := strmove_spec (h.holds n hlast) (not_mem_rowWord s n) hle
    hfit (show (rowWord s n).length < size by omega)
  have hwords (j : ℕ) (hj : j < n) :
      InRow m j (Function.update (rowWord s) i (rowWord s n) j) := by
    by_cases hji : j = i
    · rw [hji, Function.update_self]
      exact ⟨hholds, not_mem_rowWord s n, hlen⟩
    · rw [Function.update_of_ne hji]
      apply (h.inRow (by omega)).congr
      intro a hlo hhi
      exact hframe a (rows_disjoint hji hlen hlo hhi)
  obtain ⟨hsound, hrows⟩ := sound_of_inRow (by omega) hwords
  refine ⟨m, hm, hsound, ?_⟩
  unfold contents
  rw [hrows, rows, hn, Multiset.cons_coe, Multiset.coe_eq_coe]
  exact update_perm (rowWord s) hi

theorem deletew_spec (h : Sound s) (word : CString) :
    ∃ s', deletew s word = some (s', if word.1 ∈ contents s then 1 else 0) ∧ Sound s' ∧
      contents s' = (contents s).erase word.1 := by
  unfold deletew
  rw [scan_spec h word fun i hi => List.mem_range.mp hi, Option.bind_some]
  cases hfind : (List.range s.nwords).find? fun i => rowWord s i = word.1 with
  | none =>
    have hnone := notMem_of_find hfind
    exact ⟨s, by simp [hnone], h, (Multiset.erase_of_notMem hnone).symm⟩
  | some i =>
    obtain ⟨hi, heq⟩ := row_of_find hfind
    have hmem : word.1 ∈ contents s := mem_contents.mpr ⟨i, hi, heq⟩
    obtain ⟨n, hn⟩ := Nat.exists_eq_add_of_lt (Nat.lt_of_le_of_lt (Nat.zero_le i) hi)
    rw [Nat.zero_add] at hn
    obtain ⟨m, hm, hsound, hcontents⟩ := delete_row (i := i) h hn (by omega)
    refine ⟨⟨m, n⟩, ?_, hsound, ?_⟩
    · simp [hn, hm, hmem]
    · rw [hcontents, heq, Multiset.erase_cons_head]

/-- One request does to the contents what it does to the bag, with the same reply. -/
theorem servRequest_spec (h : Sound s) {r : Request} (hr : Bag.Fits (contents s) r) :
    ∃ s', servRequest s r = some (s', (Bag.request (contents s) r).2) ∧ Sound s' ∧
      contents s' = (Bag.request (contents s) r).1 := by
  rcases r with _ | word | word | word
  · exact ⟨⟨s.mem, 0⟩, rfl, sound_empty _, rfl⟩
  · have hfit : Fits s word := by
      rw [Fits, ← card_contents s]
      exact hr
    obtain ⟨s', hs', hsound, hrows⟩ := insertw_spec h hfit
    refine ⟨s', ?_, hsound, ?_⟩
    · rw [servRequest, hs', Bag.request, card_contents]
    · unfold contents
      rw [hrows, Bag.request, Multiset.cons_coe, Multiset.coe_eq_coe]
      exact List.perm_append_singleton _ _
  · obtain ⟨s', hs', hsound, hcontents⟩ := deletew_spec h word
    refine ⟨s', ?_, hsound, ?_⟩
    · rw [servRequest, hs', Bag.request]
      split_ifs <;> rfl
    · rw [hcontents, Bag.request]
      split_ifs with hmem
      · rfl
      · exact Multiset.erase_of_notMem hmem
  · refine ⟨s, ?_, h, rfl⟩
    rw [servRequest, lookupw_spec h, Bag.request]

end Requests

/-! ## Whole histories -/

theorem servAll_spec {s : Table} (h : Sound s) {rs : List Request}
    (hrs : Bag.AllFit (contents s) rs) :
    ∃ s', servAll s rs = some (s', (Bag.requests (contents s) rs).2) ∧ Sound s' ∧
      contents s' = (Bag.requests (contents s) rs).1 := by
  induction rs generalizing s with
  | nil => exact ⟨s, rfl, h, rfl⟩
  | cons r rs ih =>
    obtain ⟨hr, hrest⟩ := hrs
    obtain ⟨s₁, hs₁, hsound₁, hcontents₁⟩ := servRequest_spec h hr
    rw [← hcontents₁] at hrest
    obtain ⟨s₂, hs₂, hsound₂, hcontents₂⟩ := ih hsound₁ hrest
    refine ⟨s₂, ?_, hsound₂, ?_⟩
    · rw [servAll, hs₁, Option.bind_some]
      simp only
      rw [hs₂, Option.map_some, hcontents₁, Bag.requests]
    · rw [hcontents₂, hcontents₁, Bag.requests]

/-- **The dictionary is a bag of words.** For every history of requests, handled one at a
time, whose insertions fit: the words in the rows in use are those of the bag after the
same requests, and the replies are the same. What other bytes the table holds never
shows: a table with the same words in use answers every further history alike. -/
theorem refines_bag {rs : List Request} (h : Bag.AllFit 0 rs) :
    ∃ s, servAll initial rs = some (s, (Bag.requests 0 rs).2) ∧
      contents s = (Bag.requests 0 rs).1 ∧
      ∀ (s₂ : Table) (rs' : List Request), Sound s₂ → contents s₂ = contents s →
        Bag.AllFit (contents s) rs' →
        (servAll s₂ rs').map Prod.snd = (servAll s rs').map Prod.snd ∧
          (servAll s rs').map Prod.snd = some (Bag.requests (contents s) rs').2 := by
  obtain ⟨s, hs, hsound, hcontents⟩ := servAll_spec sound_initial h
  refine ⟨s, hs, hcontents, ?_⟩
  intro s₂ rs' hsound₂ hsame hfit
  obtain ⟨s', hs', -, -⟩ := servAll_spec hsound hfit
  rw [← hsame] at hfit
  obtain ⟨s₂', hs₂', -, -⟩ := servAll_spec hsound₂ hfit
  rw [hs', hs₂', hsame]
  exact ⟨rfl, rfl⟩

/-- The word of the letters `a` and `b`. -/
def wordAB : CString := ⟨[97, 98], by decide⟩

/-- A word inserted twice and deleted once is still there. -/
theorem refines_bag_twice : ∃ s, servAll initial
    [.insertw wordAB, .insertw wordAB, .deletew wordAB, .lookupw wordAB] =
      some (s, [1, 2, 1, 1]) ∧ contents s = {[97, 98]} := by
  have hfit : Bag.AllFit 0
      [.insertw wordAB, .insertw wordAB, .deletew wordAB, .lookupw wordAB] :=
    ⟨⟨by decide, by decide⟩, ⟨by decide, by decide⟩, trivial, trivial, trivial⟩
  obtain ⟨s, hs, hcontents, -⟩ := refines_bag hfit
  exact ⟨s, hs, hcontents⟩

end OsLabs.Dict
