import OsLabs.Dict.Bag
import Mathlib.Data.List.Induction

/-!
# The dictionary: capacity

`insertw` checks neither `nwords` nor the length of the word: every insertion is answered
with the new, positive number of words. So the table stays within its rows, and refuses
what does not fit, exactly in the histories in which every insertion fits
(`capacity_iff`).
-/

namespace OsLabs.Dict

open Bytes

/-- What is promised for a history: after every prefix of it the table is sound, and an
insertion that does not fit is refused with a reply that is not positive and leaves the
table as it was. -/
structure Capacity (rs : List Request) : Prop where
  sound : ∀ pre, pre <+: rs → ∃ s replies, servAll initial pre = some (s, replies) ∧ Sound s
  refused : ∀ pre word s replies, pre ++ [.insertw word] <+: rs →
    servAll initial pre = some (s, replies) → ¬ Fits s word →
    ∃ reply, insertw s word = some (s, reply) ∧ reply ≤ 0

/-- Every insertion of the history fits in the state it finds. -/
def InsertionsFit (rs : List Request) : Prop :=
  ∀ pre word s replies, pre ++ [.insertw word] <+: rs →
    servAll initial pre = some (s, replies) → Fits s word

/-- The reply to an insertion is the new number of words. -/
theorem insertw_reply {s s' : Table} {word : CString} {reply : ℤ}
    (h : insertw s word = some (s', reply)) : 0 < reply := by
  obtain ⟨m, -, hm⟩ := Option.map_eq_some_iff.mp h
  cases hm
  omega

/-- A request of a history, and those before it. -/
theorem servAll_append (s : Table) (rs : List Request) (r : Request) :
    servAll s (rs ++ [r]) = (servAll s rs).bind fun p =>
      (servRequest p.1 r).map fun q => (q.1, p.2 ++ [q.2]) := by
  induction rs generalizing s with
  | nil =>
    simp only [List.nil_append, servAll, Option.bind_some, Option.map_some]
    cases servRequest s r <;> rfl
  | cons r' rs ih =>
    simp only [List.cons_append, servAll]
    cases servRequest s r' with
    | none => rfl
    | some p =>
      simp only [Option.bind_some, ih]
      cases servAll p.1 rs with
      | none => rfl
      | some q =>
        simp only [Option.bind_some, Option.map_some]
        cases servRequest q.1 r <;> rfl

theorem bag_fits {s : Table} {r : Request} (h : ∀ word, r = .insertw word → Fits s word) :
    Bag.Fits (contents s) r := by
  rcases r with _ | word | word | word
  · trivial
  · have hfit := h word rfl
    rw [Fits, ← card_contents s] at hfit
    exact hfit
  · trivial
  · trivial

/-- Where every insertion fits, every prefix of the history leaves a sound table. -/
theorem sound_of_fit {rs : List Request} (h : InsertionsFit rs) {pre : List Request}
    (hpre : pre <+: rs) : ∃ s replies, servAll initial pre = some (s, replies) ∧ Sound s := by
  induction pre using List.reverseRecOn with
  | nil => exact ⟨initial, [], rfl, sound_initial⟩
  | append_singleton pre r ih =>
    obtain ⟨s, replies, hs, hsound⟩ := ih ((List.prefix_append pre [r]).trans hpre)
    have hfit : Bag.Fits (contents s) r := by
      apply bag_fits
      rintro word rfl
      exact h pre word s replies hpre hs
    obtain ⟨s', hs', hsound', -⟩ := servRequest_spec hsound hfit
    refine ⟨s', replies ++ [(Bag.request (contents s) r).2], ?_, hsound'⟩
    rw [servAll_append, hs, Option.bind_some, hs', Option.map_some]

/-- **Capacity.** For every history of requests with C strings of any length: the table
stays within its rows and refuses the insertions that do not fit, if and only if every
insertion of the history fits in the state it finds. -/
theorem capacity_iff (rs : List Request) : Capacity rs ↔ InsertionsFit rs := by
  constructor
  · intro h pre word s replies hpre hs
    by_contra hfit
    obtain ⟨reply, hreply, hle⟩ := h.refused pre word s replies hpre hs hfit
    have := insertw_reply hreply
    omega
  · intro h
    constructor
    · intro pre hpre
      exact sound_of_fit h hpre
    · intro pre word s replies hpre hs hfit
      exact absurd (h pre word s replies hpre hs) hfit

/-- A word of 51 letters. -/
def longWord : CString := ⟨List.replicate 51 97, by decide⟩

/-- The word of 51 letters is inserted into the empty table: the reply is `1`, and row `0`
holds a word that is longer than `MAXWORD`. -/
theorem long_word_inserted : ¬ Capacity [.insertw longWord] ∧
    ∃ s, servAll initial [.insertw longWord] = some (s, [1]) ∧ ¬ Sound s := by
  have hfits : row 0 + longWord.1.length < size := by decide
  obtain ⟨m, hm, hholds, -⟩ := strcpy_spec (m := initial.mem) hfits
  have hserv : servAll initial [.insertw longWord] = some (⟨m, 1⟩, [1]) := by
    simp only [servAll, servRequest, insertw]
    rw [show initial.nwords = 0 from rfl, hm]
    rfl
  have hlong : ¬ Sound ⟨m, 1⟩ := by
    intro hsound
    have hlen := hsound.length 0 Nat.one_pos
    rw [rowWord, readString_eq hholds longWord.2 (by decide)] at hlen
    exact absurd hlen (by decide)
  refine ⟨?_, ⟨m, 1⟩, hserv, hlong⟩
  intro hcap
  obtain ⟨s, replies, hs, hsound⟩ := hcap.sound _ (List.prefix_refl _)
  rw [hserv] at hs
  cases hs
  exact hlong hsound

end OsLabs.Dict
