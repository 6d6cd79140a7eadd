import Mathlib.Data.List.TakeWhile
import OsLabs.Bytes.Scan
import OsLabs.Dict.Model
import OsLabs.Fuel

/-!
# The dictionary client: the command reader

`nextin` of `os_lab_rpc/threads_rpc/dict_client.c`. The standard input is a list of bytes;
`getc` returns `EOF`, here `none`, at its end and every time after it. The bytes that are
stored through `word` are a list, from `word[0]` on; of `buf` only `buf[0]` is read, which
is the command. The prompts are left out.

The first two loops stop at `EOF`, since `isspace(EOF)` is 0. The third one runs while the
character is no white space, and so it does not stop there: it stores `(char)EOF` until
the word is too long.
-/

namespace OsLabs.Dict

open Bytes

/-- `getc(stdin)`, and what is left of the input. -/
def getc : List UInt8 → Option UInt8 × List UInt8
  | [] => (none, [])
  | c :: s => (some c, s)

/-- `isspace(ch)`. -/
def isspace (ch : Option UInt8) : Bool := ch.any isSpace

/-- `(char)ch`. -/
def toChar (ch : Option UInt8) : UInt8 := ch.getD 255

inductive Result
  | returned (n : ℤ)
  | exited (status : ℤ)
deriving DecidableEq, Repr

/-- What `nextin` leaves: its result, `*cmd` where it is set, the bytes stored through
`word`, and the rest of the input. -/
structure Outcome where
  result : Result
  cmd : Option UInt8
  word : List UInt8
  stdin : List UInt8
deriving DecidableEq, Repr

/-- The body of `while(isspace(ch)) ch=getc(stdin);`. -/
def skipBody (x : Option UInt8 × List UInt8) :
    (Option UInt8 × List UInt8) ⊕ (Option UInt8 × List UInt8) :=
  if isspace x.1 then .inl (getc x.2) else .inr x

/-- The variables of the loop that reads the word. -/
structure Reader where
  ch : Option UInt8
  stdin : List UInt8
  i : ℕ
  word : List UInt8

/-- The body of `while(!isspace(ch))`, and the `return i` behind it. -/
def wordBody (cmd : UInt8) (x : Reader) : Reader ⊕ Outcome :=
  if isspace x.ch then .inr ⟨.returned x.i, some cmd, x.word, x.stdin⟩
  -- `if(++i>MAXWORD)`: the word is too long
  else if x.i + 1 > maxWord then .inr ⟨.exited 1, some cmd, x.word, x.stdin⟩
  else .inl ⟨(getc x.stdin).1, (getc x.stdin).2, x.i + 1, x.word ++ [toChar x.ch]⟩

/-- The commands that take a word. -/
def takesWord (cmd : UInt8) : Bool := cmd = 105 ∨ cmd = 108 ∨ cmd = 100

/-- `nextin`. -/
def nextin (fuel : ℕ) (stdin : List UInt8) : Option Outcome :=
  (loop skipBody fuel (getc stdin)).bind fun (ch, stdin) =>
    match ch with
    | none => some ⟨.returned (-1), none, [], stdin⟩
    | some cmd =>
        if cmd = 113 ∨ cmd = 73 then some ⟨.returned 0, some cmd, [], stdin⟩
        else if takesWord cmd then
          (loop skipBody fuel (getc stdin)).bind fun (ch, stdin) =>
            match ch with
            | none => some ⟨.returned (-1), some cmd, [], stdin⟩
            | some c =>
                -- `if(ch=='\n') return 0;` behind the loop that has skipped it
                if c = 10 then some ⟨.returned 0, some cmd, [], stdin⟩
                else loop (wordBody cmd) fuel ⟨some c, stdin, 0, []⟩
        else some ⟨.returned 0, some cmd, [], stdin⟩

/-! ## White space -/

theorem length_getc (s : List UInt8) :
    (getc s).2.length + (getc s).1.toList.length = s.length := by
  cases s with
  | nil => rfl
  | cons c s => rfl

/-- The first loop and the second one skip white space, up to the end of the input. -/
theorem skip_yields (s : List UInt8) :
    Yields (fun n => loop skipBody n (getc s)) fun x => x = getc (skipSpace s) := by
  refine Yields.loop (I := fun x => ∃ t, x = getc t ∧ skipSpace t = skipSpace s)
    (fun x => x.2.length + x.1.toList.length) ?_ ?_ ⟨s, rfl, rfl⟩
  · rintro x x' ⟨t, rfl, ht⟩ hx
    cases t with
    | nil => cases hx
    | cons c t =>
      have hx : (if isSpace c then Sum.inl (getc t) else Sum.inr (some c, t)) = Sum.inl x' := hx
      split_ifs at hx with hc
      cases hx
      rw [skipSpace_space hc] at ht
      refine ⟨⟨t, rfl, ht⟩, ?_⟩
      rw [length_getc, length_getc, List.length_cons]
      exact Nat.lt_succ_self _
  · rintro x r ⟨t, rfl, ht⟩ hx
    cases t with
    | nil =>
      cases hx
      rw [← ht]
      rfl
    | cons c t =>
      have hx : (if isSpace c then Sum.inl (getc t) else Sum.inr (some c, t)) = Sum.inr r := hx
      split_ifs at hx with hc
      cases hx
      rw [← ht, skipSpace_cons (by simpa using hc)]
      rfl

/-! ## The word -/

/-- What the third loop makes of the input `s`: a word that is short enough and ended by
white space is returned, every other one is rejected. -/
structure ReadsWord (cmd : UInt8) (s : List UInt8) (o : Outcome) : Prop where
  stored : o.word.length ≤ maxWord
  returned : (word s).length ≤ maxWord → ∀ b rest, afterWord s = b :: rest →
    o = ⟨.returned (word s).length, some cmd, word s, rest⟩
  exited : maxWord < (word s).length ∨ afterWord s = [] → o.result = .exited 1
  le : ∀ n, o.result = .returned n → n ≤ maxWord

/-- The invariant of the third loop: the bytes stored are the word so far, or the input has
ended inside the word. -/
structure Reading (s : List UInt8) (x : Reader) (t : List UInt8) : Prop where
  ch : x.ch = (getc t).1
  stdin : x.stdin = (getc t).2
  count : x.word.length = x.i
  room : x.i ≤ maxWord
  left : (x.word ++ word t = word s ∧ afterWord t = afterWord s) ∨ (t = [] ∧ afterWord s = [])

section Word

variable {cmd c : UInt8} {s t : List UInt8} {x x' : Reader} {o : Outcome}

theorem Reading.pass (hr : Reading s x t) (hx : wordBody cmd x = .inl x') :
    Reading s x' t.tail ∧ x'.i = x.i + 1 := by
  obtain ⟨ch, stdin, i, stored⟩ := x
  obtain ⟨rfl, rfl, hcount, hroom, hleft⟩ := hr
  simp only at hcount hroom hleft
  simp only [wordBody] at hx
  split_ifs at hx with hspace hlong
  cases hx
  have hcount' (b : UInt8) : (stored ++ [b]).length = i + 1 := by
    rw [List.length_append, hcount, List.length_singleton]
  have hroom' : i + 1 ≤ maxWord := by omega
  cases t with
  | nil =>
    have hend : afterWord s = [] := by
      rcases hleft with ⟨-, hafter⟩ | ⟨-, hafter⟩
      · exact hafter.symm
      · exact hafter
    exact ⟨⟨rfl, rfl, hcount' _, hroom', Or.inr ⟨rfl, hend⟩⟩, rfl⟩
  | cons c t =>
    have hc : isSpace c = false := Bool.eq_false_iff.mpr hspace
    rcases hleft with ⟨hword, hafter⟩ | ⟨hnil, -⟩
    · rw [word_cons hc t] at hword
      rw [afterWord_cons hc t] at hafter
      have hword' : stored ++ [c] ++ word t = word s := by
        rw [List.append_assoc]
        exact hword
      exact ⟨⟨rfl, rfl, hcount' _, hroom', Or.inl ⟨hword', hafter⟩⟩, rfl⟩
    · cases hnil

/-- White space behind the word. -/
theorem Reading.short (hr : Reading s x t) (hspace : isspace x.ch = true) :
    ReadsWord cmd s ⟨.returned x.i, some cmd, x.word, x.stdin⟩ := by
  obtain ⟨ch, stdin, i, stored⟩ := x
  obtain ⟨rfl, rfl, hcount, hroom, hleft⟩ := hr
  simp only at hcount hroom hleft
  cases t with
  | nil => cases hspace
  | cons c t =>
    have hc : isSpace c = true := hspace
    rcases hleft with ⟨hword, hafter⟩ | ⟨hnil, -⟩
    · rw [word_space hc t, List.append_nil] at hword
      rw [afterWord_space hc t] at hafter
      subst hword
      refine ⟨Nat.le_trans (Nat.le_of_eq hcount) hroom, ?_, ?_, ?_⟩
      · intro _ b rest hrest
        rw [← hafter] at hrest
        cases hrest
        rw [hcount]
        rfl
      · rintro (hlen | hnil)
        · omega
        · rw [← hafter] at hnil
          cases hnil
      · rintro n ⟨⟩
        exact Int.ofNat_le.mpr hroom
    · cases hnil

/-- No white space in the first bytes, or none before the end of the input. -/
theorem Reading.long (hr : Reading s x t) (hspace : ¬ isspace x.ch = true)
    (hlong : x.i + 1 > maxWord) : ReadsWord cmd s ⟨.exited 1, some cmd, x.word, x.stdin⟩ := by
  obtain ⟨ch, stdin, i, stored⟩ := x
  obtain ⟨rfl, rfl, hcount, hroom, hleft⟩ := hr
  simp only at hcount hroom hleft hlong
  refine ⟨Nat.le_trans (Nat.le_of_eq hcount) hroom, ?_, fun _ => rfl, fun n hn => by cases hn⟩
  intro hlen b rest hrest
  cases t with
  | nil =>
    rcases hleft with ⟨-, hafter⟩ | ⟨-, hafter⟩
    · rw [← hafter] at hrest
      cases hrest
    · rw [hafter] at hrest
      cases hrest
  | cons c t =>
    have hc : isSpace c = false := Bool.eq_false_iff.mpr hspace
    rcases hleft with ⟨hword, -⟩ | ⟨hnil, -⟩
    · rw [← hword, word_cons hc t, List.length_append, List.length_cons] at hlen
      omega
    · cases hnil

theorem Reading.end (hr : Reading s x t) (hx : wordBody cmd x = .inr o) : ReadsWord cmd s o := by
  simp only [wordBody] at hx
  split_ifs at hx with hspace hlong
  · cases hx
    exact hr.short hspace
  · cases hx
    exact hr.long hspace hlong

/-- The third loop ends for every input: the number of bytes is bounded also where the
input is not. -/
theorem word_yields (cmd : UInt8) (s : List UInt8) :
    Yields (fun n => loop (wordBody cmd) n ⟨(getc s).1, (getc s).2, 0, []⟩)
      (ReadsWord cmd s) := by
  refine Yields.loop (I := fun x => ∃ t, Reading s x t) (fun x => maxWord + 1 - x.i) ?_ ?_
    ⟨s, rfl, rfl, rfl, Nat.zero_le _, Or.inl ⟨rfl, rfl⟩⟩
  · rintro x x' ⟨t, hr⟩ hx
    obtain ⟨hr', hi⟩ := hr.pass hx
    have hroom := hr.room
    exact ⟨⟨t.tail, hr'⟩, by omega⟩
  · rintro x o ⟨t, hr⟩ hx
    exact hr.end hx

end Word

/-! ## `nextin` -/

/-- White space, a command that takes a word, white space, and the word `w`, which ends
before white space or with the input. -/
def IsRequest (s w rest : List UInt8) : Prop :=
  ∃ lead cmd gap, s = lead ++ cmd :: (gap ++ (w ++ rest)) ∧
    (∀ b ∈ lead, isSpace b = true) ∧ takesWord cmd = true ∧
    gap ≠ [] ∧ (∀ b ∈ gap, isSpace b = true) ∧
    w ≠ [] ∧ (∀ b ∈ w, isSpace b = false) ∧ ∀ b ∈ rest.head?, isSpace b = true

section Request

variable {cmd : UInt8} {s w rest : List UInt8}

theorem not_space_of_takesWord (h : takesWord cmd = true) : isSpace cmd = false := by
  have hcmd : cmd = 105 ∨ cmd = 108 ∨ cmd = 100 := by simpa [takesWord] using h
  rcases hcmd with rfl | rfl | rfl
  · rfl
  · rfl
  · rfl

/-- What the two loops that skip white space find in a request. -/
theorem IsRequest.scan (h : IsRequest s w rest) :
    ∃ cmd t, skipSpace s = cmd :: t ∧ takesWord cmd = true ∧ skipSpace t = w ++ rest ∧
      w ≠ [] ∧ word (w ++ rest) = w ∧ afterWord (w ++ rest) = rest := by
  obtain ⟨lead, cmd, gap, rfl, hlead, hcmd, -, hgap, hne, hw, hrest⟩ := h
  obtain ⟨hword, hafter⟩ := word_append hw hrest
  refine ⟨cmd, gap ++ (w ++ rest), ?_, hcmd, ?_, hne, hword, hafter⟩
  · rw [skipSpace_append hlead, skipSpace_cons (not_space_of_takesWord hcmd)]
  · rw [skipSpace_append hgap]
    cases w with
    | nil => exact absurd rfl hne
    | cons b w => exact skipSpace_cons (hw b List.mem_cons_self) (w ++ rest)

/-- The result for every input: it is the result of the third loop where the input is a
request. -/
structure Handles (s : List UInt8) (o : Outcome) : Prop where
  stored : o.word.length ≤ maxWord
  word : ∀ w rest, IsRequest s w rest → ∃ cmd, ReadsWord cmd (w ++ rest) o
  le : ∀ n, o.result = .returned n → n ≤ maxWord

/-- Where the input is no request, nothing is stored. -/
theorem handles_of_not {n : ℤ} {cmd : Option UInt8} {stdin : List UInt8} (hn : n ≤ 0)
    (h : ∀ w rest, ¬ IsRequest s w rest) : Handles s ⟨.returned n, cmd, [], stdin⟩ := by
  refine ⟨Nat.zero_le _, fun w rest hreq => absurd hreq (h w rest), ?_⟩
  rintro k ⟨⟩
  exact Int.le_trans hn (Int.natCast_nonneg _)

theorem nextin_yields (s : List UInt8) : Yields (fun n => nextin n s) (Handles s) := by
  refine (skip_yields s).bind ?_
  rintro x rfl
  cases hs : skipSpace s with
  | nil =>
    refine Yields.pure (handles_of_not (by decide) ?_)
    intro w rest hreq
    obtain ⟨cmd, t, hskip, -⟩ := hreq.scan
    rw [hs] at hskip
    cases hskip
  | cons cmd t =>
    have hfirst {w rest : List UInt8} (hreq : IsRequest s w rest) :
        takesWord cmd = true ∧ skipSpace t = w ++ rest ∧ w ≠ [] := by
      obtain ⟨cmd', t', hskip, hcmd, hword, hne, -⟩ := hreq.scan
      rw [hs] at hskip
      cases hskip
      exact ⟨hcmd, hword, hne⟩
    simp only [getc]
    by_cases hquit : cmd = 113 ∨ cmd = 73
    · simp only [if_pos hquit]
      refine Yields.pure (handles_of_not (by decide) ?_)
      intro w rest hreq
      have hcmd := (hfirst hreq).1
      rcases hquit with rfl | rfl
      · cases hcmd
      · cases hcmd
    · simp only [if_neg hquit]
      by_cases hcmd : takesWord cmd = true
      · simp only [if_pos hcmd]
        refine (skip_yields t).bind ?_
        rintro x rfl
        cases ht : skipSpace t with
        | nil =>
          refine Yields.pure (handles_of_not (by decide) ?_)
          intro w rest hreq
          obtain ⟨-, hword, hne⟩ := hfirst hreq
          rw [ht] at hword
          exact hne (List.append_eq_nil_iff.mp hword.symm).1
        | cons c u =>
          have hc : c ≠ 10 := by
            rintro rfl
            exact absurd (not_space_of_skipSpace ht) (by decide)
          simp only [getc, if_neg hc]
          refine (word_yields cmd (c :: u)).mono ?_
          intro o ho
          refine ⟨ho.stored, ?_, ho.le⟩
          intro w rest hreq
          rw [← (hfirst hreq).2.1, ht]
          exact ⟨cmd, ho⟩
      · simp only [if_neg hcmd]
        exact Yields.pure (handles_of_not (by decide) fun w rest hreq => hcmd (hfirst hreq).1)

/-- The `word[wrdlen]='\0'` of `rdictprog_1` is inside its array of `MAXWORD + 1` bytes. -/
theorem terminator_inside (s : List UInt8) : Yields (fun n => nextin n s) fun o =>
    ∀ n, o.result = .returned n → 0 ≤ n → n.toNat < maxWord + 1 := by
  refine (nextin_yields s).mono ?_
  intro o ho n hn hpos
  have hle := ho.le n hn
  omega

/-- What the caller may expect: a word of at most `MAXWORD` bytes, ended by white space or
by the end of the input, is returned and one byte at most behind it is consumed, a longer
one is rejected, and never more than `MAXWORD` bytes are stored. -/
structure Reads (s : List UInt8) (o : Outcome) : Prop where
  returned : ∀ w rest, IsRequest s w rest → w.length ≤ maxWord →
    o.result = .returned w.length ∧ o.word = w ∧ ∃ k, k ≤ 1 ∧ o.stdin = rest.drop k
  rejected : ∀ w rest, IsRequest s w rest → maxWord < w.length → o.result = .exited 1
  stored : o.word.length ≤ maxWord

theorem Handles.reads_iff {o : Outcome} (h : Handles s o) :
    Reads s o ↔ ∀ w, IsRequest s w [] → maxWord < w.length := by
  constructor
  · intro hreads w hreq
    obtain ⟨cmd, ho⟩ := h.word w [] hreq
    obtain ⟨-, -, -, -, -, -, -, hafter⟩ := hreq.scan
    by_contra hlen
    have hexited := ho.exited (Or.inr hafter)
    rw [(hreads.returned w [] hreq (Nat.not_lt.mp hlen)).1] at hexited
    cases hexited
  · intro hlong
    refine ⟨?_, ?_, h.stored⟩
    · intro w rest hreq hlen
      obtain ⟨cmd, ho⟩ := h.word w rest hreq
      obtain ⟨-, -, -, -, -, -, hword, hafter⟩ := hreq.scan
      cases rest with
      | nil => exact absurd (hlong w hreq) (Nat.not_lt.mpr hlen)
      | cons b rest =>
        have hreturned := ho.returned
        rw [hword] at hreturned
        rw [hreturned hlen b rest hafter]
        exact ⟨rfl, rfl, 1, Nat.le_refl 1, rfl⟩
    · intro w rest hreq hlen
      obtain ⟨cmd, ho⟩ := h.word w rest hreq
      obtain ⟨-, -, -, -, -, -, hword, -⟩ := hreq.scan
      apply ho.exited
      rw [hword]
      exact Or.inl hlen

/-- **The command reader.** For every input `nextin` ends, and it does what the caller may
expect if and only if the input is not a request whose word has at most `MAXWORD` bytes and
is ended by the end of the input. -/
theorem nextin_iff (s : List UInt8) :
    ∃ o, (∃ n, ∀ m, n ≤ m → nextin m s = some o) ∧
      (Reads s o ↔ ∀ w, IsRequest s w [] → maxWord < w.length) := by
  obtain ⟨o, ho, hends⟩ := nextin_yields s
  exact ⟨o, hends, ho.reads_iff⟩

/-- The input `i ab` without a line feed: the word is rejected as too long. -/
theorem rejects_last_word :
    nextin 60 [105, 32, 97, 98] =
        some ⟨.exited 1, some 105, [97, 98] ++ List.replicate 48 255, []⟩ ∧
      ¬ ∀ s o, (∃ n, ∀ m, n ≤ m → nextin m s = some o) → Reads s o := by
  refine ⟨by decide, ?_⟩
  intro hall
  have hreq : IsRequest [105, 32, 97, 98] [97, 98] [] := by
    refine ⟨[], 105, [32], rfl, ?_, rfl, ?_, List.forall_mem_singleton.mpr rfl, ?_, ?_, ?_⟩
    · simp
    · simp
    · simp
    · simp [isSpace]
    · simp
  obtain ⟨o, ho, hends⟩ := nextin_yields [105, 32, 97, 98]
  exact absurd (ho.reads_iff.mp (hall _ o hends) _ hreq) (by decide)

end Request

end OsLabs.Dict
