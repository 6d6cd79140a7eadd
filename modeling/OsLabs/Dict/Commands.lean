import OsLabs.Dict.Client

/-!
# The dictionary client: the command language

What one call of `nextin` and the `switch (buf[0])` behind it take from the standard input
(`readCommand`), and what a whole input asks for (`commands`): its last command is the one
that ends the client. `Script` is the grammar of inputs, with white space wherever the
client allows it. Every input is a script of exactly one list of commands, and this is the
list that the client takes from it, turn after turn (`command_language`).
-/

namespace OsLabs.Dict

open Bytes

/-- The C string in an array of bytes: it ends at the first zero. -/
def cString (bytes : List UInt8) : CString where
  val := bytes.takeWhile (· ≠ 0)
  property h := by simpa using List.mem_takeWhile_imp h

/-- What a turn of the client is asked for. -/
inductive Command
  | request (r : Request)
  | invalid
  | quit
  | endOfInput
  | tooLong

/-- The client ends with this command. -/
def Command.ends : Command → Bool
  | .request _ | .invalid => false
  | .quit | .endOfInput | .tooLong => true

/-- `switch (buf[0])`. -/
def select (cmd : UInt8) (word : CString) : Command :=
  if cmd = 73 then .request .initw
  else if cmd = 105 then .request (.insertw word)
  else if cmd = 100 then .request (.deletew word)
  else if cmd = 108 then .request (.lookupw word)
  else if cmd = 113 then .quit
  else .invalid

/-- The word in front of white space, if it fits, and what follows. -/
def readWord (cmd : UInt8) (s : List UInt8) : Command × List UInt8 :=
  if (word s).length ≤ maxWord ∧ afterWord s ≠ [] then
    (select cmd (cString (word s)), (afterWord s).tail)
  else (.tooLong, [])

/-- The first command of an input, and what follows it. -/
def readCommand (s : List UInt8) : Command × List UInt8 :=
  match skipSpace s with
  | [] => (.endOfInput, [])
  | cmd :: t =>
      if takesWord cmd then
        match skipSpace t with
        | [] => (.endOfInput, [])
        | c :: u => readWord cmd (c :: u)
      else (select cmd (cString []), t)

section Select

variable {cmd : UInt8} {w : CString}

theorem select_of_takesWord (h : takesWord cmd = true) :
    ∃ r, select cmd w = .request r := by
  have hcmd : cmd = 105 ∨ cmd = 108 ∨ cmd = 100 := by simpa [takesWord] using h
  rcases hcmd with rfl | rfl | rfl
  · exact ⟨.insertw w, rfl⟩
  · exact ⟨.lookupw w, rfl⟩
  · exact ⟨.deletew w, rfl⟩

end Select

/-! ## What `nextin` reads -/

/-- The result of `nextin` for the input `s`, as its caller goes on with it. -/
inductive Obeys (s : List UInt8) (o : Outcome) : Prop
  | endOfInput (hs : (readCommand s).1 = .endOfInput) (ho : o.result = .returned (-1))
  | tooLong (hs : (readCommand s).1 = .tooLong) (ho : o.result = .exited 1)
  | select (cmd : UInt8) (w : List UInt8) (hs : readCommand s = (select cmd (cString w), o.stdin))
      (ho : o = ⟨.returned w.length, some cmd, w, o.stdin⟩)

/-- The third loop of `nextin` reads the word that `readWord` takes. -/
theorem obeys_of_readsWord {s t : List UInt8} {cmd : UInt8} {o : Outcome}
    (hs : readCommand s = readWord cmd t) (ho : ReadsWord cmd t o) : Obeys s o := by
  unfold readWord at hs
  split_ifs at hs with hword
  · obtain ⟨hlen, hafter⟩ := hword
    obtain ⟨b, rest, hrest⟩ := List.exists_cons_of_ne_nil hafter
    have heq := ho.returned hlen b rest hrest
    rw [hrest, List.tail_cons] at hs
    refine .select cmd (word t) ?_ ?_
    · rw [hs, heq]
    · rw [heq]
  · refine .tooLong (by rw [hs]) (ho.exited ?_)
    by_cases hafter : afterWord t = []
    · exact Or.inr hafter
    · exact Or.inl (Nat.lt_of_not_le fun hlen => hword ⟨hlen, hafter⟩)

theorem nextin_obeys (s : List UInt8) : Yields (fun n => nextin n s) (Obeys s) := by
  refine (skip_yields s).bind ?_
  rintro x rfl
  cases hs : skipSpace s with
  | nil => exact Yields.pure (.endOfInput (by rw [readCommand, hs]) rfl)
  | cons cmd t =>
    have hread (h : takesWord cmd = false) :
        Obeys s ⟨.returned 0, some cmd, [], t⟩ := by
      refine .select cmd [] ?_ rfl
      rw [readCommand, hs]
      simp only [h, Bool.false_eq_true, if_false]
    simp only [getc]
    by_cases hquit : cmd = 113 ∨ cmd = 73
    · simp only [if_pos hquit]
      apply Yields.pure
      apply hread
      rcases hquit with rfl | rfl <;> rfl
    · simp only [if_neg hquit]
      by_cases hcmd : takesWord cmd = true
      · simp only [if_pos hcmd]
        refine (skip_yields t).bind ?_
        rintro x rfl
        cases ht : skipSpace t with
        | nil =>
          refine Yields.pure (.endOfInput ?_ rfl)
          rw [readCommand, hs]
          simp only [hcmd, if_true, ht]
        | cons c u =>
          have hc : c ≠ 10 := by
            rintro rfl
            exact absurd (not_space_of_skipSpace ht) (by decide)
          have hs' : readCommand s = readWord cmd (c :: u) := by
            rw [readCommand, hs]
            simp only [hcmd, if_true, ht]
          simp only [getc, if_neg hc]
          exact (word_yields cmd (c :: u)).mono fun o ho => obeys_of_readsWord hs' ho
      · simp only [if_neg hcmd]
        exact Yields.pure (hread (by simpa using hcmd))

/-- More fuel changes no result of `nextin`. -/
theorem nextin_mono {s : List UInt8} {n m : ℕ} {o : Outcome} (h : nextin n s = some o)
    (hle : n ≤ m) : nextin m s = some o := by
  obtain ⟨⟨ch, t⟩, hskip, hrest⟩ := Option.bind_eq_some_iff.mp h
  rw [nextin, loop_mono hskip hle, Option.bind_some]
  cases ch with
  | none => exact hrest
  | some cmd =>
    simp only at hrest ⊢
    split_ifs at hrest ⊢
    · exact hrest
    · obtain ⟨⟨ch, u⟩, hskip', hword⟩ := Option.bind_eq_some_iff.mp hrest
      rw [loop_mono hskip' hle, Option.bind_some]
      cases ch with
      | none => exact hword
      | some c =>
        simp only at hword ⊢
        split_ifs at hword ⊢
        · exact hword
        · exact loop_mono hword hle
    · exact hrest

/-- What the turn behind a call of `nextin` is asked for. -/
def asked (o : Outcome) : Command :=
  match o.result with
  | .exited _ => .tooLong
  | .returned wrdlen =>
      if wrdlen < 0 then .endOfInput
      else select (o.cmd.getD 0) (cString (o.word.take wrdlen.toNat))

theorem Obeys.asked_eq {s : List UInt8} {o : Outcome} (h : Obeys s o) :
    asked o = (readCommand s).1 ∧
      ((readCommand s).1.ends = false → o.stdin = (readCommand s).2) := by
  cases h with
  | endOfInput hs ho =>
    rw [asked, ho, hs]
    exact ⟨rfl, fun h => by cases h⟩
  | tooLong hs ho =>
    rw [asked, ho, hs]
    exact ⟨rfl, fun h => by cases h⟩
  | select cmd w hs ho =>
    have hpos : ¬ (w.length : ℤ) < 0 := by omega
    rw [asked, ho, hs]
    simp [hpos]

/-- The commands that the client takes from its input, in at most so many turns. -/
def takeCommands (fuel : ℕ) : ℕ → List UInt8 → Option (List Command)
  | 0, _ => none
  | turns + 1, s => (nextin fuel s).bind fun o =>
      if (asked o).ends then some [asked o]
      else (takeCommands fuel turns o.stdin).map fun cs => asked o :: cs

/-! ## The commands of an input -/

theorem length_skipSpace_le (s : List UInt8) : (skipSpace s).length ≤ s.length :=
  List.length_dropWhile_le _ _

/-- A command that does not end the client takes something from the input. -/
theorem length_readCommand {s rest : List UInt8} {c : Command}
    (h : readCommand s = (c, rest)) (hc : c.ends = false) : rest.length < s.length := by
  have hskip := length_skipSpace_le s
  unfold readCommand at h
  cases hs : skipSpace s with
  | nil =>
    rw [hs] at h
    cases h
    cases hc
  | cons cmd t =>
    rw [hs, List.length_cons] at hskip
    simp only [hs] at h
    split_ifs at h with hcmd
    · have hgap := length_skipSpace_le t
      cases ht : skipSpace t with
      | nil =>
        simp only [ht] at h
        cases h
        cases hc
      | cons b u =>
        rw [ht] at hgap
        simp only [ht, readWord] at h
        split_ifs at h with hword
        · cases h
          have hafter : (afterWord (b :: u)).length ≤ (b :: u).length :=
            List.length_dropWhile_le _ _
          rw [List.length_tail]
          omega
        · cases h
          cases hc
    · cases h
      omega

/-- The commands of an input, up to the one that ends the client. -/
def commands (s : List UInt8) : List Command :=
  if hends : (readCommand s).1.ends = true then [(readCommand s).1]
  else
    have : (readCommand s).2.length < s.length :=
      length_readCommand rfl (Bool.eq_false_iff.mpr hends)
    (readCommand s).1 :: commands (readCommand s).2
termination_by s.length

theorem commands_of_ends {s rest : List UInt8} {c : Command} (h : readCommand s = (c, rest))
    (hc : c.ends = true) : commands s = [c] := by
  have hends : (readCommand s).1.ends = true := by rw [h, hc]
  rw [commands, dif_pos hends, h]

theorem commands_of_not_ends {s rest : List UInt8} {c : Command} (h : readCommand s = (c, rest))
    (hc : c.ends = false) : commands s = c :: commands rest := by
  have hends : ¬ (readCommand s).1.ends = true := by simp [h, hc]
  rw [commands, dif_neg hends]
  simp only [h]

/-- The client comes to the end of every input, and takes its commands. -/
theorem takeCommands_yields (s : List UInt8) :
    Yields (fun n => takeCommands n n s) fun cs => cs = commands s := by
  have hmore : ∃ k, ∀ turns fuel, k ≤ turns → k ≤ fuel →
      takeCommands fuel turns s = some (commands s) := by
    induction hk : s.length using Nat.strongRecOn generalizing s with
    | ind k ih =>
      obtain ⟨o, ho, n, hn⟩ := nextin_obeys s
      have hnextin (fuel : ℕ) (hfuel : n ≤ fuel) : nextin fuel s = some o := hn fuel hfuel
      obtain ⟨hasked, hrest⟩ := ho.asked_eq
      cases hc : (readCommand s).1.ends with
      | true =>
        have hcommands : commands s = [(readCommand s).1] := commands_of_ends rfl hc
        refine ⟨n + 1, ?_⟩
        intro turns fuel hturns hfuel
        obtain ⟨turns, rfl⟩ := Nat.exists_eq_add_of_le' (show 1 ≤ turns by omega)
        rw [takeCommands, hnextin fuel (by omega), Option.bind_some, hasked, if_pos hc,
          hcommands]
      | false =>
        have hlt : (readCommand s).2.length < s.length := length_readCommand rfl hc
        obtain ⟨j, hj⟩ := ih (readCommand s).2.length (hk ▸ hlt) (readCommand s).2 rfl
        have hcommands : commands s = (readCommand s).1 :: commands (readCommand s).2 :=
          commands_of_not_ends rfl hc
        refine ⟨n + j + 1, ?_⟩
        intro turns fuel hturns hfuel
        obtain ⟨turns, rfl⟩ := Nat.exists_eq_add_of_le' (show 1 ≤ turns by omega)
        rw [takeCommands, hnextin fuel (by omega), Option.bind_some, hasked, hrest hc,
          if_neg (by simp [hc]), hj turns fuel (by omega) (by omega), Option.map_some,
          hcommands]
  obtain ⟨k, hk⟩ := hmore
  exact ⟨commands s, rfl, k, fun m hm => hk m m hm hm⟩

/-! ## The grammar -/

/-- White space only. -/
def Spaces (s : List UInt8) : Prop := ∀ b ∈ s, isSpace b = true

/-- A word that `%s` would read. -/
def IsWord (w : List UInt8) : Prop := w ≠ [] ∧ ∀ b ∈ w, isSpace b = false

/-- The grammar of the input of the client, with the commands of an input. -/
inductive Script : List UInt8 → List Command → Prop
  | endOfInput : Script [] [.endOfInput]
  | space {b : UInt8} {s : List UInt8} {cs : List Command} (hb : isSpace b = true)
      (hs : Script s cs) : Script (b :: s) cs
  | quit {s : List UInt8} : Script (113 :: s) [.quit]
  | initw {s : List UInt8} {cs : List Command} (hs : Script s cs) :
      Script (73 :: s) (.request .initw :: cs)
  | invalid {cmd : UInt8} {s : List UInt8} {cs : List Command} (hb : isSpace cmd = false)
      (hcmd : cmd ∉ ([113, 73, 105, 108, 100] : List UInt8)) (hs : Script s cs) :
      Script (cmd :: s) (.invalid :: cs)
  | noWord {cmd : UInt8} {gap : List UInt8} (hcmd : takesWord cmd = true) (hgap : Spaces gap) :
      Script (cmd :: gap) [.endOfInput]
  /-- The word is ended by white space, the first byte of which belongs to it. -/
  | word {cmd b : UInt8} {gap w s : List UInt8} {cs : List Command} (hcmd : takesWord cmd = true)
      (hgap : Spaces gap) (hw : IsWord w) (hlen : w.length ≤ maxWord) (hb : isSpace b = true)
      (hs : Script s cs) :
      Script (cmd :: (gap ++ (w ++ b :: s))) (select cmd (cString w) :: cs)
  /-- A word that is too long, or one that runs into the end of the input. -/
  | tooLong {cmd : UInt8} {gap w rest : List UInt8} (hcmd : takesWord cmd = true)
      (hgap : Spaces gap) (hw : IsWord w) (hrest : ∀ b ∈ rest.head?, isSpace b = true)
      (hlen : maxWord < w.length ∨ rest = []) :
      Script (cmd :: (gap ++ (w ++ rest))) [.tooLong]

section Script

variable {cmd b : UInt8} {s gap w rest : List UInt8} {cs : List Command}

theorem readCommand_space (hb : isSpace b = true) (s : List UInt8) :
    readCommand (b :: s) = readCommand s := by
  rw [readCommand, readCommand, skipSpace_space hb]

theorem commands_space (hb : isSpace b = true) (s : List UInt8) :
    commands (b :: s) = commands s := by
  have hread := readCommand_space hb s
  cases hs : readCommand s with
  | mk c rest =>
    rw [hs] at hread
    cases hc : c.ends with
    | true => rw [commands_of_ends hread hc, commands_of_ends hs hc]
    | false => rw [commands_of_not_ends hread hc, commands_of_not_ends hs hc]

/-- A command without a word. -/
theorem readCommand_select (hb : isSpace cmd = false) (hcmd : takesWord cmd = false)
    (s : List UInt8) : readCommand (cmd :: s) = (select cmd (cString []), s) := by
  rw [readCommand, skipSpace_cons hb]
  simp only [hcmd, Bool.false_eq_true, if_false]

/-- A command with a word. -/
theorem readCommand_word (hcmd : takesWord cmd = true) (hgap : Spaces gap) (hw : IsWord w)
    (rest : List UInt8) :
    readCommand (cmd :: (gap ++ (w ++ rest))) = readWord cmd (w ++ rest) := by
  obtain ⟨hne, hword⟩ := hw
  obtain ⟨b, v, rfl⟩ := List.exists_cons_of_ne_nil hne
  have hskip : skipSpace (gap ++ (b :: v ++ rest)) = b :: v ++ rest := by
    rw [skipSpace_append hgap]
    exact skipSpace_cons (hword b List.mem_cons_self) (v ++ rest)
  rw [readCommand, skipSpace_cons (not_space_of_takesWord hcmd)]
  simp only [hcmd, if_true, hskip]
  rfl

theorem Script.commands_eq (h : Script s cs) : commands s = cs := by
  induction h with
  | endOfInput => exact commands_of_ends rfl rfl
  | space hb _ ih => rw [commands_space hb, ih]
  | quit => exact commands_of_ends (readCommand_select rfl rfl _) rfl
  | initw _ ih =>
    rw [commands_of_not_ends (readCommand_select rfl rfl _) rfl, ih]
    rfl
  | @invalid cmd s cs hb hcmd _ ih =>
    simp only [List.mem_cons, List.not_mem_nil, or_false, not_or] at hcmd
    have htakes : takesWord cmd = false := by simp [takesWord, hcmd]
    have hselect : select cmd (cString []) = .invalid := by simp [select, hcmd]
    have hread := readCommand_select hb htakes s
    rw [hselect] at hread
    rw [commands_of_not_ends hread rfl, ih]
  | @noWord cmd gap hcmd hgap =>
    have hskip : skipSpace gap = [] := by
      have := skipSpace_append hgap []
      rwa [List.append_nil] at this
    have hread : readCommand (cmd :: gap) = (.endOfInput, []) := by
      rw [readCommand, skipSpace_cons (not_space_of_takesWord hcmd)]
      simp only [hcmd, if_true, hskip]
    exact commands_of_ends hread rfl
  | @word cmd b gap w s cs hcmd hgap hw hlen hb _ ih =>
    have hend : ∀ c ∈ (b :: s).head?, isSpace c = true := by
      rintro c ⟨⟩
      exact hb
    obtain ⟨hword, hafter⟩ := word_append hw.2 hend
    have hread := readCommand_word hcmd hgap hw (b :: s)
    rw [readWord, hword, hafter, if_pos ⟨hlen, List.cons_ne_nil b s⟩, List.tail_cons] at hread
    obtain ⟨r, hr⟩ := select_of_takesWord (w := cString w) hcmd
    rw [hr] at hread ⊢
    rw [commands_of_not_ends hread rfl, ih]
  | @tooLong cmd gap w rest hcmd hgap hw hrest hlen =>
    obtain ⟨hword, hafter⟩ := word_append hw.2 hrest
    have hread := readCommand_word hcmd hgap hw rest
    have hno : ¬ (w.length ≤ maxWord ∧ rest ≠ []) := by
      rintro ⟨hle, hne⟩
      rcases hlen with hlt | hnil
      · omega
      · exact hne hnil
    rw [readWord, hword, hafter, if_neg hno] at hread
    exact commands_of_ends hread rfl

/-! ## Every input is a script -/

theorem skipSpace_split (s : List UInt8) :
    ∃ lead, Spaces lead ∧ s = lead ++ skipSpace s := by
  refine ⟨s.takeWhile isSpace, ?_, List.takeWhile_append_dropWhile.symm⟩
  intro b hb
  exact List.mem_takeWhile_imp hb

theorem word_split (s : List UInt8) :
    s = word s ++ afterWord s ∧ (∀ b ∈ word s, isSpace b = false) ∧
      ∀ b ∈ (afterWord s).head?, isSpace b = true := by
  refine ⟨List.takeWhile_append_dropWhile.symm, ?_, ?_⟩
  · intro b hb
    simpa using List.mem_takeWhile_imp hb
  · intro b hb
    have hhead := List.head?_dropWhile_not (fun c => !isSpace c) s
    rw [show (s.dropWhile fun c => !isSpace c).head? = some b from hb] at hhead
    simpa using hhead

/-- A command with its word, and what follows. -/
theorem exists_script_word (hcmd : takesWord cmd = true) (s : List UInt8)
    (hrest : ∀ t : List UInt8, t.length < s.length → ∃ cs, Script t cs) :
    ∃ cs, Script (cmd :: s) cs := by
  obtain ⟨gap, hgap, hs⟩ := skipSpace_split s
  cases ht : skipSpace s with
  | nil =>
    rw [ht, List.append_nil] at hs
    rw [hs]
    exact ⟨_, .noWord hcmd hgap⟩
  | cons b u =>
    obtain ⟨hsplit, hword, hend⟩ := word_split (b :: u)
    have hw : IsWord (Bytes.word (b :: u)) := by
      refine ⟨?_, hword⟩
      rw [word_cons (not_space_of_skipSpace ht) u]
      exact List.cons_ne_nil _ _
    rw [ht, hsplit] at hs
    rw [hs]
    cases hafter : afterWord (b :: u) with
    | nil => exact ⟨_, .tooLong hcmd hgap hw (by simp) (Or.inr rfl)⟩
    | cons c t =>
      rw [hafter] at hend hs
      by_cases hlen : (Bytes.word (b :: u)).length ≤ maxWord
      · have hlt : t.length < s.length := by
          rw [hs]
          simp only [List.length_append, List.length_cons]
          omega
        obtain ⟨cs, hcs⟩ := hrest t hlt
        exact ⟨_, .word hcmd hgap hw hlen (hend c rfl) hcs⟩
      · exact ⟨_, .tooLong hcmd hgap hw hend (Or.inl (Nat.lt_of_not_le hlen))⟩

theorem exists_script (s : List UInt8) : ∃ cs, Script s cs := by
  induction hk : s.length using Nat.strongRecOn generalizing s with
  | ind k ih =>
    cases s with
    | nil => exact ⟨_, .endOfInput⟩
    | cons cmd s =>
      rw [List.length_cons] at hk
      have hrest (t : List UInt8) (ht : t.length ≤ s.length) : ∃ cs, Script t cs :=
        ih t.length (by omega) t rfl
      obtain ⟨cs, hcs⟩ := hrest s (Nat.le_refl _)
      cases hb : isSpace cmd with
      | true => exact ⟨cs, .space hb hcs⟩
      | false =>
        cases hcmd : takesWord cmd with
        | true => exact exists_script_word hcmd s fun t ht => hrest t (Nat.le_of_lt ht)
        | false =>
          by_cases hquit : cmd = 113
          · subst hquit
            exact ⟨_, .quit⟩
          · by_cases hinit : cmd = 73
            · subst hinit
              exact ⟨_, .initw hcs⟩
            · refine ⟨_, .invalid hb ?_ hcs⟩
              have hcmd : cmd ≠ 105 ∧ cmd ≠ 108 ∧ cmd ≠ 100 := by simpa [takesWord] using hcmd
              simp [hquit, hinit, hcmd]

theorem script_iff : Script s cs ↔ commands s = cs := by
  constructor
  · exact Script.commands_eq
  · rintro rfl
    obtain ⟨cs, hcs⟩ := exists_script s
    rwa [hcs.commands_eq]

/-- **The command language.** Every input is a script of exactly one list of commands; the
client comes to the end of every input, and these are the commands it takes. -/
theorem command_language (s : List UInt8) :
    ∃ cs, Script s cs ∧ (∀ cs', Script s cs' → cs' = cs) ∧
      ∃ n, ∀ m, n ≤ m → takeCommands m m s = some cs := by
  obtain ⟨cs, hcs, hends⟩ := takeCommands_yields s
  refine ⟨cs, script_iff.mpr hcs.symm, ?_, hends⟩
  intro cs' hcs'
  rw [hcs, script_iff.mp hcs']

end Script

end OsLabs.Dict
