import OsLabs.Concurrent.Simulation
import OsLabs.Dict.Bag
import OsLabs.Dict.Commands

/-!
# The dictionary: clients and server together

Any number of clients (`rdictprog_1` of `os_lab_rpc/threads_rpc/dict_client.c`) over one
table, with requests that are handled one at a time, as `rdictprog_1` of
`dict_svc copy.c` handles them: one step is a turn of the loop of one client, from the
command it reads to the line it prints. Each call is delivered and answered once; calls
that fail or are repeated, the prompts and the network are left out. A turn comes with the
fuel for the loops of `nextin`.

The abstract system has the commands of each client in the place of its input and a bag of
words in the place of the table. The two have the same runs, as long as no word is
inserted while `DICTSIZ` words are held (`sessions`): whatever the inputs are and however
the clients take turns, each of them prints the answers of the bag to its commands. What
an insertion does behind the last row is left open. The limit on words is not needed: the
client sends no word that does not fit.
-/

namespace OsLabs.Dict

open Bytes Concurrent

/-! ## The clients -/

/-- The lines that a client prints. -/
inductive Printed
  /-- `Dictionary was initialized`, or `Dictionary failed to initialize`. -/
  | initialized (done : Bool)
  /-- `Insert was done`, or `Insert failed`. -/
  | insert (done : Bool)
  /-- `Delete was done`, or `Delete failed`. -/
  | delete (done : Bool)
  /-- `Word '%s' was found`, or `Word '%s' was not found`. -/
  | lookup (word : CString) (found : Bool)
  /-- `Programm quits`. -/
  | quits
  /-- `Command invalid`. -/
  | invalid
  /-- `Error word to long.`, printed by `nextin`. -/
  | tooLong
deriving DecidableEq

/-- The line for the reply to a request. -/
def report : Request → ℤ → Printed
  | .initw, result => .initialized (result = 1)
  | .insertw _, result => .insert (result > 0)
  | .deletew _, result => .delete (result = 1)
  | .lookupw word, result => .lookup word (result = 1)

/-- A client: the input that is left, what it has printed, and its exit status. -/
structure Client where
  stdin : List UInt8
  printed : List Printed
  exit : Option ℤ

/-- The call of a remote procedure, and the line printed for its reply. -/
def call (s : Table) (x : Client) (r : Request) : Option (Table × Client) :=
  (servRequest s r).map fun p => (p.1, { x with printed := x.printed ++ [report r p.2] })

/-- One turn of the loop of `rdictprog_1`. -/
def rdictprog1 (fuel : ℕ) (s : Table) (x : Client) : Option (Table × Client) :=
  if x.exit.isSome then none
  else (nextin fuel x.stdin).bind fun o =>
    let x := { x with stdin := o.stdin }
    match o.result with
    | .exited status =>
        some (s, { x with printed := x.printed ++ [.tooLong], exit := some status })
    | .returned wrdlen =>
        if wrdlen < 0 then some (s, { x with exit := some 0 })
        else
          -- `word[wrdlen]='\0'`
          let word := cString (o.word.take wrdlen.toNat)
          let cmd := o.cmd.getD 0
          if cmd = 73 then call s x .initw
          else if cmd = 105 then call s x (.insertw word)
          else if cmd = 100 then call s x (.deletew word)
          else if cmd = 108 then call s x (.lookupw word)
          else if cmd = 113 then
            some (s, { x with printed := x.printed ++ [.quits], exit := some 0 })
          else some (s, { x with printed := x.printed ++ [.invalid] })

/-- The clients, interleaved; a request is handled in one step. -/
def clients (ι : Type) [DecidableEq ι] : Machine (Config ι Table Client) (ι × ℕ) :=
  interleave fun _ => rdictprog1

/-- Where the turn is an insertion, a row is left for it. -/
def InsertsFit {ι : Type} (c : Config ι Table Client) (a : ι × ℕ) : Prop :=
  ∀ word, (readCommand (c.loc a.1).stdin).1 = .request (.insertw word) →
    c.shared.nwords < dictSiz

/-- The server before its first request, and the clients with their inputs. -/
def start {ι : Type} (stdin : ι → List UInt8) : Config ι Table Client where
  shared := initial
  loc t := ⟨stdin t, [], none⟩

/-! ## The abstract system -/

namespace Bag

/-- A user of the bag: the commands that are left. -/
structure User where
  todo : List Command
  printed : List Printed
  exit : Option ℤ

/-- The next command of a user. -/
def turn (b : Multiset (List UInt8)) (x : User) : Option (Multiset (List UInt8) × User) :=
  match x.todo with
  | [] => none
  | .request r :: todo =>
      some ((request b r).1, ⟨todo, x.printed ++ [report r (request b r).2], x.exit⟩)
  | .invalid :: todo => some (b, ⟨todo, x.printed ++ [.invalid], x.exit⟩)
  | .quit :: _ => some (b, ⟨[], x.printed ++ [.quits], some 0⟩)
  | .endOfInput :: _ => some (b, ⟨[], x.printed, some 0⟩)
  | .tooLong :: _ => some (b, ⟨[], x.printed ++ [.tooLong], some 1⟩)

/-- The users, interleaved. -/
def users (ι : Type) [DecidableEq ι] :
    Machine (Config ι (Multiset (List UInt8)) User) (ι × Unit) :=
  interleave fun _ _ => turn

/-- Where the turn is an insertion, fewer than `DICTSIZ` words are in the bag. -/
def InsertsFit {ι : Type} (c : Config ι (Multiset (List UInt8)) User) (a : ι × Unit) : Prop :=
  ∀ word todo, (c.loc a.1).todo = .request (.insertw word) :: todo →
    Multiset.card c.shared < dictSiz

/-- The empty bag, and the users with their commands. -/
def start {ι : Type} (todo : ι → List Command) : Config ι (Multiset (List UInt8)) User where
  shared := 0
  loc t := ⟨todo t, [], none⟩

end Bag

/-- The commands that are left to a client. -/
def Client.user (x : Client) : Bag.User where
  todo := if x.exit.isSome then [] else commands x.stdin
  printed := x.printed
  exit := x.exit

/-- The clients as users of the words in the table. -/
def view {ι : Type} (c : Config ι Table Client) : Config ι (Multiset (List UInt8)) Bag.User where
  shared := contents c.shared
  loc t := (c.loc t).user

/-! ## A request -/

/-- The word of a request is of at most `MAXWORD` bytes. -/
def Request.Short : Request → Prop
  | .initw => True
  | .insertw word | .deletew word | .lookupw word => word.1.length ≤ maxWord

section Turn

variable {s : Table} {x : Client} {r : Request}

/-- A request with a short word is answered by the bag, unless the table is full. -/
theorem servRequest_short (h : Sound s) (hr : r.Short)
    (hroom : ∀ word, r = .insertw word → s.nwords < dictSiz) :
    ∃ s', servRequest s r = some (s', (Bag.request (contents s) r).2) ∧ Sound s' ∧
      contents s' = (Bag.request (contents s) r).1 := by
  apply servRequest_spec h
  cases r with
  | insertw word =>
    refine ⟨?_, hr⟩
    rw [card_contents]
    exact hroom word rfl
  | _ => trivial

theorem length_cString_le (w : List UInt8) : (cString w).1.length ≤ w.length :=
  (List.takeWhile_prefix _).length_le

/-! ## A turn -/

/-- What a turn does behind `nextin`, for a command that `select` gives. -/
def carryOut (s : Table) (x : Client) : Command → Option (Table × Client)
  | .request r => call s x r
  | .quit => some (s, { x with printed := x.printed ++ [.quits], exit := some 0 })
  | _ => some (s, { x with printed := x.printed ++ [.invalid] })

variable {fuel : ℕ} {cmd : UInt8} {w : List UInt8} {o : Outcome}

theorem rdictprog1_select (hexit : x.exit = none) (hn : nextin fuel x.stdin = some o)
    (ho : o = ⟨.returned w.length, some cmd, w, o.stdin⟩) :
    rdictprog1 fuel s x =
      carryOut s { x with stdin := o.stdin } (select cmd (cString w)) := by
  have hpos : ¬ (w.length : ℤ) < 0 := by omega
  rw [rdictprog1, hexit, hn, ho]
  simp only [Option.isSome_none, Bool.false_eq_true, if_false, Option.bind_some, if_neg hpos,
    Int.toNat_natCast, List.take_length, Option.getD_some, select]
  split_ifs <;> simp [carryOut]

/-- A turn answers as the bag does. -/
structure Agrees (b : Multiset (List UInt8)) (u : Bag.User) (p : Option (Table × Client)) :
    Prop where
  turn : Bag.turn b u = p.map fun q => (contents q.1, q.2.user)
  sound : ∀ q, p = some q → Sound q.1

theorem agrees_some {b : Multiset (List UInt8)} {u : Bag.User} {s : Table} (h : Sound s)
    (hturn : Bag.turn b u = some (contents s, x.user)) : Agrees b u (some (s, x)) := by
  refine ⟨hturn, ?_⟩
  rintro q ⟨⟩
  exact h

theorem carryOut_agrees (h : Sound s) (hexit : x.exit = none) (hw : w.length ≤ maxWord)
    {rest : List UInt8} (hread : readCommand x.stdin = (select cmd (cString w), rest))
    (hroom : ∀ word, select cmd (cString w) = .request (.insertw word) → s.nwords < dictSiz) :
    Agrees (contents s) x.user
      (carryOut s { x with stdin := rest } (select cmd (cString w))) := by
  have htodo : x.user.todo = commands x.stdin := by simp [Client.user, hexit]
  have hshort : (cString w).1.length ≤ maxWord := (length_cString_le w).trans hw
  have hcommand : (∃ r, select cmd (cString w) = .request r ∧ r.Short) ∨
      select cmd (cString w) = .quit ∨ select cmd (cString w) = .invalid := by
    unfold select
    split_ifs
    · exact Or.inl ⟨_, rfl, trivial⟩
    · exact Or.inl ⟨_, rfl, hshort⟩
    · exact Or.inl ⟨_, rfl, hshort⟩
    · exact Or.inl ⟨_, rfl, hshort⟩
    · exact Or.inr (Or.inl rfl)
    · exact Or.inr (Or.inr rfl)
  rcases hcommand with ⟨r, hr, hshort⟩ | hquit | hinvalid
  · rw [hr] at hread hroom ⊢
    have hinsert : ∀ word, r = .insertw word → s.nwords < dictSiz := by
      rintro word rfl
      exact hroom word rfl
    obtain ⟨s', hs', hsound, hcontents⟩ := servRequest_short h hshort hinsert
    rw [commands_of_not_ends hread rfl] at htodo
    simp only [carryOut, call]
    rw [hs', Option.map_some]
    apply agrees_some hsound
    simp only [Bag.turn, htodo, hcontents]
    simp [Client.user, hexit]
  · rw [hquit] at hread ⊢
    rw [commands_of_ends hread rfl] at htodo
    apply agrees_some h
    simp only [Bag.turn, htodo]
    simp [Client.user]
  · rw [hinvalid] at hread ⊢
    rw [commands_of_not_ends hread rfl] at htodo
    apply agrees_some h
    simp only [Bag.turn, htodo]
    simp [Client.user, hexit]

/-- With enough fuel for `nextin`, a turn answers as the bag does. -/
theorem turn_agrees (h : Sound s) (hexit : x.exit = none) (hn : nextin fuel x.stdin = some o)
    (ho : Obeys x.stdin o) (hw : o.word.length ≤ maxWord)
    (hroom : ∀ word, (readCommand x.stdin).1 = .request (.insertw word) → s.nwords < dictSiz) :
    Agrees (contents s) x.user (rdictprog1 fuel s x) := by
  have htodo : x.user.todo = commands x.stdin := by simp [Client.user, hexit]
  cases ho with
  | endOfInput hs hres =>
    rw [commands_of_ends (Prod.ext hs rfl) rfl] at htodo
    rw [rdictprog1, hexit, hn]
    simp only [Option.isSome_none, Bool.false_eq_true, if_false, Option.bind_some, hres]
    rw [if_pos (by decide)]
    apply agrees_some h
    simp only [Bag.turn, htodo]
    simp [Client.user]
  | tooLong hs hres =>
    rw [commands_of_ends (Prod.ext hs rfl) rfl] at htodo
    rw [rdictprog1, hexit, hn]
    simp only [Option.isSome_none, Bool.false_eq_true, if_false, Option.bind_some, hres]
    apply agrees_some h
    simp only [Bag.turn, htodo]
    simp [Client.user]
  | select cmd w hs ho =>
    have hlen : w.length ≤ maxWord := by
      rw [ho] at hw
      exact hw
    rw [rdictprog1_select hexit hn ho]
    rw [hs] at hroom
    exact carryOut_agrees h hexit hlen hs hroom

theorem rdictprog1_agrees (h : Sound s) {p : Table × Client} (hp : rdictprog1 fuel s x = some p)
    (hroom : ∀ word, (readCommand x.stdin).1 = .request (.insertw word) → s.nwords < dictSiz) :
    Agrees (contents s) x.user (some p) := by
  cases hexit : x.exit with
  | some status =>
    rw [rdictprog1, hexit, Option.isSome_some, if_pos rfl] at hp
    cases hp
  | none =>
    have hbind := hp
    rw [rdictprog1, hexit, Option.isSome_none, if_neg Bool.false_ne_true] at hbind
    obtain ⟨o, hn, -⟩ := Option.bind_eq_some_iff.mp hbind
    have hmono (n m : ℕ) (o : Outcome) (hn : nextin n x.stdin = some o) (hle : n ≤ m) :
        nextin m x.stdin = some o := nextin_mono hn hle
    have ho := (nextin_obeys x.stdin).result hmono hn
    have hw := ((nextin_yields x.stdin).result hmono hn).stored
    rw [← hp]
    exact turn_agrees h hexit hn ho hw hroom

theorem exit_of_turn {b : Multiset (List UInt8)} {p : Multiset (List UInt8) × Bag.User}
    (hturn : Bag.turn b x.user = some p) : x.exit = none := by
  by_contra hne
  obtain ⟨status, hstatus⟩ := Option.ne_none_iff_exists'.mp hne
  simp [Bag.turn, Client.user, hstatus] at hturn

/-- A turn of the bag can be taken, with enough fuel. -/
theorem exists_turn (h : Sound s) {b : Multiset (List UInt8)} {u : Bag.User}
    (hturn : Bag.turn (contents s) x.user = some (b, u))
    (hroom : ∀ word, (readCommand x.stdin).1 = .request (.insertw word) → s.nwords < dictSiz) :
    ∃ fuel s' x', rdictprog1 fuel s x = some (s', x') ∧ contents s' = b ∧ x'.user = u := by
  have hexit := exit_of_turn hturn
  obtain ⟨o, ho, n, hn⟩ := nextin_obeys x.stdin
  have hw := ((nextin_yields x.stdin).result (fun _ _ _ => nextin_mono) (hn n le_rfl)).stored
  have hagrees := turn_agrees h hexit (hn n le_rfl) ho hw hroom
  rw [hagrees.turn] at hturn
  obtain ⟨⟨s', x'⟩, hp, hq⟩ := Option.map_eq_some_iff.mp hturn
  cases hq
  exact ⟨n, s', x', hp, rfl, rfl⟩

end Turn

/-! ## The whole system -/

variable {ι : Type} [DecidableEq ι]

theorem view_set (c : Config ι Table Client) (t : ι) (s : Table) (x : Client) :
    view (c.set t s x) = (view c).set t (contents s) x.user := by
  simp only [view, Config.set, Config.mk.injEq, true_and]
  ext u
  exact Function.apply_update (fun _ => Client.user) c.loc t x u

omit [DecidableEq ι] in
/-- A client and the user that it is are about to insert the same word. -/
theorem insertsFit_iff {c : Config ι Table Client} {t : ι} (h : (c.loc t).exit = none) (n : ℕ) :
    InsertsFit c (t, n) ↔ Bag.InsertsFit (view c) (t, ()) := by
  have htodo : ((view c).loc t).todo = commands (c.loc t).stdin := by
    simp [view, Client.user, h]
  have hcard : Multiset.card (view c).shared = c.shared.nwords := card_contents c.shared
  simp only [InsertsFit, Bag.InsertsFit, htodo, hcard]
  constructor
  · intro hfit word todo hcommands
    apply hfit word
    cases hends : (readCommand (c.loc t).stdin).1.ends with
    | true =>
      rw [commands_of_ends rfl hends] at hcommands
      exact (List.cons.inj hcommands).1
    | false =>
      rw [commands_of_not_ends rfl hends] at hcommands
      exact (List.cons.inj hcommands).1
  · intro hfit word hread
    have hends : (readCommand (c.loc t).stdin).1.ends = false := by
      rw [hread]
      rfl
    apply hfit word (commands (readCommand (c.loc t).stdin).2)
    rw [← hread]
    exact commands_of_not_ends rfl hends

theorem bisimulates : Machine.Bisimulates (clients ι) (Bag.users ι) InsertsFit Bag.InsertsFit
    view (fun a => (a.1, ())) fun c => Sound c.shared := by
  refine ⟨?_, ?_⟩
  · rintro c ⟨t, fuel⟩ c' hsound hfit hn
    obtain ⟨s, x, hs, rfl⟩ := interleave_next.mp hn
    have hagrees := rdictprog1_agrees hsound hs hfit
    have hturn : Bag.turn (contents c.shared) (c.loc t).user = some (contents s, x.user) :=
      hagrees.turn
    refine ⟨hagrees.sound _ rfl, (insertsFit_iff (exit_of_turn hturn) fuel).mp hfit, ?_⟩
    rw [view_set]
    exact interleave_next.mpr ⟨contents s, x.user, hturn, rfl⟩
  · rintro c ⟨t, e⟩ u hsound hfit hn
    obtain ⟨b, y, hturn, rfl⟩ := interleave_next.mp hn
    have hexit : (c.loc t).exit = none := exit_of_turn hturn
    have hfit' := (insertsFit_iff hexit 0).mpr hfit
    obtain ⟨fuel, s, x, hs, rfl, rfl⟩ := exists_turn hsound hturn hfit'
    exact ⟨(t, fuel), c.set t s x, rfl, hfit', interleave_next.mpr ⟨s, x, hs, rfl⟩,
      view_set c t s x⟩

/-- **The dictionary as a whole.** For any number of clients with any inputs and in any order
of their turns, as long as no word is inserted into a full table: the table stays sound, the
clients and the words in the table are in a state that the users of a bag of words come to
with the commands of these inputs, and every such state is one that clients and table come
to. -/
theorem sessions (stdin : ι → List UInt8) :
    (∀ c, (clients ι).ReachBy InsertsFit (start stdin) c → Sound c.shared ∧
      (Bag.users ι).ReachBy Bag.InsertsFit (Bag.start fun t => commands (stdin t)) (view c)) ∧
    ∀ u, (Bag.users ι).ReachBy Bag.InsertsFit (Bag.start fun t => commands (stdin t)) u →
      ∃ c, (clients ι).ReachBy InsertsFit (start stdin) c ∧ view c = u := by
  have hstart : view (start stdin) = Bag.start fun t => commands (stdin t) := rfl
  rw [← hstart]
  refine ⟨?_, ?_⟩
  · intro c h
    exact bisimulates.reachBy sound_initial h
  · intro u h
    exact bisimulates.exists_reachBy sound_initial h

end OsLabs.Dict
