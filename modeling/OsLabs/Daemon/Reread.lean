import Mathlib.Logic.Function.Iterate
import OsLabs.Bytes.CString
import OsLabs.Bytes.Scan
import OsLabs.Daemon.SingleInstance

/-!
# The daemon: reading the configuration back

`reread` of `os_lab_3/src/daemon.c`, and what it makes of the file that `already_running`
has written. The writer prints the uid with `%ld`, the reader scans it with `%d` into an
`int`; the writer has 256 bytes for the text, the reader 50 for the login; and the writer
writes the terminating zero, which the reader takes for a byte of the login.

What the local variables of `reread` hold before it is a parameter, and so is the `int`
that `%d` stores for a number that does not fit.
-/

namespace OsLabs.Daemon

open Concurrent Files FileSystem Bytes

/-- What becomes of a call of `reread`: it exits where the file cannot be opened, it stores
a byte outside `login`, or it logs what the two variables hold. -/
inductive Reread
  | exited
  | overrun
  | logged (userid : Int32) (login : ℕ → UInt8)

variable {ι : Type} {overflow : ℤ → Int32} {userid : Int32} {login : ℕ → UInt8}

/-- `fscanf(fd, "%d\n", &userid)`: the variable and the rest of the file. -/
def scanUserid (overflow : ℤ → Int32) (userid : Int32) (bytes : List UInt8) :
    Int32 × List UInt8 :=
  match scanInt bytes with
  | (some v, rest) => (toInt32 overflow v, skipSpace rest)
  | (none, rest) => (userid, rest)

/-- `fscanf(fd, "%s\n", login)` into `char login[50]`; `none` is a byte stored outside. -/
def scanLogin (login : ℕ → UInt8) (bytes : List UInt8) : Option (ℕ → UInt8) :=
  match (scanWord bytes).1 with
  | some w => strcpy 50 login 0 w
  | none => some login

/-- `reread`. -/
def reread (overflow : ℤ → Int32) (userid : Int32) (login : ℕ → UInt8)
    (fs : FileSystem Path ι) : Reread :=
  match fs.content .confFile with
  | none => .exited
  | some bytes =>
      let scanned := scanUserid overflow userid bytes
      match scanLogin login scanned.2 with
      | none => .overrun
      | some login => .logged scanned.1 login

/-- A login name: 1 to 200 bytes, none of them white space or zero. -/
structure LoginName where
  bytes : List UInt8
  ne_nil : bytes ≠ []
  length_le : bytes.length ≤ 200
  not_space : ∀ c ∈ bytes, isSpace c = false
  not_zero : 0 ∉ bytes

/-- The user a daemon runs for, and its pid. -/
structure Account where
  pid : ℕ
  uid : UInt32
  login : LoginName

namespace Account

def identity (a : Account) : Identity := ⟨a.pid, a.uid.toNat, a.login.bytes⟩

def process (a : Account) (pc : PC) : Process := ⟨pc, a.pid, a.uid.toNat, a.login.bytes⟩

/-- `reread` has found the uid and, as a C string, the login. -/
def Obtained (a : Account) : Reread → Prop
  | .logged userid login => userid.toInt = a.uid.toNat ∧ Holds login 0 a.login.bytes
  | _ => False

variable {a : Account} {pc : PC}

theorem confText_process : (a.process pc).confText =
    Bytes.decimal a.uid.toNat ++ 10 :: (a.login.bytes ++ [0]) := by
  have htext : (a.process pc).confText =
      Bytes.decimal a.uid.toNat ++ [10] ++ a.login.bytes ++ [0] := rfl
  simp only [htext, List.append_assoc, List.cons_append, List.nil_append]

/-- The text fits into `char conf_buf[256]`. -/
theorem length_confText_le : (a.process pc).confText.length ≤ 256 := by
  have hdigits : (Bytes.decimal a.uid.toNat).length ≤ 10 := by
    rw [length_decimal_le (by omega)]
    exact Nat.lt_trans a.uid.toNat_lt (by decide)
  have hlogin := a.login.length_le
  rw [confText_process]
  simp only [List.length_append, List.length_cons, List.length_nil]
  omega

/-- The zero byte behind the login is no white space either. -/
theorem not_space : ∀ c ∈ a.login.bytes ++ [0], isSpace c = false := by
  intro c hc
  rcases List.mem_append.mp hc with hc | hc
  · exact a.login.not_space c hc
  · rw [List.mem_singleton.mp hc]
    decide

end Account

/-! ## The two scans -/

section Scans

variable {n : ℕ} {w : List UInt8}

/-- `%d` reads the uid, and the line feed is skipped. -/
theorem scanUserid_spec (hw : ∀ c ∈ w, isSpace c = false) :
    scanUserid overflow userid (Bytes.decimal n ++ 10 :: w) = (toInt32 overflow n, w) := by
  have hfeed : skipSpace (10 :: w) = w := by
    rw [skipSpace_space rfl]
    cases w with
    | nil => rfl
    | cons c w => exact skipSpace_cons (hw c List.mem_cons_self) w
  rw [scanUserid, scanInt_decimal (by decide)]
  simp only [hfeed]

theorem scanLogin_spec (hne : w ≠ []) (hw : ∀ c ∈ w, isSpace c = false) :
    scanLogin login w = strcpy 50 login 0 w := by
  rw [scanLogin, scanWord_word hne hw]

end Scans

section Read

variable {fs : FileSystem Path ι} {a : Account} {pc : PC}

/-- What `reread` makes of the text of an account: `%s` takes the zero byte for a byte of the
word, and stores another zero behind it. -/
theorem reread_eq (h : fs.content .confFile = some (a.process pc).confText) :
    reread overflow userid login fs =
      match strcpy 50 login 0 (a.login.bytes ++ [0]) with
      | none => .overrun
      | some login => .logged (toInt32 overflow a.uid.toNat) login := by
  rw [reread, h, Account.confText_process]
  simp only [scanUserid_spec a.not_space, scanLogin_spec (by simp) a.not_space]

/-- The uid must fit into an `int`, and the login with two zero bytes into 50 bytes. -/
theorem obtained_iff (h : fs.content .confFile = some (a.process pc).confText) :
    a.Obtained (reread overflow userid login fs) ↔
      a.uid.toNat < 2 ^ 31 ∧ a.login.bytes.length ≤ 48 := by
  have hlen : (a.login.bytes ++ [0]).length = a.login.bytes.length + 1 := by simp
  have huid : (toInt32 overflow a.uid.toNat).toInt = a.uid.toNat ↔ a.uid.toNat < 2 ^ 31 := by
    rw [toInt_toInt32_iff]
    omega
  rw [reread_eq h]
  by_cases hroom : a.login.bytes.length ≤ 48
  · have hfits : 0 + (a.login.bytes ++ [0]).length < 50 := by omega
    obtain ⟨m, hm, hholds, -⟩ := strcpy_spec (m := login) hfits
    rw [hm]
    constructor
    · intro hgot
      exact ⟨huid.mp hgot.1, hroom⟩
    · intro hfits
      exact ⟨huid.mpr hfits.1, hholds.of_append_zero⟩
  · have hout : strcpy 50 login 0 (a.login.bytes ++ [0]) = none := strcpy_outside (by omega)
    rw [hout]
    constructor
    · intro hgot
      exact hgot.elim
    · intro hfits
      exact absurd hfits.2 hroom

end Read

/-! ## What is written is read -/

section Write

variable [DecidableEq ι]

/-- `already_running` from the `open` of `CONFFILE` to its return. -/
def writesConf (t : ι) (fs : FileSystem Path ι) (x : Process) : FileSystem Path ι × PC :=
  (fun q => alreadyRunning .daemon t q.1 x q.2)^[4] (fs, .openConf)

/-- Whatever the files were before, `CONFFILE` holds the text when 0 is returned. -/
theorem writesConf_spec (t : ι) (fs : FileSystem Path ι) (x : Process) :
    (writesConf t fs x).2 = .setup ∧
      (writesConf t fs x).1.content .confFile = some x.confText := by
  refine ⟨rfl, ?_⟩
  have hname : ((fs.openCreate .confFile).1.truncate (fs.openCreate .confFile).2.inode).names
      .confFile = some (fs.openCreate .confFile).2.inode := openCreate_names
  exact write_content hname (truncate_data _ _) openCreate_offset

/-- **The round trip.** For every uid and every login name: `reread` obtains from the file
that `already_running` has written the same uid and the same login, with no byte stored
outside `login`, if and only if the uid is below 2^31 and the login has at most 48 bytes. -/
theorem round_trip_iff (overflow : ℤ → Int32) (userid : Int32) (login : ℕ → UInt8) (t : ι)
    (fs : FileSystem Path ι) (a : Account) :
    a.Obtained (reread overflow userid login (writesConf t fs (a.process .openConf)).1) ↔
      a.uid.toNat < 2 ^ 31 ∧ a.login.bytes.length ≤ 48 :=
  obtained_iff (writesConf_spec t fs _).2

/-- A login of 49 bytes. -/
def longLogin : LoginName where
  bytes := List.replicate 49 117
  ne_nil := by decide
  length_le := by decide
  not_space := by
    intro c hc
    rw [List.eq_of_mem_replicate hc]
    rfl
  not_zero := by decide

def shortLogin : LoginName where
  bytes := [117]
  ne_nil := by decide
  length_le := by decide
  not_space := List.forall_mem_singleton.mpr rfl
  not_zero := by decide

/-- The second zero byte behind a login of 49 bytes is stored outside `login`, and the uid
2^31 is no `int`, also where its bits are kept. -/
theorem round_trip_fails :
    ¬ Account.Obtained ⟨100, 1000, longLogin⟩ (reread Int32.ofInt 0 (fun _ => 0)
      (writesConf () noFiles (Account.process ⟨100, 1000, longLogin⟩ .openConf)).1) ∧
    ¬ Account.Obtained ⟨100, 2147483648, shortLogin⟩ (reread Int32.ofInt 0 (fun _ => 0)
      (writesConf () noFiles (Account.process ⟨100, 2147483648, shortLogin⟩ .openConf)).1) := by
  constructor
  · intro hgot
    have hlen := ((obtained_iff (writesConf_spec _ _ _).2).mp hgot).2
    exact absurd hlen (by decide)
  · intro hgot
    have huid := ((obtained_iff (writesConf_spec _ _ _).2).mp hgot).1
    exact absurd huid (by decide)

end Write

/-! ## In a run of many daemons -/

section Runs

variable [DecidableEq ι] {fs : FileSystem Path ι} {c : Config ι (FileSystem Path ι) Process}
  {t : ι}

/-- A process keeps its uid and its login. -/
theorem confText_reach {who : ι → Identity} (h : (daemon ι).Reach (initial fs who) c) :
    ∀ t, (c.loc t).confText = ((initial fs who).loc t).confText := by
  apply h.interleave_invariant
    (I := fun c => ∀ t, (c.loc t).confText = ((initial fs who).loc t).confText)
  · intro t
    rfl
  · intro c t e s x hI _ hs u
    exact Config.forall_set
      (P := fun u (x : Process) => x.confText = ((initial fs who).loc u).confText)
      ((step_cases hs).1.2.trans (hI t)) (fun u _ => hI u) u

/-- The daemon that is running reads its own uid and login, in every state of every run of
any number of start attempts, under the same condition. -/
theorem obtained_iff_of_up {account : ι → Account}
    (h : (daemon ι).Reach (initial fs fun t => (account t).identity) c)
    (hup : (c.loc t).pc.up = true) :
    (account t).Obtained (reread overflow userid login c.shared) ↔
      (account t).uid.toNat < 2 ^ 31 ∧ (account t).login.bytes.length ≤ 48 := by
  have htext : (c.loc t).confText = ((account t).process .start).confText := confText_reach h t
  apply obtained_iff
  rw [((inv_reach h).files hup).2, htext]

end Runs

end OsLabs.Daemon
