import OsLabs.Bytes.CString

/-!
# Messages of errors

`os_lab_3/src/apue.c`: the functions of the `err` family format a message into `buf` and
print it. `vsnprintf` and `snprintf` get the message and the text of `strerror` as they come
out of the format. `err_doit` leaves room for the newline and the zero, and so nothing is
stored outside of `buf`, however long the message and the text are: what is printed is as
much of both as fits, and a newline (`err_lines`).
-/

namespace OsLabs.Apue

open Bytes

/-- `MAXLINE`, the size of `buf`. -/
def maxLine : ℕ := 4096

/-- A value of type `size_t`. -/
def toSize (n : ℤ) : ℕ := (n % 18446744073709551616).toNat

/-- What the functions find: `errno`, the texts of `strerror`, and what the stack holds where
`buf` will be. -/
structure Env where
  errno : ℤ
  strerror : ℤ → CString
  stack : ℕ → UInt8

/-- How a function of the family ends. -/
inductive End
  | returns
  | exit (status : ℤ)
  | abort
deriving DecidableEq, Repr

def colon : List UInt8 := [58, 32]

def newline : List UInt8 := [10]

/-- `strcat(buf, "\n")`. -/
def appendNewline (m : ℕ → UInt8) : Option (ℕ → UInt8) := do
  let len ← strlen maxLine m 0 maxLine
  strcpy maxLine m len newline

/-- `err_doit`: the line that is printed, or `none` where a byte outside of `buf` is read or
stored. -/
def errDoit (e : Env) (errnoflag : Bool) (error : ℤ) (message : CString) :
    Option (List UInt8) := do
  let m ← snprintf maxLine e.stack 0 (maxLine - 1) message.val
  let m ← if errnoflag then do
      let len ← strlen maxLine m 0 maxLine
      snprintf maxLine m len (toSize (maxLine - len - 1)) (colon ++ (e.strerror error).val)
    else some m
  let m ← appendNewline m
  return readString m 0 maxLine

/-- The line, and how the function ends. -/
def after (how : End) (line : Option (List UInt8)) : Option (List UInt8 × End) :=
  line.map fun w => (w, how)

def errRet (e : Env) (message : CString) : Option (List UInt8 × End) :=
  after .returns (errDoit e true e.errno message)

def errSys (e : Env) (message : CString) : Option (List UInt8 × End) :=
  after (.exit 1) (errDoit e true e.errno message)

def errCont (e : Env) (error : ℤ) (message : CString) : Option (List UInt8 × End) :=
  after .returns (errDoit e true error message)

def errExit (e : Env) (error : ℤ) (message : CString) : Option (List UInt8 × End) :=
  after (.exit 1) (errDoit e true error message)

def errDump (e : Env) (message : CString) : Option (List UInt8 × End) :=
  after .abort (errDoit e true e.errno message)

def errMsg (e : Env) (message : CString) : Option (List UInt8 × End) :=
  after .returns (errDoit e false 0 message)

def errQuit (e : Env) (message : CString) : Option (List UInt8 × End) :=
  after (.exit 1) (errDoit e false 0 message)

/-! ## What is printed -/

/-- As much of `text` as fits, and a newline. -/
def lineOf (text : List UInt8) : List UInt8 := text.take (maxLine - 2) ++ newline

theorem not_mem_take {w : List UInt8} (h : 0 ∉ w) (n : ℕ) : 0 ∉ w.take n :=
  fun hmem => h (List.mem_of_mem_take hmem)

/-- Behind a text that is not too long there is room for the newline. -/
theorem newline_spec {m : ℕ → UInt8} {w : List UInt8} (h : Holds m 0 w) (hw : 0 ∉ w)
    (hlen : w.length ≤ maxLine - 2) :
    ∃ m', appendNewline m = some m' ∧ readString m' 0 maxLine = w ++ newline := by
  have hmax : maxLine = 4096 := rfl
  have hnl : newline.length = 1 := rfl
  have hstrlen : strlen maxLine m 0 maxLine = some w.length :=
    strlen_spec h hw (by omega) (by omega)
  obtain ⟨m', hm', hholds⟩ :=
    strcpy_behind h (show 0 + (w.length + newline.length) < maxLine by omega)
  rw [Nat.zero_add] at hm'
  refine ⟨m', ?_, ?_⟩
  · simp only [appendNewline, hstrlen, Option.bind_eq_bind, Option.bind_some, hm']
  · apply readString_eq hholds
    · rw [List.mem_append, not_or]
      exact ⟨hw, by decide⟩
    · rw [List.length_append]
      omega

theorem errDoit_plain (e : Env) (error : ℤ) (message : CString) :
    errDoit e false error message = some (lineOf message.val) := by
  have hmax : maxLine = 4096 := rfl
  have hzero := not_mem_take message.property (maxLine - 2)
  have hlen : (message.val.take (maxLine - 2)).length ≤ maxLine - 2 := List.length_take_le ..
  obtain ⟨m, hm, hholds, -⟩ := strcpy_spec (m := e.stack)
    (show 0 + (message.val.take (maxLine - 2)).length < maxLine by omega)
  obtain ⟨m', hm', hline⟩ := newline_spec hholds hzero hlen
  have hfirst : snprintf maxLine e.stack 0 (maxLine - 1) message.val = some m := hm
  simp only [errDoit, hfirst, Bool.false_eq_true, if_false, Option.bind_eq_bind,
    Option.bind_some, hm', hline]
  rfl

/-- The text of the error goes into the room that the message has left. -/
theorem errDoit_errno (e : Env) (error : ℤ) (message : CString) :
    errDoit e true error message =
      some (lineOf (message.val ++ (colon ++ (e.strerror error).val))) := by
  have hmax : maxLine = 4096 := rfl
  have hzero := not_mem_take message.property (maxLine - 2)
  have hlen : (message.val.take (maxLine - 2)).length ≤ maxLine - 2 := List.length_take_le ..
  obtain ⟨m, hm, hholds, -⟩ := strcpy_spec (m := e.stack)
    (show 0 + (message.val.take (maxLine - 2)).length < maxLine by omega)
  have hfirst : snprintf maxLine e.stack 0 (maxLine - 1) message.val = some m := hm
  have hstrlen : strlen maxLine m 0 maxLine = some (message.val.take (maxLine - 2)).length :=
    strlen_spec hholds hzero (by omega) (by omega)
  generalize hv : message.val.take (maxLine - 2) = v at hlen hholds hzero hstrlen
  -- the room is positive, and `size_t` does not wrap
  have hroom : toSize (maxLine - v.length - 1) = (maxLine - 2 - v.length) + 1 := by
    unfold toSize
    omega
  have htext : 0 ∉ colon ++ (e.strerror error).val := by
    rw [List.mem_append, not_or]
    exact ⟨by decide, (e.strerror error).property⟩
  generalize ht : (colon ++ (e.strerror error).val).take (maxLine - 2 - v.length) = t
  have htake : t.length ≤ maxLine - 2 - v.length := by
    rw [← ht]
    exact List.length_take_le ..
  have htzero : 0 ∉ t := by
    rw [← ht]
    exact not_mem_take htext _
  obtain ⟨m₁, hm₁, hholds₁⟩ :=
    strcpy_behind hholds (show 0 + (v.length + t.length) < maxLine by omega)
  rw [Nat.zero_add] at hm₁
  have hsecond : snprintf maxLine m v.length (toSize (maxLine - v.length - 1))
      (colon ++ (e.strerror error).val) = some m₁ := by
    rw [snprintf, hroom, if_neg (Nat.succ_ne_zero _), Nat.add_sub_cancel, ht]
    exact hm₁
  obtain ⟨m', hm', hline⟩ := newline_spec hholds₁
    (by rw [List.mem_append, not_or]; exact ⟨hzero, htzero⟩)
    (by rw [List.length_append]; omega)
  have hboth : v ++ t = (message.val ++ (colon ++ (e.strerror error).val)).take (maxLine - 2) := by
    rw [List.take_append, hv, ← ht, ← hv, List.length_take]
    congr 2
    omega
  simp only [errDoit, hfirst, if_true, hstrlen, Option.bind_eq_bind, Option.bind_some, hsecond,
    hm', hline, hboth]
  rfl

/-- The line with the text of an error. -/
def Env.lineWith (e : Env) (error : ℤ) (message : CString) : List UInt8 :=
  lineOf (message.val ++ (colon ++ (e.strerror error).val))

/-- **The lines.** Whatever the message and the text of the error are and whatever the stack
holds, no byte outside of `buf` is read or stored. -/
theorem err_lines (e : Env) (error : ℤ) (message : CString) :
    errRet e message = some (e.lineWith e.errno message, .returns) ∧
    errSys e message = some (e.lineWith e.errno message, .exit 1) ∧
    errCont e error message = some (e.lineWith error message, .returns) ∧
    errExit e error message = some (e.lineWith error message, .exit 1) ∧
    errDump e message = some (e.lineWith e.errno message, .abort) ∧
    errMsg e message = some (lineOf message.val, .returns) ∧
    errQuit e message = some (lineOf message.val, .exit 1) ∧
    (lineOf message.val).length ≤ maxLine - 1 ∧
    (e.lineWith error message).length ≤ maxLine - 1 := by
  have hlength (text : List UInt8) : (lineOf text).length ≤ maxLine - 1 := by
    have hmax : maxLine = 4096 := rfl
    have hnl : newline.length = 1 := rfl
    rw [lineOf, List.length_append, List.length_take]
    omega
  refine ⟨?_, ?_, ?_, ?_, ?_, ?_, ?_, hlength _, hlength _⟩
  · rw [errRet, errDoit_errno]
    rfl
  · rw [errSys, errDoit_errno]
    rfl
  · rw [errCont, errDoit_errno]
    rfl
  · rw [errExit, errDoit_errno]
    rfl
  · rw [errDump, errDoit_errno]
    rfl
  · rw [errMsg, errDoit_plain]
    rfl
  · rw [errQuit, errDoit_plain]
    rfl

end OsLabs.Apue
