import OsLabs.Bytes.CString

/-!
# The dictionary: model

The table of `os_lab_rpc/threads_rpc/dict_server.c`, for requests handled one at a time.
`dict` is a block of `DICTSIZ` rows of `MAXWORD + 1` bytes, so a string that is too long
for its row runs into the next one; an access outside the block gives `none`. The
arguments are C strings of any length.
-/

namespace OsLabs.Dict

open Bytes

/-- `MAXWORD`. -/
abbrev maxWord : ℕ := 50

/-- `DICTSIZ`. -/
abbrev dictSiz : ℕ := 100

/-- The bytes of `dict`. -/
abbrev size : ℕ := dictSiz * (maxWord + 1)

/-- `dict[i]`. -/
abbrev row (i : ℕ) : ℕ := (maxWord + 1) * i

/-- The globals of the server. -/
structure Table where
  mem : ℕ → UInt8
  nwords : ℕ

/-- The globals before the first request. -/
def initial : Table := ⟨fun _ => 0, 0⟩

def initw (s : Table) : Option (Table × ℤ) := some ({ s with nwords := 0 }, 1)

def insertw (s : Table) (word : CString) : Option (Table × ℤ) :=
  (strcpy size s.mem (row s.nwords) word.1).map fun mem =>
    (⟨mem, s.nwords + 1⟩, (s.nwords : ℤ) + 1)

/-- The loop of `deletew` and `lookupw`: the first of the rows that compares equal. -/
def scan (mem : ℕ → UInt8) (word : List UInt8) : List ℕ → Option (Option ℕ)
  | [] => some none
  | i :: is => (strcmp size mem word (row i)).bind fun d =>
      if d = 0 then some (some i) else scan mem word is

def deletew (s : Table) (word : CString) : Option (Table × ℤ) :=
  (scan s.mem word.1 (List.range s.nwords)).bind fun
    | some i =>
        let nwords := s.nwords - 1
        (strmove size s.mem (row i) (row nwords) size).map fun mem => (⟨mem, nwords⟩, 1)
    | none => some (s, 0)

def lookupw (s : Table) (word : CString) : Option (Table × ℤ) :=
  (scan s.mem word.1 (List.range s.nwords)).map fun
    | some _ => (s, 1)
    | none => (s, 0)

/-- The requests of `RDICTVERS`. -/
inductive Request
  | initw
  | insertw (word : CString)
  | deletew (word : CString)
  | lookupw (word : CString)

/-- `serv_request`: one request and its reply. -/
def servRequest (s : Table) : Request → Option (Table × ℤ)
  | .initw => initw s
  | .insertw word => insertw s word
  | .deletew word => deletew s word
  | .lookupw word => lookupw s word

/-- Requests handled one after the other, and their replies. -/
def servAll (s : Table) : List Request → Option (Table × List ℤ)
  | [] => some (s, [])
  | r :: rs => (servRequest s r).bind fun p => (servAll p.1 rs).map fun q => (q.1, p.2 :: q.2)

/-! ## What the table holds -/

/-- The word in row `i`: the bytes up to the first zero. -/
def rowWord (s : Table) (i : ℕ) : List UInt8 := readString s.mem (row i) (size - row i)

/-- The words in the rows `0, …, nwords - 1`. -/
def rows (s : Table) : List (List UInt8) := (List.range s.nwords).map (rowWord s)

/-- The table fits its rows: at most `DICTSIZ` of them are in use, and each holds a
terminated word of at most `MAXWORD` bytes. -/
structure Sound (s : Table) : Prop where
  bound : s.nwords ≤ dictSiz
  length : ∀ i < s.nwords, (rowWord s i).length ≤ maxWord
  holds : ∀ i < s.nwords, Holds s.mem (row i) (rowWord s i)

/-- The row of the next insertion exists, and the word fits it. -/
def Fits (s : Table) (word : CString) : Prop := s.nwords < dictSiz ∧ word.1.length ≤ maxWord

end OsLabs.Dict
