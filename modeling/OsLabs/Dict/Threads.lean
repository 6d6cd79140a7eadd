import OsLabs.Concurrent.Serial
import OsLabs.Dict.Model

/-!
# The dictionary: one thread for each request

`rdictprog_1` starts a thread for every request, so the requests of
`os_lab_rpc/threads_rpc/dict_server.c` run at the same time. Each read and each write of
`nwords` is one step, and so is each character of a row that is copied or compared. A
request whose next access is outside `dict` makes no step.
-/

namespace OsLabs.Dict.Threads

open Bytes Concurrent

/-- What the threads share: `nwords` and the bytes of `dict`. -/
inductive Loc
  | nwords
  | byte (a : ℕ)
deriving DecidableEq, Repr

abbrev Val : Loc → Type
  | .nwords => ℤ
  | .byte _ => UInt8

abbrev Mem := ∀ l, Val l

/-- What `deletew` and `lookupw` look for a word for. -/
inductive Find
  | deletew
  | lookupw
deriving DecidableEq, Repr

/-- The points of a request, one for each access. -/
inductive PC
  /-- `nwords=0;` -/
  | initw
  /-- The argument `dict[nwords]` of `strcpy` in `insertw`. -/
  | insertw (word : List UInt8)
  /-- `strcpy` to `dst`, with `rest` still to be copied. -/
  | copyWord (dst : ℕ) (rest : List UInt8)
  /-- `nwords++;` -/
  | incRead
  | incWrite (n : ℤ)
  /-- `return nwords;` -/
  | returnNwords
  /-- `i<nwords` -/
  | test (f : Find) (word : List UInt8) (i : ℕ)
  /-- `strcmp(word,dict[i])`, with `rest` still to be compared, at `src`. -/
  | compare (f : Find) (word : List UInt8) (i : ℕ) (rest : List UInt8) (src : ℕ)
  /-- `nwords--;` -/
  | decRead (i : ℕ)
  | decWrite (i : ℕ) (n : ℤ)
  /-- The argument `dict[nwords]` of `strcpy` in `deletew`. -/
  | lastRow (i : ℕ)
  /-- `strcpy` from `src` to `dst`. -/
  | copyRow (dst src : ℕ)
  /-- There is no row `dict[nwords]`: `nwords` is negative. -/
  | noRow
  | done (reply : ℤ)
deriving DecidableEq, Repr

/-- What is done about the row `i` that holds the word. -/
def PC.found : Find → ℕ → PC
  | .deletew, i => .decRead i
  | .lookupw, _ => .done 1

/-- The next access of a request. -/
def access : PC → Option (Access Val PC)
  | .initw => some (.write .nwords 0 (.done 1))
  | .insertw word =>
      some (.read .nwords fun n => if 0 ≤ n then .copyWord (row n.toNat) word else .noRow)
  | .copyWord dst [] => if dst < size then some (.write (.byte dst) 0 .incRead) else none
  | .copyWord dst (c :: rest) =>
      if dst < size then some (.write (.byte dst) c (.copyWord (dst + 1) rest)) else none
  | .incRead => some (.read .nwords .incWrite)
  | .incWrite n => some (.write .nwords (n + 1) .returnNwords)
  | .returnNwords => some (.read .nwords .done)
  | .test f word i =>
      some (.read .nwords fun n => if i < n then .compare f word i word (row i) else .done 0)
  | .compare f word i [] src =>
      if src < size then
        some (.read (.byte src) fun d => if d = 0 then .found f i else .test f word (i + 1))
      else none
  | .compare f word i (c :: rest) src =>
      if src < size then
        some (.read (.byte src) fun d =>
          if c = d then .compare f word i rest (src + 1) else .test f word (i + 1))
      else none
  | .decRead i => some (.read .nwords (.decWrite i))
  | .decWrite i n => some (.write .nwords (n - 1) (.lastRow i))
  | .lastRow i =>
      some (.read .nwords fun n => if 0 ≤ n then .copyRow (row i) (row n.toNat) else .noRow)
  | .copyRow dst src =>
      if src < size ∧ dst < size then
        some (.move (.byte src) (.byte dst) id fun c =>
          if c = 0 then .done 1 else .copyRow (dst + 1) (src + 1))
      else none
  | .noRow => none
  | .done _ => none

/-- Where the thread of a request begins. -/
def begin : Request → PC
  | .initw => .initw
  | .insertw word => .insertw word.1
  | .deletew word => .test .deletew word.1 0
  | .lookupw word => .test .lookupw word.1 0

/-- The shared locations with the globals `s` in them. -/
def ofTable (s : Table) : Mem
  | .nwords => (s.nwords : ℤ)
  | .byte a => s.mem a

/-- All requests have arrived, and no thread has made a step. -/
def start {ι : Type} (s : Table) (req : ι → Request) : Config ι Mem (Recorded Loc PC) :=
  ⟨ofTable s, fun t => .start (begin (req t))⟩

/-- The threads of the requests. -/
def server (ι : Type) [DecidableEq ι] : Machine (Config ι Mem (Recorded Loc PC)) (ι × Unit) :=
  recorded ι access

end OsLabs.Dict.Threads
