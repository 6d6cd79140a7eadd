import OsLabs.Dict.Threads

/-!
# The dictionary: atomicity of the requests

The requests take no lock. Two insertions that read `nwords` before either has counted its
word write the same row, and one word is lost (`lost_word`). Where the requests can be put
in an order such that no step conflicts with what a later one has done, the threads have
run one after the other in that order, and a thread that runs alone does what the request
does when it is handled alone (`servRequest_of_run`).

`answer` is what the rest of a request does on its own; a step keeps it.
-/

namespace OsLabs.Dict.Threads

open Bytes Concurrent

variable {m m' : Mem} {pc : PC} {s : Table} {r : Recorded Loc PC} {a : Access Val PC}

/-! ## The rest of a request -/

/-- The bytes of `dict`. -/
def bytes (m : Mem) (a : ℕ) : UInt8 := m (.byte a)

/-- The same `nwords` over other bytes. -/
def withBytes (m : Mem) (b : ℕ → UInt8) : Mem
  | .nwords => m .nwords
  | .byte a => b a

theorem bytes_update (m : Mem) (a : ℕ) (c : UInt8) :
    bytes (Function.update m (.byte a) c) = Function.update (bytes m) a c := by
  funext a'
  by_cases h : a' = a
  · subst h
    rw [bytes, Function.update_self, Function.update_self]
  · have hne : Loc.byte a' ≠ .byte a := fun heq => h (Loc.byte.inj heq)
    rw [bytes, Function.update_of_ne hne, Function.update_of_ne h, bytes]

theorem nwords_update (m : Mem) (a : ℕ) (c : UInt8) :
    Function.update m (.byte a) c .nwords = m .nwords :=
  Function.update_of_ne (by rintro ⟨⟩) ..

theorem withBytes_update (m : Mem) (a : ℕ) (c : UInt8) (b : ℕ → UInt8) :
    withBytes (Function.update m (.byte a) c) b = withBytes m b := by
  funext l
  cases l with
  | nwords => exact nwords_update m a c
  | byte a' => rfl

theorem withBytes_bytes_update (m : Mem) (a : ℕ) (c : UInt8) :
    withBytes m (Function.update (bytes m) a c) = Function.update m (.byte a) c := by
  funext l
  cases l with
  | nwords => exact (nwords_update m a c).symm
  | byte a' => exact (congrFun (bytes_update m a c) a').symm

/-- `nwords++; return nwords;` -/
def countWord (m : Mem) (n : ℤ) : Mem × ℤ := (Function.update m .nwords (n + 1), n + 1)

/-- The copy of the last row. -/
def moveRow (m : Mem) (dst src : ℕ) : Option (Mem × ℤ) :=
  (strmove size (bytes m) dst src size).map fun b => (withBytes m b, 1)

/-- `strcpy(dict[i],dict[nwords])` -/
def fillRow (m : Mem) (i : ℕ) : Option (Mem × ℤ) :=
  if 0 ≤ m .nwords then moveRow m (row i) (row (m .nwords).toNat) else none

/-- What follows when the word is found in row `i`. -/
def answerFound (m : Mem) : Find → ℕ → Option (Mem × ℤ)
  | .deletew, i => fillRow (Function.update m .nwords (m .nwords - 1)) i
  | .lookupw, _ => some (m, 1)

/-- The loop over the rows `is`. -/
def answerScan (m : Mem) (f : Find) (word : List UInt8) (is : List ℕ) : Option (Mem × ℤ) :=
  (scan (bytes m) word is).bind fun
    | some i => answerFound m f i
    | none => some (m, 0)

/-- The rows from `i` on. -/
def rowsFrom (m : Mem) (i : ℕ) : List ℕ := List.range' i ((m .nwords).toNat - i)

/-- What a request does from a point on, when nothing else happens. -/
def answer (m : Mem) : PC → Option (Mem × ℤ)
  | .initw => some (Function.update m .nwords 0, 1)
  | .insertw word =>
      if 0 ≤ m .nwords then
        (strcpy size (bytes m) (row (m .nwords).toNat) word).map fun b =>
          countWord (withBytes m b) (m .nwords)
      else none
  | .copyWord dst rest => (strcpy size (bytes m) dst rest).map fun b =>
      countWord (withBytes m b) (m .nwords)
  | .incRead => some (countWord m (m .nwords))
  | .incWrite n => some (countWord m n)
  | .returnNwords => some (m, m .nwords)
  | .test f word i => answerScan m f word (rowsFrom m i)
  | .compare f word i rest src => (strcmp size (bytes m) rest src).bind fun d =>
      if d = 0 then answerFound m f i else answerScan m f word (rowsFrom m (i + 1))
  | .decRead i => answerFound m .deletew i
  | .decWrite i n => fillRow (Function.update m .nwords (n - 1)) i
  | .lastRow i => fillRow m i
  | .copyRow dst src => moveRow m dst src
  | .noRow => none
  | .done reply => some (m, reply)

theorem answer_found (m : Mem) (f : Find) (i : ℕ) :
    answer m (.found f i) = answerFound m f i := by
  cases f <;> rfl

theorem answer_copyWord {dst : ℕ} {rest : List UInt8}
    (ha : access (.copyWord dst rest) = some a) :
    answer (a.effect m) (a.next m) = answer m (.copyWord dst rest) := by
  cases rest with
  | nil =>
    simp only [access, Option.ite_none_right_eq_some, Option.some.injEq] at ha
    obtain ⟨hdst, rfl⟩ := ha
    rw [answer, strcpy, store, if_pos hdst, Option.map_some, withBytes_bytes_update]
    rfl
  | cons c rest =>
    simp only [access, Option.ite_none_right_eq_some, Option.some.injEq] at ha
    obtain ⟨hdst, rfl⟩ := ha
    simp only [Access.effect, Access.next, answer, strcpy, store, if_pos hdst, Option.bind_some,
      bytes_update, withBytes_update, nwords_update]

theorem rowsFrom_cons {i : ℕ} (h : (i : ℤ) < m .nwords) :
    rowsFrom m i = i :: rowsFrom m (i + 1) := by
  unfold rowsFrom
  obtain ⟨k, hk⟩ : ∃ k, (m .nwords).toNat - i = k + 1 := ⟨(m .nwords).toNat - i - 1, by omega⟩
  rw [hk, List.range'_succ]
  congr 2
  omega

theorem rowsFrom_nil {i : ℕ} (h : ¬ (i : ℤ) < m .nwords) : rowsFrom m i = [] := by
  rw [rowsFrom, List.range'_eq_nil_iff]
  omega

theorem answer_test {f : Find} {word : List UInt8} {i : ℕ} :
    answer m (if (i : ℤ) < m .nwords then .compare f word i word (row i) else .done 0) =
      answer m (.test f word i) := by
  by_cases h : (i : ℤ) < m .nwords
  · simp only [if_pos h, answer, answerScan, rowsFrom_cons h, scan, Option.bind_assoc]
    congr 1
    funext d
    split_ifs
    · rfl
    · rfl
  · rw [if_neg h, answer, answer, answerScan, rowsFrom_nil h]
    rfl

theorem answer_compare {f : Find} {word rest : List UInt8} {i src : ℕ}
    (ha : access (.compare f word i rest src) = some a) :
    answer (a.effect m) (a.next m) = answer m (.compare f word i rest src) := by
  have hans (rest : List UInt8) (src : ℕ) : answer m (.compare f word i rest src) =
      (strcmp size (bytes m) rest src).bind fun d =>
        if d = 0 then answerFound m f i else answer m (.test f word (i + 1)) := rfl
  rw [hans]
  cases rest with
  | nil =>
    simp only [access, Option.ite_none_right_eq_some, Option.some.injEq] at ha
    obtain ⟨hsrc, rfl⟩ := ha
    have hcmp : strcmp size (bytes m) [] src = some (0 - ((bytes m src).toNat : ℤ)) := by
      rw [strcmp, load, if_pos hsrc, Option.map_some]
    rw [hcmp, Option.bind_some, Access.effect, Access.next]
    by_cases hd : m (.byte src) = 0
    · rw [if_pos hd, answer_found, bytes, hd]
      rfl
    · have hne : (0 : ℤ) - ((bytes m src).toNat : ℤ) ≠ 0 := toNat_ne (Ne.symm hd)
      rw [if_neg hd, if_neg hne]
  | cons c rest =>
    simp only [access, Option.ite_none_right_eq_some, Option.some.injEq] at ha
    obtain ⟨hsrc, rfl⟩ := ha
    have hcmp : strcmp size (bytes m) (c :: rest) src =
        if c = m (.byte src) then strcmp size (bytes m) rest (src + 1)
        else some ((c.toNat : ℤ) - ((bytes m src).toNat : ℤ)) := by
      rw [strcmp, load, if_pos hsrc, Option.bind_some]
      rfl
    rw [hcmp, Access.effect, Access.next]
    by_cases hd : c = m (.byte src)
    · rw [if_pos hd, if_pos hd, hans]
    · have hne : (c.toNat : ℤ) - ((bytes m src).toNat : ℤ) ≠ 0 := toNat_ne hd
      rw [if_neg hd, if_neg hd, Option.bind_some, if_neg hne]

theorem answer_copyRow {dst src : ℕ} (ha : access (.copyRow dst src) = some a) :
    answer (a.effect m) (a.next m) = answer m (.copyRow dst src) := by
  simp only [access, Option.ite_none_right_eq_some, Option.some.injEq] at ha
  obtain ⟨⟨hsrc, hdst⟩, rfl⟩ := ha
  have hmove : moveRow m dst src =
      (if m (.byte src) = 0 then some (Function.update (bytes m) dst (bytes m src))
        else strmove size (Function.update (bytes m) dst (bytes m src)) (dst + 1) (src + 1)
          size).map fun b => (withBytes m b, 1) := by
    have hsize : strmove size (bytes m) dst src size = strmove size (bytes m) dst src (size + 1) :=
      strmove_fuel (by omega) (by omega)
    rw [moveRow, hsize, strmove, load, if_pos hsrc, Option.bind_some, store, if_pos hdst,
      Option.bind_some]
    rfl
  change _ = moveRow m dst src
  rw [hmove, Access.effect, Access.next]
  by_cases hc : m (.byte src) = 0
  · rw [if_pos hc, if_pos hc, Option.map_some, withBytes_bytes_update]
    rfl
  · rw [if_neg hc, if_neg hc]
    change moveRow _ _ _ = _
    rw [moveRow, id, bytes_update]
    simp only [withBytes_update]
    rfl

/-- A step keeps what the rest of the request does. -/
theorem answer_step (ha : access pc = some a) : answer (a.effect m) (a.next m) = answer m pc := by
  cases pc with
  | copyWord dst rest => exact answer_copyWord ha
  | compare f word i rest src => exact answer_compare ha
  | copyRow dst src => exact answer_copyRow ha
  | insertw word =>
    obtain rfl := Option.some.inj ha
    rw [Access.effect, Access.next, answer]
    split_ifs
    · rfl
    · rfl
  | test f word i =>
    obtain rfl := Option.some.inj ha
    exact answer_test
  | lastRow i =>
    obtain rfl := Option.some.inj ha
    rw [Access.effect, Access.next, answer, fillRow]
    split_ifs
    · rfl
    · rfl
  | incWrite n =>
    obtain rfl := Option.some.inj ha
    change some (_, Function.update m .nwords (n + 1) .nwords) = _
    rw [Function.update_self]
    rfl
  | initw | incRead | returnNwords | decRead | decWrite =>
    obtain rfl := Option.some.inj ha
    rfl
  | noRow | done => cases ha

/-! ## A request alone -/

theorem answer_run (h : Run access m pc m' r) : answer m' r.pc = answer m pc := by
  induction h with
  | refl => rfl
  | step _ ha ih => rw [← ih, ← answer_step ha]; rfl

theorem bytes_ofTable (s : Table) : bytes (ofTable s) = s.mem := rfl

theorem withBytes_ofTable (s : Table) (b : ℕ → UInt8) :
    withBytes (ofTable s) b = ofTable ⟨b, s.nwords⟩ := by
  funext l
  cases l with
  | nwords => rfl
  | byte a => rfl

theorem update_ofTable (s : Table) (n : ℕ) :
    Function.update (ofTable s) .nwords (n : ℤ) = ofTable ⟨s.mem, n⟩ := by
  funext l
  cases l with
  | nwords => exact Function.update_self ..
  | byte a => exact Function.update_of_ne (by rintro ⟨⟩) ..

theorem answer_initw (s : Table) : answer (ofTable s) .initw =
    (initw s).map fun p => (ofTable p.1, p.2) := by
  rw [answer, initw, Option.map_some]
  exact congrArg (fun m => some (m, 1)) (update_ofTable s 0)

theorem answer_insertw (s : Table) (word : CString) : answer (ofTable s) (.insertw word.1) =
    (insertw s word).map fun p => (ofTable p.1, p.2) := by
  change (if 0 ≤ (s.nwords : ℤ) then
    (strcpy size s.mem (row (s.nwords : ℤ).toNat) word.1).map fun b =>
      countWord (withBytes (ofTable s) b) s.nwords else none) = _
  rw [if_pos (Int.natCast_nonneg _), Int.toNat_natCast, insertw, Option.map_map]
  congr 1
  funext b
  rw [withBytes_ofTable]
  exact Prod.ext (update_ofTable ⟨b, s.nwords⟩ (s.nwords + 1)) rfl

/-- What the loop finds is one of the rows it looks at. -/
theorem mem_of_scan {b : ℕ → UInt8} {word : List UInt8} {is : List ℕ} {i : ℕ}
    (h : scan b word is = some (some i)) : i ∈ is := by
  induction is with
  | nil => cases h
  | cons j is ih =>
    obtain ⟨d, -, hd⟩ := Option.bind_eq_some_iff.mp h
    split_ifs at hd with hzero
    · cases hd
      exact List.mem_cons_self ..
    · exact List.mem_cons_of_mem _ (ih hd)

theorem rowsFrom_ofTable (s : Table) : rowsFrom (ofTable s) 0 = List.range s.nwords := by
  rw [rowsFrom, List.range_eq_range']
  rfl

theorem answerFound_deletew {i : ℕ} (hi : i < s.nwords) :
    answerFound (ofTable s) .deletew i =
      (strmove size s.mem (row i) (row (s.nwords - 1)) size).map fun b =>
        (ofTable ⟨b, s.nwords - 1⟩, 1) := by
  have hn : (s.nwords : ℤ) - 1 = ((s.nwords - 1 : ℕ) : ℤ) := by omega
  change fillRow (Function.update (ofTable s) .nwords ((s.nwords : ℤ) - 1)) i = _
  rw [hn, update_ofTable]
  change (if 0 ≤ ((s.nwords - 1 : ℕ) : ℤ) then
    moveRow (ofTable ⟨s.mem, s.nwords - 1⟩) (row i) (row ((s.nwords - 1 : ℕ) : ℤ).toNat)
    else none) = _
  rw [if_pos (Int.natCast_nonneg _), Int.toNat_natCast, moveRow, bytes_ofTable]
  simp only [withBytes_ofTable]

theorem answer_deletew (s : Table) (word : CString) :
    answer (ofTable s) (.test .deletew word.1 0) =
      (deletew s word).map fun p => (ofTable p.1, p.2) := by
  rw [answer, answerScan, rowsFrom_ofTable, bytes_ofTable, deletew]
  cases hscan : scan s.mem word.1 (List.range s.nwords) with
  | none => rfl
  | some found =>
    cases found with
    | none => rfl
    | some i =>
      change answerFound (ofTable s) .deletew i = _
      rw [answerFound_deletew (List.mem_range.mp (mem_of_scan hscan)), Option.bind_some,
        Option.map_map]
      rfl

theorem answer_lookupw (s : Table) (word : CString) :
    answer (ofTable s) (.test .lookupw word.1 0) =
      (lookupw s word).map fun p => (ofTable p.1, p.2) := by
  rw [answer, answerScan, rowsFrom_ofTable, bytes_ofTable, lookupw]
  cases scan s.mem word.1 (List.range s.nwords) with
  | none => rfl
  | some found => cases found <;> rfl

theorem answer_begin (s : Table) (q : Request) : answer (ofTable s) (begin q) =
    (servRequest s q).map fun p => (ofTable p.1, p.2) := by
  cases q with
  | initw => exact answer_initw s
  | insertw word => exact answer_insertw s word
  | deletew word => exact answer_deletew s word
  | lookupw word => exact answer_lookupw s word

/-- A thread that runs alone does what the request does when it is handled alone. -/
theorem servRequest_of_run {q : Request} {reply : ℤ}
    (h : Run access (ofTable s) (begin q) m' r) (hr : r.pc = .done reply) :
    ∃ s', m' = ofTable s' ∧ servRequest s q = some (s', reply) := by
  have hanswer := answer_run h
  rw [hr, answer_begin] at hanswer
  obtain ⟨⟨s', reply'⟩, hserv, heq⟩ := Option.map_eq_some_iff.mp hanswer.symm
  cases heq
  exact ⟨s', rfl, hserv⟩

/-- Threads that run one after the other do what the requests do when they are handled one
after the other. -/
theorem servAll_of_serial {ι : Type} {req : ι → Request} {reply : ι → ℤ}
    {loc : ι → Recorded Loc PC} {order : List ι} (hdone : ∀ t, (loc t).pc = .done (reply t))
    (h : Serial access (fun t => begin (req t)) loc (ofTable s) order m') :
    ∃ s', m' = ofTable s' ∧ servAll s (order.map req) = some (s', order.map reply) := by
  induction order generalizing s with
  | nil =>
    cases h
    exact ⟨s, rfl, rfl⟩
  | cons t ts ih =>
    obtain ⟨m₁, hrun, hserial⟩ := serial_cons.mp h
    obtain ⟨s₁, rfl, hserv⟩ := servRequest_of_run hrun (hdone t)
    obtain ⟨s', hs', hall⟩ := ih hserial
    refine ⟨s', hs', ?_⟩
    rw [List.map_cons, servAll, hserv, Option.bind_some, hall]
    rfl

/-! ## Requests at the same time -/

/-- **Atomicity of requests that can be put in order.** Let any number of requests run at the
same time, and let there be an order of them such that no access is to a location that a
request later in the order has accessed before, one of the two writing it. When all have
replied, then the replies and the globals are those of the requests handled one after the
other in that order. -/
theorem atomic {ι : Type} [DecidableEq ι] {req : ι → Request} {order : List ι}
    {c : Config ι Mem (Recorded Loc PC)} {reply : ι → ℤ} (hnodup : order.Nodup)
    (hall : ∀ t, t ∈ order) (h : (server ι).ReachBy (Respects access order) (start s req) c)
    (hdone : ∀ t, (c.loc t).pc = .done (reply t)) :
    ∃ s', c.shared = ofTable s' ∧ servAll s (order.map req) = some (s', order.map reply) :=
  servAll_of_serial hdone (serial_of_reachBy hnodup hall h)

/-- The word that a thread inserts. -/
def letter (t : Fin 2) : CString := ⟨[if t.val = 0 then 97 else 98], by split_ifs <;> decide⟩

/-- A lookup and an insertion. -/
def lookupInsert (t : Fin 2) : Request :=
  if t.val = 0 then .lookupw (letter t) else .insertw (letter t)

/-- The lookup reads `nwords` while the insertion copies its word. -/
def overlapRun {ι : Type} (t u : ι) : List (ι × Unit) :=
  [(u, ()), (t, ()), (u, ()), (u, ()), (u, ()), (u, ()), (u, ())]

theorem atomic_overlap : ∃ s', servAll initial ([0, 1].map lookupInsert) = some (s', [0, 1]) := by
  have hrun : ((server (Fin 2)).exec (Respects access [0, 1]) (start initial lookupInsert)
      (overlapRun 0 1)).any (fun c => (c.loc 0).pc == .done 0 && (c.loc 1).pc == .done 1) =
        true := by decide
  obtain ⟨c, hc, hp⟩ := Machine.exists_reachBy_of_exec _ _ hrun
  rw [Bool.and_eq_true, beq_iff_eq, beq_iff_eq] at hp
  have hdone : ∀ t : Fin 2, (c.loc t).pc = .done (t.val : ℤ) := by
    intro t
    match t with
    | 0 => exact hp.1
    | 1 => exact hp.2
  obtain ⟨s', -, hs'⟩ := atomic (by decide) (by decide) hc hdone
  exact ⟨s', hs'⟩

/-- Two insertions. -/
def twoInserts (t : Fin 2) : Request := .insertw (letter t)

/-- Both insertions read `nwords` before one of them has counted its word. -/
def lostRun {ι : Type} (t u : ι) : List (ι × Unit) :=
  [(t, ()), (t, ()), (t, ()), (t, ()), (u, ()), (u, ()), (u, ()), (u, ()), (t, ()), (t, ()),
    (u, ()), (u, ())]

theorem replies_twoInserts (t u : Fin 2) :
    (servAll initial [twoInserts t, twoInserts u]).map (·.2) = some [1, 2] := by
  revert t u
  decide

/-- One of two inserted words is lost, and no order of the insertions gives their replies. -/
theorem lost_word : ∃ c : Config (Fin 2) Mem (Recorded Loc PC),
    (server (Fin 2)).Reach (start initial twoInserts) c ∧ (∀ t, (c.loc t).pc = .done 1) ∧
      c.shared .nwords = 1 ∧
      ∀ order : List (Fin 2), order.Nodup → (∀ t, t ∈ order) →
        ∀ s', servAll initial (order.map twoInserts) ≠ some (s', order.map fun _ => 1) := by
  have hrun : ((server (Fin 2)).run (start initial twoInserts) (lostRun 0 1)).any
      (fun c => (c.loc 0).pc == .done 1 && (c.loc 1).pc == .done 1 && c.shared .nwords == (1 : ℤ)) =
        true := by decide
  obtain ⟨c, hc, hp⟩ := Machine.exists_reach_of_run _ _ hrun
  rw [Bool.and_eq_true, Bool.and_eq_true, beq_iff_eq, beq_iff_eq, beq_iff_eq] at hp
  refine ⟨c, hc, ?_, hp.2, ?_⟩
  · intro t
    match t with
    | 0 => exact hp.1.1
    | 1 => exact hp.1.2
  · intro order hnodup hall s' hserv
    have hboth : ∀ t : Fin 2, t ∈ [(0 : Fin 2), 1] := by decide
    have hperm : order.Perm [0, 1] :=
      (List.perm_ext_iff_of_nodup hnodup (by decide)).mpr fun t =>
        ⟨fun _ => hboth t, fun _ => hall t⟩
    obtain ⟨t, u, rfl⟩ := List.length_eq_two.mp hperm.length_eq
    have hreplies := replies_twoInserts t u
    rw [show [twoInserts t, twoInserts u] = [t, u].map twoInserts from rfl, hserv] at hreplies
    simp at hreplies

end OsLabs.Dict.Threads
