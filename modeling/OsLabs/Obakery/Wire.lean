import OsLabs.Bytes.Xdr
import OsLabs.Obakery.Tickets
import Mathlib.Data.UInt
import Mathlib.Logic.Equiv.Defs

/-!
# The ticket server behind its datagrams

What stands in front of the two procedures in `os_lab_rpc/obakery`: the routine
`xdr_BAKERY` of `bakery_xdr.c` and the dispatcher `bakery_prog_1` of `bakery_svc.c`. A
`float` is sent as the word that represents it, through `bits`. The buffers of the library,
where its headers end in them, and whether they can be had in parts are left open (`End`).

As long as the accesses of the procedures stay inside their arrays, datagrams of any
contents, in any number and order, take the server where whole requests take it, and no two
of its replies carry the same ticket (`datagrams_tickets`).
-/

namespace OsLabs.Obakery.Wire

open Concurrent Xdr

variable {F : Type}

/-- One end of a connection: a buffer of the library with a header in it, up to `pos`. -/
structure End where
  policy : Policy
  mem : ℕ → UInt8
  size : ℕ
  pos : ℕ
  inside : pos ≤ size

/-- The stream that the end sends through. -/
def End.out (b : End) : Stream := ⟨.encode, b.mem, b.size, b.pos, b.inside⟩

/-- The end has room for the structure behind its header. -/
def End.Room (b : End) : Prop := b.pos + 28 ≤ b.size

/-- What the server sends back: the results, or one of the errors of `svcerr_noproc`,
`svcerr_decode` and `svcerr_systemerr`. -/
inductive Reply
  | success (results : List UInt8)
  | noProc
  | decodeError
  | systemError
deriving DecidableEq, Repr

/-- A datagram that reaches the server, and what handles it. -/
structure Arrival where
  proc : ℕ
  args : List UInt8
  input : End
  output : End
  ticks : ℕ → ℕ

/-- The server with what it has sent back, and for which procedure. -/
structure Net (F : Type) where
  server : Server F
  sent : List (ℕ × Reply)

/-- The integers of the structure, in the order of `xdr_BAKERY`. -/
def ints (objp : Bakery F) : List UInt32 :=
  [ofInt objp.num, ofInt objp.ind, ofInt objp.pid, ofInt objp.op]

section Model

variable (bits : F ≃ UInt32)

/-- The other fields of the structure. -/
def floats (objp : Bakery F) : List UInt32 :=
  [bits objp.arg1, bits objp.arg2, bits objp.result]

/-- The structure of seven words. -/
def ofWords : List UInt32 → Option (Bakery F)
  | [num, ind, pid, op, arg1, arg2, result] =>
      some
        { num := toInt num
          ind := toInt ind
          pid := toInt pid
          op := toInt op
          arg1 := bits.symm arg1
          arg2 := bits.symm arg2
          result := bits.symm result }
  | _ => none

/-- `xdr_BAKERY`. -/
def xdrBakery (policy : Policy) (xdrs : Stream) (objp : Bakery F) : Option (Stream × Bakery F) :=
  (xdrRecord policy xdrs (ints objp) (floats bits objp)).bind fun p =>
    (ofWords bits p.2).map fun objp => (p.1, objp)

/-- The bytes that are sent behind the header; `none` where the routine fails. -/
def encode (b : End) (objp : Bakery F) : Option (List UInt8) :=
  (xdrBakery bits b.policy b.out objp).map fun p => p.1.written b.pos

variable [Zero F]

/-- A structure that is set to zero, and then decoded from the bytes behind the header. -/
def decode (b : End) (bytes : List UInt8) : Option (Bakery F) :=
  (xdrBakery bits b.policy (received b.pos bytes) (Bakery.zero F)).map Prod.snd

/-- The body of `bakery_prog_1` behind its `switch`, with `svc` for `local`. -/
def answer (input output : End) (s : Server F) (svc : Bakery F → Option (Server F × Bakery F))
    (args : List UInt8) : Option (Server F × Reply) :=
  match decode bits input args with
  | none => some (s, .decodeError)
  | some argument => (svc argument).map fun p =>
      match encode bits output p.2 with
      | none => (p.1, .systemError)
      | some results => (p.1, .success results)

variable [Add F] [Sub F] [Mul F] [Div F]

/-- `bakery_prog_1` of the server, for procedure `proc`. -/
def bakeryProg1 (n : ℕ) (input output : End) (ticks : ℕ → ℕ) (s : Server F) (proc : ℕ)
    (args : List UInt8) : Option (Server F × Reply) :=
  match proc with
  | 0 => some (s, .success [])
  | 1 => answer bits input output s (fun _ => getNumber1Svc n s) args
  | 2 => answer bits input output s (fun argp => serve1Svc n s argp ticks) args
  | _ => some (s, .noProc)

/-- The server, taking datagram after datagram. -/
def datagrams (n : ℕ) : Machine (Net F) Arrival where
  next c a := (bakeryProg1 bits n a.input a.output a.ticks c.server a.proc a.args).map fun p =>
    ⟨p.1, c.sent ++ [(a.proc, p.2)]⟩

omit [Add F] [Sub F] [Mul F] [Div F] in
/-- Where the datagram calls a procedure, a slot is left for the ticket, and the slot to be
served exists. -/
def InArrays (n : ℕ) (c : Net F) (a : Arrival) : Prop :=
  match decode bits a.input a.args with
  | none => True
  | some argp => (a.proc = 1 → c.server.indexLast < n) ∧
      (a.proc = 2 → 0 ≤ argp.ind ∧ argp.ind < n)

end Model

instance [Zero F] (bits : F ≃ UInt32) (n : ℕ) (c : Net F) (a : Arrival) :
    Decidable (InArrays bits n c a) := by
  unfold InArrays
  split <;> infer_instance

/-! ## The bytes of a structure -/

/-- The integers of the structure are numbers that an `int` holds. -/
structure IsInts (objp : Bakery F) : Prop where
  num : IsInt objp.num
  ind : IsInt objp.ind
  pid : IsInt objp.pid
  op : IsInt objp.op

section Bytes

variable {bits : F ≃ UInt32} {b b' : End} {objp objp' : Bakery F} {bytes : List UInt8}

variable (bits) in
/-- The words of the structure. -/
def words (objp : Bakery F) : List UInt32 := ints objp ++ floats bits objp

theorem ofWords_words (h : IsInts objp) : ofWords bits (words bits objp) = some objp := by
  show some (Bakery.mk (toInt (ofInt objp.num)) (toInt (ofInt objp.ind)) (toInt (ofInt objp.pid))
    (toInt (ofInt objp.op)) (bits.symm (bits objp.arg1)) (bits.symm (bits objp.arg2))
    (bits.symm (bits objp.result))) = some objp
  rw [toInt_ofInt h.num, toInt_ofInt h.ind, toInt_ofInt h.pid, toInt_ofInt h.op]
  simp only [Equiv.symm_apply_apply]

theorem isInts_of_ofWords {ws : List UInt32} (h : ofWords bits ws = some objp) : IsInts objp := by
  unfold ofWords at h
  split at h
  · cases h
    exact ⟨isInt_toInt _, isInt_toInt _, isInt_toInt _, isInt_toInt _⟩
  · cases h

theorem exists_ofWords {ws : List UInt32} (h : ws.length = 7) :
    ∃ objp, ofWords bits ws = some objp := by
  obtain ⟨w₁, w₂, w₃, w₄, w₅, w₆, w₇, rfl⟩ : ∃ w₁ w₂ w₃ w₄ w₅ w₆ w₇,
      ws = [w₁, w₂, w₃, w₄, w₅, w₆, w₇] := by
    match ws, h with
    | [w₁, w₂, w₃, w₄, w₅, w₆, w₇], _ => exact ⟨w₁, w₂, w₃, w₄, w₅, w₆, w₇, rfl⟩
  exact ⟨_, rfl⟩

/-- What is sent is the same from every end that has room. -/
theorem encode_eq (h : IsInts objp) : encode bits b objp =
    if b.pos + 28 ≤ b.size then some (packed (words bits objp)) else none := by
  have hbytes : encode bits b objp =
      ((xdrLongs b.out (words bits objp)).map fun p => (p.1.written b.pos, p.2)).bind fun q =>
        (ofWords bits q.2).map fun _ => q.1 := by
    unfold encode xdrBakery
    rw [xdrRecord_eq, words]
    cases xdrLongs b.out (ints objp ++ floats bits objp) with
    | none => rfl
    | some p =>
      simp only [Option.bind_some, Option.map_some, Option.map_map]
      rfl
  rw [hbytes]
  have hwritten : (xdrLongs b.out (words bits objp)).map (fun p => (p.1.written b.pos, p.2)) =
      if b.pos + 28 ≤ b.size then some (packed (words bits objp), words bits objp) else none :=
    written_encode rfl (words bits objp)
  rw [hwritten]
  split_ifs
  · simp [ofWords_words h]
  · rfl

variable [Zero F]

/-- What is received does not depend on the end, and it is a structure where there are bytes
enough. -/
theorem decode_eq (b : End) (bytes : List UInt8) : decode bits b bytes =
    if 28 ≤ bytes.length then ofWords bits (unpacked bytes 7) else none := by
  have hwords : decode bits b bytes =
      ((xdrLongs (received b.pos bytes) (words bits (Bakery.zero F))).map Prod.snd).bind
        (ofWords bits) := by
    unfold decode xdrBakery
    rw [xdrRecord_eq, words]
    cases xdrLongs (received b.pos bytes) (ints (Bakery.zero F) ++ floats bits _) with
    | none => rfl
    | some p =>
      simp only [Option.bind_some, Option.map_some, Option.map_map]
      exact Option.map_id'
  rw [hwords, received_decode]
  show (if 28 ≤ bytes.length then some (unpacked bytes 7) else none).bind (ofWords bits) = _
  split_ifs
  · rfl
  · rfl

theorem isInts_of_decode (h : decode bits b bytes = some objp) : IsInts objp := by
  rw [decode_eq] at h
  split_ifs at h
  exact isInts_of_ofWords h

/-- Decoding fails on too few bytes only. -/
theorem decode_eq_none : decode bits b bytes = none ↔ bytes.length < 28 := by
  rw [decode_eq]
  split_ifs with h
  · obtain ⟨objp, hobjp⟩ : ∃ objp, ofWords bits (unpacked bytes 7) = some objp :=
      exists_ofWords (length_loadLongs 7)
    rw [hobjp]
    simp [h]
  · simp only [true_iff]
    omega

/-- **The round trip.** What one end sends is received at any other, whatever follows it. -/
theorem decode_encode (h : IsInts objp) (hsent : encode bits b objp = some bytes)
    (b' : End) (rest : List UInt8) : decode bits b' (bytes ++ rest) = some objp := by
  rw [encode_eq h] at hsent
  split_ifs at hsent
  cases hsent
  have hlen : 28 ≤ (packed (words bits objp) ++ rest).length := by
    rw [List.length_append, length_packed]
    exact Nat.le_add_right ..
  have hwords : unpacked (packed (words bits objp) ++ rest) 7 = words bits objp :=
    unpacked_packed _ _
  rw [decode_eq, if_pos hlen, hwords, ofWords_words h]

end Bytes

/-! ## One call -/

section Calls

variable [Zero F] {bits : F ≃ UInt32} {b input output : End} {s s' : Server F}
  {argp reply : Bakery F} {args : List UInt8} {svc : Bakery F → Option (Server F × Bakery F)}

/-- Arguments that were sent reach the procedure as they are. -/
theorem answer_encode (h : IsInts argp) (hsent : encode bits b argp = some args) :
    answer bits input output s svc args = (svc argp).map fun p =>
      match encode bits output p.2 with
      | none => (p.1, .systemError)
      | some results => (p.1, .success results) := by
  have hargs : decode bits input args = some argp := by
    have := decode_encode h hsent input []
    rwa [List.append_nil] at this
  rw [answer, hargs]

end Calls

/-! ## The server keeps to the numbers of an `int` -/

/-- The slots are filled in order, and the static results can be sent. -/
structure Slots (n : ℕ) (s : Server F) : Prop where
  bound : s.indexLast ≤ n
  numbers : ∀ i, s.numbers i = if i < s.indexLast then i + 1 else 0
  numberResult : IsInts s.numberResult
  serveResult : IsInts s.serveResult

section Server

variable {n : ℕ} {s s' : Server F} {argp reply : Bakery F} {ticks : ℕ → ℕ}

theorem isInt_natCast {k : ℕ} (h : k < 2 ^ 31) : IsInt (k : ℤ) := by
  unfold IsInt
  omega

theorem isInts_zero [Zero F] : IsInts (Bakery.zero F) :=
  ⟨isInt_natCast (by decide), isInt_natCast (by decide), isInt_natCast (by decide),
    isInt_natCast (by decide)⟩

theorem slots_initial [Zero F] (n : ℕ) : Slots n (initial F).server where
  bound := Nat.zero_le n
  numbers _ := rfl
  numberResult := isInts_zero
  serveResult := isInts_zero

/-- A request for a ticket draws the one after those that were drawn. -/
theorem Slots.getNumber (hS : Slots n s) (hn : n < 2 ^ 31)
    (h : getNumber1Svc n s = some (s', reply)) :
    Slots n s' ∧ IsInts reply ∧ reply.num = s.indexLast + 1 ∧ s'.indexLast = s.indexLast + 1 := by
  have hscan : maxNumber n s.numbers = s.indexLast := by
    rw [maxNumber_eq hS.numbers]
    exact min_eq_right hS.bound
  unfold getNumber1Svc at h
  simp only [hscan, Option.ite_none_right_eq_some, Option.some.injEq, Prod.mk.injEq,
    Function.update_self] at h
  obtain ⟨hlt, rfl, rfl⟩ := h
  have hints : IsInts { s.numberResult with
      num := (s.indexLast + 1 : ℕ), ind := (s.indexLast : ℤ) } :=
    ⟨isInt_natCast (by omega), isInt_natCast (by omega), hS.numberResult.pid, hS.numberResult.op⟩
  refine ⟨⟨hlt, ?_, hints, hS.serveResult⟩, hints, Nat.cast_succ _, rfl⟩
  intro i
  by_cases hi : i = s.indexLast
  · simp [hi]
  · simp only [Function.update_of_ne hi, hS.numbers i]
    split_ifs <;> omega

/-- A served request leaves the slots as they are, whatever it asks for. -/
theorem Slots.serve [Add F] [Sub F] [Mul F] [Div F] (hS : Slots n s)
    (h : serve1Svc n s argp ticks = some (s', reply)) :
    Slots n s' ∧ IsInts reply ∧ s'.indexLast = s.indexLast := by
  unfold serve1Svc at h
  split_ifs at h with hlt hr
  · cases h
    have hlate : IsInt (-1) := ⟨by decide, by decide⟩
    have hints : IsInts { s.serveResult with num := -1 } :=
      ⟨hlate, hS.serveResult.ind, hS.serveResult.pid, hS.serveResult.op⟩
    exact ⟨⟨hS.bound, hS.numbers, hS.numberResult, hints⟩, hints, rfl⟩
  · obtain ⟨ends, -, hends⟩ := Option.map_eq_some_iff.mp h
    cases hends
    have hints : IsInts { s.serveResult with
        result := calculate argp s.serveResult.result } :=
      ⟨hS.serveResult.num, hS.serveResult.ind, hS.serveResult.pid, hS.serveResult.op⟩
    exact ⟨⟨hS.bound, hS.numbers, hS.numberResult, hints⟩, hints, rfl⟩

end Server

/-- An end with room and without a header. -/
def roomy : End where
  policy _ _ := true
  mem _ := 0
  size := 28
  pos := 0
  inside := by decide

/-! ## Datagrams of any contents -/

/-- What a client reads in a reply, if it is one. -/
def replyOf [Zero F] (bits : F ≃ UInt32) (b : End) : Reply → Option (Bakery F)
  | .success results => decode bits b results
  | _ => none

/-- The replies that are read. -/
def replies [Zero F] (bits : F ≃ UInt32) (b : End) (sent : List (ℕ × Reply)) : List (Bakery F) :=
  sent.filterMap fun p => replyOf bits b p.2

/-- The tickets in the replies to `get_number`, as a client reads them. -/
def tickets [Zero F] (bits : F ≃ UInt32) (b : End) (sent : List (ℕ × Reply)) : List ℤ :=
  sent.filterMap fun p => if p.1 = 1 then (replyOf bits b p.2).map Bakery.num else none

/-- The reply in the history. -/
def replied : Handled F → Bakery F
  | .number reply => reply
  | .served _ _ _ reply => reply

/-- The argument is one that can be sent, a slot is left for the ticket, and the slot to be
served exists. -/
def Sendable (n : ℕ) (v : Service F) : Request F → Prop
  | .getNumber argp => IsInts argp ∧ v.server.indexLast < n
  | .serve argp _ => IsInts argp ∧ 0 ≤ argp.ind ∧ argp.ind < n

section Datagrams

variable [Zero F] {bits : F ≃ UInt32} {n proc : ℕ} {b input output : End} {s s' : Server F}
  {args : List UInt8} {r : Reply} {ticks : ℕ → ℕ} {c : Net F}

/-- Arguments that cannot be read change nothing; otherwise the procedure is called, and its
reply is the one that is read, if any. -/
theorem answer_cases {svc : Bakery F → Option (Server F × Bakery F)}
    (hsvc : ∀ argp s' reply, svc argp = some (s', reply) → IsInts reply)
    (h : answer bits input output s svc args = some (s', r)) :
    (s' = s ∧ replyOf bits b r = none) ∨
      ∃ argp reply, decode bits input args = some argp ∧ svc argp = some (s', reply) ∧
        (replyOf bits b r = none ∨ replyOf bits b r = some reply) := by
  unfold answer at h
  cases hargs : decode bits input args with
  | none =>
    rw [hargs] at h
    cases h
    exact Or.inl ⟨rfl, rfl⟩
  | some argp =>
    rw [hargs] at h
    obtain ⟨⟨s₁, reply⟩, hs, hp⟩ := Option.map_eq_some_iff.mp h
    have hreply := hsvc argp s₁ reply hs
    cases hresults : encode bits output reply with
    | none =>
      simp only [hresults] at hp
      cases hp
      exact Or.inr ⟨argp, reply, rfl, hs, Or.inl rfl⟩
    | some results =>
      simp only [hresults] at hp
      cases hp
      have hread := decode_encode hreply hresults b []
      rw [List.append_nil] at hread
      exact Or.inr ⟨argp, reply, rfl, hs, Or.inr hread⟩

/-- Arguments that can be sent bring the reply of the procedure, in a datagram with room. -/
theorem exists_answer (svc : Bakery F → Option (Server F × Bakery F)) {argp reply : Bakery F}
    (hargp : IsInts argp) (hreply : IsInts reply) (hs : svc argp = some (s', reply))
    (bits : F ≃ UInt32) (s : Server F) (b : End) :
    ∃ args r, decode bits roomy args = some argp ∧
      answer bits roomy roomy s svc args = some (s', r) ∧ replyOf bits b r = some reply := by
  have hsent : encode bits roomy argp = some (packed (words bits argp)) := encode_eq hargp
  have hresults : encode bits roomy reply = some (packed (words bits reply)) := encode_eq hreply
  have hread := decode_encode hreply hresults b []
  rw [List.append_nil] at hread
  have hargs := decode_encode hargp hsent roomy []
  rw [List.append_nil] at hargs
  refine ⟨packed (words bits argp), .success (packed (words bits reply)), hargs, ?_, hread⟩
  rw [answer_encode hargp hsent, hs]
  simp only [Option.map_some, hresults]

theorem inArrays_iff {a : Arrival} {argp : Bakery F} (h : decode bits a.input a.args = some argp) :
    InArrays bits n c a ↔ (a.proc = 1 → c.server.indexLast < n) ∧
      (a.proc = 2 → 0 ≤ argp.ind ∧ argp.ind < n) := by
  simp only [InArrays, h]

variable [Add F] [Sub F] [Mul F] [Div F]

/-- What one datagram does: nothing, or what a whole request does. -/
theorem bakeryProg1_cases (hn : n < 2 ^ 31) (hS : Slots n s)
    (h : bakeryProg1 bits n input output ticks s proc args = some (s', r)) :
    (s' = s ∧ replyOf bits b r = none) ∨
      ((∃ argp reply : Bakery F, decode bits input args = some argp ∧
        getNumber1Svc n s = some (s', reply) ∧
        (replyOf bits b r = none ∨ replyOf bits b r = some reply)) ∧ proc = 1) ∨
      ((∃ argp reply, decode bits input args = some argp ∧
        serve1Svc n s argp ticks = some (s', reply) ∧
        (replyOf bits b r = none ∨ replyOf bits b r = some reply)) ∧ proc = 2) := by
  unfold bakeryProg1 at h
  split at h
  · cases h
    exact Or.inl ⟨rfl, decode_eq_none.mpr (by decide)⟩
  · rcases answer_cases (b := b) (fun _ _ _ hs => (hS.getNumber hn hs).2.1) h with hnone | hcall
    · exact Or.inl hnone
    · exact Or.inr (Or.inl ⟨hcall, rfl⟩)
  · rcases answer_cases (b := b) (fun _ _ _ hs => (hS.serve hs).2.1) h with hnone | hcall
    · exact Or.inl hnone
    · exact Or.inr (Or.inr ⟨hcall, rfl⟩)
  · cases h
    exact Or.inl ⟨rfl, rfl⟩

/-- The datagrams so far, as a history of whole requests. -/
structure Answered (bits : F ≃ UInt32) (n : ℕ) (b : End) (c : Net F) (log : List (Handled F)) :
    Prop where
  reach : (service F n).ReachBy (Sendable n) (initial F) ⟨c.server, log⟩
  slots : Slots n c.server
  read : (replies bits b c.sent).Sublist (log.map replied)
  sorted : (tickets bits b c.sent).Pairwise (· < ·)
  drawn : ∀ t ∈ tickets bits b c.sent, t ≤ c.server.indexLast

omit [Add F] [Sub F] [Mul F] [Div F] in
/-- A reply that is not read, or one that is added to both histories. -/
theorem replies_concat {sent : List (ℕ × Reply)} {log : List (Handled F)} {handled : Handled F}
    (h : (replies bits b sent).Sublist (log.map replied))
    (hr : replyOf bits b r = none ∨ replyOf bits b r = some (replied handled)) :
    (replies bits b (sent ++ [(proc, r)])).Sublist ((log ++ [handled]).map replied) := by
  unfold replies at *
  rw [List.filterMap_append, List.map_append]
  apply h.append
  rcases hr with hr | hr
  · simp [hr]
  · simp [hr]

omit [Add F] [Sub F] [Mul F] [Div F] in
theorem tickets_concat_of_ne (sent : List (ℕ × Reply)) (h : proc ≠ 1) :
    tickets bits b (sent ++ [(proc, r)]) = tickets bits b sent := by
  simp [tickets, h]

theorem Answered.step (hn : n < 2 ^ 31) {log : List (Handled F)} (hA : Answered bits n b c log)
    (hin : InArrays bits n c ⟨proc, args, input, output, ticks⟩)
    (h : bakeryProg1 bits n input output ticks c.server proc args = some (s', r)) :
    ∃ log', Answered bits n b ⟨s', c.sent ++ [(proc, r)]⟩ log' := by
  rcases bakeryProg1_cases (b := b) hn hA.slots h with ⟨rfl, hr⟩ |
    ⟨⟨argp, reply, hargp, hs, hr⟩, rfl⟩ | ⟨⟨argp, reply, hargp, hs, hr⟩, rfl⟩
  · have htickets : tickets bits b (c.sent ++ [(proc, r)]) = tickets bits b c.sent := by
      simp [tickets, hr]
    have hreplies : replies bits b (c.sent ++ [(proc, r)]) = replies bits b c.sent := by
      simp [replies, hr]
    refine ⟨log, hA.reach, hA.slots, ?_, ?_, ?_⟩
    · rw [hreplies]
      exact hA.read
    · rw [htickets]
      exact hA.sorted
    · rw [htickets]
      exact hA.drawn
  · obtain ⟨hS', -, hnum, hcounter⟩ := hA.slots.getNumber hn hs
    have hreach : (service F n).ReachBy (Sendable n) (initial F)
        ⟨s', log ++ [.number reply]⟩ := by
      have hslot := ((inArrays_iff hargp).mp hin).1 rfl
      refine hA.reach.step (a := .getNumber argp) ⟨isInts_of_decode hargp, hslot⟩ ?_
      simp only [service, Obakery.bakeryProg1, hs, Option.map_some]
    -- the new ticket, where its reply is read, is larger than those before
    have hnew : tickets bits b (c.sent ++ [(1, r)]) = tickets bits b c.sent ∨
        tickets bits b (c.sent ++ [(1, r)]) =
          tickets bits b c.sent ++ [(c.server.indexLast : ℤ) + 1] := by
      rcases hr with hr | hr
      · exact Or.inl (by simp [tickets, hr])
      · exact Or.inr (by simp [tickets, hr, hnum])
    refine ⟨_, hreach, hS', replies_concat hA.read hr, ?_, ?_⟩
    · rcases hnew with he | he
      · rw [he]
        exact hA.sorted
      · rw [he, List.pairwise_append]
        refine ⟨hA.sorted, List.pairwise_singleton _ _, ?_⟩
        intro t ht t' ht'
        have := hA.drawn t ht
        rw [List.mem_singleton.mp ht']
        omega
    · intro t ht
      show t ≤ (s'.indexLast : ℤ)
      rw [hcounter, Nat.cast_succ]
      rcases hnew with he | he
      · rw [he] at ht
        have := hA.drawn t ht
        omega
      · rw [he] at ht
        rcases List.mem_append.mp ht with ht | ht
        · have := hA.drawn t ht
          omega
        · exact Int.le_of_eq (List.mem_singleton.mp ht)
  · obtain ⟨hS', -, hcounter⟩ := hA.slots.serve hs
    have hreach : (service F n).ReachBy (Sendable n) (initial F)
        ⟨s', log ++ [.served argp.ind.toNat (c.server.numbers argp.ind.toNat)
          (refuses c.server argp.ind) reply]⟩ := by
      have hslot := ((inArrays_iff hargp).mp hin).2 rfl
      refine hA.reach.step (a := .serve argp ticks) ⟨isInts_of_decode hargp, hslot⟩ ?_
      simp only [service, Obakery.bakeryProg1, hs, Option.map_some]
    refine ⟨_, hreach, hS', replies_concat hA.read hr, ?_, ?_⟩
    · rw [tickets_concat_of_ne _ (by decide)]
      exact hA.sorted
    · rw [tickets_concat_of_ne _ (by decide)]
      show ∀ t ∈ tickets bits b c.sent, t ≤ (s'.indexLast : ℤ)
      rw [hcounter]
      exact hA.drawn

/-- The server before its first datagram. -/
def opened (F : Type) [Zero F] : Net F := ⟨(initial F).server, []⟩

theorem answered_reach (hn : n < 2 ^ 31) (b : End)
    (h : (datagrams bits n).ReachBy (InArrays bits n) (opened F) c) :
    ∃ log, Answered bits n b c log := by
  apply h.invariant
  · refine ⟨[], .refl, slots_initial n, List.Sublist.refl _, List.Pairwise.nil, ?_⟩
    intro t ht
    cases ht
  · rintro c a c' ⟨log, hA⟩ hin hnext
    obtain ⟨⟨s', r⟩, hs, rfl⟩ := Option.map_eq_some_iff.mp hnext
    exact hA.step hn hin hs

/-- Every history of requests that can be sent comes from datagrams, and the replies that are
read are those of the history. -/
theorem exists_datagrams (hn : n < 2 ^ 31) (bits : F ≃ UInt32) (b : End) {v : Service F}
    (h : (service F n).ReachBy (Sendable n) (initial F) v) :
    ∃ sent, (datagrams bits n).ReachBy (InArrays bits n) (opened F) ⟨v.server, sent⟩ ∧
      Slots n v.server ∧
      replies bits b sent = v.log.map replied := by
  induction h with
  | refl => exact ⟨[], .refl, slots_initial n, rfl⟩
  | @step v v' a _ ha hnext ih =>
    obtain ⟨sent, hreach, hS, hreplies⟩ := ih
    cases a with
    | getNumber argp =>
      obtain ⟨⟨s', reply⟩, hs, rfl⟩ := Option.map_eq_some_iff.mp hnext
      obtain ⟨hS', hreply, -, -⟩ := hS.getNumber hn hs
      obtain ⟨args, r, hargs, hanswer, hread⟩ := exists_answer (fun _ => getNumber1Svc n v.server)
        ha.1 hreply hs bits v.server b
      have hstep : (datagrams bits n).next ⟨v.server, sent⟩
          ⟨1, args, roomy, roomy, fun _ => 0⟩ = some ⟨s', sent ++ [(1, r)]⟩ := by
        simp only [datagrams, bakeryProg1, hanswer, Option.map_some]
      have hin : InArrays bits n ⟨v.server, sent⟩ ⟨1, args, roomy, roomy, fun _ => 0⟩ :=
        (inArrays_iff hargs).mpr ⟨fun _ => ha.2, (fun h => by cases h)⟩
      refine ⟨_, hreach.step hin hstep, hS', ?_⟩
      rw [replies, List.filterMap_append, List.map_append, ← hreplies]
      simp [replies, hread, replied]
    | serve argp ticks =>
      obtain ⟨⟨s', reply⟩, hs, rfl⟩ := Option.map_eq_some_iff.mp hnext
      obtain ⟨hS', hreply, -⟩ := hS.serve hs
      obtain ⟨args, r, hargs, hanswer, hread⟩ := exists_answer
        (fun argp => serve1Svc n v.server argp ticks) ha.1 hreply hs bits v.server b
      have hstep : (datagrams bits n).next ⟨v.server, sent⟩
          ⟨2, args, roomy, roomy, ticks⟩ = some ⟨s', sent ++ [(2, r)]⟩ := by
        simp only [datagrams, bakeryProg1, hanswer, Option.map_some]
      have hin : InArrays bits n ⟨v.server, sent⟩ ⟨2, args, roomy, roomy, ticks⟩ :=
        (inArrays_iff hargs).mpr ⟨(fun h => by cases h), fun _ => ha.2⟩
      refine ⟨_, hreach.step hin hstep, hS', ?_⟩
      rw [replies, List.filterMap_append, List.map_append, ← hreplies]
      simp [replies, hread, replied]

/-- **Datagrams of any contents.** After any datagrams, of any procedure number and any
bytes, lost, repeated and reordered as the network likes, as long as there is a slot for each
ticket drawn and for each request to be served: the server is where whole requests can take
it, the replies that can be read are among its replies to these, in order, and the tickets in
the replies to `get_number` increase, so that no two carry the same. And every history of
whole requests that keeps to the slots comes from such datagrams, with all of its replies
read. -/
theorem datagrams_tickets (hn : n < 2 ^ 31) (b : End) :
    (∀ c, (datagrams bits n).ReachBy (InArrays bits n) (opened F) c →
      (tickets bits b c.sent).Pairwise (· < ·) ∧
      ∃ log, (service F n).ReachBy (Sendable n) (initial F) ⟨c.server, log⟩ ∧
        (replies bits b c.sent).Sublist (log.map replied)) ∧
    ∀ v, (service F n).ReachBy (Sendable n) (initial F) v →
      ∃ sent, (datagrams bits n).ReachBy (InArrays bits n) (opened F) ⟨v.server, sent⟩ ∧
        replies bits b sent = v.log.map replied := by
  constructor
  · intro c h
    obtain ⟨log, hA⟩ := answered_reach hn b h
    exact ⟨hA.sorted, log, hA.reach, hA.read⟩
  · intro v h
    obtain ⟨sent, hreach, -, hreplies⟩ := exists_datagrams hn bits b h
    exact ⟨sent, hreach, hreplies⟩

/-- A datagram for procedure `proc` with `k` bytes. -/
def arrival (proc k : ℕ) : Arrival := ⟨proc, List.replicate k 0, roomy, roomy, fun _ => 0⟩

/-- A request for a ticket, one that is too short, one for no procedure, and another one. -/
theorem datagrams_tickets_two : ∃ c : Net UInt32,
    tickets (Equiv.refl UInt32) roomy c.sent = [1, 2] ∧
      (tickets (Equiv.refl UInt32) roomy c.sent).Pairwise (· < ·) ∧ c.sent.length = 4 := by
  have hrun : ((datagrams (Equiv.refl UInt32) 2).exec (InArrays (Equiv.refl UInt32) 2)
      (opened UInt32) [arrival 1 28, arrival 1 27, arrival 3 28, arrival 1 40]).any (fun c =>
        tickets (Equiv.refl UInt32) roomy c.sent = [1, 2] ∧ c.sent.length = 4) = true := by
    decide +kernel
  obtain ⟨c, hc, hp⟩ := Machine.exists_reachBy_of_exec _ _ hrun
  obtain ⟨htickets, hlength⟩ : tickets (Equiv.refl UInt32) roomy c.sent = [1, 2] ∧
      c.sent.length = 4 := by simpa using hp
  exact ⟨c, htickets, ((datagrams_tickets (by decide) roomy).1 c hc).1, hlength⟩

end Datagrams

end OsLabs.Obakery.Wire
