import OsLabs.Concurrent.Simulation
import OsLabs.Obakery.Client
import OsLabs.Obakery.Wire

/-!
# The clients of the ticket server over UDP

Any number of clients of `os_lab_rpc/obakery/bakery_client.c`, whose calls go through the
stubs of `bakery_clnt.c` and the dispatcher of `bakery_svc.c`. `clnt_call` encodes the
argument and sends it, again and again, until a reply with its transaction id comes or the
time is over; the dispatcher answers every copy of a request that arrives. Here a message
stays on the network once it is sent: it arrives as often and as late as the library and
the network will have it, or never. A call may fail at any time, also after the server has
handled it. A client does not survive `NULL`. The number of a call within its client stands
for its transaction id.

How a structure travels is a parameter (`Carrier`): as bytes, through `xdr_BAKERY` and
`bakery_prog_1` (`wire`), or as it is (`direct`). Whatever the library and the network do,
the two reach the same states (`wire_direct`), so the conversions are not seen; and calls
that are handled once and answered at once are among what they may do (`exists_prompt`).
-/

namespace OsLabs.Obakery.Wire

open Concurrent Xdr

variable {ι F : Type}

/-- How a structure is sent, handled by the server, and read in its reply; `S`, `V` and `L`
are what is left open at the three ends. -/
structure Carrier (F M R S V L : Type) where
  send : S → Bakery F → Option M
  serve : V → Server F → ℕ → M → Option (Server F × R)
  read : L → R → Option (Bakery F)

/-- A call of a client, and its transaction id. -/
structure Call (ι : Type) where
  client : ι
  num : ℕ
deriving DecidableEq, Repr

/-- A request on the network. -/
structure Sent (ι M : Type) where
  call : Call ι
  proc : ℕ
  args : M

/-- A client with the number of its calls that have returned; it waits in `clnt_call`, or
not. -/
structure Caller (F : Type) where
  pc : Client.PC F
  waiting : Bool
  num : ℕ

/-- The server, the clients, and the messages that have been sent. -/
structure Network (ι F M R : Type) where
  server : Server F
  client : ι → Caller F
  requests : List (Sent ι M)
  replies : List (Call ι × R)

/-- What can happen next: a step of a client between its calls, the beginning of a call, the
arrival of a request or of a reply, or the failure of a call. -/
inductive Action (ι F S V L : Type)
  | step (t : ι) (e : Client.Event F)
  | send (t : ι) (e : S)
  | deliver (i : ℕ) (e : V)
  | receive (t : ι) (j : ℕ) (e : L)
  | fail (t : ι)

/-- `get_number_1`: what it hands to `clnt_call`. -/
def getNumber1 (argp : Bakery F) : ℕ × Bakery F := (1, argp)

/-- `serve_1`. -/
def serve1 (argp : Bakery F) : ℕ × Bakery F := (2, argp)

/-- The call that the client makes at its point. -/
def asks : Client.PC F → Option (ℕ × Bakery F)
  | .getNumber request => some (getNumber1 request)
  | .serve request _ => some (serve1 request)
  | _ => none

/-- The client goes on with the result of its call. -/
def goOn : Client.PC F → Bakery F → Client.PC F
  | .getNumber request, result₁ => .answered request result₁
  | .serve _ _, _ => .turn
  | x, _ => x

section Model

variable {M R S V L : Type} [DecidableEq ι] [Add F] [Sub F] [Mul F] [Div F]

/-- One step of the whole system. -/
def networkStep (K : Carrier F M R S V L) (n : ℕ) (pid : ι → ℤ) (s : Network ι F M R) :
    Action ι F S V L → Option (Network ι F M R)
  | .step t e =>
      match asks (s.client t).pc with
      | some _ => none
      | none => (Client.bakeryProg1 n pid t e s.server (s.client t).pc).map fun p => { s with
          server := p.1
          client := Function.update s.client t { s.client t with pc := p.2 } }
  | .send t e =>
      match asks (s.client t).pc, (s.client t).waiting with
      | some (proc, argp), false =>
          match K.send e argp with
          | none => some { s with
              client := Function.update s.client t { s.client t with pc := .exited } }
          | some args => some { s with
              client := Function.update s.client t { s.client t with waiting := true }
              requests := s.requests ++ [⟨⟨t, (s.client t).num⟩, proc, args⟩] }
      | _, _ => none
  | .deliver i e =>
      match s.requests[i]? with
      | none => none
      | some p => (K.serve e s.server p.proc p.args).map fun q => { s with
          server := q.1
          replies := s.replies ++ [(p.call, q.2)] }
  | .receive t j e =>
      match s.replies[j]? with
      | none => none
      | some r =>
          if (s.client t).waiting ∧ r.1 = ⟨t, (s.client t).num⟩ then
            match K.read e r.2 with
            | none => some { s with
                client := Function.update s.client t
                  { s.client t with pc := .exited, waiting := false } }
            | some result => some { s with
                client := Function.update s.client t
                  ⟨goOn (s.client t).pc result, false, (s.client t).num + 1⟩ }
          else none
  | .fail t =>
      if (s.client t).waiting then
        some { s with
          client := Function.update s.client t
            { s.client t with pc := .exited, waiting := false } }
      else none

/-- The clients and the server over a network. -/
def network (K : Carrier F M R S V L) (n : ℕ) (pid : ι → ℤ) :
    Machine (Network ι F M R) (Action ι F S V L) := ⟨networkStep K n pid⟩

omit [DecidableEq ι] [Add F] [Sub F] [Mul F] [Div F] in
/-- No client has called the server yet. -/
def opening (ι F M R : Type) [Zero F] : Network ι F M R where
  server := (initial F).server
  client _ := ⟨.turn, false, 0⟩
  requests := []
  replies := []

/-- What handles a request that arrives. -/
structure Handling where
  input : End
  output : End
  ticks : ℕ → ℕ

/-- Structures are sent as bytes. -/
def wire [Zero F] (bits : F ≃ UInt32) (n : ℕ) :
    Carrier F (List UInt8) Reply End Handling End where
  send b argp := encode bits b argp
  serve v s proc args := bakeryProg1 bits n v.input v.output v.ticks s proc args
  read b r := replyOf bits b r

/-- The procedures of the server. -/
def procedure (n : ℕ) (ticks : ℕ → ℕ) (s : Server F) (proc : ℕ) (argp : Bakery F) :
    Option (Server F × Bakery F) :=
  match proc with
  | 1 => getNumber1Svc n s
  | 2 => serve1Svc n s argp ticks
  | _ => none

/-- Structures are sent as they are; a message may find no room in its buffer. -/
def direct (n : ℕ) : Carrier F (Bakery F) (Option (Bakery F)) Bool (Bool × (ℕ → ℕ)) Unit where
  send room argp := if room then some argp else none
  serve v s proc argp := (procedure n v.2 s proc argp).map fun p =>
    (p.1, if v.1 then some p.2 else none)
  read _ r := r

end Model

/-! ## From the bytes to the structures -/

/-- The values that a turn begins with are numbers of an `int`. -/
def Given : Client.Event F → Prop
  | .turn request op _ _ => IsInts request ∧ IsInt op
  | .run _ => True

/-- The request in a message. -/
def sentOf [Zero F] (bits : F ≃ UInt32) (p : Sent ι (List UInt8)) : Sent ι (Bakery F) :=
  ⟨p.call, p.proc, (decode bits roomy p.args).getD (Bakery.zero F)⟩

/-- The network with the structures in place of the bytes. -/
def view [Zero F] (bits : F ≃ UInt32) (s : Network ι F (List UInt8) Reply) :
    Network ι F (Bakery F) (Option (Bakery F)) where
  server := s.server
  client := s.client
  requests := s.requests.map (sentOf bits)
  replies := s.replies.map fun r => (r.1, replyOf bits roomy r.2)

instance (b : End) : Decidable b.Room := inferInstanceAs (Decidable (_ ≤ _))

/-- An action without the buffers, but with their room. -/
def forget : Action ι F End Handling End → Action ι F Bool (Bool × (ℕ → ℕ)) Unit
  | .step t e => .step t e
  | .send t b => .send t (decide b.Room)
  | .deliver i v => .deliver i (decide v.output.Room, v.ticks)
  | .receive t j _ => .receive t j ()
  | .fail t => .fail t

/-- What the library and the network may do, with `lib` for what they do; the clients begin
with numbers of an `int`, a slot is left for each ticket, and each slot to be served
exists. -/
def Allowed (n : ℕ)
    (lib : Network ι F (Bakery F) (Option (Bakery F)) →
      Action ι F Bool (Bool × (ℕ → ℕ)) Unit → Prop)
    (u : Network ι F (Bakery F) (Option (Bakery F)))
    (a : Action ι F Bool (Bool × (ℕ → ℕ)) Unit) : Prop :=
  lib u a ∧
    match a with
    | .step _ e => Given e
    | .deliver i _ =>
        match u.requests[i]? with
        | none => True
        | some p => (p.proc = 1 → u.server.indexLast < n) ∧
            (p.proc = 2 → 0 ≤ p.args.ind ∧ p.args.ind < n)
    | _ => True

/-! ## The invariant -/

/-- What a client holds can be sent. -/
def Holds : Client.PC F → Prop
  | .getNumber request => IsInts request
  | .answered request result₁ => IsInts request ∧ IsInts result₁
  | .serve request result₁ => IsInts request ∧ IsInts result₁
  | _ => True

/-- The request is for one of the two procedures, and its bytes are those of a structure. -/
def Encoded (bits : F ≃ UInt32) (p : Sent ι (List UInt8)) : Prop :=
  (p.proc = 1 ∨ p.proc = 2) ∧ ∃ argp, IsInts argp ∧ p.args = packed (words bits argp)

structure Sound (bits : F ≃ UInt32) (n : ℕ) (s : Network ι F (List UInt8) Reply) : Prop where
  slots : Slots n s.server
  holds : ∀ t, Holds (s.client t).pc
  requests : ∀ p ∈ s.requests, Encoded bits p

section Proofs

variable [Zero F] {bits : F ≃ UInt32} {n : ℕ} {pid : ι → ℤ}
  {s s' : Network ι F (List UInt8) Reply}

theorem sound_opening (bits : F ≃ UInt32) (n : ℕ) :
    Sound bits n (opening ι F (List UInt8) Reply) :=
  ⟨slots_initial n, fun _ => trivial, fun p hp => by cases hp⟩

omit [Zero F] in
theorem holds_asks {x : Client.PC F} {q : ℕ × Bakery F} (hx : Holds x) (h : asks x = some q) :
    (q.1 = 1 ∨ q.1 = 2) ∧ IsInts q.2 := by
  cases x with
  | getNumber request => cases h; exact ⟨Or.inl rfl, hx⟩
  | serve request result₁ => cases h; exact ⟨Or.inr rfl, hx.1⟩
  | turn | answered | exited => cases h

omit [Zero F] in
theorem holds_goOn {x : Client.PC F} {result : Bakery F} (hx : Holds x) (h : IsInts result) :
    Holds (goOn x result) := by
  cases x with
  | getNumber request => exact ⟨hx, h⟩
  | serve request result₁ => trivial
  | turn | answered | exited => exact hx

/-- What is read does not depend on the buffer. -/
theorem replyOf_eq (b b' : End) (r : Reply) : replyOf bits b r = replyOf bits b' r := by
  cases r with
  | success results => exact (decode_eq b results).trans (decode_eq b' results).symm
  | noProc | decodeError | systemError => rfl

theorem isInts_of_replyOf {b : End} {r : Reply} {result : Bakery F}
    (h : replyOf bits b r = some result) : IsInts result := by
  cases r with
  | success results => exact isInts_of_decode h
  | noProc | decodeError | systemError => cases h

theorem decode_packed {argp : Bakery F} (h : IsInts argp) (b : End) :
    decode bits b (packed (words bits argp)) = some argp := by
  have hsent : encode bits roomy argp = some (packed (words bits argp)) := encode_eq h
  have hread := decode_encode h hsent b []
  rwa [List.append_nil] at hread

theorem sentOf_packed {argp : Bakery F} (h : IsInts argp) (k : Call ι) (proc : ℕ) :
    sentOf bits ⟨k, proc, packed (words bits argp)⟩ = ⟨k, proc, argp⟩ := by
  simp only [sentOf, decode_packed h, Option.getD_some]

/-- The dispatcher calls the procedure, and its reply is read where it had room. -/
theorem answer_packed {input output : End} {s : Server F} {argp : Bakery F}
    (svc : Bakery F → Option (Server F × Bakery F)) (h : IsInts argp)
    (hreply : ∀ s' reply, svc argp = some (s', reply) → IsInts reply) (b : End) :
    (answer bits input output s svc (packed (words bits argp))).map
        (fun q => (q.1, replyOf bits b q.2)) =
      (svc argp).map fun p => (p.1, if output.Room then some p.2 else none) := by
  have hsent : encode bits roomy argp = some (packed (words bits argp)) := encode_eq h
  rw [answer_encode h hsent, Option.map_map]
  cases hsvc : svc argp with
  | none => rfl
  | some p =>
    have hints := hreply p.1 p.2 hsvc
    simp only [Option.map_some, Function.comp_apply, encode_eq hints]
    by_cases hroom : output.Room
    · have hfits : output.pos + 28 ≤ output.size := hroom
      simp only [if_pos hfits, if_pos hroom]
      exact congrArg (fun r => some (p.1, r)) (decode_packed hints b)
    · have hfits : ¬ output.pos + 28 ≤ output.size := hroom
      simp only [if_neg hfits, if_neg hroom]
      rfl

variable [Add F] [Sub F] [Mul F] [Div F]

omit [Zero F] in
/-- A procedure keeps the slots, and its reply can be sent. -/
theorem procedure_slots (hn : n < 2 ^ 31) {ticks : ℕ → ℕ} {v v' : Server F} {proc : ℕ}
    {argp reply : Bakery F} (hS : Slots n v)
    (h : procedure n ticks v proc argp = some (v', reply)) : Slots n v' ∧ IsInts reply := by
  unfold procedure at h
  split at h
  · obtain ⟨hS', hreply, -, -⟩ := hS.getNumber hn h
    exact ⟨hS', hreply⟩
  · obtain ⟨hS', hreply, -⟩ := hS.serve h
    exact ⟨hS', hreply⟩
  · cases h

/-- A request is handled alike, whether it came as bytes or as it is. -/
theorem serve_eq (hn : n < 2 ^ 31) {v : Server F} (hS : Slots n v)
    {p : Sent ι (List UInt8)} (hp : Encoded bits p) (e : Handling) :
    ((wire bits n).serve e v p.proc p.args).map (fun q => (q.1, replyOf bits roomy q.2)) =
      (direct n).serve (decide e.output.Room, e.ticks) v p.proc (sentOf bits p).args := by
  obtain ⟨k, proc, args⟩ := p
  obtain ⟨hproc, argp, hargp, rfl⟩ := hp
  rw [sentOf_packed hargp]
  simp only [wire, direct, decide_eq_true_eq]
  rcases hproc with rfl | rfl
  · exact answer_packed (fun _ => getNumber1Svc n v) hargp
      (fun _ _ hs => (hS.getNumber hn hs).2.1) roomy
  · exact answer_packed (fun argp => serve1Svc n v argp e.ticks) hargp
      (fun _ _ hs => (hS.serve hs).2.1) roomy

variable [DecidableEq ι]

/-- A step over the wire is the step without it. -/
theorem networkStep_view (hn : n < 2 ^ 31) (hI : Sound bits n s)
    (a : Action ι F End Handling End) :
    networkStep (direct n) n pid (view bits s) (forget a) =
      (networkStep (wire bits n) n pid s a).map (view bits) := by
  cases a with
  | step t e =>
    simp only [forget, networkStep, view]
    cases asks (s.client t).pc with
    | some q => rfl
    | none =>
      simp only [Option.map_map]
      rfl
  | send t b =>
    simp only [forget, networkStep, view]
    cases hasks : asks (s.client t).pc with
    | none => rfl
    | some q =>
      obtain ⟨-, hargp⟩ := holds_asks (hI.holds t) hasks
      cases (s.client t).waiting with
      | true => rfl
      | false =>
        simp only [wire, direct, encode_eq hargp, decide_eq_true_eq]
        by_cases hroom : b.Room
        · have hfits : b.pos + 28 ≤ b.size := hroom
          simp only [if_pos hroom, if_pos hfits, Option.map_some, view, List.map_append,
            List.map_cons, List.map_nil, sentOf_packed hargp]
        · have hfits : ¬ b.pos + 28 ≤ b.size := hroom
          simp only [if_neg hroom, if_neg hfits, Option.map_some, view]
  | deliver i e =>
    simp only [forget, networkStep, view, List.getElem?_map]
    cases hi : s.requests[i]? with
    | none => rfl
    | some p =>
      have hp := hI.requests p (List.mem_of_getElem? hi)
      have hserve := serve_eq hn hI.slots hp e
      simp only [Option.map_some]
      rw [show (sentOf bits p).proc = p.proc from rfl, ← hserve, Option.map_map, Option.map_map]
      congr 1
      funext q
      simp only [Function.comp_apply, view, List.map_append, List.map_cons, List.map_nil]
      rfl
  | receive t j b =>
    simp only [forget, networkStep, view, List.getElem?_map]
    cases s.replies[j]? with
    | none => rfl
    | some r =>
      simp only [Option.map_some, wire, direct, replyOf_eq b roomy]
      rw [apply_ite (Option.map (view bits))]
      refine if_congr Iff.rfl ?_ rfl
      cases replyOf bits roomy r.2 <;> rfl
  | fail t =>
    simp only [forget, networkStep, view]
    rw [apply_ite (Option.map (view bits))]
    exact if_congr Iff.rfl rfl rfl

/-- A step keeps to the numbers of an `int`. -/
theorem Sound.step (hn : n < 2 ^ 31) (hpid : ∀ t, IsInt (pid t)) (hI : Sound bits n s)
    {a : Action ι F End Handling End}
    (ha : ∀ t e, a = .step t e → Given e)
    (h : networkStep (wire bits n) n pid s a = some s') : Sound bits n s' := by
  have hclient : ∀ (t : ι) (x : Caller F), Holds x.pc →
      ∀ u, Holds (Function.update s.client t x u).pc := by
    intro t x hx u
    by_cases hu : u = t
    · subst hu
      rwa [Function.update_self]
    · rw [Function.update_of_ne hu]
      exact hI.holds u
  cases a with
  | step t e =>
    have he := ha t e rfl
    simp only [networkStep] at h
    split at h
    · cases h
    next hasks =>
      obtain ⟨⟨v, y⟩, hv, rfl⟩ := Option.map_eq_some_iff.mp h
      have hx := hI.holds t
      cases hpc : (s.client t).pc with
      | turn =>
        rw [hpc] at hv
        cases e with
        | turn request op arg1 arg2 =>
          cases hv
          exact ⟨hI.slots, hclient t _ ⟨he.1.num, he.1.ind, hpid t, he.2⟩, hI.requests⟩
        | run ticks => cases hv
      | answered request result₁ =>
        rw [hpc] at hv hx
        cases e with
        | turn => cases hv
        | run ticks =>
          obtain ⟨hrequest, hresult⟩ := hx
          cases hv
          refine ⟨hI.slots, hclient t _ ?_, hI.requests⟩
          dsimp only
          split_ifs
          · trivial
          · exact ⟨⟨hresult.num, hrequest.ind, hrequest.pid, hrequest.op⟩, hresult⟩
      | getNumber | serve =>
        rw [hpc] at hasks
        cases hasks
      | exited =>
        rw [hpc] at hv
        cases e <;> cases hv
  | send t b =>
    simp only [networkStep] at h
    split at h
    next proc argp hasks hwait =>
      obtain ⟨hproc, hargp⟩ := holds_asks (hI.holds t) hasks
      split at h
      · cases h
        exact ⟨hI.slots, hclient t _ trivial, hI.requests⟩
      next args hargs =>
        cases h
        refine ⟨hI.slots, hclient t _ (hI.holds t), ?_⟩
        intro p hp
        rcases List.mem_append.mp hp with hp | hp
        · exact hI.requests p hp
        · rw [List.mem_singleton.mp hp]
          have hsent : encode bits b argp = some args := hargs
          rw [encode_eq hargp] at hsent
          split_ifs at hsent
          cases hsent
          exact ⟨hproc, argp, hargp, rfl⟩
    · cases h
  | deliver i e =>
    simp only [networkStep] at h
    split at h
    · cases h
    next p hi =>
      obtain ⟨⟨v, r⟩, hv, rfl⟩ := Option.map_eq_some_iff.mp h
      have hserve := serve_eq hn hI.slots (hI.requests p (List.mem_of_getElem? hi)) e
      rw [hv] at hserve
      obtain ⟨⟨v', reply⟩, hv', he⟩ := Option.map_eq_some_iff.mp hserve.symm
      have hserver : v' = v := congrArg Prod.fst he
      rw [hserver] at hv'
      exact ⟨(procedure_slots hn hI.slots hv').1, hI.holds, hI.requests⟩
  | receive t j b =>
    simp only [networkStep] at h
    split at h
    · cases h
    next r hj =>
      split_ifs at h
      split at h
      · cases h
        exact ⟨hI.slots, hclient t _ trivial, hI.requests⟩
      next result hread =>
        cases h
        exact ⟨hI.slots, hclient t _ (holds_goOn (hI.holds t) (isInts_of_replyOf hread)),
          hI.requests⟩
  | fail t =>
    simp only [networkStep] at h
    split_ifs at h
    cases h
    exact ⟨hI.slots, hclient t _ trivial, hI.requests⟩

/-! ## The two networks -/

/-- An end without room. -/
def cramped : End where
  policy _ _ := true
  mem _ := 0
  size := 0
  pos := 0
  inside := Nat.le_refl 0

/-- There is a buffer with room, and one without. -/
theorem exists_room (room : Bool) : ∃ b : End, decide b.Room = room := by
  cases room with
  | true => exact ⟨roomy, by decide⟩
  | false => exact ⟨cramped, by decide⟩

omit [Zero F] [Add F] [Sub F] [Mul F] [Div F] [DecidableEq ι] in
/-- Every action is one with some buffers. -/
theorem exists_forget (a : Action ι F Bool (Bool × (ℕ → ℕ)) Unit) :
    ∃ a' : Action ι F End Handling End, forget a' = a := by
  cases a with
  | step t e => exact ⟨.step t e, rfl⟩
  | send t room =>
    obtain ⟨b, rfl⟩ := exists_room room
    exact ⟨.send t b, rfl⟩
  | deliver i v =>
    obtain ⟨room, ticks⟩ := v
    obtain ⟨b, rfl⟩ := exists_room room
    exact ⟨.deliver i ⟨roomy, b, ticks⟩, rfl⟩
  | receive t j => exact ⟨.receive t j roomy, rfl⟩
  | fail t => exact ⟨.fail t, rfl⟩

/-- The steps over the wire are those without it, whatever the library does. -/
theorem bisimulates (bits : F ≃ UInt32) (hn : n < 2 ^ 31) (hpid : ∀ t, IsInt (pid t))
    (lib : Network ι F (Bakery F) (Option (Bakery F)) →
      Action ι F Bool (Bool × (ℕ → ℕ)) Unit → Prop) :
    (network (wire bits n) n pid).Bisimulates (network (direct n) n pid)
      (fun s a => Allowed n lib (view bits s) (forget a)) (Allowed n lib) (view bits) forget
      (Sound bits n) where
  step s a s' hI ha h := by
    have h : networkStep (wire bits n) n pid s a = some s' := h
    have hgiven : ∀ t e, a = .step t e → Given e := by
      rintro t e rfl
      exact ha.2
    refine ⟨hI.step hn hpid hgiven h, ha, ?_⟩
    show networkStep (direct n) n pid (view bits s) (forget a) = _
    rw [networkStep_view hn hI, h, Option.map_some]
  back s b u hI hb h := by
    obtain ⟨a, rfl⟩ := exists_forget b
    have h : networkStep (direct n) n pid (view bits s) (forget a) = some u := h
    rw [networkStep_view hn hI] at h
    obtain ⟨s', hs', hu⟩ := Option.map_eq_some_iff.mp h
    exact ⟨a, s', rfl, hb, hs', hu⟩

/-- **The bytes are not seen.** Whatever the library and the network do with the messages,
the clients and the server reach over the wire the states that they reach where the
structures themselves are sent, and no others. -/
theorem wire_direct (hn : n < 2 ^ 31) (hpid : ∀ t, IsInt (pid t)) (bits : F ≃ UInt32)
    (lib : Network ι F (Bakery F) (Option (Bakery F)) →
      Action ι F Bool (Bool × (ℕ → ℕ)) Unit → Prop) :
    (∀ s, (network (wire bits n) n pid).ReachBy
        (fun s a => Allowed n lib (view bits s) (forget a)) (opening ι F _ _) s →
      (network (direct n) n pid).ReachBy (Allowed n lib) (opening ι F _ _) (view bits s)) ∧
    ∀ u, (network (direct n) n pid).ReachBy (Allowed n lib) (opening ι F _ _) u →
      ∃ s, (network (wire bits n) n pid).ReachBy
        (fun s a => Allowed n lib (view bits s) (forget a)) (opening ι F _ _) s ∧
          view bits s = u := by
  have hsim := bisimulates bits hn hpid lib
  exact ⟨fun s h => (hsim.reachBy (sound_opening bits n) h).2,
    fun u h => hsim.exists_reachBy (sound_opening bits n) h⟩

end Proofs

/-! ## Calls that are handled once and answered at once -/

section Prompt

variable [DecidableEq ι] [Add F] [Sub F] [Mul F] [Div F] {n : ℕ} {pid : ι → ℤ} {t : ι}
  {u : Network ι F (Bakery F) (Option (Bakery F))} {c c' : Config ι (Server F) (Client.PC F)}
  {ticks : ℕ → ℕ} {proc : ℕ} {argp result : Bakery F} {v : Server F}

/-- The clients stand where those of `c` stand, none of them in a call. -/
structure Stands (u : Network ι F (Bakery F) (Option (Bakery F)))
    (c : Config ι (Server F) (Client.PC F)) : Prop where
  server : u.server = c.shared
  pc : ∀ t, (u.client t).pc = c.loc t
  idle : ∀ t, (u.client t).waiting = false

omit [Add F] [Sub F] [Mul F] [Div F] in
theorem Stands.set (hu : Stands u c) (t : ι) (v : Server F) (x : Client.PC F) (k : ℕ)
    {requests : List (Sent ι (Bakery F))} {replies : List (Call ι × Option (Bakery F))} :
    Stands ⟨v, Function.update u.client t ⟨x, false, k⟩, requests, replies⟩ (c.set t v x) := by
  refine ⟨rfl, ?_, ?_⟩
  · intro t'
    by_cases ht : t' = t
    · subst ht
      simp only [Function.update_self, Config.set_loc_self]
    · simp only [Function.update_of_ne ht, Config.set_loc_of_ne ht, hu.pc t']
  · intro t'
    by_cases ht : t' = t
    · subst ht
      simp only [Function.update_self]
    · simp only [Function.update_of_ne ht, hu.idle t']

/-- A call whose request arrives once, and whose reply is received. -/
theorem Stands.call (hu : Stands u c) (hasks : asks (c.loc t) = some (proc, argp))
    (hs : procedure n ticks c.shared proc argp = some (v, result)) :
    ∃ u', (network (direct n) n pid).Reach u u' ∧
      Stands u' (c.set t v (goOn (c.loc t) result)) := by
  have hsend : (network (direct n) n pid).next u (.send t true) = some { u with
      client := Function.update u.client t { u.client t with waiting := true }
      requests := u.requests ++ [⟨⟨t, (u.client t).num⟩, proc, argp⟩] } := by
    simp only [network, networkStep, hu.pc t, hasks, hu.idle t, direct, if_true]
  have hdeliver : (network (direct n) n pid).next { u with
      client := Function.update u.client t { u.client t with waiting := true }
      requests := u.requests ++ [⟨⟨t, (u.client t).num⟩, proc, argp⟩] }
      (.deliver u.requests.length (true, ticks)) = some
        { server := v
          client := Function.update u.client t { u.client t with waiting := true }
          requests := u.requests ++ [⟨⟨t, (u.client t).num⟩, proc, argp⟩]
          replies := u.replies ++ [(⟨t, (u.client t).num⟩, some result)] } := by
    simp only [network, networkStep, List.getElem?_concat_length, direct, hu.server, hs,
      Option.map_some, if_true]
  have hreceive : (network (direct n) n pid).next
      { server := v
        client := Function.update u.client t { u.client t with waiting := true }
        requests := u.requests ++ [⟨⟨t, (u.client t).num⟩, proc, argp⟩]
        replies := u.replies ++ [(⟨t, (u.client t).num⟩, some result)] }
      (.receive t u.replies.length ()) = some
        { server := v
          client := Function.update u.client t
            ⟨goOn (c.loc t) result, false, (u.client t).num + 1⟩
          requests := u.requests ++ [⟨⟨t, (u.client t).num⟩, proc, argp⟩]
          replies := u.replies ++ [(⟨t, (u.client t).num⟩, some result)] } := by
    simp only [network, networkStep, List.getElem?_concat_length, direct, Function.update_self,
      and_self, if_true, Function.update_idem, hu.pc t]
  have hsent : (network (direct n) n pid).Reach u _ := Machine.ReachBy.refl.step trivial hsend
  have hanswered := hsent.step trivial hdeliver
  exact ⟨_, hanswered.step trivial hreceive, hu.set t v _ _⟩

theorem Stands.step (hu : Stands u c) {a : ι × Client.Event F}
    (h : (Client.clients n pid).next c a = some c') :
    ∃ u', (network (direct n) n pid).Reach u u' ∧ Stands u' c' := by
  obtain ⟨t, e⟩ := a
  obtain ⟨v, x, hs, rfl⟩ := interleave_next.mp h
  have hown (hasks : asks (c.loc t) = none) :
      ∃ u', (network (direct n) n pid).Reach u u' ∧ Stands u' (c.set t v x) := by
    have hstep : (network (direct n) n pid).next u (.step t e) = some { u with
        server := v
        client := Function.update u.client t { u.client t with pc := x } } := by
      simp only [network, networkStep, hu.pc t, hasks, hu.server, hs, Option.map_some]
    have hidle : ({ u.client t with pc := x } : Caller F) = ⟨x, false, (u.client t).num⟩ := by
      rw [← hu.idle t]
    rw [hidle] at hstep
    exact ⟨_, Machine.ReachBy.refl.step trivial hstep, hu.set t v x _⟩
  have hcalled {proc : ℕ} {argp : Bakery F} (ticks : ℕ → ℕ)
      (hasks : asks (c.loc t) = some (proc, argp))
      (hs : (procedure n ticks c.shared proc argp).map (fun p => (p.1, goOn (c.loc t) p.2)) =
        some (v, x)) :
      ∃ u', (network (direct n) n pid).Reach u u' ∧ Stands u' (c.set t v x) := by
    obtain ⟨⟨v', reply⟩, hv, hp⟩ := Option.map_eq_some_iff.mp hs
    cases hp
    exact hu.call hasks hv
  cases hx : c.loc t with
  | getNumber request =>
    have hasks : asks (c.loc t) = some (1, request) := by rw [hx]; rfl
    rw [hx] at hs
    cases e with
    | turn => cases hs
    | run ticks => exact hcalled ticks hasks (by rw [hx]; exact hs)
  | serve request result₁ =>
    have hasks : asks (c.loc t) = some (2, request) := by rw [hx]; rfl
    rw [hx] at hs
    cases e with
    | turn => cases hs
    | run ticks => exact hcalled ticks hasks (by rw [hx]; exact hs)
  | turn | answered | exited => exact hown (by rw [hx]; rfl)

/-- The clients of `Client`, whose calls cannot fail, reach nothing that calls over the
network do not: each call may be handled once and answered at once. -/
theorem exists_prompt [Zero F] (h : (Client.clients n pid).Reach (Client.start ι F) c) :
    ∃ u, (network (direct n) n pid).Reach (opening ι F _ _) u ∧ Stands u c := by
  apply h.invariant (I := fun c => ∃ u, (network (direct n) n pid).Reach (opening ι F _ _) u ∧
    Stands u c)
  · exact ⟨_, .refl, rfl, fun _ => rfl, fun _ => rfl⟩
  · rintro c a c' ⟨u, hreach, hu⟩ - hnext
    obtain ⟨u', hreach', hu'⟩ := hu.step hnext
    exact ⟨u', hreach.trans hreach', hu'⟩

end Prompt

/-! ## A request that is handled twice -/

instance : DecidablePred IsInt := fun z =>
  inferInstanceAs (Decidable (-2147483648 ≤ z ∧ z < 2147483648))

instance (objp : Bakery F) : Decidable (IsInts objp) :=
  decidable_of_iff (IsInt objp.num ∧ IsInt objp.ind ∧ IsInt objp.pid ∧ IsInt objp.op)
    ⟨fun h => ⟨h.1, h.2.1, h.2.2.1, h.2.2.2⟩, fun h => ⟨h.num, h.ind, h.pid, h.op⟩⟩

instance : DecidablePred (Given (F := F))
  | .turn request op _ _ => inferInstanceAs (Decidable (IsInts request ∧ IsInt op))
  | .run _ => inferInstanceAs (Decidable True)

instance {lib : Network ι F (Bakery F) (Option (Bakery F)) →
      Action ι F Bool (Bool × (ℕ → ℕ)) Unit → Prop} [∀ u a, Decidable (lib u a)] (n : ℕ)
    (u : Network ι F (Bakery F) (Option (Bakery F)))
    (a : Action ι F Bool (Bool × (ℕ → ℕ)) Unit) : Decidable (Allowed n lib u a) := by
  unfold Allowed
  cases a with
  | deliver i v =>
    dsimp only
    cases u.requests[i]? <;> infer_instance
  | step | send | receive | fail => infer_instance

/-- The request of the only client arrives twice, and the second reply is read: its ticket is
2, over the wire and without it. -/
theorem wire_direct_twice : ∃ s : Network Unit UInt32 (List UInt8) Reply,
    s.server.indexLast = 2 ∧ (s.replies.filterMap fun r => replyOf (Equiv.refl _) roomy r.2).map
      Bakery.num = [1, 2] ∧
    (network (direct 2) 2 fun _ => 7).ReachBy (Allowed 2 fun _ _ => True)
      (opening Unit UInt32 _ _) (view (Equiv.refl UInt32) s) := by
  have hrun : ((network (wire (Equiv.refl UInt32) 2) 2 fun _ => 7).exec
      (fun s a => Allowed 2 (fun _ _ => True) (view (Equiv.refl UInt32) s) (forget a))
      (opening Unit UInt32 _ _)
      [.step () (.turn (Bakery.zero UInt32) 0 0 0), .send () roomy,
        .deliver 0 ⟨roomy, roomy, fun _ => 0⟩, .deliver 0 ⟨roomy, roomy, fun _ => 0⟩,
        .receive () 1 roomy]).any (fun s => s.server.indexLast = 2 ∧
          (s.replies.filterMap fun r => replyOf (Equiv.refl _) roomy r.2).map Bakery.num =
            [1, 2]) = true := by
    decide +kernel
  obtain ⟨s, hs, hp⟩ := Machine.exists_reachBy_of_exec _ _ hrun
  obtain ⟨hlast, htickets⟩ : s.server.indexLast = 2 ∧
      (s.replies.filterMap fun r => replyOf (Equiv.refl _) roomy r.2).map Bakery.num = [1, 2] := by
    simpa using hp
  exact ⟨s, hlast, htickets,
    (wire_direct (by decide) (fun _ => by decide) (Equiv.refl UInt32) fun _ _ => True).1 s hs⟩

end OsLabs.Obakery.Wire
