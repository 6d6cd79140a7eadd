import OsLabs.Obakery.Client
import OsLabs.Obakery.Tickets

/-!
# The clients of the single-threaded ticket server: the slot served

The server tells the client its slot in `result_1->ind`. The client copies `num` into its
second request, but not `ind`, which it never assigns: it asks for the slot that happens
to stand there. So its request is executed for its own slot exactly where what it found
there is the number of tickets drawn before its own (`agreement_iff`); zeroed memory is
right for the first client only.
-/

namespace OsLabs.Obakery.Client

open Concurrent

variable {ι F : Type}

/-! ## The last entry of a client -/

section LastEntry

variable {α : Type} {xs : List (ι × α)} {t u : ι} {k j : ℕ} {v w : α}

/-- The last entry of `t` in a log stands at position `k`, with value `v`. -/
def LastEntry (xs : List (ι × α)) (t : ι) (k : ℕ) (v : α) : Prop :=
  xs[k]? = some (t, v) ∧ ∀ j w, k < j → xs[j]? ≠ some (t, w)

theorem LastEntry.lt (h : LastEntry xs t k v) : k < xs.length := by
  obtain ⟨hlt, -⟩ := List.getElem?_eq_some_iff.mp h.1
  exact hlt

theorem LastEntry.unique (h : LastEntry xs t k v) (h' : LastEntry xs t j w) : k = j ∧ v = w := by
  rcases Nat.lt_trichotomy k j with hlt | rfl | hgt
  · exact absurd h'.1 (h.2 j w hlt)
  · exact ⟨rfl, (Prod.mk.inj (Option.some.inj (h.1.symm.trans h'.1))).2⟩
  · exact absurd h.1 (h'.2 k v hgt)

theorem LastEntry.concat_self (xs : List (ι × α)) (t : ι) (v : α) :
    LastEntry (xs ++ [(t, v)]) t xs.length v := by
  refine ⟨List.getElem?_concat_length, fun j w hj => ?_⟩
  rw [List.getElem?_eq_none (by simp; omega)]
  intro hnone
  cases hnone

theorem LastEntry.concat_of_ne (h : LastEntry xs t k v) (hu : u ≠ t) (w : α) :
    LastEntry (xs ++ [(u, w)]) t k v := by
  refine ⟨?_, fun j w' hj => ?_⟩
  · rw [List.getElem?_append_left h.lt]
    exact h.1
  · intro hentry
    rcases getElem?_concat hentry with ⟨-, hold⟩ | ⟨-, hnew⟩
    · exact h.2 j w' hj hold
    · exact hu (Prod.mk.inj hnew).1.symm

end LastEntry

/-! ## What a client holds -/

/-- The request of a client and the reply to its request for a ticket, in the second half
of a turn. -/
def PC.drawn : PC F → Option (Bakery F × Bakery F)
  | .answered request result₁ => some (request, result₁)
  | .serve request result₁ => some (request, result₁)
  | _ => none

/-- The client has called `serve_1`. -/
def PC.serving : PC F → Bool
  | .serve .. => true
  | _ => false

variable [Add F] [Sub F] [Mul F] [Div F] {n : ℕ} {pid : ι → ℤ}

/-- A served request leaves the slots as they are, and `number_last` with the ticket of
its slot, or as it was. -/
theorem serve_spec {s s' : Server F} {argp reply : Bakery F} {ticks : ℕ → ℕ}
    (h : serve1Svc n s argp ticks = some (s', reply)) :
    s'.numbers = s.numbers ∧ s'.indexLast = s.indexLast ∧
      (s'.numberLast = s.numberLast ∨ s'.numberLast = s.numbers argp.ind.toNat) := by
  unfold serve1Svc at h
  split_ifs at h with hlt hr
  · cases h
    exact ⟨rfl, rfl, Or.inl rfl⟩
  · obtain ⟨ends, -, hends⟩ := Option.map_eq_some_iff.mp h
    cases hends
    exact ⟨rfl, rfl, Or.inr rfl⟩

/-- What one step of a client can do to the server and to what the client holds. -/
theorem step_cases {t : ι} {e : Event F} {s s' : Server F} {x x' : PC F}
    (h : bakeryProg1 n pid t e s x = some (s', x')) :
    (s' = s ∧ (∀ request, x ≠ .getNumber request) ∧
      ∀ request result₁, x'.drawn = some (request, result₁) →
        ∃ request', x.drawn = some (request', result₁) ∧ request'.ind = request.ind) ∨
    (∃ request result₁, x = .getNumber request ∧ x' = .answered request result₁ ∧
      getNumber1Svc n s = some (s', result₁)) ∨
    ∃ request result₁ ticks reply, x = .serve request result₁ ∧ x' = .turn ∧
      serve1Svc n s request ticks = some (s', reply) := by
  cases x with
  | turn =>
    cases e with
    | turn request op arg1 arg2 =>
      cases h
      exact Or.inl ⟨rfl, nofun, nofun⟩
    | run ticks => cases h
  | getNumber request =>
    cases e with
    | turn => cases h
    | run ticks =>
      obtain ⟨⟨s₁, result₁⟩, hs, hx⟩ := Option.map_eq_some_iff.mp h
      cases hx
      exact Or.inr (Or.inl ⟨request, result₁, rfl, rfl, hs⟩)
  | answered request result₁ =>
    cases e with
    | turn => cases h
    | run ticks =>
      cases h
      refine Or.inl ⟨rfl, nofun, fun request' result' hx => ?_⟩
      split_ifs at hx
      · cases hx
      · cases hx
        exact ⟨request, rfl, rfl⟩
  | serve request result₁ =>
    cases e with
    | turn => cases h
    | run ticks =>
      obtain ⟨⟨s₁, reply⟩, hs, hx⟩ := Option.map_eq_some_iff.mp h
      cases hx
      exact Or.inr (Or.inr ⟨request, result₁, ticks, reply, rfl, rfl, hs⟩)
  | exited => cases e <;> cases h

/-! ## Whole runs -/

section Draws

variable {tr : List (Config ι (Server F) (PC F) × (ι × Event F))}
  {c : Config ι (Server F) (PC F)} {t : ι} {e : Event F}

omit [Add F] [Sub F] [Mul F] [Div F] in
theorem draws_concat_of_ne (h : ∀ request, c.loc t ≠ .getNumber request) :
    draws (tr ++ [(c, (t, e))]) = draws tr := by
  unfold draws
  rw [List.filterMap_append, List.filterMap_cons_none, List.filterMap_nil, List.append_nil]
  split
  · exact absurd ‹_› (h _)
  · rfl

omit [Add F] [Sub F] [Mul F] [Div F] in
theorem draws_concat_getNumber {request : Bakery F} (h : c.loc t = .getNumber request) :
    draws (tr ++ [(c, (t, e))]) = draws tr ++ [(t, request.ind)] := by
  unfold draws
  rw [List.filterMap_append, List.filterMap_cons_some, List.filterMap_nil]
  simp only [h]

/-- The reply that a client holds tells the position of its last ticket in the log, with the
ticket of that slot; its request still holds what `ind` held then. -/
def HoldsLast (log : List (ι × ℤ)) (s : Server F) (t : ι) (x : PC F) : Prop :=
  ∀ request result₁, x.drawn = some (request, result₁) →
    ∃ k : ℕ, result₁.ind = k ∧ LastEntry log t k request.ind ∧ s.numbers k = result₁.num

/-- The counter of slots is the number of tickets drawn. -/
structure Follows (tr : List (Config ι (Server F) (PC F) × (ι × Event F)))
    (c : Config ι (Server F) (PC F)) : Prop where
  counter : c.shared.indexLast = (draws tr).length
  held : ∀ t, HoldsLast (draws tr) c.shared t (c.loc t)

variable [DecidableEq ι]

theorem Follows.step {s : Server F} {x : PC F} (hF : Follows tr c)
    (h : bakeryProg1 n pid t e c.shared (c.loc t) = some (s, x)) :
    Follows (tr ++ [(c, (t, e))]) (c.set t s x) := by
  rcases step_cases h with ⟨rfl, hne, hkeep⟩ | ⟨request, result₁, hx, rfl, hs⟩ |
    ⟨request, result₁, ticks, reply, hx, rfl, hs⟩
  · constructor
    · rw [draws_concat_of_ne hne]
      exact hF.counter
    · rw [draws_concat_of_ne hne]
      refine Config.forall_set (P := HoldsLast (draws tr) c.shared) ?_ fun u _ => hF.held u
      intro request result₁ hheld
      obtain ⟨request', hold, hind⟩ := hkeep request result₁ hheld
      rw [← hind]
      exact hF.held t request' result₁ hold
  · obtain ⟨-, hcounter, -, hind, hnum⟩ := getNumber_spec hs
    constructor
    · rw [draws_concat_getNumber hx, List.length_append, List.length_singleton, ← hF.counter]
      exact hcounter
    · rw [draws_concat_getNumber hx]
      apply Config.forall_set (P := HoldsLast (draws tr ++ [(t, request.ind)]) s)
      · intro request' result' hheld
        cases hheld
        refine ⟨(draws tr).length, ?_, LastEntry.concat_self _ _ _, ?_⟩
        · rw [hind, hF.counter]
        · rw [hnum, ← hF.counter]
      · intro u hu request' result' hheld
        obtain ⟨k, hk, hlast, hticket⟩ := hF.held u request' result' hheld
        have hne : k ≠ c.shared.indexLast := by
          have := hlast.lt
          have := hF.counter
          omega
        refine ⟨k, hk, hlast.concat_of_ne hu.symm _, ?_⟩
        rw [(getNumber_frame hs hne).1]
        exact hticket
  · have hne : ∀ request, c.loc t ≠ .getNumber request := by
      intro request'
      rw [hx]
      exact nofun
    obtain ⟨hnumbers, hcounter, -⟩ := serve_spec hs
    constructor
    · rw [draws_concat_of_ne hne, Config.set_shared, hcounter]
      exact hF.counter
    · rw [draws_concat_of_ne hne]
      apply Config.forall_set (P := HoldsLast (draws tr) s)
      · intro request' result' hheld
        cases hheld
      · intro u _ request' result' hheld
        rw [hnumbers]
        exact hF.held u request' result' hheld

end Draws

section Runs

variable [Zero F] [DecidableEq ι] {tr : List (Config ι (Server F) (PC F) × (ι × Event F))}
  {c : Config ι (Server F) (PC F)}

theorem follows (h : (clients n pid).Trace (start ι F) tr c) : Follows tr c := by
  induction h with
  | nil => exact ⟨rfl, nofun⟩
  | @snoc tr c c' a h hn ih =>
    obtain ⟨t, e⟩ := a
    obtain ⟨s, x, hs, rfl⟩ := interleave_next.mp hn
    exact ih.step hs

end Runs

/-- Every request that is on its way to `serve_1_svc` asks for the slot that its client was
told in the same turn; a step leaves `number_last` as it is, or sets it to the ticket of
the client that is served. -/
structure AgreesOnSlot [DecidableEq ι] (n : ℕ) (pid : ι → ℤ) (c : Config ι (Server F) (PC F)) :
    Prop where
  slot : ∀ t request result₁, c.loc t = .serve request result₁ → request.ind = result₁.ind
  last : ∀ t e c', (clients n pid).next c (t, e) = some c' →
    c'.shared.numberLast = c.shared.numberLast ∨ ∃ request result₁,
      c.loc t = .serve request result₁ ∧ c'.shared.numberLast = result₁.num

/-- Every client with a request on its way to `serve_1_svc` has found in `request.ind` the
number of tickets drawn before its own. -/
def FoundSlot (tr : List (Config ι (Server F) (PC F) × (ι × Event F)))
    (c : Config ι (Server F) (PC F)) : Prop :=
  ∀ t, (c.loc t).serving = true → ∃ k : ℕ, LastEntry (draws tr) t k (k : ℤ)

/-- **Agreement on the slot.** In every run of any number of clients, with any contents of
the fields that they do not assign: the requests that reach `serve_1_svc` ask for the
slots their clients were told, and `number_last` is only set to the ticket of the client
served, if and only if each of these clients has found in `request.ind` the number of
tickets drawn before its own. -/
theorem agreement_iff [Zero F] [DecidableEq ι]
    {tr : List (Config ι (Server F) (PC F) × (ι × Event F))} {c : Config ι (Server F) (PC F)}
    (h : (clients n pid).Trace (start ι F) tr c) : AgreesOnSlot n pid c ↔ FoundSlot tr c := by
  have hF := follows h
  constructor
  · intro hA t ht
    cases hloc : c.loc t with
    | serve request result₁ =>
      obtain ⟨k, hk, hlast, -⟩ := hF.held t request result₁ (by rw [hloc]; rfl)
      rw [hA.slot t request result₁ hloc, hk] at hlast
      exact ⟨k, hlast⟩
    | _ =>
      rw [hloc] at ht
      cases ht
  · intro hfound
    have hslot : ∀ t request result₁, c.loc t = .serve request result₁ →
        request.ind = result₁.ind ∧ c.shared.numbers request.ind.toNat = result₁.num := by
      intro t request result₁ hloc
      obtain ⟨k, hk, hlast, hticket⟩ := hF.held t request result₁ (by rw [hloc]; rfl)
      obtain ⟨j, hj⟩ := hfound t (by rw [hloc]; rfl)
      obtain ⟨rfl, hind⟩ := hlast.unique hj
      rw [hind, Int.toNat_natCast]
      exact ⟨hk.symm, hticket⟩
    refine ⟨fun t request result₁ hloc => (hslot t request result₁ hloc).1, ?_⟩
    intro t e c' hn
    obtain ⟨s, x, hs, rfl⟩ := interleave_next.mp hn
    rw [Config.set_shared]
    rcases step_cases hs with ⟨rfl, -⟩ | ⟨request, result₁, -, -, hget⟩ |
      ⟨request, result₁, ticks, reply, hloc, -, hserve⟩
    · exact Or.inl rfl
    · exact Or.inl (getNumber_spec hget).2.2.1
    · rcases (serve_spec hserve).2.2 with hkeep | hset
      · exact Or.inl hkeep
      · refine Or.inr ⟨request, result₁, hloc, ?_⟩
        rw [hset]
        exact (hslot t request result₁ hloc).2

/-! ### Two clients -/

/-- Both clients draw a ticket and call `serve_1`; the second one has found `ind` in its
`request`. -/
def twoDraws {ι : Type} (t u : ι) (ind : ℤ) : List (ι × Event ℤ) :=
  [(t, .turn (Bakery.zero ℤ) 0 1 2), (t, .run fun _ => 0),
    (u, .turn { Bakery.zero ℤ with ind := ind } 0 3 4), (u, .run fun _ => 0),
    (t, .run fun _ => 0), (u, .run fun _ => 0)]

/-- Both have found the number of tickets drawn before their own. -/
def bothFound {ι : Type} [DecidableEq ι] (t u : ι)
    (tr : List (Config ι (Server ℤ) (PC ℤ) × (ι × Event ℤ))) (c : Config ι (Server ℤ) (PC ℤ)) :
    Bool :=
  draws tr = [(t, 0), (u, 1)] && (c.loc t).serving && (c.loc u).serving

/-- Both ask for their own slots. -/
theorem agreement_iff_found : ∃ (tr : List (Config (Fin 2) (Server ℤ) (PC ℤ) × (Fin 2 × Event ℤ)))
    (c : Config (Fin 2) (Server ℤ) (PC ℤ)),
    (clients 1000 fun t => t.toNat).Trace (start (Fin 2) ℤ) tr c ∧
      (∀ t, (c.loc t).serving = true) ∧ AgreesOnSlot 1000 (fun t => t.toNat) c := by
  have hrun : ((clients 1000 fun t => t.toNat).record (start (Fin 2) ℤ) (twoDraws 0 1 1)).any
      (fun q => bothFound 0 1 q.1 q.2) = true := by decide +kernel
  obtain ⟨tr, c, htr, hp⟩ := Machine.exists_trace_of_record _ _ hrun
  simp only [bothFound, Bool.and_eq_true, decide_eq_true_eq] at hp
  obtain ⟨⟨hdraws, h0⟩, h1⟩ := hp
  have hfound : FoundSlot tr c := by
    unfold FoundSlot
    rw [hdraws, Fin.forall_fin_two]
    constructor
    · intro _
      exact ⟨0, (LastEntry.concat_self [] 0 0).concat_of_ne (by decide) 1⟩
    · intro _
      exact ⟨1, LastEntry.concat_self [(0, 0)] 1 1⟩
  exact ⟨tr, c, htr, Fin.forall_fin_two.mpr ⟨h0, h1⟩, (agreement_iff htr).mpr hfound⟩

/-- The client is about to ask for another slot than the one it was told. -/
def PC.misled : PC F → Bool
  | .serve request result₁ => request.ind ≠ result₁.ind
  | _ => false

/-- On zeroed memory the second client asks for the slot of the first one. -/
theorem wrong_slot : ¬ ∀ (tr : List (Config (Fin 2) (Server ℤ) (PC ℤ) × (Fin 2 × Event ℤ)))
    (c : Config (Fin 2) (Server ℤ) (PC ℤ)),
    (clients 1000 fun t => t.toNat).Trace (start (Fin 2) ℤ) tr c →
      AgreesOnSlot 1000 (fun t => t.toNat) c := by
  intro h
  have hrun : ((clients 1000 fun t => t.toNat).record (start (Fin 2) ℤ) (twoDraws 0 1 0)).any
      (fun q => (q.2.loc 1).misled) = true := by decide +kernel
  obtain ⟨tr, c, htr, hp⟩ := Machine.exists_trace_of_record _
    (fun _ (c : Config (Fin 2) (Server ℤ) (PC ℤ)) => (c.loc 1).misled) hrun
  have hslot := (h tr c htr).slot 1
  cases hloc : c.loc 1 with
  | serve request result₁ =>
    rw [hloc] at hp
    exact absurd (hslot request result₁ hloc) (by simpa [PC.misled] using hp)
  | _ =>
    rw [hloc] at hp
    cases hp

end OsLabs.Obakery.Client
