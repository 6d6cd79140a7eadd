import OsLabs.Concurrent.Section
import OsLabs.RpcPc.Model

/-!
# The dispatcher that claims the semaphores: two looks at one request

Whatever requests arrive between the two looks of a worker at `rqstp->rq_proc`, one worker
at a time is in the section, since both branches of the `if` claim `SB`. But `SE` and `SF`
follow the branches, and the pointers follow the procedures: each procedure that is called
in the other's branch sets the letters in the buffer two off from what `SF` says. Where every
worker has seen the same procedure twice, the server is a queue of capacity `n`; otherwise
consumers may read cells that were never written (`double_fetch`).
-/

namespace OsLabs.RpcPc

open Concurrent Concurrent.BoundedBuffer

/-! ## The history of the cells -/

/-- How many calls of a procedure have made their access. -/
def made (p : Proc) (as : List Access) : ℕ := as.countP fun a => a.proc = p

/-- How many accesses were made in a branch. -/
def guarded (b : Proc) (as : List Access) : ℕ := as.countP fun a => a.guard = b

/-- How many calls of a procedure were made in the branch of the other. -/
def crossed (p : Proc) (as : List Access) : ℕ :=
  as.countP fun a => decide (a.proc = p) && !decide (a.guard = p)

/-- The letters that a procedure has stored or read. -/
def lettersOf (p : Proc) (as : List Access) : List Char :=
  (as.filter fun a => a.proc = p).map Access.letter

/-- Every call was made in its own branch. -/
def Agree (as : List Access) : Prop := ∀ a ∈ as, a.guard = a.proc

/-- The letter of the next call of a procedure: a cell that was not stored to is empty. -/
def due (as : List Access) : Proc → Char
  | .produce => letter (made .produce as)
  | .consume =>
      if made .consume as < made .produce as then letter (made .consume as) else Char.ofNat 0

/-- Every call got the letter that was due. -/
inductive Right : List Access → Prop
  | nil : Right []
  | snoc {as : List Access} {a : Access} (h : Right as) (ha : a.letter = due as a.proc) :
      Right (as ++ [a])

section History

variable {as : List Access} {a : Access} {p b : Proc}

theorem made_concat : made p (as ++ [a]) = made p as + if a.proc = p then 1 else 0 := by
  simp [made, List.countP_singleton]

theorem guarded_concat : guarded b (as ++ [a]) = guarded b as + if a.guard = b then 1 else 0 := by
  simp [guarded, List.countP_singleton]

theorem lettersOf_concat :
    lettersOf p (as ++ [a]) = lettersOf p as ++ if a.proc = p then [a.letter] else [] := by
  unfold lettersOf
  rw [List.filter_append, List.map_append]
  by_cases h : a.proc = p
  · simp [h]
  · simp [h]

theorem agree_concat : Agree (as ++ [a]) ↔ Agree as ∧ a.guard = a.proc := by
  simp [Agree, or_imp, forall_and]

/-- The calls of a procedure, by the branch that they were made in. -/
theorem guarded_balance (as : List Access) : guarded .produce as + crossed .produce as =
      made .produce as + crossed .consume as ∧
    guarded .consume as + crossed .consume as = made .consume as + crossed .produce as := by
  unfold guarded made crossed
  induction as with
  | nil => exact ⟨rfl, rfl⟩
  | cons a as ih =>
    obtain ⟨hproduce, hconsume⟩ := ih
    simp only [List.countP_cons]
    cases a.guard <;> cases a.proc <;> simp <;> omega

theorem Agree.crossed_eq_zero (h : Agree as) (p : Proc) : crossed p as = 0 := by
  unfold crossed
  rw [List.countP_eq_zero]
  intro a ha
  rw [h a ha]
  simp

theorem Agree.guarded_eq (h : Agree as) : guarded .produce as = made .produce as ∧
    guarded .consume as = made .consume as := by
  have hbalance := guarded_balance as
  rwa [h.crossed_eq_zero, h.crossed_eq_zero] at hbalance

end History

/-! ## The section -/

/-- The phase of a section in a branch, before its access. -/
def claimed : Proc → Phase
  | .produce => .cellClaimed
  | .consume => .letterClaimed

/-- The phase behind the access. -/
def accessed : Proc → Phase
  | .produce => .stored
  | .consume => .taken

/-- The globals in phase `h`, with the pointers at `p` and `q` and `alpha` at the `a`-th
letter. -/
structure Shape (n : ℕ) (g : Globals) (h : Phase) (p q a : ℕ) : Prop where
  accounts : Accounts sems n g.sem h (guarded .produce g.accesses) (guarded .consume g.accesses)
  cells : ∀ k, g.buffer k = if k < made .produce g.accesses then letter k else Char.ofNat 0
  producerPtr : g.producerPtr = p
  consumerPtr : g.consumerPtr = q
  alpha : g.alpha = letter a
  right : Right g.accesses
  fifo : Agree g.accesses →
    lettersOf .consume g.accesses = letters (made .consume g.accesses)

/-- Nobody is inside. -/
def Quiet (n : ℕ) (g : Globals) : Prop :=
  Shape n g .outside (made .produce g.accesses) (made .consume g.accesses)
    (made .produce g.accesses)

/-- The thread is between the two calls of `semop`. -/
def inSection : PC → Bool
  | .serv (.produce ..) | .serv (.consume ..) | .serv (.stop ..) => true
  | _ => false

/-- The globals while `produce_1_svc` runs; behind its store, letter `k` was the last. -/
def ProduceInside (n : ℕ) (g : Globals) (guard : Proc) (pc : ProducePC) : Prop :=
  let d := made .produce g.accesses
  let e := made .consume g.accesses
  match pc with
  | .loadAlpha => Shape n g (claimed guard) d e d
  | .loadPtr a => Shape n g (claimed guard) d e d ∧ a = letter d
  | .store a p => Shape n g (claimed guard) d e d ∧ a = letter d ∧ p = d
  | .ptrLoad => ∃ k, d = k + 1 ∧ Shape n g (accessed guard) k e k
  | .ptrStore p => ∃ k, d = k + 1 ∧ Shape n g (accessed guard) k e k ∧ p = k
  | .test => ∃ k, d = k + 1 ∧ Shape n g (accessed guard) d e k
  | .alphaLoad => ∃ k, d = k + 1 ∧ Shape n g (accessed guard) d e k ∧ letter k ≠ 'z'
  | .alphaStore a => ∃ k, d = k + 1 ∧ Shape n g (accessed guard) d e k ∧ a = letter (k + 1)

/-- The globals while `consume_1_svc` runs. -/
def ConsumeInside (n : ℕ) (g : Globals) (guard : Proc) (pc : ConsumePC) : Prop :=
  let d := made .produce g.accesses
  let e := made .consume g.accesses
  match pc with
  | .loadPtr => Shape n g (claimed guard) d e d
  | .loadCell p => Shape n g (claimed guard) d e d ∧ p = e
  | .ptrLoad => ∃ k, e = k + 1 ∧ Shape n g (accessed guard) d k d
  | .ptrStore p => ∃ k, e = k + 1 ∧ Shape n g (accessed guard) d k d ∧ p = k

def Inside (n : ℕ) (_ : Option ℕ) (g : Globals) : PC → Prop
  | .serv (.produce guard pc _) => ProduceInside n g guard pc
  | .serv (.consume guard pc _) => ConsumeInside n g guard pc
  | .serv (.stop guard _) =>
      Shape n g (accessed guard) (made .produce g.accesses) (made .consume g.accesses)
        (made .produce g.accesses)
  | _ => False

section Shapes

variable {n p q a : ℕ} {g g' : Globals} {h h' : Phase} {guard : Proc}

theorem Shape.setSem (hS : Shape n g h p q a) {v : SemNum → ℕ}
    (hv : Accounts sems n v h' (guarded .produce g.accesses) (guarded .consume g.accesses)) :
    Shape n { g with sem := v } h' p q a :=
  { hS with accounts := hv }

/-- The access of either procedure, as the semaphores see it: the branch counts. -/
theorem accounts_access {v : SemNum → ℕ} {as : List Access}
    (hA : Accounts sems n v (claimed guard) (guarded .produce as) (guarded .consume as))
    (proc : Proc) (l : Char) :
    Accounts sems n v (accessed guard) (guarded .produce (as ++ [⟨guard, proc, l⟩]))
      (guarded .consume (as ++ [⟨guard, proc, l⟩])) := by
  rw [guarded_concat, guarded_concat]
  cases guard with
  | produce => exact hA.store
  | consume => exact hA.take

/-- The store of the next letter in the next cell. -/
theorem Shape.store (hS : Shape n g (claimed guard) p q a) :
    Shape n { g with
      buffer := Function.update g.buffer (made .produce g.accesses)
        (letter (made .produce g.accesses))
      accesses := g.accesses ++ [⟨guard, .produce, letter (made .produce g.accesses)⟩] }
      (accessed guard) p q a := by
  have hmade : made .produce (g.accesses ++
      [⟨guard, .produce, letter (made .produce g.accesses)⟩]) = made .produce g.accesses + 1 := by
    rw [made_concat, if_pos rfl]
  have hcons : made .consume (g.accesses ++
      [⟨guard, .produce, letter (made .produce g.accesses)⟩]) = made .consume g.accesses := by
    rw [made_concat]
    rfl
  constructor
  · exact accounts_access hS.accounts _ _
  · intro k
    show Function.update g.buffer _ _ k = _
    rw [hmade]
    by_cases hk : k = made .produce g.accesses
    · subst hk
      rw [Function.update_self, if_pos (Nat.lt_succ_self _)]
    · have hiff : k < made .produce g.accesses + 1 ↔ k < made .produce g.accesses := by omega
      rw [Function.update_of_ne hk, hS.cells k]
      simp only [hiff]
  · exact hS.producerPtr
  · exact hS.consumerPtr
  · exact hS.alpha
  · exact hS.right.snoc rfl
  · intro hagree
    have hne : ¬ Proc.produce = Proc.consume := by decide
    rw [lettersOf_concat, hcons, if_neg hne, List.append_nil]
    exact hS.fifo (agree_concat.mp hagree).1

/-- The read of the next cell, whether it was stored to or not. -/
theorem Shape.take (hS : Shape n g (claimed guard) p q a) :
    g.buffer (made .consume g.accesses) = due g.accesses .consume ∧
      Shape n { g with accesses := g.accesses ++ [⟨guard, .consume, due g.accesses .consume⟩] }
        (accessed guard) p q a := by
  have hmade : made .produce (g.accesses ++
      [⟨guard, .consume, due g.accesses .consume⟩]) = made .produce g.accesses := by
    rw [made_concat]
    rfl
  have hcons : made .consume (g.accesses ++
      [⟨guard, .consume, due g.accesses .consume⟩]) = made .consume g.accesses + 1 := by
    rw [made_concat, if_pos rfl]
  refine ⟨hS.cells _, ?_⟩
  constructor
  · exact accounts_access hS.accounts _ _
  · intro k
    rw [hmade]
    exact hS.cells k
  · exact hS.producerPtr
  · exact hS.consumerPtr
  · exact hS.alpha
  · exact hS.right.snoc rfl
  · intro hagree
    obtain ⟨hold, hlast⟩ := agree_concat.mp hagree
    obtain rfl : guard = .consume := hlast
    -- the branch of a consumer has a letter claimed, and the procedures follow the branches
    have hlt := hS.accounts.taken_lt
    rw [hold.guarded_eq.1, hold.guarded_eq.2] at hlt
    rw [lettersOf_concat, hcons, if_pos rfl, letters_succ, hS.fifo hold, due, if_pos hlt]

end Shapes

/-! ## Steps -/

section Steps

variable {n : ℕ} {t : Option ℕ} {e : Event} {s s' : Shared} {g g' : Globals} {guard : Proc}
  {result : Option Char} {x x' : PC} {y : ServPC}

theorem produce_step {pc : ProducePC} (hin : ProduceInside n g guard pc)
    (h : produce1Svc guard g result pc = (g', y)) :
    inSection (.serv y) = true ∧ Inside n t g' (.serv y) := by
  cases pc with
  | loadAlpha =>
    cases h
    exact ⟨rfl, hin, hin.alpha⟩
  | loadPtr a =>
    cases h
    obtain ⟨hS, ha⟩ := hin
    exact ⟨rfl, hS, ha, hS.producerPtr⟩
  | store a p =>
    obtain ⟨hS, rfl, rfl⟩ := hin
    cases h
    have hmade : made .produce (g.accesses ++
        [⟨guard, .produce, letter (made .produce g.accesses)⟩]) =
          made .produce g.accesses + 1 := by
      rw [made_concat, if_pos rfl]
    have hcons : made .consume (g.accesses ++
        [⟨guard, .produce, letter (made .produce g.accesses)⟩]) = made .consume g.accesses := by
      rw [made_concat]
      rfl
    refine ⟨rfl, made .produce g.accesses, hmade, ?_⟩
    simp only [hcons]
    exact hS.store
  | ptrLoad =>
    cases h
    obtain ⟨k, hk, hS⟩ := hin
    exact ⟨rfl, k, hk, hS, hS.producerPtr⟩
  | ptrStore p =>
    cases h
    obtain ⟨k, hk, hS, rfl⟩ := hin
    exact ⟨rfl, p, hk, { hS with producerPtr := hk.symm }⟩
  | test =>
    obtain ⟨k, hk, hS⟩ := hin
    simp only [produce1Svc, hS.alpha] at h
    split_ifs at h with hlt
    · cases h
      refine ⟨rfl, k, hk, hS, ?_⟩
      intro hz
      rw [hz] at hlt
      exact Char.lt_irrefl _ hlt
    · cases h
      have hz : letter k = 'z' := Char.le_antisymm (letter_mem_range k).2 (Char.not_lt.mp hlt)
      exact ⟨rfl, k, hk, hS, (letter_succ_of_z hz).symm⟩
  | alphaLoad =>
    cases h
    obtain ⟨k, hk, hS, hz⟩ := hin
    refine ⟨rfl, k, hk, hS, ?_⟩
    rw [hS.alpha, letter_succ_of_ne_z hz]
  | alphaStore a =>
    cases h
    obtain ⟨k, hk, hS, rfl⟩ := hin
    refine ⟨rfl, ?_⟩
    show Shape n _ _ (made .produce g.accesses) (made .consume g.accesses)
      (made .produce g.accesses)
    rw [hk] at hS ⊢
    exact { hS with alpha := rfl }

theorem consume_step {pc : ConsumePC} (hin : ConsumeInside n g guard pc)
    (h : consume1Svc guard g result pc = (g', y)) :
    inSection (.serv y) = true ∧ Inside n t g' (.serv y) := by
  cases pc with
  | loadPtr =>
    cases h
    exact ⟨rfl, hin, hin.consumerPtr⟩
  | loadCell p =>
    obtain ⟨hS, rfl⟩ := hin
    obtain ⟨hread, hS'⟩ := hS.take
    simp only [consume1Svc, hread] at h
    cases h
    have hmade : made .produce (g.accesses ++
        [⟨guard, .consume, due g.accesses .consume⟩]) = made .produce g.accesses := by
      rw [made_concat]
      rfl
    have hcons : made .consume (g.accesses ++
        [⟨guard, .consume, due g.accesses .consume⟩]) = made .consume g.accesses + 1 := by
      rw [made_concat, if_pos rfl]
    refine ⟨rfl, made .consume g.accesses, hcons, ?_⟩
    simp only [hmade]
    exact hS'
  | ptrLoad =>
    cases h
    obtain ⟨k, hk, hS⟩ := hin
    exact ⟨rfl, k, hk, hS, hS.consumerPtr⟩
  | ptrStore p =>
    cases h
    obtain ⟨k, hk, hS, rfl⟩ := hin
    refine ⟨rfl, ?_⟩
    show Shape n _ _ (made .produce g.accesses) (made .consume g.accesses)
      (made .produce g.accesses)
    rw [hk]
    exact { hS with consumerPtr := rfl }

theorem claimed_ne (b : Proc) : claimed b ≠ .outside := by cases b <;> decide

theorem accessed_ne (b : Proc) : accessed b ≠ .outside := by cases b <;> decide

/-- Inside, the semaphores are not those of a free section. -/
theorem inside_shape (hin : Inside n t g x) : ∃ h p q a, h ≠ .outside ∧ Shape n g h p q a := by
  cases x with
  | svcRun | dispatch | idle => exact hin.elim
  | serv pc =>
    cases pc with
    | switch | getargs | test | start | returned => exact hin.elim
    | produce b pc result =>
      cases pc with
      | loadAlpha => exact ⟨_, _, _, _, claimed_ne b, hin⟩
      | loadPtr | store => exact ⟨_, _, _, _, claimed_ne b, hin.1⟩
      | ptrLoad | test =>
        obtain ⟨k, -, hS⟩ := hin
        exact ⟨_, _, _, _, accessed_ne b, hS⟩
      | ptrStore | alphaLoad | alphaStore =>
        obtain ⟨k, -, hS, -⟩ := hin
        exact ⟨_, _, _, _, accessed_ne b, hS⟩
    | consume b pc result =>
      cases pc with
      | loadPtr => exact ⟨_, _, _, _, claimed_ne b, hin⟩
      | loadCell => exact ⟨_, _, _, _, claimed_ne b, hin.1⟩
      | ptrLoad =>
        obtain ⟨k, -, hS⟩ := hin
        exact ⟨_, _, _, _, accessed_ne b, hS⟩
      | ptrStore =>
        obtain ⟨k, -, hS, -⟩ := hin
        exact ⟨_, _, _, _, accessed_ne b, hS⟩
    | stop b result => exact ⟨_, _, _, _, accessed_ne b, hin⟩

/-- A branch starts where nobody is inside. -/
theorem startArray_shape {v : SemNum → ℕ} {h : Phase} {p q a : ℕ} (hS : Shape n g h p q a)
    (hv : semop g.sem (startArray guard) = some v) :
    h = .outside ∧ Shape n { g with sem := v } (claimed guard) p q a := by
  cases guard with
  | produce =>
    obtain ⟨hout, hA⟩ := hS.accounts.startProduce hv
    exact ⟨hout, hS.setSem hA⟩
  | consume =>
    obtain ⟨hout, hA⟩ := hS.accounts.startConsume hv
    exact ⟨hout, hS.setSem hA⟩

theorem stopArray_shape {v : SemNum → ℕ} {p q a : ℕ} (hS : Shape n g (accessed guard) p q a)
    (hv : semop g.sem (stopArray guard) = some v) :
    Shape n { g with sem := v } .outside p q a := by
  cases guard with
  | produce => exact hS.setSem (hS.accounts.stopProduce hv)
  | consume => exact hS.setSem (hS.accounts.stopConsume hv)

/-- A step of the worker inside. -/
theorem inside_step (hx : inSection x = true) (hin : Inside n t s.globals x)
    (h : threadStep t e s x = some (s', x')) :
    Leaves (fun x => inSection x = true) (Quiet n) (Inside n) t s'.globals x' := by
  obtain ⟨pc, rfl⟩ : ∃ pc, x = .serv pc := by
    cases x with
    | serv pc => exact ⟨pc, rfl⟩
    | svcRun | dispatch | idle => cases hx
  cases t with
  | none => cases e <;> cases h
  | some t =>
    cases e with
    | receive p => cases h
    | run ok =>
      obtain ⟨⟨s₁, y⟩, hs, hp⟩ := Option.map_eq_some_iff.mp h
      cases hp
      cases pc with
      | switch | getargs | test | start | returned => cases hx
      | produce guard pc result =>
        cases hs
        exact Or.inl (produce_step hin rfl)
      | consume guard pc result =>
        cases hs
        exact Or.inl (consume_step hin rfl)
      | stop guard result =>
        obtain ⟨v, hv, hp⟩ := Option.map_eq_some_iff.mp hs
        cases hp
        exact Or.inr ⟨Bool.false_ne_true, stopArray_shape hin hv⟩

/-- A worker outside leaves the globals as they are, or enters. -/
theorem servRequest_outside {ok : Bool} {pc y : ServPC} (hx : ¬ inSection (.serv pc) = true)
    (h : servRequest ok s pc = some (s', y)) :
    (s'.globals = s.globals ∧ ¬ inSection (.serv y) = true) ∨
      ((∀ u z, inSection z = true → ¬ Inside n u s.globals z) ∧
        (Quiet n s.globals → inSection (.serv y) = true ∧ Inside n t s'.globals (.serv y))) := by
  cases pc with
  | switch =>
    simp only [servRequest] at h
    split_ifs at h <;> cases h <;> exact Or.inl ⟨rfl, Bool.false_ne_true⟩
  | getargs proc =>
    simp only [servRequest] at h
    split_ifs at h <;> cases h <;> exact Or.inl ⟨rfl, Bool.false_ne_true⟩
  | test proc =>
    simp only [servRequest] at h
    split_ifs at h <;> cases h <;> exact Or.inl ⟨rfl, Bool.false_ne_true⟩
  | start guard proc =>
    obtain ⟨v, hv, hp⟩ := Option.map_eq_some_iff.mp h
    cases hp
    refine Or.inr ⟨?_, fun hQ => ?_⟩
    · intro u z _ hin
      obtain ⟨ph, p, q, a, hne, hS⟩ := inside_shape hin
      exact hne (startArray_shape hS hv).1
    · have hS := (startArray_shape hQ hv).2
      cases proc with
      | produce => exact ⟨rfl, hS⟩
      | consume => exact ⟨rfl, hS⟩
  | produce | consume | stop => exact absurd rfl hx
  | returned result => cases h

/-- A step of any other thread leaves the globals as they are, or enters. -/
theorem outside_step (hx : ¬ inSection x = true) (h : threadStep t e s x = some (s', x')) :
    (s'.globals = s.globals ∧ ¬ inSection x' = true) ∨
      ((∀ u y, inSection y = true → ¬ Inside n u s.globals y) ∧
        (Quiet n s.globals → inSection x' = true ∧ Inside n t s'.globals x')) := by
  unfold threadStep at h
  split at h
  · cases h
    exact Or.inl ⟨rfl, Bool.false_ne_true⟩
  · cases h
    exact Or.inl ⟨rfl, Bool.false_ne_true⟩
  · split_ifs at h
    cases h
    exact Or.inl ⟨rfl, Bool.false_ne_true⟩
  · obtain ⟨⟨s₁, y⟩, hs, hp⟩ := Option.map_eq_some_iff.mp h
    cases hp
    exact servRequest_outside hx hs
  · cases h

end Steps

/-! ## Whole runs -/

section Runs

variable {n : ℕ} {c : Config (Option ℕ) Shared PC}

/-- The globals and the threads, without the request that all of them see. -/
def withoutRequest (c : Config (Option ℕ) Shared PC) : Config (Option ℕ) Globals PC :=
  ⟨c.shared.globals, c.loc⟩

/-- At most one worker is inside, and the globals are in the shape of its point. -/
def Inv (n : ℕ) (c : Config (Option ℕ) Shared PC) : Prop :=
  Guarded (fun x => inSection x = true) (Quiet n) (Inside n) (withoutRequest c)

theorem inv_initial (n : ℕ) : Inv n (initial n) := by
  refine Or.inl ⟨⟨⟨rfl, rfl, rfl⟩, fun _ => rfl, rfl, rfl, rfl, .nil, fun _ => rfl⟩, fun t => ?_⟩
  cases t <;> exact Bool.false_ne_true

theorem Inv.step_run (hI : Inv n c) {t : Option ℕ} {e : Event} {s : Shared} {x : PC}
    (hs : threadStep t e c.shared (c.loc t) = some (s, x)) : Inv n (c.set t s x) := by
  show Guarded _ _ _ ((withoutRequest c).set t s.globals x)
  apply hI.step
  · intro hx hin
    exact inside_step hx hin hs
  · intro hx
    exact outside_step hx hs

theorem inv_reach (h : server.Reach (initial n) c) : Inv n c := by
  apply h.interleave_invariant (inv_initial n)
  intro c t e s x hI _ hs
  exact hI.step_run hs

/-- In every state the globals have some shape. -/
theorem Inv.shape (hI : Inv n c) : ∃ h p q a, Shape n c.shared.globals h p q a := by
  rcases hI with ⟨hQ, -⟩ | ⟨t, hin, -⟩
  · exact ⟨_, _, _, _, hQ⟩
  · obtain ⟨h, p, q, a, -, hS⟩ := inside_shape hin
    exact ⟨h, p, q, a, hS⟩

/-- A step makes no access, or that of the point its worker is at. -/
theorem accesses_step {t : Option ℕ} {e : Event} {s s' : Shared} {x x' : PC}
    (h : threadStep t e s x = some (s', x')) :
    s'.globals.accesses = s.globals.accesses ∨
      (∃ b a p r, x = .serv (.produce b (.store a p) r) ∧
        s'.globals.accesses = s.globals.accesses ++ [⟨b, .produce, a⟩]) ∨
      ∃ b p r l, x = .serv (.consume b (.loadCell p) r) ∧
        s'.globals.accesses = s.globals.accesses ++ [⟨b, .consume, l⟩] := by
  unfold threadStep at h
  split at h
  · cases h
    exact Or.inl rfl
  · cases h
    exact Or.inl rfl
  · split_ifs at h
    cases h
    exact Or.inl rfl
  next pc =>
    obtain ⟨⟨s₁, y⟩, hs, hp⟩ := Option.map_eq_some_iff.mp h
    cases hp
    cases pc with
    | switch | getargs | test =>
      simp only [servRequest] at hs
      split_ifs at hs <;> cases hs <;> exact Or.inl rfl
    | start | stop =>
      obtain ⟨v, -, hp⟩ := Option.map_eq_some_iff.mp hs
      cases hp
      exact Or.inl rfl
    | produce b pc r =>
      cases hs
      cases pc with
      | store a p => exact Or.inr (Or.inl ⟨b, a, p, r, rfl, rfl⟩)
      | test =>
        simp only [produce1Svc]
        split_ifs <;> exact Or.inl rfl
      | _ => exact Or.inl rfl
    | consume b pc r =>
      cases hs
      cases pc with
      | loadCell p => exact Or.inr (Or.inr ⟨b, p, r, _, rfl, rfl⟩)
      | _ => exact Or.inl rfl
    | returned => cases hs
  · cases h

/-- Each procedure has made at most one access for each cell. -/
def Filled (n : ℕ) (as : List Access) : Prop := ∀ p, made p as ≤ n

theorem Filled.concat {as : List Access} {a : Access} (hF : Filled n as)
    (h : made a.proc as < n) : Filled n (as ++ [a]) := by
  intro p
  rw [made_concat]
  by_cases hp : a.proc = p
  · subst hp
    rw [if_pos rfl]
    exact h
  · rw [if_neg hp]
    exact hF p

/-- As long as the accesses are in the buffer, each procedure makes at most `n` of them. -/
theorem filled_reachBy (h : server.ReachBy (InBuffer n) (initial n) c) :
    Filled n c.shared.globals.accesses := by
  have hinv : Inv n c ∧ Filled n c.shared.globals.accesses := by
    apply h.interleave_invariant ⟨inv_initial n, fun p => Nat.zero_le n⟩
    rintro c t e s x ⟨hI, hF⟩ hbuf hs
    refine ⟨hI.step_run hs, ?_⟩
    rw [Config.set_shared]
    rcases accesses_step hs with heq | ⟨b, a, p, r, hx, heq⟩ | ⟨b, p, r, l, hx, heq⟩
    · rw [heq]
      exact hF
    · have hin : Inside n t c.shared.globals (c.loc t) :=
        Guarded.owner hI (show inSection (c.loc t) = true by rw [hx]; rfl)
      have hp : p < n := by simpa only [InBuffer, hx] using hbuf
      rw [hx] at hin
      rw [heq]
      exact hF.concat (hin.2.2 ▸ hp)
    · have hin : Inside n t c.shared.globals (c.loc t) :=
        Guarded.owner hI (show inSection (c.loc t) = true by rw [hx]; rfl)
      have hp : p < n := by simpa only [InBuffer, hx] using hbuf
      rw [hx] at hin
      rw [heq]
      exact hF.concat (hin.2 ▸ hp)
  exact hinv.2

/-- **The two looks at a request.** In every run of the server whose accesses stay inside the
buffer, whatever requests overwrite the one that the workers look at: each procedure makes at
most `n` accesses; one worker at a time is between its calls of `semop`; a consumer gets the
next letter, or an empty cell where none is left; while nobody is inside, the letters in the
buffer are those that `SF` counts, and two more for each producer that was called in the
branch of a consumer, and two less for each consumer in the branch of a producer. Where every
call was made in its own branch, the letters read are the first ones of the cycle, in order,
and the buffer never holds more than `n`. -/
theorem double_fetch (h : server.ReachBy (InBuffer n) (initial n) c) :
    (∀ p, made p c.shared.globals.accesses ≤ n) ∧
    (∀ t u, inSection (c.loc t) = true → inSection (c.loc u) = true → t = u) ∧
    Right c.shared.globals.accesses ∧
    ((∀ t, inSection (c.loc t) = false) → (made .produce c.shared.globals.accesses : ℤ) -
        made .consume c.shared.globals.accesses = c.shared.globals.sem .sf +
          2 * crossed .produce c.shared.globals.accesses -
          2 * crossed .consume c.shared.globals.accesses) ∧
    (Agree c.shared.globals.accesses →
      lettersOf .consume c.shared.globals.accesses =
          letters (made .consume c.shared.globals.accesses) ∧
        made .consume c.shared.globals.accesses ≤ made .produce c.shared.globals.accesses ∧
        made .produce c.shared.globals.accesses ≤
          made .consume c.shared.globals.accesses + n) := by
  have hI := inv_reach h.reach
  obtain ⟨ph, p, q, a, hS⟩ := hI.shape
  refine ⟨filled_reachBy h, ?_, hS.right, ?_, fun hagree => ⟨hS.fifo hagree, ?_, ?_⟩⟩
  · intro t u ht hu
    rcases hI with ⟨-, hnone⟩ | ⟨v, -, -, honly⟩
    · exact absurd ht (hnone t)
    · rw [honly t ht, honly u hu]
  · intro hnone
    have hQ : Quiet n c.shared.globals := by
      rcases hI with ⟨hQ, -⟩ | ⟨v, -, hv, -⟩
      · exact hQ
      · rw [show (withoutRequest c).loc v = c.loc v from rfl, hnone v] at hv
        cases hv
    have hfull : c.shared.globals.sem .sf + 0 + guarded .consume c.shared.globals.accesses =
      guarded .produce c.shared.globals.accesses := hQ.accounts.full
    obtain ⟨hproduce, hconsume⟩ := guarded_balance c.shared.globals.accesses
    omega
  · have hle := hS.accounts.taken_le
    rwa [hagree.guarded_eq.1, hagree.guarded_eq.2] at hle
  · have hempty := hS.accounts.empty
    rw [hagree.guarded_eq.1, hagree.guarded_eq.2] at hempty
    omega

end Runs

/-! ### A request between the two looks -/

/-- A request to consume is looked at, then one to produce arrives, and the worker looks
again. -/
def crossedRun : List (Option ℕ × Event) :=
  [(none, .receive CONSUME), (none, .run true), (some 0, .run true), (some 0, .run true),
    (some 0, .run true), (none, .receive PRODUCE)] ++ List.replicate 7 (some 0, .run true)

/-- The consumer waits for an empty cell instead of a letter, gets one that was never written,
and leaves a letter for `SF` to count. -/
theorem double_fetch_unwritten : ∃ c : Config (Option ℕ) Shared PC,
    Right c.shared.globals.accesses ∧
      lettersOf .consume c.shared.globals.accesses = [Char.ofNat 0] ∧
      made .produce c.shared.globals.accesses = 0 ∧ c.shared.globals.sem .sf = 1 := by
  have hrun : (server.exec (InBuffer 1024) (initial 1024) crossedRun).any (fun c =>
      lettersOf .consume c.shared.globals.accesses = [Char.ofNat 0] ∧
        made .produce c.shared.globals.accesses = 0 ∧ c.shared.globals.sem .sf = 1) = true := by
    decide
  obtain ⟨c, hc, hp⟩ := Machine.exists_reachBy_of_exec _ _ hrun
  exact ⟨c, (double_fetch hc).2.2.1, by simpa using hp⟩

end OsLabs.RpcPc
