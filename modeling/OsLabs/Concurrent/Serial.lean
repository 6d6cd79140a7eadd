import Mathlib.Logic.Relation
import OsLabs.Concurrent.Machine

/-!
# Serial executions

Threads that read and write single locations of a shared memory, each with a record of the
locations it has accessed. Two accesses conflict where they are to one location and one of
them writes. If no access conflicts with an earlier one of a thread that comes later in a
given order, then the memory and the local states are those of the threads run one after
the other in that order, each as far as it got (`serial_of_reachBy`).

The step lemma is `Serial.step`: an access of a thread is moved before the accesses of the
threads behind it in the order, which it does not conflict with. `Run.replay` is that such
a thread runs just so on the changed memory.
-/

namespace OsLabs.Concurrent

/-- An access to a memory with locations `L`, and how the thread goes on: it reads a
location, writes one, or writes one with a value it makes of another. -/
inductive Access {L : Type*} (V : L → Type*) (X : Type*)
  | read (l : L) (next : V l → X)
  | write (l : L) (v : V l) (next : X)
  | move (src dst : L) (f : V src → V dst) (next : V src → X)

namespace Access

variable {L : Type*} {V : L → Type*} {X : Type*} {a : Access V X} {m n : ∀ l, V l}

def reads : Access V X → List L
  | read l _ => [l]
  | write _ _ _ => []
  | move src _ _ _ => [src]

def writes : Access V X → List L
  | read _ _ => []
  | write l _ _ => [l]
  | move _ dst _ _ => [dst]

/-- How the thread goes on. -/
def next : Access V X → (∀ l, V l) → X
  | read l next, m => next (m l)
  | write _ _ next, _ => next
  | move src _ _ next, m => next (m src)

/-- What the access leaves in the memory. -/
def effect [DecidableEq L] : Access V X → (∀ l, V l) → ∀ l, V l
  | read _ _, m => m
  | write l v _, m => Function.update m l v
  | move src dst f _, m => Function.update m dst (f (m src))

theorem next_congr (h : ∀ l ∈ a.reads, n l = m l) : a.next n = a.next m := by
  cases a with
  | read l next => rw [Access.next, Access.next, h l (List.mem_singleton_self l)]
  | write l v next => rfl
  | move src dst f next => rw [Access.next, Access.next, h src (List.mem_singleton_self src)]

variable [DecidableEq L]

theorem effect_congr (h : ∀ l ∈ a.reads, n l = m l) {l : L} (hl : l ∈ a.writes) :
    a.effect n l = a.effect m l := by
  cases a with
  | read l' next => cases hl
  | write l' v next =>
    obtain rfl := List.mem_singleton.mp hl
    rw [effect, effect, Function.update_self, Function.update_self]
  | move src dst f next =>
    obtain rfl := List.mem_singleton.mp hl
    rw [effect, effect, Function.update_self, Function.update_self,
      h src (List.mem_singleton_self src)]

theorem effect_frame {l : L} (hl : l ∉ a.writes) : a.effect m l = m l := by
  cases a with
  | read l' next => rfl
  | write l' v next => exact Function.update_of_ne (fun h => hl (List.mem_singleton.mpr h)) ..
  | move src dst f next => exact Function.update_of_ne (fun h => hl (List.mem_singleton.mpr h)) ..

end Access

/-- A thread and the locations it has read and written. -/
structure Recorded (L X : Type*) where
  pc : X
  reads : List L
  writes : List L

namespace Recorded

variable {L : Type*} {V : L → Type*} {X : Type*}

/-- A thread that has made no access. -/
def start (x : X) : Recorded L X := ⟨x, [], []⟩

/-- The thread after an access. -/
def after (r : Recorded L X) (a : Access V X) (m : ∀ l, V l) : Recorded L X :=
  ⟨a.next m, a.reads ++ r.reads, a.writes ++ r.writes⟩

/-- The access is to a location that the thread has accessed, and one of the two writes. -/
def Conflicts (a : Access V X) (r : Recorded L X) : Prop :=
  (∃ l ∈ a.reads, l ∈ r.writes) ∨ ∃ l ∈ a.writes, l ∈ r.reads ∨ l ∈ r.writes

instance [DecidableEq L] (a : Access V X) (r : Recorded L X) : Decidable (Conflicts a r) :=
  inferInstanceAs (Decidable ((∃ l ∈ a.reads, l ∈ r.writes) ∨
    ∃ l ∈ a.writes, l ∈ r.reads ∨ l ∈ r.writes))

end Recorded

section Serial

variable {ι L : Type} {V : L → Type} {X : Type} [DecidableEq L]

/-- One access of a thread; a thread that has none makes no step. -/
def recordedStep (access : X → Option (Access V X)) (m : ∀ l, V l) (r : Recorded L X) :
    Option ((∀ l, V l) × Recorded L X) :=
  (access r.pc).map fun a => (a.effect m, r.after a m)

variable {access : X → Option (Access V X)} {m m' m'' n : ∀ l, V l} {r r' : Recorded L X}
  {a : Access V X} {begin : ι → X} {loc : ι → Recorded L X} {order : List ι}

theorem recordedStep_eq_some : recordedStep access m r = some (m', r') ↔
    ∃ a, access r.pc = some a ∧ m' = a.effect m ∧ r' = r.after a m := by
  simp only [recordedStep, Option.map_eq_some_iff, Prod.mk.injEq, @eq_comm _ _ m',
    @eq_comm _ _ r']

/-! ### A thread alone -/

/-- A thread running alone. -/
inductive Run (access : X → Option (Access V X)) (m : ∀ l, V l) (x : X) :
    (∀ l, V l) → Recorded L X → Prop
  | refl : Run access m x m (.start x)
  | step {m' : ∀ l, V l} {r : Recorded L X} {a : Access V X} (h : Run access m x m' r)
      (ha : access r.pc = some a) : Run access m x (a.effect m') (r.after a m')

/-- What the thread has not written is as it was. -/
theorem Run.frame {x : X} (h : Run access m x m' r) {l : L} (hl : l ∉ r.writes) :
    m' l = m l := by
  induction h with
  | refl => rfl
  | @step m' r a _ ha ih =>
    have hl' : l ∉ a.writes ∧ l ∉ r.writes := by
      simpa only [Recorded.after, List.mem_append, not_or] using hl
    rw [Access.effect_frame hl'.1, ih hl'.2]

/-- A thread runs the same way where the memory differs in places it does not access, and
the difference stays. -/
theorem Run.replay {x : X} {D : List L} (h : Run access m x m' r)
    (hD : ∀ l ∈ D, l ∉ r.reads ∧ l ∉ r.writes) (hn : ∀ l, l ∉ D → n l = m l) :
    ∃ n', Run access n x n' r ∧ (∀ l, l ∉ D → n' l = m' l) ∧ ∀ l ∈ D, n' l = n l := by
  induction h with
  | refl => exact ⟨n, .refl, hn, fun _ _ => rfl⟩
  | @step m' r a h ha ih =>
    have hD' : ∀ l ∈ D, (l ∉ a.reads ∧ l ∉ r.reads) ∧ l ∉ a.writes ∧ l ∉ r.writes := by
      simpa only [Recorded.after, List.mem_append, not_or] using hD
    obtain ⟨n', hrun, hout, hin⟩ := ih fun l hl => ⟨(hD' l hl).1.2, (hD' l hl).2.2⟩
    have hreads : ∀ l ∈ a.reads, n' l = m' l :=
      fun l hl => hout l fun hlD => (hD' l hlD).1.1 hl
    have hafter : r.after a n' = r.after a m' := by
      rw [Recorded.after, Recorded.after, Access.next_congr hreads]
    refine ⟨a.effect n', hafter ▸ hrun.step ha, ?_, ?_⟩
    · intro l hl
      by_cases hw : l ∈ a.writes
      · exact Access.effect_congr hreads hw
      · rw [Access.effect_frame hw, Access.effect_frame hw, hout l hl]
    · intro l hl
      rw [Access.effect_frame (hD' l hl).2.1, hin l hl]

/-! ### One after the other -/

/-- The threads of the list run alone one after the other, each from its beginning to its
local state in `loc`. -/
inductive Serial (access : X → Option (Access V X)) (begin : ι → X) (loc : ι → Recorded L X) :
    (∀ l, V l) → List ι → (∀ l, V l) → Prop
  | nil {m : ∀ l, V l} : Serial access begin loc m [] m
  | cons {t : ι} {ts : List ι} {m m' m'' : ∀ l, V l} (h : Run access m (begin t) m' (loc t))
      (hs : Serial access begin loc m' ts m'') : Serial access begin loc m (t :: ts) m''

theorem serial_cons {t : ι} {ts : List ι} : Serial access begin loc m (t :: ts) m' ↔
    ∃ m₁, Run access m (begin t) m₁ (loc t) ∧ Serial access begin loc m₁ ts m' := by
  constructor
  · intro h
    cases h with
    | cons hrun hserial => exact ⟨_, hrun, hserial⟩
  · rintro ⟨m₁, hrun, hserial⟩
    exact .cons hrun hserial

theorem Serial.frame (h : Serial access begin loc m order m') {l : L}
    (hl : ∀ u ∈ order, l ∉ (loc u).writes) : m' l = m l := by
  induction h with
  | nil => rfl
  | cons h _ ih =>
    rw [ih fun u hu => hl u (List.mem_cons_of_mem _ hu), h.frame (hl _ (List.mem_cons_self ..))]

theorem Serial.replay {D : List L} (h : Serial access begin loc m order m')
    (hD : ∀ u ∈ order, ∀ l ∈ D, l ∉ (loc u).reads ∧ l ∉ (loc u).writes)
    (hn : ∀ l, l ∉ D → n l = m l) :
    ∃ n', Serial access begin loc n order n' ∧ (∀ l, l ∉ D → n' l = m' l) ∧
      ∀ l ∈ D, n' l = n l := by
  induction h generalizing n with
  | nil => exact ⟨n, .nil, hn, fun _ _ => rfl⟩
  | cons h _ ih =>
    obtain ⟨n₁, hrun, hout, hin⟩ := h.replay (hD _ (List.mem_cons_self ..)) hn
    obtain ⟨n₂, hserial, hout', hin'⟩ := ih (fun u hu => hD u (List.mem_cons_of_mem _ hu)) hout
    refine ⟨n₂, .cons hrun hserial, hout', ?_⟩
    intro l hl
    rw [hin' l hl, hin l hl]

theorem Serial.congr {loc' : ι → Recorded L X} (h : Serial access begin loc m order m')
    (hloc : ∀ u ∈ order, loc' u = loc u) : Serial access begin loc' m order m' := by
  induction h with
  | nil => exact .nil
  | cons h _ ih =>
    rw [← hloc _ (List.mem_cons_self ..)] at h
    exact .cons h (ih fun u hu => hloc u (List.mem_cons_of_mem _ hu))

/-- Before any thread has run. -/
theorem Serial.start (order : List ι) :
    Serial access begin (fun t => .start (begin t)) m order m := by
  induction order with
  | nil => exact .nil
  | cons t ts ih => exact .cons .refl ih

variable [DecidableEq ι]

/-- An access that conflicts with nothing the threads behind have done can be made before
they run. -/
theorem Serial.step_head {t : ι} {ts : List ι} (ht : t ∉ ts)
    (h : Serial access begin loc m (t :: ts) m') (ha : access (loc t).pc = some a)
    (hc : ∀ u ∈ ts, ¬ Recorded.Conflicts a (loc u)) :
    Serial access begin (Function.update loc t ((loc t).after a m')) m (t :: ts) (a.effect m') := by
  obtain ⟨m₁, hrun, hserial⟩ := serial_cons.mp h
  have hreads : ∀ l ∈ a.reads, m₁ l = m' l := by
    intro l hl
    refine (hserial.frame fun u hu hw => ?_).symm
    exact hc u hu (Or.inl ⟨l, hl, hw⟩)
  have hD : ∀ u ∈ ts, ∀ l ∈ a.writes, l ∉ (loc u).reads ∧ l ∉ (loc u).writes := by
    intro u hu l hl
    constructor
    · exact fun hr => hc u hu (Or.inr ⟨l, hl, Or.inl hr⟩)
    · exact fun hw => hc u hu (Or.inr ⟨l, hl, Or.inr hw⟩)
  obtain ⟨n, hn, hout, hin⟩ := hserial.replay hD (fun l hl => Access.effect_frame (m := m₁) hl)
  have heffect : n = a.effect m' := by
    funext l
    by_cases hl : l ∈ a.writes
    · rw [hin l hl, Access.effect_congr hreads hl]
    · rw [hout l hl, Access.effect_frame hl]
  have hafter : (loc t).after a m₁ = (loc t).after a m' := by
    rw [Recorded.after, Recorded.after, Access.next_congr hreads]
  subst heffect
  refine .cons ?_ (hn.congr ?_)
  · rw [Function.update_self, ← hafter]
    exact hrun.step ha
  · intro u hu
    refine Function.update_of_ne ?_ ..
    rintro rfl
    exact ht hu

/-- An access that conflicts with nothing the threads behind have done leaves the threads
serial. -/
theorem Serial.step {t : ι} (hnodup : order.Nodup) (ht : t ∈ order)
    (h : Serial access begin loc m order m') (ha : access (loc t).pc = some a)
    (hc : ∀ u, [t, u].Sublist order → ¬ Recorded.Conflicts a (loc u)) :
    Serial access begin (Function.update loc t ((loc t).after a m')) m order (a.effect m') := by
  induction order generalizing m with
  | nil => cases ht
  | cons u us ih =>
    rw [List.nodup_cons] at hnodup
    by_cases hut : u = t
    · subst hut
      refine h.step_head hnodup.1 ha ?_
      intro v hv
      exact hc v ((List.singleton_sublist.mpr hv).cons_cons u)
    · obtain ⟨m₁, hrun, hserial⟩ := serial_cons.mp h
      have ht' : t ∈ us := List.mem_of_ne_of_mem (Ne.symm hut) ht
      refine .cons ?_ (ih hnodup.2 ht' hserial fun v hv => hc v (hv.cons u))
      rw [Function.update_of_ne hut]
      exact hrun

/-! ### Interleaved threads -/

/-- The threads, interleaved. -/
def recorded (ι : Type) [DecidableEq ι] (access : X → Option (Access V X)) :
    Machine (Config ι (∀ l, V l) (Recorded L X)) (ι × Unit) :=
  interleave fun _ _ => recordedStep access

/-- The access that the thread makes next conflicts with nothing that a thread behind it in
the order has done. -/
def Respects (access : X → Option (Access V X)) (order : List ι)
    (c : Config ι (∀ l, V l) (Recorded L X)) (e : ι × Unit) : Prop :=
  ∀ a ∈ access (c.loc e.1).pc, ∀ u ∈ order, [e.1, u].Sublist order →
    ¬ Recorded.Conflicts a (c.loc u)

instance (c : Config ι (∀ l, V l) (Recorded L X)) (e : ι × Unit) :
    Decidable (Respects access order c e) :=
  inferInstanceAs (Decidable (∀ a ∈ access (c.loc e.1).pc, ∀ u ∈ order,
    [e.1, u].Sublist order → ¬ Recorded.Conflicts a (c.loc u)))

/-- **Conflict serializability.** Where every access respects the order, the threads have
run one after the other. -/
theorem serial_of_reachBy {c : Config ι (∀ l, V l) (Recorded L X)} (hnodup : order.Nodup)
    (hall : ∀ t, t ∈ order)
    (h : (recorded ι access).ReachBy (Respects access order)
      ⟨m, fun t => Recorded.start (begin t)⟩ c) :
    Serial access begin c.loc m order c.shared := by
  refine h.interleave_invariant (I := fun c => Serial access begin c.loc m order c.shared)
    (.start order) ?_
  intro c t e m' r' hI hc hs
  obtain ⟨a, ha, rfl, rfl⟩ := recordedStep_eq_some.mp hs
  refine hI.step hnodup (hall t) ha ?_
  intro u hu
  exact hc a ha u (hall u) hu

end Serial

end OsLabs.Concurrent
