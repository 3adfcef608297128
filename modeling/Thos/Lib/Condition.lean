import Mathlib.Tactic

/-!
# Condition queues

Threads that sleep until a condition on some shared state has changed. A sleeper looks at its
condition and enqueues under the lock of the queue. Whoever changes the state takes all sleepers
off the queue afterwards, under the lock, and unblocks them one after the other.

`Watched` says that no sleeper is forgotten. It is kept by the operations of the queue whatever
the conditions are, and a change of the state keeps it if it leaves them true or its author has
still to empty the queue (`Watched.mono`). `Placed` says that a sleeper that was not unblocked yet
stands in one place only, so that it is unblocked once.
-/

set_option autoImplicit false

namespace Thos.Lib

open Function List Option

variable {T : Type}

/-- `lock` is the thread that holds the lock for more than one step, `ready` are the threads that
were unblocked since they last enqueued, and `draining` has what a thread took off the queue and
has still to unblock. -/
structure Condition (T : Type) where
  lock : Option T
  waiting : List T
  ready : T → Bool
  draining : T → List T

namespace Condition

def new : Condition T := ⟨none, [], fun _ => false, fun _ => []⟩

variable (q : Condition T) {t u : T}

def acquire (t : T) : Option (Condition T) :=
  if q.lock = none then some { q with lock := some t } else none

def release : Condition T := { q with lock := none }

theorem lock_of_ne {lock : Option T} (hlock : lock = some t) {P : T → Prop} (u : T)
    (hu : u ≠ t) (h : lock = some u) : P u :=
  absurd (some.inj (h.symm.trans hlock)) hu

/-! ## Wakes under way -/

def Waking (t : T) : Prop := q.ready t = true ∨ ∃ u, t ∈ q.draining u

/-- A wake is under way for every sleeper, or it is on the queue and `ok`. -/
def Watched (asleep ok : T → Prop) : Prop := ∀ t, asleep t → q.Waking t ∨ t ∈ q.waiting ∧ ok t

variable {q q' : Condition T} {asleep asleep' ok ok' : T → Prop}

theorem Watched.mono (h : q.Watched asleep ok) (hslp : ∀ t, asleep' t → asleep t)
    (hok : ∀ t, asleep' t → ok t → ok' t) : q.Watched asleep' ok' := by
  intro t ht
  rcases h t (hslp t ht) with hwake | ⟨hmem, hgood⟩
  · exact .inl hwake
  · exact .inr ⟨hmem, hok t ht hgood⟩

theorem Watched.acquire (h : q.Watched asleep ok) (hq : q.acquire t = some q') :
    q'.Watched asleep ok := by
  obtain ⟨-, ⟨⟩⟩ := ite_none_right_eq_some.1 hq
  exact h

theorem Watched.release (h : q.Watched asleep ok) : q.release.Watched asleep ok := h

/-! ## Sleeping and waking -/

variable [DecidableEq T]

def enqueue (q : Condition T) (t : T) : Condition T :=
  { q with
    lock := none
    waiting := q.waiting ++ [t]
    ready := update q.ready t false }

/-- Take all sleepers off the queue, under the lock. -/
def drain (q : Condition T) (t : T) : Option (Condition T) :=
  if q.lock = none then
    some { q with waiting := [], draining := update q.draining t q.waiting }
  else none

/-- Unblock the next one of the sleepers that were taken off. -/
def unblock (q : Condition T) (t : T) : Condition T :=
  match q.draining t with
  | [] => q
  | u :: us =>
    { q with
      ready := update q.ready u true
      draining := update q.draining t us }

theorem lock_unblock (q : Condition T) (t : T) : (q.unblock t).lock = q.lock := by
  rw [unblock]
  split <;> rfl

theorem draining_unblock (q : Condition T) (hu : u ≠ t) :
    (q.unblock t).draining u = q.draining u := by
  rw [unblock]
  split
  · rfl
  · exact update_of_ne hu ..

theorem exists_mem_update {d : T → List T} {l : List T} :
    (∃ v, u ∈ update d t l v) ↔ u ∈ l ∨ ∃ v, v ≠ t ∧ u ∈ d v := by
  constructor
  · rintro ⟨v, hv⟩
    by_cases hvt : v = t
    · subst hvt
      exact .inl (by simpa using hv)
    · exact .inr ⟨v, hvt, by simpa [update_of_ne hvt] using hv⟩
  · rintro (hu | ⟨v, hvt, hv⟩)
    · exact ⟨t, by simpa using hu⟩
    · exact ⟨v, by simpa [update_of_ne hvt] using hv⟩

theorem exists_mem_draining {l : List T} (hl : q.draining t = l) :
    (∃ v, u ∈ q.draining v) ↔ u ∈ l ∨ ∃ v, v ≠ t ∧ u ∈ q.draining v := by
  rw [← exists_mem_update, ← hl, update_eq_self]

theorem Watched.fallAsleep (h : q.Watched asleep ok) (ht : ok' t)
    (hslp : ∀ u ≠ t, asleep' u → asleep u) (hok : ∀ u ≠ t, ok u → ok' u) :
    (q.enqueue t).Watched asleep' ok' := by
  intro u hu
  by_cases hut : u = t
  · subst hut
    exact .inr ⟨mem_append_right _ (mem_singleton_self u), ht⟩
  · rcases h u (hslp u hut hu) with (hready | hdrain) | ⟨hmem, hgood⟩
    · exact .inl (.inl ((update_of_ne hut ..).trans hready))
    · exact .inl (.inr hdrain)
    · exact .inr ⟨mem_append_left _ hmem, hok u hut hgood⟩

theorem Watched.drain (h : q.Watched asleep ok) (hq : q.drain t = some q')
    (hdone : q.draining t = []) : q'.Watched asleep ok' := by
  obtain ⟨-, ⟨⟩⟩ := ite_none_right_eq_some.1 hq
  intro u hu
  rw [Waking, exists_mem_update]
  rcases h u hu with (hready | hdrain) | ⟨hmem, -⟩
  · exact .inl (.inl hready)
  · rw [exists_mem_draining hdone, or_iff_right not_mem_nil] at hdrain
    exact .inl (.inr (.inr hdrain))
  · exact .inl (.inr (.inl hmem))

theorem Watched.unblock (h : q.Watched asleep ok) (t : T) : (q.unblock t).Watched asleep ok := by
  intro u hu
  rw [Condition.unblock]
  cases hd : q.draining t with
  | nil => exact h u hu
  | cons v us =>
    rw [Waking, exists_mem_update]
    rcases h u hu with (hready | hdrain) | hwaits
    · refine .inl (.inl ?_)
      by_cases huv : u = v <;> simp [huv, hready]
    · rw [exists_mem_draining hd, mem_cons] at hdrain
      rcases hdrain with (rfl | hus) | hrest
      · exact .inl (.inl (by simp))
      · exact .inl (.inr (.inl hus))
      · exact .inl (.inr (.inr hrest))
    · exact .inr hwaits

/-! ## Who was being woken before -/

theorem Waking.of_enqueue (h : (q.enqueue t).Waking u) (hu : u ≠ t) : q.Waking u :=
  h.imp_left (update_of_ne hu ..).symm.trans

theorem Waking.of_drain (h : q'.Waking u) (hq : q.drain t = some q') :
    q.Waking u ∨ u ∈ q.waiting := by
  obtain ⟨-, ⟨⟩⟩ := ite_none_right_eq_some.1 hq
  rw [Waking, exists_mem_update] at h
  rcases h with hready | hmem | ⟨v, -, hv⟩
  · exact .inl (.inl hready)
  · exact .inr hmem
  · exact .inl (.inr ⟨v, hv⟩)

theorem Waking.of_unblock (h : (q.unblock t).Waking u) : q.Waking u := by
  rw [Condition.unblock] at h
  split at h
  · exact h
  · next v us hd =>
    rw [Waking, exists_mem_update] at h
    rw [Waking, exists_mem_draining hd]
    rcases h with hready | hdrain
    · by_cases huv : u = v
      · exact .inr (.inl (by simp [huv]))
      · exact .inl (by simpa [update_of_ne huv] using hready)
    · exact .inr (hdrain.imp_left (mem_cons_of_mem v))

/-! ## Places -/

/-- On the queue, or taken off it and still to be unblocked. -/
def Queued (q : Condition T) (t : T) : Prop := t ∈ q.waiting ∨ ∃ u, t ∈ q.draining u

/-- Who is queued sleeps, was not unblocked since, and is queued in one place. -/
structure Placed (q : Condition T) (asleep : T → Prop) : Prop where
  asleep : ∀ t, q.Queued t → asleep t
  unready : ∀ t, q.Queued t → q.ready t = false
  nodup : q.waiting.Nodup
  nodupDraining : ∀ u, (q.draining u).Nodup
  apart : ∀ t u, t ∈ q.draining u → t ∉ q.waiting
  once : ∀ t u v, t ∈ q.draining u → t ∈ q.draining v → u = v

omit [DecidableEq T] in
theorem placed_new : (new : Condition T).Placed asleep := by
  have hqueued : ∀ t, ¬ (new : Condition T).Queued t := by
    rintro t (h | ⟨u, h⟩)
    · exact not_mem_nil h
    · exact not_mem_nil h
  refine ⟨fun t h => absurd h (hqueued t), fun t h => absurd h (hqueued t), nodup_nil,
    fun _ => nodup_nil, ?_, ?_⟩
  · exact fun t u h => absurd h not_mem_nil
  · exact fun t u v h => absurd h not_mem_nil

section

variable (h : q.Placed asleep)
include h

omit [DecidableEq T] in
theorem Placed.mono (hslp : ∀ t, q.Queued t → asleep t → asleep' t) : q.Placed asleep' :=
  { h with asleep := fun t ht => hslp t ht (h.asleep t ht) }

omit [DecidableEq T] in
theorem Placed.acquire (hq : q.acquire t = some q') : q'.Placed asleep := by
  obtain ⟨-, ⟨⟩⟩ := ite_none_right_eq_some.1 hq
  exact { h with }

omit [DecidableEq T] in
theorem Placed.release : q.release.Placed asleep := { h with }

theorem Placed.enqueue (ht : ¬ asleep t) : (q.enqueue t).Placed fun u => u = t ∨ asleep u := by
  have hqueued : ¬ q.Queued t := fun hqueued => ht (h.asleep t hqueued)
  have hold : ∀ u, (q.enqueue t).Queued u → u = t ∨ q.Queued u := by
    rintro u (hu | hu)
    · rcases mem_append.1 hu with hu | hu
      · exact .inr (.inl hu)
      · exact .inl (mem_singleton.1 hu)
    · exact .inr (.inr hu)
  refine ⟨?_, ?_, ?_, h.nodupDraining, ?_, h.once⟩
  · exact fun u hu => (hold u hu).imp_right (h.asleep u)
  · intro u hu
    by_cases hut : u = t
    · exact hut ▸ update_self ..
    · exact (update_of_ne hut ..).trans (h.unready u ((hold u hu).resolve_left hut))
  · exact nodup_append_comm.2 (nodup_cons.2 ⟨fun hu => hqueued (.inl hu), h.nodup⟩)
  · intro u v hu hmem
    rcases mem_append.1 hmem with hmem | hmem
    · exact h.apart u v hu hmem
    · exact hqueued (.inr ⟨v, mem_singleton.1 hmem ▸ hu⟩)

end

theorem queued_drain (hq : q.drain t = some q') (hdone : q.draining t = []) :
    q'.Queued u ↔ q.Queued u := by
  obtain ⟨-, ⟨⟩⟩ := ite_none_right_eq_some.1 hq
  rw [Queued, Queued, exists_mem_update, exists_mem_draining hdone]
  simp

theorem Placed.drain (h : q.Placed asleep) (hq : q.drain t = some q')
    (hdone : q.draining t = []) : q'.Placed asleep := by
  have hqueued := fun u => queued_drain (u := u) hq hdone
  obtain ⟨-, ⟨⟩⟩ := ite_none_right_eq_some.1 hq
  have hdrain : ∀ u v, u ∈ update q.draining t q.waiting v →
      v = t ∧ u ∈ q.waiting ∨ v ≠ t ∧ u ∈ q.draining v := by
    intro u v hu
    by_cases hvt : v = t
    · subst hvt
      exact .inl ⟨rfl, by simpa using hu⟩
    · exact .inr ⟨hvt, by simpa [update_of_ne hvt] using hu⟩
  refine ⟨fun u hu => h.asleep u ((hqueued u).1 hu), fun u hu => h.unready u ((hqueued u).1 hu),
    nodup_nil, ?_, fun _ _ _ => not_mem_nil, ?_⟩
  · intro v
    by_cases hvt : v = t
    · subst hvt
      simpa using h.nodup
    · simpa [update_of_ne hvt] using h.nodupDraining v
  · intro u v w hv hw
    rcases hdrain u v hv with ⟨hvt, hv'⟩ | ⟨-, hv'⟩ <;>
      rcases hdrain u w hw with ⟨hwt, hw'⟩ | ⟨-, hw'⟩
    · exact hvt.trans hwt.symm
    · exact absurd hv' (h.apart u w hw')
    · exact absurd hw' (h.apart u v hv')
    · exact h.once u v w hv' hw'

theorem Placed.queued_unblock (h : q.Placed asleep) {us : List T}
    (hd : q.draining t = u :: us) {v : T} : (q.unblock t).Queued v ↔ v ≠ u ∧ q.Queued v := by
  have hu : u ∈ q.draining t := by simp [hd]
  have hnodup := nodup_cons.1 (hd ▸ h.nodupDraining t)
  rw [Condition.unblock, hd, Queued, Queued, exists_mem_update, exists_mem_draining hd]
  constructor
  · intro hv
    refine ⟨?_, hv.imp_right (Or.imp_left (mem_cons_of_mem u))⟩
    rintro rfl
    rcases hv with hv | hv | ⟨w, hwt, hv⟩
    · exact h.apart v t hu hv
    · exact hnodup.1 hv
    · exact hwt (h.once v w t hv hu)
  · rintro ⟨hvu, hv⟩
    exact hv.imp_right (Or.imp_left fun hv => (mem_cons.1 hv).resolve_left hvu)

theorem Placed.unblock (h : q.Placed asleep) (t : T) : (q.unblock t).Placed asleep := by
  cases hd : q.draining t with
  | nil =>
    rw [Condition.unblock, hd]
    exact h
  | cons u us =>
    have hqueued : ∀ v, (q.unblock t).Queued v → v ≠ u ∧ q.Queued v :=
      fun v => (h.queued_unblock hd).1
    have hdrain : ∀ v w, v ∈ (q.unblock t).draining w → v ∈ q.draining w := by
      intro v w hv
      rw [Condition.unblock, hd] at hv
      by_cases hwt : w = t
      · subst hwt
        have hv : v ∈ us := by simpa using hv
        simp [hd, hv]
      · simpa [update_of_ne hwt] using hv
    have hwaiting : (q.unblock t).waiting = q.waiting := by rw [Condition.unblock, hd]
    refine ⟨fun v hv => h.asleep v (hqueued v hv).2, ?_, hwaiting ▸ h.nodup, ?_, ?_, ?_⟩
    · intro v hv
      obtain ⟨hvu, hv⟩ := hqueued v hv
      rw [Condition.unblock, hd]
      exact (update_of_ne hvu ..).trans (h.unready v hv)
    · intro w
      rw [Condition.unblock, hd]
      by_cases hwt : w = t
      · subst hwt
        simpa using (nodup_cons.1 (hd ▸ h.nodupDraining w)).2
      · simpa [update_of_ne hwt] using h.nodupDraining w
    · exact fun v w hv => hwaiting ▸ h.apart v w (hdrain v w hv)
    · exact fun v w x hw hx => h.once v w x (hdrain v w hw) (hdrain v x hx)

end Condition

end Thos.Lib
