import Thos.Lib.LockOrder
import Thos.Lib.Run

/-!
# The locks of the wait queues

Any number of threads in `wait_any_until`, `wait_if`, `wake_one`, `wake_one_or`, `wake_all` and
`remove` of `wait.rs`, on any number of queues, down to each lock. A thread that finds a lock taken
spins, that is, it has no step until the lock is free. The scheduler's lock is above all queues
(`⊤`); it is taken in `sched::current`, in `sched::unblock` and twice in `sched::block_current`, to
switch away and, once the thread runs again, in `finish_switch`. Of the scheduler's state only what
these calls look at is here: whether a wake is pending and whether the thread is blocked.

`wait_if` is the wait on a list of one queue, but for one thing: it does not take the thread off
the queue when it comes back.

The deadline of a wait is an `unblock` from the timer. `wakes` and `seen` are not in the source:
the number of wakes of each queue, and that number and the queue at the thread's last check.
-/

set_option autoImplicit false

namespace Thos.Wait.Locks

open Thos.Lib List
open Function (update update_of_ne update_self)

/-! ## State -/

/-- The queues of a wait, as given by the caller, and whether the thread takes itself off them
afterwards. -/
structure Request (Q : Type) where
  queues : List Q
  removes : Bool
  deriving DecidableEq

open Request

inductive Kind
  | one
  | oneOr
  | all
  deriving DecidableEq

/-- The step that a thread takes next. -/
inductive Pc (T Q : Type)
  | outside
  /-- Taking the locks of the queues. -/
  | locking (w : Request Q) (taken todo : List Q)
  /-- About to call `should_block`, with all queues locked. -/
  | checking (w : Request Q)
  /-- In `sched::current`, before and with the lock. -/
  | current (w : Request Q)
  | currentLocked (w : Request Q)
  /-- About to call `mark_blocking`. -/
  | mark (w : Request Q)
  | pushing (w : Request Q) (done todo : List Q)
  /-- Dropping the locks of the queues, to block or to return. -/
  | dropping (w : Request Q) (todo : List Q) (blocks : Bool)
  /-- In `block_current`, before and with the lock. -/
  | block (w : Request Q)
  | blockLocked (w : Request Q)
  | parked (w : Request Q)
  /-- In `finish_switch`, before and with the lock. -/
  | resume (w : Request Q)
  | resumeLocked (w : Request Q)
  /-- Back from `block_current`. -/
  | awake (w : Request Q)
  /-- Taking thread `u` off queues, before and with the lock of the first. -/
  | remove (u : T) (todo : List Q)
  | removeLocked (u : T) (q : Q) (todo : List Q)
  /-- In a wake of a queue, before and with its lock. -/
  | wake (k : Kind) (q : Q)
  | wakeLocked (k : Kind) (q : Q)
  /-- Unblocking threads, perhaps with the lock of a queue. -/
  | unblock (kept : Option Q) (us : List T)
  /-- In `unblock` of `u`, before and with the lock. -/
  | unblockStored (kept : Option Q) (u : T) (us : List T)
  | unblockLocked (kept : Option Q) (u : T) (us : List T)
  deriving DecidableEq

structure State (T Q : Type) where
  holder : WithTop Q → Option T
  queue : Q → List T
  (wakePending blocked : T → Bool)
  pc : T → Pc T Q
  wakes : Q → Nat
  seen : T → Q → Nat × List T

variable {T Q : Type}

def new : State T Q where
  holder _ := none
  queue _ := []
  wakePending _ := false
  blocked _ := false
  pc _ := .outside
  wakes _ := 0
  seen _ _ := (0, [])

/-! ## Steps -/

section Steps

variable [DecidableEq T] [LinearOrder Q]

/-- `sort_by_key` and `dedup_by_key` with the address. -/
def Request.order (w : Request Q) : List Q := dropRepeats (w.queues.insertionSort (· ≤ ·))

namespace State

variable (s : State T Q)

def goto (t : T) (p : Pc T Q) : State T Q := { s with pc := update s.pc t p }

/-- Take a lock that is free. -/
def take (l : WithTop Q) (t : T) : Option (State T Q) :=
  if s.holder l = none then some { s with holder := update s.holder l (some t) } else none

def drop (l : WithTop Q) : State T Q := { s with holder := update s.holder l none }

def setQueue (q : Q) (us : List T) : State T Q := { s with queue := update s.queue q us }

def countWake (q : Q) : State T Q := { s with wakes := update s.wakes q (s.wakes q + 1) }

/-- A wake with the lock of the queue. -/
def doWake (t : T) (k : Kind) (q : Q) : State T Q :=
  match k, s.queue q with
  -- the lock is the scrutinee of a `match` and lives to its end
  | .one, [] => ((s.countWake q).drop q).goto t .outside
  | .one, u :: us => ((s.countWake q).setQueue q us).goto t (.unblock (some q) [u])
  -- the closure of `wake_one_or` takes no lock of a queue
  | .oneOr, [] => ((s.countWake q).drop q).goto t .outside
  | .oneOr, u :: us => (((s.countWake q).setQueue q us).drop q).goto t (.unblock none [u])
  | .all, us => (((s.countWake q).setQueue q []).drop q).goto t (.unblock none us)

/-- The next step of the thread; `b` is what `should_block` returns. -/
def advance (t : T) (b : Bool) : Option (State T Q) :=
  match s.pc t with
  | .outside => none
  | .locking w _ [] => some (s.goto t (.checking w))
  | .locking w taken (q :: todo) => (s.take q t).map (·.goto t (.locking w (taken ++ [q]) todo))
  | .checking w =>
    if b then
      some ({ s with seen := update s.seen t fun q => (s.wakes q, s.queue q) }.goto t (.current w))
    else some (s.goto t (.dropping w w.order false))
  | .current w => (s.take ⊤ t).map (·.goto t (.currentLocked w))
  | .currentLocked w => some ((s.drop ⊤).goto t (.mark w))
  | .mark w =>
    some ({ s with wakePending := update s.wakePending t false }.goto t (.pushing w [] w.order))
  | .pushing w _ [] => some (s.goto t (.dropping w w.order true))
  | .pushing w done (q :: todo) =>
    some ((s.setQueue q (s.queue q ++ [t])).goto t (.pushing w (done ++ [q]) todo))
  | .dropping w (q :: todo) blocks => some ((s.drop q).goto t (.dropping w todo blocks))
  | .dropping w [] true => some (s.goto t (.block w))
  | .dropping _ [] false => some (s.goto t .outside)
  | .block w => (s.take ⊤ t).map (·.goto t (.blockLocked w))
  | .blockLocked w =>
    if s.wakePending t then some ((s.drop ⊤).goto t (.awake w))
    else
      some ({ s.drop ⊤ with blocked := update s.blocked t true }.goto t (.parked w))
  | .parked w => if s.blocked t then none else some (s.goto t (.resume w))
  | .resume w => (s.take ⊤ t).map (·.goto t (.resumeLocked w))
  | .resumeLocked w => some ((s.drop ⊤).goto t (.awake w))
  | .awake w => some (s.goto t (if w.removes then .remove t w.queues else .outside))
  | .remove _ [] => some (s.goto t .outside)
  | .remove u (q :: todo) => (s.take q t).map (·.goto t (.removeLocked u q todo))
  | .removeLocked u q todo =>
    some (((s.setQueue q ((s.queue q).filter (· ≠ u))).drop q).goto t (.remove u todo))
  | .wake k q => (s.take q t).map (·.goto t (.wakeLocked k q))
  | .wakeLocked k q => some (s.doWake t k q)
  | .unblock none [] => some (s.goto t .outside)
  | .unblock (some q) [] => some ((s.drop q).goto t .outside)
  | .unblock kept (u :: us) =>
    some ({ s with wakePending := update s.wakePending u true }.goto t (.unblockStored kept u us))
  | .unblockStored kept u us => (s.take ⊤ t).map (·.goto t (.unblockLocked kept u us))
  | .unblockLocked kept u us =>
    some ({ s.drop ⊤ with blocked := update s.blocked u false }.goto t (.unblock kept us))

end State

/-- What can happen. -/
inductive Act (T Q : Type)
  | waitAny (t : T) (queues : List Q)
  | waitIf (t : T) (q : Q)
  | wake (t : T) (k : Kind) (q : Q)
  /-- `remove` of thread `u`. -/
  | remove (t u : T) (q : Q)
  /-- A deadline passes, and the timer unblocks `u`. -/
  | expire (t u : T)
  /-- A thread that is in a call takes its next step. -/
  | next (t : T) (b : Bool)

def begin (s : State T Q) (t : T) (p : Pc T Q) : Option (State T Q) :=
  if s.pc t = .outside then some (s.goto t p) else none

def step (s : State T Q) : Act T Q → Option (State T Q)
  | .waitAny t queues => begin s t (.locking ⟨queues, true⟩ [] (order ⟨queues, true⟩))
  | .waitIf t q => begin s t (.locking ⟨[q], false⟩ [] (order ⟨[q], false⟩))
  | .wake t k q => begin s t (.wake k q)
  | .remove t u q => begin s t (.remove u [q])
  | .expire t u => begin s t (.unblock none [u])
  | .next t b => s.advance t b

end Steps

/-- A thread that comes back from `wait_if` is not on the queue any more. -/
def Act.OffQueue (s : State T Q) : Act T Q → Prop
  | .next t _ => ∀ w, s.pc t = .awake w → w.removes = false → ∀ q ∈ w.queues, t ∉ s.queue q
  | _ => True

instance [DecidableEq T] (s : State T Q) : ∀ a : Act T Q, Decidable (a.OffQueue s)
  | .next t _ =>
    match hp : s.pc t with
    | .awake w =>
      decidable_of_iff (w.removes = false → ∀ q ∈ w.queues, t ∉ s.queue q)
        (by simp [Act.OffQueue, hp])
    | .outside | .locking _ _ _ | .checking _ | .current _ | .currentLocked _ | .mark
        _ | .pushing _ _ _
    | .dropping _ _ _ | .block _ | .blockLocked _ | .parked _ | .resume _ | .resumeLocked
        _ | .remove _ _
    | .removeLocked _ _ _ | .wake _ _ | .wakeLocked _ _ | .unblock _ _ | .unblockStored _ _ _
    | .unblockLocked _ _ _ => isTrue fun w hw => by simp [hp] at hw
  | .waitAny _ _ | .waitIf _ _ | .wake _ _ _ | .remove _ _ _ | .expire _ _ =>
    inferInstanceAs (Decidable True)

/-! ## Who holds what -/

section Locks

variable [LinearOrder Q]

namespace Pc

def holds : Pc T Q → List (WithTop Q)
  | .locking _ taken _ => taken.map (↑)
  | .checking w | .current w | .mark w | .pushing w _ _ => w.order.map (↑)
  | .currentLocked w => ⊤ :: w.order.map (↑)
  | .dropping _ todo _ => todo.map (↑)
  | .blockLocked _ | .resumeLocked _ => [⊤]
  | .removeLocked _ q _ | .wakeLocked _ q => [↑q]
  | .unblock kept _ | .unblockStored kept _ _ => kept.toList.map (↑)
  | .unblockLocked kept _ _ => ⊤ :: kept.toList.map (↑)
  | _ => []

/-- The lock that the thread is about to take. -/
def wants : Pc T Q → Option (WithTop Q)
  | .locking _ _ (q :: _) | .remove _ (q :: _) | .wake _ q => some q
  | .current _ | .block _ | .resume _ | .unblockStored _ _ _ => some ⊤
  | _ => none

def Wf : Pc T Q → Prop
  | .locking w taken todo => taken ++ todo = w.order
  | .pushing w done todo => done ++ todo = w.order
  | .dropping w todo _ => todo <:+ w.order
  | _ => True

/-- The queues that a thread which is going to block has pushed itself on since its check, and
those it still holds. -/
def checked : Pc T Q → Option (List Q × List Q)
  | .current w | .currentLocked w | .mark w => some ([], w.order)
  | .pushing w done _ => some (done, w.order)
  | .dropping w todo true => some (w.order, todo)
  | _ => none

/-- The queues that a thread at `p` may be on. -/
def mayBeOn (t : T) (q : Q) : Pc T Q → Prop
  | .pushing _ done _ => q ∈ done
  | .dropping w _ true => q ∈ w.order
  | .block w | .blockLocked w | .parked w | .resume w | .resumeLocked w | .awake w => q ∈ w.order
  | .remove u todo => u = t ∧ q ∈ todo
  | .removeLocked u q' todo => u = t ∧ q ∈ q' :: todo
  | _ => False

end Pc

theorem Request.mem_order {w : Request Q} {q : Q} : q ∈ w.order ↔ q ∈ w.queues := by
  rw [order, mem_dropRepeats, mem_insertionSort]

theorem Request.pairwise_order (w : Request Q) : w.order.Pairwise (· < ·) :=
  pairwise_dropRepeats (pairwise_insertionSort ..)

theorem Pc.Wf.lt_wants {p : Pc T Q} (h : p.Wf) {l l' : WithTop Q} (hwants : p.wants = some l)
    (hholds : l' ∈ p.holds) : l' < l := by
  have htop : ∀ qs : List Q, l' ∈ qs.map (↑) → l' < (⊤ : WithTop Q) := by
    intro qs hmem
    obtain ⟨q, -, rfl⟩ := mem_map.1 hmem
    exact WithTop.coe_lt_top q
  cases p with
  | locking w taken todo =>
    cases todo with
    | nil => cases hwants
    | cons q todo =>
      cases hwants
      obtain ⟨q', hq', rfl⟩ := mem_map.1 hholds
      have hpair := w.pairwise_order
      rw [← show taken ++ q :: todo = w.order from h, pairwise_append] at hpair
      exact WithTop.coe_lt_coe.2 (hpair.2.2 q' hq' q mem_cons_self)
  | current w | unblockStored kept u us =>
    cases hwants
    exact htop _ hholds
  | remove u todo => cases todo <;> cases hholds
  | block w => cases hholds
  | resume w => cases hholds
  | wake k q => cases hholds
  | outside | checking | currentLocked | mark | pushing | dropping | blockLocked | parked
      | resumeLocked
  | awake | removeLocked | wakeLocked | unblock | unblockLocked => cases hwants

/-! ## The invariant -/

namespace State

/-- The queues that the thread holds are as they were at its check, but for its own entries. -/
def Unchanged (s : State T Q) (t : T) (p : Pc T Q) : Prop :=
  ∀ x ∈ p.checked, ∀ q ∈ x.2, s.wakes q = (s.seen t q).1 ∧
    s.queue q = (s.seen t q).2 ++ if q ∈ x.1 then [t] else []

structure Inv (s : State T Q) : Prop where
  holder : ∀ l t, s.holder l = some t ↔ l ∈ (s.pc t).holds
  wf : ∀ t, (s.pc t).Wf
  unchanged : ∀ t, s.Unchanged t (s.pc t)

/-- A step of `t` changes only queues that it holds. -/
structure Local (s s' : State T Q) (t : T) : Prop where
  pc : ∀ u ≠ t, s'.pc u = s.pc u
  seen : ∀ u ≠ t, s'.seen u = s.seen u
  queue : ∀ q : Q, (q : WithTop Q) ∉ (s.pc t).holds → s'.queue q = s.queue q ∧
    s'.wakes q = s.wakes q

variable {q : Q}

theorem mem_holds_of_checked {p : Pc T Q} {x : List Q × List Q} (hx : x ∈ p.checked) (hq : q ∈ x.2)
    : (q : WithTop Q) ∈ p.holds := by
  cases p with
  | current w | mark w | pushing w =>
    cases hx
    exact mem_map_of_mem hq
  | currentLocked w =>
    cases hx
    exact mem_cons_of_mem _ (mem_map_of_mem hq)
  | dropping w todo blocks =>
    cases blocks <;> cases hx
    exact mem_map_of_mem hq
  | outside | locking | checking | block | blockLocked | parked | resume | resumeLocked
      | awake | remove
  | removeLocked | wake | wakeLocked | unblock | unblockStored | unblockLocked => cases hx

variable {s s' : State T Q} {t : T} {p p' : Pc T Q}

theorem Inv.of_local (h : Inv s) (hlocal : Local s s' t) (hp : s'.pc t = p)
    (hholder : ∀ l u, s'.holder l = some u ↔ l ∈ (s'.pc u).holds) (hwf : p.Wf)
    (hunchanged : s'.Unchanged t p) : Inv s' := by
  subst hp
  refine ⟨hholder, fun u => ?_, fun u => ?_⟩
  · by_cases hut : u = t
    · exact hut ▸ hwf
    · exact hlocal.pc u hut ▸ h.wf u
  · by_cases hut : u = t
    · exact hut ▸ hunchanged
    · rw [hlocal.pc u hut]
      intro x hx q hq
      -- the lock of the queue is with `u`, so `t` does not hold it
      have hu := (h.holder q u).2 (mem_holds_of_checked hx hq)
      have hfree : (q : WithTop Q) ∉ (s.pc t).holds := by
        intro hmem
        have ht := (h.holder q t).2 hmem
        rw [hu] at ht
        exact hut (Option.some.inj ht)
      obtain ⟨hqueue, hwakes⟩ := hlocal.queue q hfree
      rw [hqueue, hwakes, hlocal.seen u hut]
      exact h.unchanged u x hx q hq

theorem Inv.keep (h : Inv s) (hlocal : Local s s' t) (hp' : s.pc t = p') (hp : s'.pc t = p)
    (hholder : s'.holder = s.holder) (hholds : ∀ l, l ∈ p.holds ↔ l ∈ p'.holds) (hwf : p.Wf)
    (hunchanged : s'.Unchanged t p) : Inv s' := by
  refine h.of_local hlocal hp (fun l u => ?_) hwf hunchanged
  rw [hholder, h.holder l u]
  by_cases hut : u = t
  · rw [hut, hp, hp', hholds]
  · rw [hlocal.pc u hut]

variable {l : WithTop Q}

theorem Inv.relock {o : Option T} (h : Inv s) (hlocal : Local s s' t) (hp' : s.pc t = p')
    (hp : s'.pc t = p) (hfree : ∀ u ≠ t, s.holder l ≠ some u) (ho : ∀ u ≠ t, o ≠ some u)
    (hholder : s'.holder = update s.holder l o)
    (hholds : ∀ l', l' ∈ p.holds ↔ if l' = l then o = some t else l' ∈ p'.holds) (hwf : p.Wf)
    (hunchanged : s'.Unchanged t p) : Inv s' := by
  refine h.of_local hlocal hp (fun l' u => ?_) hwf hunchanged
  rw [hholder]
  by_cases hut : u = t <;> by_cases hl : l' = l
  · simp [hut, hp, hholds, hl]
  · simp [hut, hp, hholds, hl, h.holder, hp']
  · subst hl
    rw [hlocal.pc u hut, update_self, ← h.holder]
    exact iff_of_false (ho u hut) (hfree u hut)
  · rw [hlocal.pc u hut, update_of_ne hl, h.holder]

theorem Inv.acquire (h : Inv s) (hlocal : Local s s' t) (hp' : s.pc t = p') (hp : s'.pc t = p)
    (hnone : s.holder l = none) (hholder : s'.holder = update s.holder l (some t))
    (hholds : ∀ l', l' ∈ p.holds ↔ l' = l ∨ l' ∈ p'.holds) (hwf : p.Wf)
    (hunchanged : s'.Unchanged t p) : Inv s' := by
  refine h.relock hlocal hp' hp (by simp [hnone]) (fun u hu => by simpa using hu.symm) hholder
    (fun l' => ?_) hwf hunchanged
  by_cases hl : l' = l <;> simp [hholds, hl]

theorem Inv.release (h : Inv s) (hlocal : Local s s' t) (hp' : s.pc t = p') (hp : s'.pc t = p)
    (hmem : l ∈ p'.holds) (hholder : s'.holder = update s.holder l none)
    (hholds : ∀ l', l' ∈ p.holds ↔ l' ≠ l ∧ l' ∈ p'.holds) (hwf : p.Wf)
    (hunchanged : s'.Unchanged t p) : Inv s' := by
  have hheld : s.holder l = some t := (h.holder l t).2 (hp' ▸ hmem)
  refine h.relock hlocal hp' hp (fun u hu => by simpa [hheld] using hu.symm) (by simp)
    hholder (fun l' => ?_) hwf hunchanged
  by_cases hl : l' = l <;> simp [hholds, hl]

theorem Local.of_same (hpc : ∀ u ≠ t, s'.pc u = s.pc u) (hseen : s'.seen = s.seen)
    (hqueue : s'.queue = s.queue) (hwakes : s'.wakes = s.wakes) : Local s s' t :=
  ⟨hpc, fun u _ => by rw [hseen], fun q _ => by rw [hqueue, hwakes]; exact ⟨rfl, rfl⟩⟩

theorem Local.of_queue (hmem : (q : WithTop Q) ∈ (s.pc t).holds) (hpc : ∀ u ≠ t, s'.pc u = s.pc u)
    (hseen : s'.seen = s.seen)
    (hqueue : ∀ q' ≠ q, s'.queue q' = s.queue q' ∧ s'.wakes q' = s.wakes q') : Local s s' t := by
  refine ⟨hpc, fun u _ => by rw [hseen], fun q' hq' => hqueue q' ?_⟩
  rintro rfl
  exact hq' hmem

theorem Unchanged.of_none (hp : p.checked = none) : s.Unchanged t p := by
  intro x hx
  cases hp ▸ hx

theorem inv_new : Inv (new : State T Q) where
  holder l t := by simp [new, Pc.holds]
  wf _ := trivial
  unchanged _ := .of_none rfl

/-- No thread is on a queue that it does not wait on, and none was when it checked. -/
structure Tidy (s : State T Q) : Prop where
  on : ∀ t q, t ∈ s.queue q → (s.pc t).mayBeOn t q
  seen : ∀ t, (s.pc t).checked ≠ none → ∀ q, t ∉ (s.seen t q).2

theorem Tidy.of_step (h : Tidy s) (hpc : ∀ u ≠ t, s'.pc u = s.pc u)
    (hseen : ∀ u ≠ t, s'.seen u = s.seen u) (hqueue : ∀ u ≠ t, ∀ q, u ∈ s'.queue q → u ∈ s.queue q)
    (hon : ∀ q, t ∈ s'.queue q → (s'.pc t).mayBeOn t q)
    (hclean : (s'.pc t).checked ≠ none → ∀ q, t ∉ (s'.seen t q).2) : Tidy s' := by
  refine ⟨fun u q hu => ?_, fun u hu => ?_⟩
  · by_cases hut : u = t
    · subst hut
      exact hon q hu
    · rw [hpc u hut]
      exact h.on u q (hqueue u hut q hu)
  · by_cases hut : u = t
    · subst hut
      exact hclean hu
    · rw [hpc u hut] at hu
      rw [hseen u hut]
      exact h.seen u hu

/-- The queues are the same, and so is what was seen of them. -/
def SameQueues (s s' : State T Q) : Prop :=
  s'.pc = s.pc ∧ s'.seen = s.seen ∧ s'.queue = s.queue ∧ s'.wakes = s.wakes

theorem sameQueues_take (hs : s.take l t = some s') : SameQueues s s' := by
  obtain ⟨-, ⟨⟩⟩ := Option.ite_none_right_eq_some.1 hs
  exact ⟨rfl, rfl, rfl, rfl⟩

theorem setQueue_subset {us : List T} (hsub : us ⊆ s.queue q) (q' : Q) :
    (s.setQueue q us).queue q' ⊆ s.queue q' := by
  by_cases hq : q' = q
  · subst hq
    simpa [setQueue] using hsub
  · simp [setQueue, update_of_ne hq]

end State

end Locks

/-! ## The steps keep it -/

namespace State

section Goto

variable [DecidableEq T] {t : T} {p : Pc T Q}

@[simp]
theorem goto_pc_self {s : State T Q} : (s.goto t p).pc t = p := update_self _ _ _

theorem goto_pc_of_ne (s : State T Q) {u : T} (hu : u ≠ t) : (s.goto t p).pc u = s.pc u :=
  update_of_ne hu ..

end Goto

variable [DecidableEq T] [LinearOrder Q] {s s₁ : State T Q} {t : T} {p p' : Pc T Q}

theorem SameQueues.local (hsame : SameQueues s s₁) : Local s (s₁.goto t p) t :=
  .of_same (fun u hu => (goto_pc_of_ne s₁ hu).trans (by rw [hsame.1])) hsame.2.1
    hsame.2.2.1 hsame.2.2.2

section

variable (h : Inv s) (hp : s.pc t = p')
  (hcheck : ∀ x ∈ p.checked, ∃ y ∈ p'.checked, y.1 = x.1 ∧ x.2 ⊆ y.2)
include h hp hcheck

theorem Inv.unchanged_goto (hsame : SameQueues s s₁) : (s₁.goto t p).Unchanged t p := by
  have hold := h.unchanged t
  obtain ⟨-, hseen, hqueue, hwakes⟩ := hsame
  intro x hx q hq
  obtain ⟨y, hy, hyx, hsub⟩ := hcheck x hx
  change s₁.wakes q = (s₁.seen t q).1 ∧ s₁.queue q = (s₁.seen t q).2 ++ if q ∈ x.1 then [t] else []
  rw [hseen, hqueue, hwakes, ← hyx]
  exact hold y (hp ▸ hy) q (hsub hq)

theorem Inv.stay (hsame : SameQueues s s₁) (hholder : s₁.holder = s.holder)
    (hholds : ∀ l, l ∈ p.holds ↔ l ∈ p'.holds) (hwf : p.Wf) : Inv (s₁.goto t p) :=
  h.keep hsame.local hp goto_pc_self hholder hholds hwf (h.unchanged_goto hp hcheck hsame)

theorem Inv.lock {l : WithTop Q} (hs : s.take l t = some s₁)
    (hholds : ∀ l', l' ∈ p.holds ↔ l' = l ∨ l' ∈ p'.holds) (hwf : p.Wf) : Inv (s₁.goto t p) := by
  obtain ⟨hnone, ⟨⟩⟩ := Option.ite_none_right_eq_some.1 hs
  have hsame : SameQueues s { s with holder := update s.holder l (some t) } := ⟨rfl, rfl, rfl, rfl⟩
  exact h.acquire hsame.local hp goto_pc_self hnone rfl hholds hwf
    (h.unchanged_goto hp hcheck hsame)

theorem Inv.unlock {l : WithTop Q} (hsame : SameQueues s s₁)
    (hholder : s₁.holder = update s.holder l none) (hmem : l ∈ p'.holds)
    (hholds : ∀ l', l' ∈ p.holds ↔ l' ≠ l ∧ l' ∈ p'.holds) (hwf : p.Wf) : Inv (s₁.goto t p) :=
  h.release hsame.local hp goto_pc_self hmem hholder hholds hwf
    (h.unchanged_goto hp hcheck hsame)

end

variable {q : Q}

theorem Inv.change (h : Inv s) (hp : p'.holds = [(q : WithTop Q)]) (ht : s.pc t = p')
    (hpc : s₁.pc = s.pc) (hseen : s₁.seen = s.seen)
    (hqueue : ∀ q' ≠ q, s₁.queue q' = s.queue q' ∧ s₁.wakes q' = s.wakes q')
    (hholder : s₁.holder = s.holder ∧ p.holds = [(q : WithTop Q)] ∨
      s₁.holder = update s.holder q none ∧ p.holds = []) (hwf : p.Wf)
    (hcheck : p.checked = none) : Inv (s₁.goto t p) := by
  have hmem : (q : WithTop Q) ∈ p'.holds := by simp [hp]
  have hlocal : Local s (s₁.goto t p) t :=
    .of_queue (ht ▸ hmem) (fun u hu => (goto_pc_of_ne s₁ hu).trans (by rw [hpc])) hseen hqueue
  rcases hholder with ⟨hholder, hholds⟩ | ⟨hholder, hholds⟩
  · exact h.keep hlocal ht goto_pc_self hholder (fun l => by rw [hholds, hp]) hwf
      (.of_none hcheck)
  · exact h.release hlocal ht goto_pc_self hmem hholder (by simp [hholds, hp]) hwf
      (.of_none hcheck)

theorem Inv.doWake (h : Inv s) {k : Kind} (ht : s.pc t = .wakeLocked k q) :
    Inv (s.doWake t k q) := by
  have hother : ∀ us, ∀ q' ≠ q, update s.queue q us q' = s.queue q' ∧
      update s.wakes q (s.wakes q + 1) q' = s.wakes q' :=
    fun us q' hq' => ⟨update_of_ne hq' .., update_of_ne hq' ..⟩
  have hsame : ∀ q' ≠ q, s.queue q' = s.queue q' ∧
      update s.wakes q (s.wakes q + 1) q' = s.wakes q' :=
    fun q' hq' => ⟨rfl, update_of_ne hq' ..⟩
  unfold State.doWake
  split
  · exact h.change rfl ht rfl rfl hsame (.inr ⟨rfl, rfl⟩) trivial rfl
  · exact h.change rfl ht rfl rfl (hother _) (.inl ⟨rfl, rfl⟩) trivial rfl
  · exact h.change rfl ht rfl rfl hsame (.inr ⟨rfl, rfl⟩) trivial rfl
  · exact h.change rfl ht rfl rfl (hother _) (.inr ⟨rfl, rfl⟩) trivial rfl
  · exact h.change rfl ht rfl rfl (hother _) (.inr ⟨rfl, rfl⟩) trivial rfl

theorem Inv.push (h : Inv s) {w : Request Q} {done todo : List Q}
    (ht : s.pc t = .pushing w done (q :: todo)) :
    Inv ((s.setQueue q (s.queue q ++ [t])).goto t (.pushing w (done ++ [q]) todo)) := by
  have hwf : done ++ q :: todo = w.order := by simpa [ht, Pc.Wf] using h.wf t
  have hmem : q ∈ w.order := by simp [← hwf]
  have hnew : q ∉ done := by
    have hpair := w.pairwise_order
    rw [← hwf, pairwise_append] at hpair
    exact fun hq => lt_irrefl q (hpair.2.2 q hq q mem_cons_self)
  refine h.keep (.of_queue (q := q) ?_ (fun u hu => goto_pc_of_ne _ hu) rfl ?_) ht goto_pc_self rfl
    (fun l => Iff.rfl) (by simpa [Pc.Wf] using hwf) ?_
  · rw [ht]
    exact mem_map_of_mem hmem
  · exact fun q' hq' => ⟨update_of_ne hq' .., rfl⟩
  · rintro x ⟨⟩ q' hq'
    have hold := h.unchanged t (done, w.order) (by rw [ht]; rfl) q' hq'
    by_cases hqq : q' = q
    · subst hqq
      simpa [goto, setQueue, hnew] using hold
    · simpa [goto, setQueue, hqq] using hold

variable {s' : State T Q}

theorem Inv.advance (h : Inv s) {b : Bool} (hs : s.advance t b = some s') : Inv s' := by
  have hwf := h.wf t
  rw [State.advance] at hs
  split at hs
  case h_1 => cases hs
  case h_2 w taken ht =>
    cases hs
    rw [ht] at hwf
    have htaken : taken = w.order := by simpa [Pc.Wf] using hwf
    exact h.stay ht nofun ⟨rfl, rfl, rfl, rfl⟩ rfl (by simp [Pc.holds, htaken]) trivial
  case h_3 w taken q todo ht =>
    obtain ⟨s₁, htake, rfl⟩ := Option.map_eq_some_iff.1 hs
    rw [ht] at hwf
    exact h.lock ht nofun htake (by simp [Pc.holds, or_comm, eq_comm]) (by simpa [Pc.Wf] using hwf)
  case h_4 w ht =>
    split at hs <;> cases hs
    · refine h.keep ⟨fun u hu => goto_pc_of_ne _ hu, fun u hu => update_of_ne hu ..,
        fun _ _ => ⟨rfl, rfl⟩⟩ ht goto_pc_self rfl (fun l => Iff.rfl) trivial ?_
      rintro x ⟨⟩ q hq
      simp [goto]
    · exact h.stay ht nofun ⟨rfl, rfl, rfl, rfl⟩ rfl (fun l => Iff.rfl) (suffix_refl _)
  case h_5 w ht =>
    obtain ⟨s₁, htake, rfl⟩ := Option.map_eq_some_iff.1 hs
    exact h.lock ht (fun x hx => ⟨x, hx, rfl, fun _ => id⟩) htake (by simp [Pc.holds]) trivial
  case h_6 w ht =>
    cases hs
    refine h.unlock ht (fun x hx => ⟨x, hx, rfl, fun _ => id⟩) ⟨rfl, rfl, rfl, rfl⟩ rfl
      mem_cons_self ?_ trivial
    intro l'
    simp only [Pc.holds, mem_cons, mem_map]
    aesop
  case h_7 w ht =>
    cases hs
    exact h.stay ht (fun x hx => ⟨x, hx, rfl, fun _ => id⟩) ⟨rfl, rfl, rfl, rfl⟩ rfl
      (fun l => Iff.rfl) rfl
  case h_8 w done ht =>
    cases hs
    rw [ht] at hwf
    have hdone : done = w.order := by simpa [Pc.Wf] using hwf
    refine h.stay ht ?_ ⟨rfl, rfl, rfl, rfl⟩ rfl (fun l => Iff.rfl) (suffix_refl _)
    rintro x ⟨⟩
    exact ⟨(done, w.order), rfl, hdone, fun _ => id⟩
  case h_9 w done q todo ht => exact Option.some.inj hs ▸ h.push ht
  case h_10 w q todo blocks ht =>
    cases hs
    rw [ht] at hwf
    have hsuffix : q :: todo <:+ w.order := hwf
    have hnew : q ∉ todo := fun hq =>
      lt_irrefl q ((pairwise_cons.1 (w.pairwise_order.sublist hsuffix.sublist)).1 q hq)
    refine h.unlock ht ?_ ⟨rfl, rfl, rfl, rfl⟩ rfl mem_cons_self ?_
      ((suffix_cons q todo).trans hsuffix)
    · cases blocks
      · exact nofun
      · rintro x ⟨⟩
        exact ⟨(w.order, q :: todo), rfl, rfl, subset_cons_self q todo⟩
    · intro l'
      simp only [Pc.holds, map_cons, mem_cons, mem_map]
      constructor
      · rintro ⟨q', hq', rfl⟩
        refine ⟨fun heq => hnew ?_, .inr ⟨q', hq', rfl⟩⟩
        rwa [← WithTop.coe_inj.1 heq]
      · exact fun ⟨hne, hmem⟩ => hmem.resolve_left hne
  case h_14 w ht =>
    split at hs <;> cases hs <;> exact h.unlock ht nofun ⟨rfl, rfl, rfl, rfl⟩ rfl
      mem_cons_self (by simp [Pc.holds]) trivial
  case h_15 w ht =>
    split at hs <;> cases hs
    exact h.stay ht nofun ⟨rfl, rfl, rfl, rfl⟩ rfl (fun l => Iff.rfl) trivial
  case h_18 w ht =>
    cases hs
    split <;> exact h.stay ht nofun ⟨rfl, rfl, rfl, rfl⟩ rfl (fun l => Iff.rfl) trivial
  case h_21 u q todo ht =>
    cases hs
    exact h.change rfl ht rfl rfl (fun q' hq' => ⟨update_of_ne hq' .., rfl⟩)
      (.inr ⟨rfl, rfl⟩) trivial rfl
  case h_23 k q ht => exact Option.some.inj hs ▸ h.doWake ht
  case h_28 kept u us ht =>
    cases hs
    refine h.unlock ht nofun ⟨rfl, rfl, rfl, rfl⟩ rfl mem_cons_self ?_ trivial
    intro l'
    cases kept <;> simp [Pc.holds]
    aesop
  -- steps that keep the locks, take one, or give one up
  all_goals
    rename_i ht
    first
      | cases hs
        exact h.stay ht nofun ⟨rfl, rfl, rfl, rfl⟩ rfl (fun l => Iff.rfl) trivial
      | obtain ⟨s₁, htake, rfl⟩ := Option.map_eq_some_iff.1 hs
        exact h.lock ht nofun htake (by simp [Pc.holds]) trivial
      | cases hs
        exact h.unlock ht nofun ⟨rfl, rfl, rfl, rfl⟩ rfl mem_cons_self (by simp [Pc.holds]) trivial

theorem Inv.begin (h : Inv s) (hs : Locks.begin s t p = some s') (hholds : p.holds = [])
    (hwf : p.Wf) (hcheck : p.checked = none) : Inv s' := by
  obtain ⟨ht, ⟨⟩⟩ := Option.ite_none_right_eq_some.1 hs
  refine h.stay ht ?_ ⟨rfl, rfl, rfl, rfl⟩ rfl (fun l => by rw [hholds]; rfl) hwf
  rw [hcheck]
  exact nofun

theorem Inv.step (h : Inv s) (a : Act T Q) (hs : Locks.step s a = some s') : Inv s' := by
  cases a with
  | waitAny t queues | waitIf t q => exact h.begin hs rfl rfl rfl
  | wake t k q | remove t u q | expire t u => exact h.begin hs rfl trivial rfl
  | next t b => exact h.advance hs

/-! ## Entries that are left behind -/

variable (h : Tidy s)
include h

theorem Tidy.shrink (ht : s.pc t = p') (hpc : s₁.pc = s.pc) (hseen : s₁.seen = s.seen)
    (hqueue : ∀ q, s₁.queue q ⊆ s.queue q)
    (hon : ∀ q, t ∈ s₁.queue q → p'.mayBeOn t q → p.mayBeOn t q)
    (hcheck : p.checked = none ∨ p'.checked ≠ none) : Tidy (s₁.goto t p) := by
  refine h.of_step (t := t) (fun u hu => (goto_pc_of_ne s₁ hu).trans (by rw [hpc]))
    (fun u _ => congrFun hseen u) (fun u _ q hu => hqueue q hu) (fun q hq => ?_) fun hc q => ?_
  · rw [goto_pc_self]
    exact hon q hq (ht ▸ h.on t q (hqueue q hq))
  · rw [goto_pc_self] at hc
    change t ∉ (s₁.seen t q).2
    rw [hseen]
    exact h.seen t (ht ▸ hcheck.resolve_left hc) q

theorem Tidy.doWake {k : Kind} (ht : s.pc t = .wakeLocked k q) : Tidy (s.doWake t k q) := by
  unfold State.doWake
  split
  · exact h.shrink ht rfl rfl (fun q' => List.Subset.refl _) (fun q' _ hf => hf.elim) (.inl rfl)
  · next u us hq =>
    exact h.shrink ht rfl rfl (setQueue_subset (s := s) (hq ▸ subset_cons_self u us))
      (fun q' _ hf => hf.elim) (.inl rfl)
  · exact h.shrink ht rfl rfl (fun q' => List.Subset.refl _) (fun q' _ hf => hf.elim) (.inl rfl)
  · next u us hq =>
    exact h.shrink ht rfl rfl (setQueue_subset (s := s) (hq ▸ subset_cons_self u us))
      (fun q' _ hf => hf.elim) (.inl rfl)
  · exact h.shrink ht rfl rfl (setQueue_subset (s := s) (nil_subset _)) (fun q' _ hf => hf.elim)
      (.inl rfl)

theorem Tidy.push {w : Request Q} {done todo : List Q} (ht : s.pc t = .pushing w done (q :: todo)) :
    Tidy ((s.setQueue q (s.queue q ++ [t])).goto t (.pushing w (done ++ [q]) todo)) := by
  refine h.of_step (t := t) (fun u hu => goto_pc_of_ne _ hu) (fun u _ => rfl)
    (fun u hu q' hmem => ?_)
    (fun q' hmem => ?_) fun _ => h.seen t (by rw [ht]; exact nofun)
  · by_cases hq : q' = q
    · subst hq
      simpa [goto, setQueue, hu] using hmem
    · simpa [goto, setQueue, update_of_ne hq] using hmem
  · rw [goto_pc_self]
    by_cases hq : q' = q
    · simp [Pc.mayBeOn, hq]
    · have hold := h.on t q' (by simpa [goto, setQueue, update_of_ne hq] using hmem)
      rw [ht] at hold
      exact mem_append_left _ hold

theorem Tidy.advance {b : Bool} (hok : Act.OffQueue s (.next t b)) (hinv : Inv s)
    (hs : s.advance t b = some s') : Tidy s' := by
  -- most steps change no queue, and the thread may be where it was before
  have hstay : ∀ {p p' : Pc T Q} {s₁ : State T Q}, s.pc t = p' → SameQueues s s₁ →
      (∀ q, p'.mayBeOn t q → p.mayBeOn t q) → (p.checked = none ∨ p'.checked ≠ none) →
      Tidy (s₁.goto t p) := fun ht ⟨hpc, hseen, hqueue, _⟩ hon hc =>
    h.shrink ht hpc hseen (fun q => hqueue ▸ List.Subset.refl _) (fun q _ => hon q) hc
  rw [State.advance] at hs
  split at hs
  case h_4 w ht =>
    split at hs <;> cases hs
    · -- at its check the thread is on no queue
      have hoff : ∀ q, t ∉ s.queue q := fun q hq => by simpa [ht, Pc.mayBeOn] using h.on t q hq
      refine h.of_step (t := t) (fun u hu => goto_pc_of_ne _ hu) (fun u hu => update_of_ne hu ..)
        (fun u _ q hu => hu) (fun q hq => absurd hq (hoff q)) fun _ q => ?_
      simpa [goto] using hoff q
    · exact hstay ht ⟨rfl, rfl, rfl, rfl⟩ (fun _ hf => hf) (.inl rfl)
  case h_8 w done ht =>
    cases hs
    refine hstay ht ⟨rfl, rfl, rfl, rfl⟩ (fun q hdone => ?_) (.inr nofun)
    have hwf : done ++ [] = w.order := by simpa [ht, Pc.Wf] using hinv.wf t
    rw [append_nil] at hwf
    exact show q ∈ w.order from hwf ▸ hdone
  case h_9 w done q todo ht => exact Option.some.inj hs ▸ h.push ht
  case h_10 w q todo blocks ht =>
    cases hs
    cases blocks
    · exact hstay ht ⟨rfl, rfl, rfl, rfl⟩ (fun _ hf => hf) (.inl rfl)
    · exact hstay ht ⟨rfl, rfl, rfl, rfl⟩ (fun _ hf => hf) (.inr nofun)
  case h_18 w ht =>
    cases hs
    split
    · exact hstay ht ⟨rfl, rfl, rfl, rfl⟩ (fun q hq => ⟨rfl, mem_order.1 hq⟩) (.inl rfl)
    · next hkeeps =>
      refine h.shrink ht rfl rfl (fun q => List.Subset.refl _) (fun q hmem hq => ?_) (.inl rfl)
      exact hok w ht (by simpa using hkeeps) q (mem_order.1 hq) hmem
  case h_21 u q todo ht =>
    cases hs
    refine h.shrink ht rfl rfl (setQueue_subset (s := s) filter_sublist.subset)
      (fun q' hmem hq' => ?_) (.inl rfl)
    obtain ⟨rfl, hq'⟩ := hq'
    refine ⟨rfl, (mem_cons.1 hq').resolve_left ?_⟩
    rintro rfl
    simp [setQueue, drop] at hmem
  case h_23 k q ht => exact Option.some.inj hs ▸ h.doWake ht
  case h_1 => cases hs
  case h_7 w ht =>
    cases hs
    exact hstay ht ⟨rfl, rfl, rfl, rfl⟩ (fun _ hf => hf.elim) (.inr nofun)
  case h_14 w ht =>
    split at hs <;> cases hs <;> exact hstay ht ⟨rfl, rfl, rfl, rfl⟩ (fun _ hf => hf) (.inl rfl)
  case h_15 w ht =>
    split at hs <;> cases hs
    exact hstay ht ⟨rfl, rfl, rfl, rfl⟩ (fun _ hf => hf) (.inl rfl)
  case h_19 u ht =>
    cases hs
    exact hstay ht ⟨rfl, rfl, rfl, rfl⟩ (fun q hq => by cases hq.2) (.inl rfl)
  -- steps that take a lock, and steps that change nothing here
  all_goals
    rename_i ht
    first
      | cases hs
        exact hstay ht ⟨rfl, rfl, rfl, rfl⟩ (fun _ hf => hf) (by simp [Pc.checked])
      | obtain ⟨s₁, htake, rfl⟩ := Option.map_eq_some_iff.1 hs
        exact hstay ht (sameQueues_take htake) (fun _ hf => hf) (by simp [Pc.checked])

theorem Tidy.begin (hs : Locks.begin s t p = some s') (hcheck : p.checked = none) : Tidy s' := by
  obtain ⟨ht, ⟨⟩⟩ := Option.ite_none_right_eq_some.1 hs
  exact h.shrink ht rfl rfl (fun _ => List.Subset.refl _) (fun _ _ hf => hf.elim) (.inl hcheck)

theorem Tidy.step (hinv : Inv s) (a : Act T Q) (hok : a.OffQueue s)
    (hs : Locks.step s a = some s') : Tidy s' := by
  cases a with
  | waitAny t queues | waitIf t q | wake t k q | remove t u q | expire t u => exact h.begin hs rfl
  | next t b => exact h.advance hok hinv hs

end State

/-! ## Main result -/

variable [DecidableEq T] [LinearOrder Q]

/-- The thread has enqueued and is about to block, with its queues still locked. -/
def Commits (s : State T Q) (t : T) (w : Request Q) : Prop := s.pc t = .dropping w w.order true

/-- In every state that any threads come to, no threads spin on each other's locks in a circle; and
a thread that is about to block is on each of its queues behind those that were there when it
checked, with no wake of the queue since. If threads come back from `wait_if` only when they are off
the queue, it is there once. -/
theorem multi_wait_locking : (∀ s : State T Q, Reach step new s →
      (∀ t, ¬ Relation.TransGen (SpinsOn (fun u => (s.pc u).wants) s.holder) t t) ∧
        ∀ t w, Commits s t w → ∀ q ∈ w.queues,
          s.wakes q = (s.seen t q).1 ∧ s.queue q = (s.seen t q).2 ++ [t]) ∧
      ∀ s : State T Q, Run step (fun s a => a.OffQueue s) new s →
        ∀ t w, Commits s t w → ∀ q ∈ w.queues, (s.queue q).count t = 1 := by
  have hcommit : ∀ s : State T Q, s.Inv → ∀ t w, Commits s t w → ∀ q ∈ w.queues,
      s.wakes q = (s.seen t q).1 ∧ s.queue q = (s.seen t q).2 ++ [t] := by
    intro s hinv t w ht q hq
    have hmem := mem_order.2 hq
    simpa [hmem] using hinv.unchanged t (w.order, w.order)
      (by rw [show s.pc t = _ from ht]; rfl) q hmem
  refine ⟨fun s hreach => ?_, fun s hrun t w ht q hq => ?_⟩
  · have hinv := hreach.invariant (fun _ a _ hinv _ hs => State.Inv.step hinv a hs) State.inv_new
    refine ⟨not_transGen_spinsOn fun t l l' hwants hholder => ?_, hcommit s hinv⟩
    exact (hinv.wf t).lt_wants hwants ((hinv.holder l' t).1 hholder)
  · have hboth : s.Inv ∧ s.Tidy :=
      hrun.invariant (P := fun s => s.Inv ∧ s.Tidy)
        (fun _ a _ h hok hs => ⟨h.1.step a hs, h.2.step h.1 a hok hs⟩)
        ⟨State.inv_new, ⟨nofun, nofun⟩⟩
    have hnew := hboth.2.seen t (by rw [show s.pc t = _ from ht]; exact nofun) q
    rw [(hcommit s hboth.1 t w ht q hq).2, count_append, count_eq_zero.2 hnew]
    simp

/-- `n` steps of a thread whose condition asks it to block. -/
def steps (t : Fin 3) (n : Nat) : List (Act (Fin 3) (Fin 2)) := List.replicate n (.next t true)

/-- Thread 0 waits on both queues, up to the end of its list. -/
def waitsOnBoth : List (Act (Fin 3) (Fin 2)) := .waitAny 0 [1, 0, 1] :: steps 0 10

theorem multi_wait_locking_both : ∃ s : State (Fin 3) (Fin 2),
    Run step (fun s a => a.OffQueue s) new s ∧ Commits s 0 ⟨[1, 0, 1], true⟩ ∧
      ∀ q, (s.queue q).count 0 = 1 := by
  obtain ⟨s, hrun, heq⟩ : ∃ s : State (Fin 3) (Fin 2), Run step (fun s a => a.OffQueue s) new s ∧
      s.pc 0 = .dropping ⟨[1, 0, 1], true⟩ [0, 1] true := exists_run waitsOnBoth (by decide +kernel)
  refine ⟨s, hrun, heq, fun q => ?_⟩
  refine multi_wait_locking.2 s hrun 0 ⟨[1, 0, 1], true⟩ heq q ?_
  revert q
  decide

/-- Thread 0 waits on both queues. Thread 1 takes it off queue 0 and has yet to unblock it when
thread 2 wakes it through queue 1. -/
def twoWakes : List (Act (Fin 3) (Fin 2)) :=
  .waitAny 0 [1, 0] :: steps 0 15 ++ .wake 1 .all 0 :: steps 1 2 ++ .wake 2 .one 1 :: steps 2 6

/-- It leaves both queues, and goes to sleep in `wait_if` on queue 1. The unblock of thread 1 wakes
it, and it waits on queue 1 again. -/
def lateUnblock : List (Act (Fin 3) (Fin 2)) :=
  twoWakes ++ steps 0 9 ++ .waitIf 0 1 :: steps 0 12 ++ steps 1 3 ++ steps 0 4 ++
    .waitAny 0 [1] :: steps 0 8

theorem enqueued_twice : ∃ s : State (Fin 3) (Fin 2),
    Reach step new s ∧ Commits s 0 ⟨[1], true⟩ ∧ s.queue 1 = [0, 0] := by
  obtain ⟨s, hreach, hpc, hqueue⟩ : ∃ s : State (Fin 3) (Fin 2), Reach step new s ∧
      s.pc 0 = .dropping ⟨[1], true⟩ [1] true ∧ s.queue 1 = [0, 0] :=
    exists_reach lateUnblock (by decide +kernel)
  exact ⟨s, hreach, hpc, hqueue⟩

end Thos.Wait.Locks
