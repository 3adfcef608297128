import Thos.Lib.Run

/-!
# Waiting for several objects

`NtWaitForMultipleObjects` over events of both modes, semaphores and mutants, with any
number of threads that wait for several objects or for one, and others that signal,
reset and release. Every atomic access to an object is a step of its own. The queue
locks of `wait_any_until` are taken in one step, which is sound because they are taken
in one global order and nothing is read before the last one.

The scheduler is reduced to a flag for each thread that `mark_blocking` clears and an
`unblock` sets; `block_current` returns once it is set. `unblock` may come from the
waker that popped the thread, from the timer, or be left from an earlier wait.

`popped`, `signals`, `consumed`, `absorbed` and the list of places taken in a call are
not in the source. They say what became of each unit.
-/

set_option autoImplicit false

namespace Thos.Wait.Multiple

open Thos.Lib Function

/-! ## The objects -/

/-- A dispatcher object. The owner 0 of a free mutant is `none`. -/
inductive Waitable (τ : Type)
  | manual (signaled : Bool)
  | auto (signaled : Bool)
  | semaphore (count limit : Int)
  | mutant (owner : Option τ) (recursion : UInt32)
  deriving DecidableEq

section Objects

variable {τ : Type} [DecidableEq τ] {w : Waitable τ}

def Waitable.isSignaled (t : τ) : Waitable τ → Bool
  | .manual signaled | .auto signaled => signaled
  | .semaphore count _ => 0 < count
  | .mutant owner _ => owner = none || owner = some t

/-- `Waitable::try_take`: whether it succeeds, and the object after it. -/
def Waitable.tryTake (t : τ) : Waitable τ → Bool × Waitable τ
  | .manual signaled => (signaled, .manual signaled)
  | .auto signaled => (signaled, .auto false)
  | .semaphore count limit =>
    if count ≤ 0 then (false, .semaphore count limit) else (true, .semaphore (count - 1) limit)
  | .mutant owner recursion =>
    if owner = some t then (true, .mutant owner (recursion + 1))
    else if owner = none then (true, .mutant (some t) 1)
    else (false, .mutant owner recursion)

/-- The condition under which a single wait goes to sleep. -/
def Waitable.blocks : Waitable τ → Bool
  | .manual signaled | .auto signaled => !signaled
  | .semaphore count _ => count ≤ 0
  | .mutant owner _ => owner ≠ none

/-- The kinds of objects. -/
inductive Kind
  | manual
  | auto
  | semaphore
  | mutant
  deriving DecidableEq

def Waitable.kind : Waitable τ → Kind
  | .manual _ => .manual
  | .auto _ => .auto
  | .semaphore _ _ => .semaphore
  | .mutant _ _ => .mutant

/-- The signals that an auto-reset event holds. -/
def Waitable.latched : Waitable τ → Nat
  | .auto true => 1
  | _ => 0

/-- A take uses up a unit, also for the thread that takes it. -/
def Kind.isCounted : Kind → Bool
  | .auto | .semaphore => true
  | .manual | .mutant => false

/-- What it is to take one unit of an object: a manual-reset event only has to be
signalled, an auto-reset event is cleared, a semaphore counts down, a mutant is acquired
once more. -/
inductive Consumes (t : τ) : Waitable τ → Waitable τ → Prop
  | manual : Consumes t (.manual true) (.manual true)
  | auto : Consumes t (.auto true) (.auto false)
  | semaphore {count limit : Int} (h : 0 < count) :
      Consumes t (.semaphore count limit) (.semaphore (count - 1) limit)
  | free {recursion : UInt32} : Consumes t (.mutant none recursion) (.mutant (some t) 1)
  | owned {recursion : UInt32} :
      Consumes t (.mutant (some t) recursion) (.mutant (some t) (recursion + 1))

theorem Waitable.tryTake_snd {t : τ} (h : w.isSignaled t = false) : (w.tryTake t).2 = w := by
  cases w with
  | manual signaled => rfl
  | auto signaled =>
    simp only [isSignaled] at h
    simp [tryTake, h]
  | semaphore count limit =>
    have : count ≤ 0 := by simpa [isSignaled] using h
    simp [tryTake, this]
  | mutant owner recursion =>
    obtain ⟨hfree, hown⟩ : owner ≠ none ∧ owner ≠ some t := by simpa [isSignaled] using h
    simp [tryTake, hfree, hown]

theorem Waitable.consumes_tryTake {t : τ} (h : w.isSignaled t = true) :
    Consumes t w (w.tryTake t).2 := by
  cases w with
  | manual signaled =>
    subst h
    exact .manual
  | auto signaled =>
    subst h
    exact .auto
  | semaphore count limit =>
    have hpos : 0 < count := by simpa [isSignaled] using h
    have hle : ¬ count ≤ 0 := by omega
    simpa [tryTake, hle] using Consumes.semaphore hpos
  | mutant owner recursion =>
    by_cases hown : owner = some t
    · subst hown
      simpa [tryTake] using Consumes.owned
    · obtain rfl : owner = none := by simpa [isSignaled, hown] using h
      simpa [tryTake] using Consumes.free

@[simp]
theorem Waitable.kind_tryTake (t : τ) (w : Waitable τ) : (w.tryTake t).2.kind = w.kind := by
  cases w with
  | manual signaled => rfl
  | auto signaled => rfl
  | semaphore count limit | mutant owner recursion =>
    simp only [tryTake]
    split_ifs <;> rfl

theorem Waitable.isSignaled_tryTake {t : τ} (hc : w.kind.isCounted = false)
    (h : w.isSignaled t = true) : (w.tryTake t).2.isSignaled t = true := by
  cases w with
  | manual signaled => exact h
  | auto signaled => cases hc
  | semaphore count limit => cases hc
  | mutant owner recursion =>
    simp only [tryTake]
    split_ifs with hown hfree
    · simp [isSignaled, hown]
    · simp [isSignaled]
    · simp [isSignaled, hown, hfree] at h

omit [DecidableEq τ] in
theorem Waitable.latched_auto (b : Bool) : (Waitable.auto b : Waitable τ).latched = b.toNat := by
  cases b <;> rfl

end Objects

/-! ## Calls -/

/-- The timeout argument: none given, zero or absolute, or relative to now. -/
inductive Timeout
  | forever
  | poll
  | until (deadline : Nat)
  deriving DecidableEq

/-- The test between the first look at the objects and the sleep. -/
def Timeout.stops (now : Nat) : Timeout → Bool
  | .forever => false
  | .poll => true
  | .until deadline => deadline ≤ now

/-- What `wait_any_until` returns after the sleep. -/
def Timeout.timedOut (now : Nat) : Timeout → Bool
  | .forever | .poll => false
  | .until deadline => deadline ≤ now

/-- A call of `NtWaitForMultipleObjects`, with the places of its list of which it has
taken a unit. -/
structure Call (ο : Type) where
  objs : List ο
  waitAll : Bool
  timeout : Timeout
  taken : List Nat
  deriving DecidableEq

inductive Outcome
  /-- `STATUS_WAIT_0 + i`. -/
  | index (i : Nat)
  /-- Success of a WaitAll. -/
  | all
  | timeout
  deriving DecidableEq

/-- Where a wait for one object is. -/
inductive SinglePc
  | try
  | lock
  | parked
  /-- Woken, before it leaves the queue (timed waits only). -/
  | remove
  /-- Off the queue, before it reads the clock. -/
  | clock
  | returned (success : Bool)
  deriving DecidableEq

/-- Where a thread is. -/
inductive Pc (ο : Type)
  | outside
  /-- WaitAny tries the object at place `i`. -/
  | scan (c : Call ο) (i : Nat)
  /-- WaitAll looks at the object at place `i`. -/
  | check (c : Call ο) (i : Nat)
  /-- WaitAll takes the object at place `i`. -/
  | take (c : Call ο) (i : Nat)
  | clock (c : Call ο)
  /-- In `should_block` with all queues locked, about to look at place `i`. -/
  | locked (c : Call ο) (i : Nat)
  | parked (c : Call ο)
  /-- Woken, about to leave the queue at place `i`. -/
  | remove (c : Call ο) (i : Nat)
  /-- Off all queues, before it reads the clock. -/
  | woken (c : Call ο)
  | returned (c : Call ο) (r : Outcome)
  | single (o : ο) (deadline : Option Nat) (p : SinglePc)

/-- A `wake_one` repeated up to `n` times, or a `wake_all`, still to be made. -/
inductive Wake (ο : Type)
  | one (o : ο) (n : Nat)
  | all (o : ο)
  deriving DecidableEq

def Wake.target {ο : Type} : Wake ο → ο
  | .one o _ | .all o => o

structure Sys (τ ο : Type) where
  obj : ο → Waitable τ
  queue : ο → List τ
  /-- The multi-waiter that holds the lock of the object's queue. -/
  lock : ο → Option τ
  wakes : List (Wake ο)
  now : Nat
  pc : τ → Pc ο
  /-- Unblocked since its last `mark_blocking`. -/
  wakePending : τ → Bool
  /-- Threads popped by a signal of an auto-reset event that have neither returned nor
  gone to sleep again. -/
  popped : ο → List τ
  /-- Signals to an auto-reset event. -/
  signals : ο → Nat
  /-- Units taken by calls that reported success for them. -/
  consumed : ο → Nat
  /-- Signals that found the event latched, and latched signals that a reset cleared. -/
  absorbed : ο → Nat

/-! ## Steps -/

section Steps

variable {τ ο : Type} [DecidableEq τ] [DecidableEq ο] (s : Sys τ ο) (t : τ)

def Sys.setPc (p : Pc ο) : Sys τ ο := { s with pc := update s.pc t p }

/-- The thread's call is over, or it goes to sleep: a signal that popped it is no longer
under way. -/
def Sys.settle (p : Pc ο) : Sys τ ο :=
  { s.setPc t p with popped := fun o => (s.popped o).filter (· ≠ t) }

variable (o : ο)

/-- The object after thread `t` has tried to take it. -/
def Sys.tryTake : Sys τ ο :=
  { s with
    obj := update s.obj o ((s.obj o).tryTake t).2
    consumed := if (s.obj o).isSignaled t then
        update s.consumed o (s.consumed o + 1)
      else s.consumed }

/-- The top of the loop. -/
def Call.start (c : Call ο) : Pc ο := if c.waitAll then .check c 0 else .scan c 0

/-- `mark_blocking` and the enqueueing, once on each distinct queue. -/
def Sys.enqueue (objs : List ο) : Sys τ ο :=
  { s with
    queue := fun o => if o ∈ objs then s.queue o ++ [t] else s.queue o
    wakePending := update s.wakePending t false }

/-- Drops the locks on the queues of the list. -/
def Sys.unlock (objs : List ο) : Sys τ ο :=
  { s with lock := fun o => if o ∈ objs then none else s.lock o }

/-- The next step of a wait for one object. -/
def singleStep (deadline : Option Nat) : SinglePc → Option (Sys τ ο)
  | .try =>
    if (s.obj o).isSignaled t then
      some ((s.tryTake t o).settle t (.single o deadline (.returned true)))
    else some ((s.tryTake t o).setPc t (.single o deadline .lock))
  | .lock =>
    if s.lock o ≠ none then none
    else if (s.obj o).blocks then
      some ((s.enqueue t [o]).settle t (.single o deadline .parked))
    else if (s.obj o).kind = .auto then
      -- `should_block` has swapped the flag: that is the success
      some ((s.tryTake t o).settle t (.single o deadline (.returned true)))
    else some (s.setPc t (.single o deadline .try))
  | .parked =>
    if !s.wakePending t then none
    else if deadline.isSome then some (s.setPc t (.single o deadline .remove))
    else some (wokenUp s)
  | .remove =>
    if s.lock o ≠ none then none
    else some { s.setPc t (.single o deadline .clock) with
      queue := update s.queue o ((s.queue o).filter (· ≠ t)) }
  | .clock =>
    if ∃ d ∈ deadline, d ≤ s.now then
      some (s.settle t (.single o deadline (.returned false)))
    else some (wokenUp s)
  | .returned _ => some (s.setPc t .outside)
where
  /-- For an auto-reset event the wakeup is the signal; all others try again. -/
  wokenUp (s : Sys τ ο) : Sys τ ο :=
    if (s.obj o).kind = .auto then
      { s.settle t (.single o deadline (.returned true)) with
        consumed := if t ∈ s.popped o then update s.consumed o (s.consumed o + 1) else s.consumed }
    else s.setPc t (.single o deadline .try)

/-- The next step of the thread in its call. -/
def advance : Option (Sys τ ο) :=
  match s.pc t with
  | .outside => none
  | .scan c i =>
    match c.objs[i]? with
    | none => some (s.setPc t (.clock c))
    | some o =>
      if (s.obj o).isSignaled t then
        some ((s.tryTake t o).settle t (.returned { c with taken := c.taken ++ [i] } (.index i)))
      else some ((s.tryTake t o).setPc t (.scan c (i + 1)))
  | .check c i =>
    match c.objs[i]? with
    | none => some (s.setPc t (.take c 0))
    | some o =>
      if (s.obj o).isSignaled t then some (s.setPc t (.check c (i + 1)))
      else some (s.setPc t (.clock c))
  | .take c i =>
    match c.objs[i]? with
    | none => some (s.settle t (.returned c .all))
    | some o =>
      -- the result of `try_take` is not looked at
      some ((s.tryTake t o).setPc t (.take { c with
          taken := if (s.obj o).isSignaled t then c.taken ++ [i] else c.taken } (i + 1)))
  | .clock c =>
    if c.timeout.stops s.now then some (s.settle t (.returned c .timeout))
    else if ∀ o ∈ c.objs, s.lock o = none then
      some { s.setPc t (.locked c 0) with
        lock := fun o => if o ∈ c.objs then some t else s.lock o }
    else none
  | .locked c i =>
    match c.objs[i]? with
    | none =>
      -- `all` has found every object signalled, `any` none
      if c.waitAll then some ((s.unlock c.objs).setPc t c.start)
      else some (((s.enqueue t c.objs).unlock c.objs).settle t (.parked c))
    | some o =>
      if (s.obj o).isSignaled t = c.waitAll then some (s.setPc t (.locked c (i + 1)))
      else if c.waitAll then
        some (((s.enqueue t c.objs).unlock c.objs).settle t (.parked c))
      else some ((s.unlock c.objs).setPc t c.start)
  | .parked c => if s.wakePending t then some (s.setPc t (.remove c 0)) else none
  | .remove c i =>
    match c.objs[i]? with
    | none => some (s.setPc t (.woken c))
    | some o =>
      if s.lock o ≠ none then none
      else some { s.setPc t (.remove c (i + 1)) with
        queue := update s.queue o ((s.queue o).filter (· ≠ t)) }
  | .woken c =>
    if c.timeout.timedOut s.now then some (s.settle t (.returned c .timeout))
    else some (s.setPc t c.start)
  | .returned _ _ => some (s.setPc t .outside)
  | .single o deadline p => singleStep s t o deadline p

/-- What can happen. -/
inductive Act (τ ο : Type)
  /-- `NtWaitForMultipleObjects`, after the handles have been looked up. -/
  | beginMulti (t : τ) (objs : List ο) (waitAll : Bool) (timeout : Timeout)
  /-- `NtWaitForSingleObject` without a timeout or with a relative one. -/
  | beginSingle (t : τ) (o : ο) (deadline : Option Nat)
  /-- `NtWaitForSingleObject` with timeout 0. -/
  | pollOne (t : τ) (o : ο)
  /-- The next step of the call that the thread is in. -/
  | advance (t : τ)
  | signal (o : ο)
  | reset (o : ο)
  | release (o : ο) (n : Int)
  | releaseMutant (t : τ) (o : ο)
  /-- A `wake_one` or `wake_all` that a signal or release has still to make. -/
  | wake (w : Wake ο)
  | unblock (t : τ)
  | tick

/-- `Event::signal`. -/
def signal : Option (Sys τ ο) :=
  match s.obj o with
  | .manual _ => some { s with obj := update s.obj o (.manual true), wakes := s.wakes ++ [.all o] }
  | .auto signaled =>
    if s.lock o ≠ none then none
    else match s.queue o with
      | [] =>
        some { s with
          obj := update s.obj o (.auto true)
          signals := update s.signals o (s.signals o + 1)
          absorbed := if signaled then update s.absorbed o (s.absorbed o + 1) else s.absorbed }
      | t :: q =>
        -- the waiter is released and nothing is latched, whatever it waits for
        some { s with
          queue := update s.queue o q
          popped := update s.popped o (s.popped o ++ [t])
          signals := update s.signals o (s.signals o + 1) }
  | .semaphore _ _ | .mutant _ _ => none

/-- `Event::reset`. -/
def reset : Option (Sys τ ο) :=
  match s.obj o with
  | .manual _ => some { s with obj := update s.obj o (.manual false) }
  | .auto signaled =>
    some { s with
      obj := update s.obj o (.auto false)
      absorbed := if signaled then update s.absorbed o (s.absorbed o + 1) else s.absorbed }
  | .semaphore _ _ | .mutant _ _ => none

/-- `Semaphore::release`. The limit is an `i32`, so a sum that overflows exceeds it. -/
def release (n : Int) : Option (Sys τ ο) :=
  match s.obj o with
  | .semaphore count limit =>
    if n ≤ 0 ∨ limit < count + n then some s
    else some { s with
      obj := update s.obj o (.semaphore (count + n) limit)
      wakes := s.wakes ++ [.one o n.toNat] }
  | .manual _ | .auto _ | .mutant _ _ => none

/-- `Mutant::release`. -/
def releaseMutant : Option (Sys τ ο) :=
  match s.obj o with
  | .mutant owner recursion =>
    if owner ≠ some t then some s
    else if recursion ≤ 1 then
      some { s with
        obj := update s.obj o (.mutant none 0)
        wakes := s.wakes ++ [.one o 1] }
    else some { s with obj := update s.obj o (.mutant owner (recursion - 1)) }
  | .manual _ | .auto _ | .semaphore _ _ => none

/-- `wake_one`, in the loop of a release, or `wake_all`. -/
def wake : Wake ο → Option (Sys τ ο)
  | .one o n =>
    if s.lock o ≠ none then none
    else match s.queue o with
      | [] => some { s with wakes := s.wakes.erase (.one o n) }
      | _ :: q =>
        some { s with
          queue := update s.queue o q
          wakes := s.wakes.erase (.one o n) ++ if 1 < n then [.one o (n - 1)] else [] }
  | .all o =>
    if s.lock o ≠ none then none
    else some { s with
      queue := update s.queue o []
      wakes := s.wakes.erase (.all o) }

/-- One step; `none` if it is not enabled. -/
def step : Act τ ο → Option (Sys τ ο)
  | .beginMulti t objs waitAll timeout =>
    match s.pc t with
    | .outside =>
      -- `STATUS_INVALID_PARAMETER` for an empty list and for more than 64 handles
      if objs.length = 0 ∨ 64 < objs.length then some s
      else some (s.setPc t (Call.start ⟨objs, waitAll, timeout, []⟩))
    | _ => none
  | .beginSingle t o deadline =>
    match s.pc t with
    | .outside =>
      if (s.obj o).kind = .auto then some (s.setPc t (.single o deadline .lock))
      else some (s.setPc t (.single o deadline .try))
    | _ => none
  | .pollOne t o =>
    match s.pc t with
    | .outside => some (s.tryTake t o)
    | _ => none
  | .advance t => advance s t
  | .signal o => signal s o
  | .reset o => reset s o
  | .release o n => release s o n
  | .releaseMutant t o =>
    match s.pc t with
    | .outside => releaseMutant s t o
    | _ => none
  | .wake w => if w ∈ s.wakes then wake s w else none
  | .unblock t => some { s with wakePending := update s.wakePending t true }
  | .tick => some { s with now := s.now + 1 }

end Steps

/-! ## What is asked of a run -/

section Conditions

variable {τ ο : Type} [DecidableEq τ] [DecidableEq ο]

/-- The objects that a WaitAll call has found signalled and has still to take. -/
def Pc.reserved : Pc ο → List ο
  | .check c i => c.objs.take i
  | .take c i => c.objs.drop i
  | _ => []

def Pc.isSingle : Pc ο → Bool
  | .single _ _ _ => true
  | _ => false

variable (s : Sys τ ο)

/-- No other thread's WaitAll counts on the object. -/
def Undisturbed (t : τ) (o : ο) : Prop :=
  (s.obj o).kind = .manual ∨ ∀ u, u ≠ t → o ∉ (s.pc u).reserved

/-- The condition on a thread's own step at `p`: what it takes nobody else counts on, and
one that a signal has popped reads the clock before its deadline. -/
def SafeAt (t : τ) : Pc ο → Prop
  | .scan c i | .take c i => ∀ o ∈ c.objs[i]?, Undisturbed s t o
  | .single o _ .try | .single o _ .lock => Undisturbed s t o
  | .single o deadline .clock => t ∈ s.popped o → ∀ d ∈ deadline, s.now < d
  | _ => True

/-- The condition on an `unblock` of a thread at `p`: if it sleeps in a wait for one
auto-reset event, its signal or its deadline has come. -/
def WakesAt (t : τ) : Pc ο → Prop
  | .single o deadline .parked =>
    (s.obj o).kind = .auto → t ∈ s.popped o ∨ ∃ d ∈ deadline, d ≤ s.now
  | _ => True

/-- The condition on the steps of a run. Also, a signal to an auto-reset event does not
find a multi-waiter at the head of the queue; a WaitAll does not list an auto-reset event
or a semaphore twice; and nobody resets an object that a WaitAll counts on. -/
def Act.Safe : Act τ ο → Prop
  | .beginMulti _ objs waitAll _ =>
    waitAll = true → (objs.filter fun o => (s.obj o).kind.isCounted).Nodup
  | .pollOne t o => Undisturbed s t o
  | .advance t => SafeAt s t (s.pc t)
  | .reset o => ∀ u, o ∉ (s.pc u).reserved
  | .signal o => (s.obj o).kind = .auto → ∀ t ∈ (s.queue o).head?, (s.pc t).isSingle = true
  | .unblock t => WakesAt s t (s.pc t)
  | .beginSingle _ _ _ | .release _ _ | .releaseMutant _ _ | .wake _ | .tick => True

section Decidability

variable [Fintype τ]

instance (s : Sys τ ο) (t : τ) (o : ο) : Decidable (Undisturbed s t o) :=
  inferInstanceAs (Decidable (_ ∨ _))

instance (s : Sys τ ο) (t : τ) : ∀ p : Pc ο, Decidable (SafeAt s t p)
  | .scan c i | .take c i => inferInstanceAs (Decidable (∀ o ∈ c.objs[i]?, Undisturbed s t o))
  | .single o _ .try | .single o _ .lock => inferInstanceAs (Decidable (Undisturbed s t o))
  | .single o deadline .clock =>
    inferInstanceAs (Decidable (t ∈ s.popped o → ∀ d ∈ deadline, s.now < d))
  | .single _ _ .parked | .single _ _ .remove | .single _ _ (.returned _) | .outside
  | .check _ _ | .clock _ | .locked _ _ | .parked _ | .remove _ _ | .woken _ | .returned _ _ =>
    inferInstanceAs (Decidable True)

omit [Fintype τ] in
instance (s : Sys τ ο) (t : τ) : ∀ p : Pc ο, Decidable (WakesAt s t p)
  | .single o deadline .parked =>
    inferInstanceAs (Decidable
      ((s.obj o).kind = .auto → t ∈ s.popped o ∨ ∃ d ∈ deadline, d ≤ s.now))
  | .single _ _ .try | .single _ _ .lock | .single _ _ .clock | .single _ _ .remove
  | .single _ _ (.returned _) | .outside | .scan _ _ | .check _ _ | .take _ _ | .clock _
  | .locked _ _ | .parked _ | .remove _ _ | .woken _ | .returned _ _ =>
    inferInstanceAs (Decidable True)

instance (s : Sys τ ο) : ∀ a : Act τ ο, Decidable (a.Safe s)
  | .beginMulti _ objs waitAll _ =>
    inferInstanceAs (Decidable
      (waitAll = true → (objs.filter fun o => (s.obj o).kind.isCounted).Nodup))
  | .pollOne t o => inferInstanceAs (Decidable (Undisturbed s t o))
  | .advance t => inferInstanceAs (Decidable (SafeAt s t (s.pc t)))
  | .reset o => inferInstanceAs (Decidable (∀ u, o ∉ (s.pc u).reserved))
  | .signal o =>
    inferInstanceAs (Decidable
      ((s.obj o).kind = .auto → ∀ t ∈ (s.queue o).head?, (s.pc t).isSingle = true))
  | .unblock t => inferInstanceAs (Decidable (WakesAt s t (s.pc t)))
  | .beginSingle _ _ _ | .release _ _ | .releaseMutant _ _ | .wake _ | .tick =>
    inferInstanceAs (Decidable True)

end Decidability

/-- Nobody waits, and a latched event counts as signalled once. -/
structure Start (s : Sys τ ο) : Prop where
  pc : ∀ t, s.pc t = .outside
  queue : ∀ o, s.queue o = []
  wakes : s.wakes = []
  popped : ∀ o, s.popped o = []
  signals : ∀ o, s.signals o = (s.obj o).latched
  consumed : ∀ o, s.consumed o = 0
  absorbed : ∀ o, s.absorbed o = 0

/-- A call returns with what its outcome says: one unit of the object at the index; one
unit of every listed occurrence; nothing. -/
def Call.Accounted (c : Call ο) : Outcome → Prop
  | .index i => c.waitAll = false ∧ i < c.objs.length ∧ c.taken = [i]
  | .all => c.waitAll = true ∧ c.taken = List.range c.objs.length
  | .timeout => c.taken = []

instance (c : Call ο) : ∀ r, Decidable (c.Accounted r)
  | .index i => inferInstanceAs (Decidable (c.waitAll = false ∧ i < c.objs.length ∧ c.taken = [i]))
  | .all => inferInstanceAs (Decidable (c.waitAll = true ∧ c.taken = List.range c.objs.length))
  | .timeout => inferInstanceAs (Decidable (c.taken = []))

/-- Every signal to the auto-reset event has been consumed by a successful wait, is
latched, has been absorbed by a latched one or cleared by a reset, or is under way to a
thread that a signal has popped. -/
def Conserved (o : ο) : Prop :=
  s.signals o = s.consumed o + (s.obj o).latched + s.absorbed o + (s.popped o).length

instance (s : Sys τ ο) (o : ο) : Decidable (Conserved s o) := inferInstanceAs (Decidable (_ = _))

end Conditions

end Thos.Wait.Multiple
