import Thos.Sched.Safety

/-!
# An auto-reset event

One auto-reset `Event` of `wait.rs` over the scheduler, with any number of threads
that signal it, try it, wait for it and wait for it with a deadline, and the timer
wheel that wakes the timed waiters. A waiter marks itself blocking and enqueues under
the queue lock, arms the wheel, and blocks; once it runs again it returns at once, or
(timed) takes itself off the queue and the wheel and reads the clock. For an
auto-reset event the wakeup is the signal: nothing is checked again.

A thread may also be woken by others: an `unblock` that is left from a wait on some
other object is a scheduler step here.

The counters at the end of the state are not in the source. They count what the
callers see.
-/

set_option autoImplicit false

namespace Thos.Wait

open Thos.Lib Thos.Sched

/-! ## State -/

/-- Where a thread is in a wait on the event. -/
inductive Pc
  | outside
  /-- Enqueued and marked blocking. -/
  | enqueued (deadline : Option Nat)
  /-- Armed on the timer wheel. -/
  | armed (deadline : Nat)
  /-- In `block_current`. -/
  | sleeping (deadline : Option Nat)
  /-- Running again, before it leaves the queue. -/
  | resumed (deadline : Nat)
  /-- Off the queue, before it leaves the wheel. -/
  | removed (deadline : Nat)
  /-- Off the wheel, before it reads the clock. -/
  | disarmed (deadline : Nat)
  deriving DecidableEq

/-- The deadline of the wait. -/
@[simp]
def Pc.deadline : Pc → Option Nat
  | .outside => none
  | .enqueued d | .sleeping d => d
  | .armed d | .resumed d | .removed d | .disarmed d => some d

/-- The thread is on the event's queue unless a signal has popped it. -/
@[simp]
def Pc.onQueue : Pc → Bool
  | .enqueued _ | .armed _ | .sleeping _ | .resumed _ => true
  | _ => false

/-- The thread may have an entry in the wheel. -/
@[simp]
def Pc.onWheel : Pc → Bool
  | .armed _ | .sleeping _ | .resumed _ | .removed _ => true
  | _ => false

/-- How far CPU 0 is in `timer::tick`. -/
inductive TickPhase (n : Nat)
  | idle
  /-- The clock is advanced, the wheel not locked yet. -/
  | ticked
  /-- Walking the wheel under its lock. -/
  | walking
  /-- In the `unblock` of a thread whose entry has expired, with the wheel locked. -/
  | waking (t : Tid n)
  deriving DecidableEq

/-- The event, the timer and the threads. -/
structure Sys (n : Nat) where
  sched : Inner n
  signaled : Bool
  queue : List (Tid n)
  wheel : List (Nat × Tid n)
  now : Nat
  tick : TickPhase n
  pc : Tid n → Pc
  /-- Threads popped by a `signal` that has not started their `unblock` yet. -/
  toUnblock : List (Tid n)
  /-- Threads popped by a signal whose call has not returned. -/
  popped : List (Tid n)
  /-- Calls of `signal`. -/
  signals : Nat
  /-- Calls of `wait`, `wait_until` and `try_take` that reported success. -/
  successes : Nat
  /-- Calls by threads popped by a signal that reported a timeout. -/
  lost : Nat

variable {n : Nat} (s : Sys n)

def Sys.setPc (t : Tid n) (p : Pc) : Sys n := { s with pc := Function.update s.pc t p }

/-! ## Steps -/

/-- What can happen. -/
inductive Act (n : Nat)
  /-- A step of the scheduler by a thread outside the waits on this event, or an
  `unblock` by a waker of some other object. -/
  | sched (a : Sched.Act n)
  /-- `Event::signal`, up to the end of its queue lock. -/
  | signal
  /-- The `unblock` of a thread that a signal popped. -/
  | signalUnblock (t : Tid n)
  | tryTake
  /-- `wait` or `wait_until` by the thread on CPU `c`, to the end of the queue lock. -/
  | beginWait (c : Fin n) (deadline : Option Nat)
  | arm (c : Fin n)
  | block (c : Fin n)
  /-- The thread on CPU `c` comes back from `block_current`. -/
  | resume (c : Fin n)
  | remove (c : Fin n)
  | disarm (c : Fin n)
  /-- The thread on CPU `c` reads the clock and returns. -/
  | finish (c : Fin n)
  | tick
  | tickLock
  /-- `tick` drops an expired entry and stores the thread's wake. -/
  | tickExpire (d : Nat) (t : Tid n)
  /-- The lock section of that `unblock`. -/
  | tickUnblock
  | tickEnd

/-- The thread that takes a scheduler step by itself. -/
def actor (s : Inner n) : Sched.Act n → Option (Tid n)
  | .markBlocking c | .yieldNow c | .blockCurrent c | .exit c => runningOn s c
  | _ => none

/-- The wheel's lock is free. -/
def TickPhase.unlocked : TickPhase n → Bool
  | .idle | .ticked => true
  | _ => false

/-- A call returns with success. -/
def Sys.succeed (t : Tid n) : Sys n :=
  { s.setPc t .outside with popped := s.popped.erase t, successes := s.successes + 1 }

/-- A call returns with a timeout. -/
def Sys.timeOut (t : Tid n) : Sys n :=
  { s.setPc t .outside with
    popped := s.popped.erase t
    lost := if t ∈ s.popped then s.lost + 1 else s.lost }

/-- One step; `none` if it is not enabled. -/
def step (s : Sys n) : Act n → Option (Sys n)
  | .sched a =>
    -- inside a wait a thread takes no scheduler step but those of the wait
    if ∀ t ∈ actor s.sched a, s.pc t = .outside then
      (Sched.step s.sched a).map fun sched => { s with sched }
    else none
  | .signal =>
    match s.queue with
    | [] => some { s with signaled := true, signals := s.signals + 1 }
    | t :: q =>
      some { s with
        queue := q
        toUnblock := s.toUnblock ++ [t]
        popped := s.popped ++ [t]
        signals := s.signals + 1 }
  | .signalUnblock t =>
    if t ∈ s.toUnblock then
      (Sched.step s.sched (.unblockStore t)).map fun sched =>
        { s with sched, toUnblock := s.toUnblock.erase t }
    else none
  | .tryTake =>
    some { s with
      signaled := false
      successes := if s.signaled then s.successes + 1 else s.successes }
  | .beginWait c deadline =>
    (userOn s.sched c).bind fun t =>
      if s.pc t ≠ .outside then none
      else if s.signaled then
        -- the latched signal is consumed under the queue lock
        some { s with signaled := false, successes := s.successes + 1 }
      else
        (Sched.step s.sched (.markBlocking c)).map fun sched =>
          { s.setPc t (.enqueued deadline) with sched, queue := s.queue ++ [t] }
  | .arm c =>
    (userOn s.sched c).bind fun t =>
      match s.pc t with
      | .enqueued (some d) =>
        if s.tick.unlocked then
          some { s.setPc t (.armed d) with wheel := s.wheel ++ [(d, t)] }
        else none
      | _ => none
  | .block c =>
    (userOn s.sched c).bind fun t =>
      match s.pc t with
      | .enqueued none =>
        (Sched.step s.sched (.blockCurrent c)).map fun sched =>
          { s.setPc t (.sleeping none) with sched }
      | .armed d =>
        (Sched.step s.sched (.blockCurrent c)).map fun sched =>
          { s.setPc t (.sleeping (some d)) with sched }
      | _ => none
  | .resume c =>
    (userOn s.sched c).bind fun t =>
      match s.pc t with
      | .sleeping none => some (s.succeed t)
      | .sleeping (some d) => some (s.setPc t (.resumed d))
      | _ => none
  | .remove c =>
    (userOn s.sched c).bind fun t =>
      match s.pc t with
      | .resumed d => some { s.setPc t (.removed d) with queue := s.queue.filter (· ≠ t) }
      | _ => none
  | .disarm c =>
    (userOn s.sched c).bind fun t =>
      match s.pc t with
      | .removed d =>
        if s.tick.unlocked then
          some { s.setPc t (.disarmed d) with wheel := s.wheel.eraseP fun e => e.2 = t }
        else none
      | _ => none
  | .finish c =>
    (userOn s.sched c).bind fun t =>
      match s.pc t with
      | .disarmed d => some (if d ≤ s.now then s.timeOut t else s.succeed t)
      | _ => none
  | .tick => if s.tick = .idle then some { s with now := s.now + 1, tick := .ticked } else none
  | .tickLock => if s.tick = .ticked then some { s with tick := .walking } else none
  | .tickExpire d t =>
    if s.tick = .walking ∧ (d, t) ∈ s.wheel ∧ d ≤ s.now then
      (Sched.step s.sched (.unblockStore t)).map fun sched =>
        { s with sched, tick := .waking t, wheel := s.wheel.erase (d, t) }
    else none
  | .tickUnblock =>
    match s.tick with
    | .waking t =>
      (Sched.step s.sched (.unblockLock t)).map fun sched => { s with sched, tick := .walking }
    | _ => none
  | .tickEnd =>
    if s.tick = .walking ∧ ∀ e ∈ s.wheel, s.now < e.1 then some { s with tick := .idle } else none

/-- The event before anyone has used it: not signalled, nobody waiting, and the
scheduler in any state it can reach. -/
structure Start (s : Sys (n + 1)) : Prop where
  sched : Reach Sched.step (boot n) s.sched
  signaled : s.signaled = false
  queue : s.queue = []
  wheel : s.wheel = []
  tick : s.tick = .idle
  pc : ∀ t, s.pc t = .outside
  toUnblock : s.toUnblock = []
  popped : s.popped = []
  signals : s.signals = 0
  successes : s.successes = 0
  lost : s.lost = 0

/-- An event made right after boot. -/
def fresh (n : Nat) : Sys (n + 1) where
  sched := boot n
  signaled := false
  queue := []
  wheel := []
  now := 0
  tick := .idle
  pc := fun _ => .outside
  toUnblock := []
  popped := []
  signals := 0
  successes := 0
  lost := 0

theorem start_fresh (n : Nat) : Start (fresh n) where
  sched := .refl _
  signaled := rfl
  queue := rfl
  wheel := rfl
  tick := rfl
  pc _ := rfl
  toUnblock := rfl
  popped := rfl
  signals := rfl
  successes := rfl
  lost := rfl

/-- The condition on the steps of a run: an `unblock` by the waker of another object
finds its thread outside the waits on this event; a thread that is about to block on
the event has no `unblock` under way; and a timed waiter that a signal has popped
reads the clock before its deadline. -/
def Act.Safe : Act n → Prop
  | .sched (.unblockStore t) => s.pc t = .outside
  | .beginWait c _ => ∀ t ∈ userOn s.sched c, s.signaled = false → t ∉ s.sched.waking
  | .finish c => ∀ t ∈ userOn s.sched c, t ∈ s.popped → ∀ d ∈ (s.pc t).deadline, s.now < d
  | _ => True

instance (s : Sys n) : ∀ a : Act n, Decidable (a.Safe s)
  | .sched (.unblockStore t) => inferInstanceAs (Decidable (s.pc t = .outside))
  | .beginWait c _ =>
    inferInstanceAs (Decidable (∀ t ∈ userOn s.sched c, s.signaled = false → t ∉ s.sched.waking))
  | .finish c =>
    inferInstanceAs (Decidable
      (∀ t ∈ userOn s.sched c, t ∈ s.popped → ∀ d ∈ (s.pc t).deadline, s.now < d))
  | .sched (.cpuEnter _) | .sched .spawn | .sched (.markBlocking _) | .sched (.yieldNow _)
  | .sched (.blockCurrent _) | .sched (.exit _) | .sched (.unblockLock _) | .sched (.claim _)
  | .sched (.ctxSwitch _) | .sched (.finishSwitch _) | .sched (.reap _) | .signal
  | .signalUnblock _ | .tryTake | .arm _ | .block _ | .resume _ | .remove _ | .disarm _ | .tick
  | .tickLock | .tickExpire _ _ | .tickUnblock | .tickEnd => inferInstanceAs (Decidable True)

/-- Successes, the latched signal and the popped waiters are paid for by signals, and
no popped waiter's call reported a timeout. -/
def Conserved : Prop :=
  s.successes + (if s.signaled then 1 else 0) + s.popped.length ≤ s.signals ∧ s.lost = 0

end Thos.Wait
