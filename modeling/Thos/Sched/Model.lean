import Thos.Lib.Run

/-!
# The kernel thread scheduler

`sched.rs` with any number `n` of CPUs. All of them schedule from one ready queue
under the `SCHED` lock; the steps below are its lock sections and the accesses made
outside it:

* `mark_blocking` and the first line of `unblock` store `wake_pending` without the
  lock, so an `unblock` is two steps and is listed in `waking` between them;
* `reschedule` and `exit` choose and install the next thread under the lock, then
  claim its `running` flag, then switch stacks, and only the thread that was switched
  to runs `finish_switch`. A CPU's `phase` says how far it is.

Interrupts are off from the lock section to `finish_switch`, so a CPU takes no other
step in between. Idle threads are one per CPU and run nothing but a halt loop.
-/

set_option autoImplicit false

namespace Thos.Sched

open Thos.Lib
open Function (update)

/-! ## State -/

/-- `State`. -/
inductive ThreadState
  | ready
  | running
  | blocked
  | exited
  deriving DecidableEq

/-- A thread: the idle thread of a CPU, or the thread numbered by `NEXT_TID`. Number
0 is the boot thread. -/
inductive Tid (n : Nat)
  | idle (cpu : Fin n)
  | user (id : Nat)
  deriving DecidableEq

instance lawfulBEqTid {n : Nat} : LawfulBEq (Tid n) := inferInstance

def Tid.isIdle {n : Nat} : Tid n → Bool
  | .idle _ => true
  | .user _ => false

/-- The fields of `Thread` the scheduler decides on. -/
structure Thread where
  state : ThreadState
  (running wakePending : Bool)
  deriving DecidableEq

/-- How far a CPU is in a context switch. -/
inductive Phase (n : Nat)
  /-- Not started yet. -/
  | off
  /-- Running its current thread. -/
  | run
  /-- Still on the stack of `prev`, waiting to claim `next`. -/
  | spin (prev next : Tid n)
  /-- Still on the stack of `prev`, with `next` claimed. -/
  | claimed (prev next : Tid n)
  /-- On the stack of its current thread, before `finish_switch`. -/
  | landed
  deriving DecidableEq

/-- `CpuSlot`. The idle thread of CPU `c` is `Tid.idle c`. -/
structure CpuSlot (n : Nat) where
  current : Option (Tid n)
  handoff : Option (Tid n × Bool)
  phase : Phase n
  deriving DecidableEq

/-- `Inner`, the threads, and the counters beside them. -/
structure Inner (n : Nat) where
  threads : Tid n → Thread
  ready : List (Tid n)
  cpus : Fin n → CpuSlot n
  graveyard : List (Tid n)
  (nextTid phantomsDropped : Nat)
  /-- Threads with an `unblock` between its store and its lock section. -/
  waking : List (Tid n)
  /-- Threads whose stack `reap` has freed. -/
  freed : List (Tid n)

variable {n : Nat} (s : Inner n)

def Inner.setState (t : Tid n) (st : ThreadState) : Inner n :=
  { s with threads := update s.threads t { s.threads t with state := st } }

/-- Store to `running`. -/
def Inner.setRunning (t : Tid n) (b : Bool) : Inner n :=
  { s with threads := update s.threads t { s.threads t with running := b } }

def Inner.setWake (t : Tid n) (b : Bool) : Inner n :=
  { s with threads := update s.threads t { s.threads t with wakePending := b } }

variable (c : Fin n)

def Inner.setCpu (slot : CpuSlot n) : Inner n := { s with cpus := update s.cpus c slot }

/-- The thread whose kernel stack a CPU executes on. -/
def Inner.onStack : Option (Tid n) :=
  match (s.cpus c).phase with
  | .off => none
  | .run | .landed => (s.cpus c).current
  | .spin prev _ | .claimed prev _ => some prev

/-! ## Lock sections -/

def isCurrent (cpus : Fin n → CpuSlot n) (t : Tid n) : Bool :=
  (List.finRange n).any fun c => (cpus c).current = some t

/-- The test of `pick_next` for an entry that has no business in the queue. -/
def stale (t : Tid n) : Bool :=
  (s.threads t).state = .running || (s.threads t).state = .exited || (s.threads t).running ||
    isCurrent s.cpus t

/-- The loop of `pick_next` over the queue: the entries dropped, the thread found and
the queue left. -/
def pickLoop (s : Inner n) : List (Tid n) → Nat × Option (Tid n) × List (Tid n)
  | [] => (0, none, [])
  | t :: q =>
    if stale s t then
      let (dropped, next, rest) := pickLoop s q
      (dropped + 1, next, rest)
    else (0, some t, q)

/-- `pick_next`: the next thread for CPU `c`, its idle thread when the queue is
empty. -/
def pickNext : Tid n × Inner n :=
  let (dropped, next, rest) := pickLoop s s.ready
  (next.getD (.idle c), { s with ready := rest, phantomsDropped := s.phantomsDropped + dropped })

/-- The lock section of `reschedule` on CPU `c`, whose current thread is `prev`. -/
def rescheduleLocked (prev : Tid n) (block : Bool) : Inner n :=
  if block && (s.threads prev).wakePending then s
  else
    let (next, s) := pickNext s c
    if prev = next then s
    else
      let s := if block then s.setState prev .blocked
        else if prev.isIdle then s else s.setState prev .ready
      let s := s.setState next .running
      s.setCpu c ⟨some next, some (prev, block), .spin prev next⟩

/-- The lock section of `exit` on CPU `c`, whose current thread is `prev`. -/
def exitLocked (prev : Tid n) : Inner n :=
  -- `current` is taken before the queue is searched
  let s := (s.setCpu c { s.cpus c with current := none }).setState prev .exited
  let (next, s) := pickNext s c
  let s := s.setState next .running
  let s := s.setCpu c ⟨some next, some (prev, true), .spin prev next⟩
  { s with graveyard := s.graveyard ++ [prev] }

/-- `finish_switch` on CPU `c`. -/
def finishSwitch : Inner n :=
  match (s.cpus c).handoff with
  | none => s.setCpu c { s.cpus c with phase := .run }
  | some (prev, wasBlocking) =>
    let s := s.setCpu c { s.cpus c with handoff := none, phase := .run }
    let requeue :=
      if (s.threads prev).state = .exited || prev.isIdle then false
      else if !wasBlocking then true
      else (s.threads prev).wakePending
    let s := if requeue && !s.ready.contains prev then
        { s.setState prev .ready with ready := s.ready ++ [prev] }
      else s
    s.setRunning prev false

/-- The lock section of `unblock`. -/
def unblockLocked (t : Tid n) : Inner n :=
  if (s.threads t).state ≠ .blocked || (s.threads t).running then s
  else
    let s := s.setState t .ready
    if s.ready.contains t then s else { s with ready := s.ready ++ [t] }

variable (ext : Tid n → Nat)

/-- `Arc::strong_count`: the references in the scheduler's tables and in the
`unblock` calls under way, and `ext` of them elsewhere (wait queues, locals). -/
def strongCount (t : Tid n) : Nat :=
  s.ready.count t + s.graveyard.count t + s.waking.count t +
    (List.finRange n).countP (fun c => (s.cpus c).current = some t) +
    (List.finRange n).countP (fun c => ((s.cpus c).handoff.map Prod.fst) = some t) + ext t

/-- The test of `reap`. -/
def isDead (t : Tid n) : Bool := !(s.threads t).running && strongCount s ext t = 1

/-- `reap`: frees every corpse that passes the test. The order of what is left in the
graveyard, which `swap_remove` changes, is not kept. -/
def reap : Inner n :=
  { s with
    graveyard := s.graveyard.filter fun t => !isDead s ext t
    freed := s.freed ++ s.graveyard.filter fun t => isDead s ext t }

/-- `spawn` and its variants. -/
def spawn : Inner n :=
  { s with
    threads := update s.threads (.user s.nextTid) ⟨.ready, false, false⟩
    ready := s.ready ++ [.user s.nextTid]
    nextTid := s.nextTid + 1 }

/-! ## Steps -/

/-- What the CPUs can do. -/
inductive Act (n : Nat)
  /-- An application processor adopts its idle thread. -/
  | cpuEnter (c : Fin n)
  | spawn
  /-- `mark_blocking` of the current thread of a CPU. -/
  | markBlocking (c : Fin n)
  /-- `yield_now` or `on_tick`. -/
  | yieldNow (c : Fin n)
  | blockCurrent (c : Fin n)
  | exit (c : Fin n)
  /-- The store to `wake_pending` that starts an `unblock`. -/
  | unblockStore (t : Tid n)
  /-- The lock section that ends an `unblock`. -/
  | unblockLock (t : Tid n)
  /-- The `swap` on `running` that finds it clear. -/
  | claim (c : Fin n)
  /-- `thos_ctx_switch`. -/
  | ctxSwitch (c : Fin n)
  | finishSwitch (c : Fin n)
  | reap (ext : Tid n → Nat)

/-- The current thread of a CPU that runs it. -/
def runningOn : Option (Tid n) := if (s.cpus c).phase = .run then (s.cpus c).current else none

/-- The current thread of a CPU that runs it, if it is not the idle thread: the halt
loop of the latter calls nothing. -/
def userOn : Option (Tid n) := (runningOn s c).filter fun t => !t.isIdle

/-- One step; `none` if it is not enabled. -/
def step : Act n → Option (Inner n)
  | .cpuEnter c =>
    if (s.cpus c).phase = .off then
      some ({ s with threads := update s.threads (.idle c) ⟨.running, true, false⟩ }.setCpu
        c ⟨some (.idle c), none, .run⟩)
    else none
  | .spawn => some (spawn s)
  | .markBlocking c => (userOn s c).map fun t => s.setWake t false
  | .yieldNow c => (runningOn s c).map fun t => rescheduleLocked s c t false
  | .blockCurrent c => (userOn s c).map fun t => rescheduleLocked s c t true
  | .exit c => (userOn s c).map fun t => exitLocked s c t
  | .unblockStore t =>
    -- the caller holds a reference to a thread that exists
    match t with
    | .idle _ => none
    | .user id =>
      if id < s.nextTid ∧ t ∉ s.freed then
        some { s.setWake t true with waking := s.waking ++ [t] }
      else none
  | .unblockLock t =>
    if t ∈ s.waking then some { unblockLocked s t with waking := s.waking.erase t } else none
  | .claim c =>
    match (s.cpus c).phase with
    | .spin prev next =>
      if (s.threads next).running then none
      else some ((s.setRunning next true).setCpu c
        { s.cpus c with phase := .claimed prev next })
    | _ => none
  | .ctxSwitch c =>
    match (s.cpus c).phase with
    | .claimed _ _ => some (s.setCpu c { s.cpus c with phase := .landed })
    | _ => none
  | .finishSwitch c =>
    if (s.cpus c).phase = .landed then some (Thos.Sched.finishSwitch s c) else none
  | .reap ext => some (reap s ext)

end Thos.Sched
