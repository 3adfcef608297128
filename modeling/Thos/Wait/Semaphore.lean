import Thos.Lib.Run

/-!
# A counting semaphore

`Semaphore` of `wait.rs` over its wait queue and the timer wheel. The count is an atomic
that `try_take` and `release` change by compare-and-swap outside the queue lock; a waiter
checks it again under the lock before it enqueues, and a release wakes after the swap, one
thread for each unit. Every access to the count, every section under the queue lock and
every section under the wheel lock is one step. Of the scheduler only this is left: a
thread that has marked itself blocking comes back from `block_current` once it has been
unblocked.

The fields at the end of the state are not in the source. `woken` are the threads that a
release has popped and that have not come to the end of their next `try_take`, `wakes` are
the wakes that a release has still to do.
-/

set_option autoImplicit false

namespace Thos.Wait.Semaphore

open Thos.Lib Function List Option

/-- Which call a thread is in when it tries to take a unit. -/
inductive Call
  | tryTake
  /-- `wait`, or `wait_until` with its deadline. -/
  | wait (deadline : Option Nat)
  deriving DecidableEq

/-- The step that a thread takes next. -/
inductive Pc
  | outside
  /-- `count.load` of `try_take`. -/
  | loading (k : Call)
  /-- The compare-and-swap of `try_take`, with what it loaded. -/
  | taking (k : Call) (c : Int)
  /-- The check of `wait_if` under the queue lock. -/
  | checking (deadline : Option Nat)
  /-- Enqueued and marked blocking; a timed wait arms the wheel. -/
  | enqueued (deadline : Option Nat)
  /-- Armed on the wheel. -/
  | armed (deadline : Nat)
  /-- In `block_current`. -/
  | asleep (deadline : Option Nat)
  /-- Running again, before it leaves the queue. -/
  | resumed (deadline : Nat)
  /-- Off the queue, before it leaves the wheel. -/
  | removed (deadline : Nat)
  /-- Off the wheel, before it reads the clock. -/
  | disarmed (deadline : Nat)
  /-- `count.load` of `release`. -/
  | adding (n : Int)
  /-- The compare-and-swap of `release`, with what it loaded. -/
  | posting (n c : Int)
  /-- `wake_one`, this many times at most. -/
  | waking (n : Nat)
  deriving DecidableEq

/-- How far CPU 0 is in `timer::tick`. -/
inductive TickPhase
  | idle
  /-- The clock is advanced, the wheel not locked yet. -/
  | ticked
  /-- Walking the wheel under its lock. -/
  | walking
  deriving DecidableEq

/-- The semaphore, the timer and the threads. -/
structure State (T : Type) where
  count : Int
  queue : List T
  wheel : List (Nat × T)
  now : Nat
  tick : TickPhase
  /-- The thread has been unblocked since it marked itself blocking. -/
  ready : T → Bool
  pc : T → Pc
  /-- Successful takes. -/
  taken : Nat
  /-- Units of successful releases. -/
  given : Int
  (woken wakes : List T)

variable {T : Type} [DecidableEq T]

namespace State

variable (s : State T)

/-- The thread goes on to another step. -/
def goto (t : T) (p : Pc) : State T := { s with pc := update s.pc t p }

/-- The thread's try is over. -/
def settled (t : T) : State T := { s with woken := s.woken.erase t }

/-- The loop of `try_take` after a load of the count. -/
def retryTake (t : T) (k : Call) : State T :=
  if s.count ≤ 0 then
    (s.settled t).goto t (match k with
      | .tryTake => .outside
      | .wait d => .checking d)
  else s.goto t (.taking k s.count)

def i32Max : Int := 2 ^ 31 - 1

/-- The loop of `release` after a load of the count. -/
def retryRelease (limit : Int) (t : T) (n : Int) : State T :=
  if n ≤ 0 ∨ i32Max < s.count + n ∨ limit < s.count + n then s.goto t .outside
  else s.goto t (.posting n s.count)

end State

/-- A semaphore that nobody has used. -/
def new (initial : Int) (now : Nat) : State T where
  count := initial
  queue := []
  wheel := []
  now := now
  tick := .idle
  ready _ := false
  pc _ := .outside
  taken := 0
  given := 0
  woken := []
  wakes := []

/-- The next step of the call that thread `t` is in; `weak` is whether a compare-and-swap
fails without need. -/
def advance (limit : Int) (s : State T) (t : T) (weak : Bool) : Option (State T) :=
  match s.pc t with
  | .outside => none
  | .loading k => some (s.retryTake t k)
  | .taking k c =>
    if s.count = c ∧ weak = false then
      some ({ s with count := c - 1, taken := s.taken + 1 }.settled t |>.goto t .outside)
    else some (s.retryTake t k)
  | .checking d =>
    if 0 < s.count then some (s.goto t (.loading (.wait d)))
    else
      some ({ s with queue := s.queue ++ [t], ready := update s.ready t false }.goto t
        (.enqueued d))
  | .enqueued none => some (s.goto t (.asleep none))
  | .enqueued (some d) =>
    if s.tick = .walking then none else some
      ({ s with wheel := s.wheel ++ [(d, t)] }.goto t (.armed d))
  | .armed d => some (s.goto t (.asleep (some d)))
  | .asleep d =>
    if s.ready t then
      some (s.goto t (match d with
        | none => .loading (.wait none)
        | some d => .resumed d))
    else none
  | .resumed d => some ({ s with queue := s.queue.filter (· ≠ t) }.goto t (.removed d))
  | .removed d =>
    if s.tick = .walking then none
    else some ({ s with wheel := s.wheel.eraseP fun e => e.2 = t }.goto t (.disarmed d))
  | .disarmed d =>
    some (if d ≤ s.now then (s.settled t).goto t .outside else s.goto t (.loading (.wait (some d))))
  | .adding n => some (s.retryRelease limit t n)
  | .posting n c =>
    if s.count = c ∧ weak = false then
      some ({ s with
        count := c + n
        given := s.given + n
        wakes := List.replicate n.toNat t ++ s.wakes }.goto t (.waking n.toNat))
    else some (s.retryRelease limit t n)
  | .waking 0 => some (s.goto t .outside)
  | .waking (n + 1) =>
    -- `unblock` runs under the queue lock: the guard lives to the end of the match
    match s.queue with
    | [] => some ({ s with wakes := s.wakes.filter (· ≠ t) }.goto t .outside)
    | u :: q =>
      some ({ s with
        queue := q
        ready := update s.ready u true
        woken := s.woken ++ [u]
        wakes := s.wakes.erase t }.goto t (.waking n))

/-- What can happen. -/
inductive Act (T : Type)
  /-- A thread calls `try_take`, `wait` or `wait_until`. -/
  | call (t : T) (k : Call)
  /-- A thread calls `release`. -/
  | release (t : T) (n : Int)
  /-- A thread that is in a call takes its next step. -/
  | next (t : T) (weak : Bool)
  | tick
  | tickLock
  /-- `tick` drops an expired entry and unblocks the thread. -/
  | expire (d : Nat) (t : T)
  | tickEnd

def step (limit : Int) (s : State T) : Act T → Option (State T)
  | .call t k => if s.pc t = .outside then some (s.goto t (.loading k)) else none
  | .release t n => if s.pc t = .outside then some (s.goto t (.adding n)) else none
  | .next t weak => advance limit s t weak
  | .tick => if s.tick = .idle then some { s with now := s.now + 1, tick := .ticked } else none
  | .tickLock => if s.tick = .ticked then some { s with tick := .walking } else none
  | .expire d t =>
    if s.tick = .walking ∧ (d, t) ∈ s.wheel ∧ d ≤ s.now then
      some { s with wheel := s.wheel.erase (d, t), ready := update s.ready t true }
    else none
  | .tickEnd =>
    if s.tick = .walking ∧ ∀ e ∈ s.wheel, s.now < e.1 then some { s with tick := .idle } else none

/-- The condition on the steps of a run: a timed waiter that a release has popped reads the
clock before its deadline. -/
def Act.InTime (s : State T) : Act T → Prop
  | .next t _ => t ∈ s.woken → ∀ d, s.pc t = .disarmed d → s.now < d
  | _ => True

instance (s : State T) : ∀ a : Act T, Decidable (a.InTime s)
  | .next t _ =>
    match hp : s.pc t with
    | .disarmed d => decidable_of_iff (t ∈ s.woken → s.now < d) (by simp [Act.InTime, hp])
    | .outside | .loading _ | .taking _ _ | .checking _ | .enqueued _ | .armed _ | .asleep _
    | .resumed _ | .removed _ | .adding _ | .posting _ _ | .waking _ =>
      isTrue fun _ d hd => by simp [hp] at hd
  | .call _ _ | .release _ _ | .tick | .tickLock | .expire _ _ | .tickEnd =>
    inferInstanceAs (Decidable True)

/-- The thread is in a wait and has yet to find out whether it gets a unit. -/
def Pc.retries : Pc → Bool
  | .loading (.wait _) | .taking (.wait _) _ => true
  | .enqueued _ | .armed _ | .asleep _ | .resumed _ | .removed _ | .disarmed _ => true
  | _ => false

/-- Nobody stands on the queue while there are units, unless a woken thread has still to retry
its take or a release has still to do a wake. -/
def NoneForgotten (s : State T) : Prop :=
  s.queue ≠ [] → 0 < s.count →
    (∃ t ∈ s.woken, (s.pc t).retries = true) ∨ ∃ t n, s.pc t = .waking (n + 1)

/-! ## The count -/

/-- The count is within its limits and balances; a compare-and-swap that a thread is about to
do would keep it so. -/
structure Counts (limit initial : Int) (s : State T) : Prop where
  low : 0 ≤ s.count
  high : s.count ≤ limit
  sum : s.count = initial + s.given - s.taken
  taking : ∀ t k c, s.pc t = .taking k c → 0 < c
  posting : ∀ t n c, s.pc t = .posting n c → 0 < n ∧ c + n ≤ limit

section Counts

variable {limit initial : Int} {s s' : State T} (h : Counts limit initial s)
include h

omit [DecidableEq T] in
theorem Counts.congr (hcount : s'.count = s.count) (hgiven : s'.given = s.given)
    (htaken : s'.taken = s.taken) (hpc : s'.pc = s.pc) : Counts limit initial s' where
  low := hcount ▸ h.low
  high := hcount ▸ h.high
  sum := by rw [hcount, hgiven, htaken, h.sum]
  taking := hpc ▸ h.taking
  posting := hpc ▸ h.posting

theorem Counts.goto (t : T) {p : Pc} (htaking : ∀ k c, p = .taking k c → 0 < c)
    (hposting : ∀ n c, p = .posting n c → 0 < n ∧ c + n ≤ limit) :
    Counts limit initial (s.goto t p) where
  __ := h
  taking := (forall_update_iff s.pc fun _ p => ∀ k c, p = .taking k c → 0 < c).2
    ⟨htaking, fun u _ => h.taking u⟩
  posting := (forall_update_iff s.pc fun _ p => ∀ n c, p = .posting n c → 0 < n ∧ c + n ≤ limit).2
    ⟨hposting, fun u _ => h.posting u⟩

theorem Counts.settled (t : T) : Counts limit initial (s.settled t) := h.congr rfl rfl rfl rfl

theorem Counts.retryTake (t : T) (k : Call) : Counts limit initial (s.retryTake t k) := by
  unfold State.retryTake
  split_ifs with hc
  · cases k with
    | tryTake | wait d => exact (h.settled t).goto t nofun nofun
  · refine h.goto t (fun k c heq => ?_) nofun
    cases heq
    omega

theorem Counts.retryRelease (t : T) (n : Int) :
    Counts limit initial (s.retryRelease limit t n) := by
  unfold State.retryRelease
  split_ifs with hn
  · exact h.goto t nofun nofun
  · refine h.goto t nofun fun n c heq => ?_
    cases heq
    omega

theorem advance_counts {t : T} {weak : Bool}
    (hs : advance limit s t weak = some s') : Counts limit initial s' := by
  cases hp : s.pc t <;> simp only [advance, hp, some.injEq, reduceCtorEq,
    ite_none_right_eq_some, ite_none_left_eq_some] at hs
  case loading k => exact hs ▸ h.retryTake t k
  case taking k c =>
    split_ifs at hs with hc <;> cases hs
    · have hpos := h.taking t k c hp
      have hsum := h.sum
      have hhigh := h.high
      have hnew : Counts limit initial { s with count := c - 1, taken := s.taken + 1 } := by
        refine ⟨?_, ?_, ?_, h.taking, h.posting⟩
        · show 0 ≤ c - 1
          omega
        · show c - 1 ≤ limit
          omega
        · show c - 1 = initial + s.given - ((s.taken + 1 : Nat) : Int)
          omega
      exact (hnew.settled t).goto t nofun nofun
    · exact h.retryTake t k
  case checking d =>
    split_ifs at hs <;> cases hs
    · exact h.goto t nofun nofun
    · refine Counts.goto ?_ t nofun nofun
      exact h.congr rfl rfl rfl rfl
  case enqueued d =>
    cases d with
    | none =>
      simp only [some.injEq] at hs
      exact hs ▸ h.goto t nofun nofun
    | some d =>
      simp only [ite_none_left_eq_some, some.injEq] at hs
      obtain ⟨-, rfl⟩ := hs
      refine Counts.goto ?_ t nofun nofun
      exact h.congr rfl rfl rfl rfl
  case armed d => exact hs ▸ h.goto t nofun nofun
  case asleep d => cases d <;> exact hs.2 ▸ h.goto t nofun nofun
  case resumed d =>
    subst hs
    refine Counts.goto ?_ t nofun nofun
    exact h.congr rfl rfl rfl rfl
  case removed d =>
    obtain ⟨-, rfl⟩ := hs
    refine Counts.goto ?_ t nofun nofun
    exact h.congr rfl rfl rfl rfl
  case disarmed d =>
    split_ifs at hs <;> cases hs
    · exact (h.settled t).goto t nofun nofun
    · exact h.goto t nofun nofun
  case adding n => exact hs ▸ h.retryRelease t n
  case posting n c =>
    split_ifs at hs with hc <;> cases hs
    · obtain ⟨hn, hle⟩ := h.posting t n c hp
      have hlow := h.low
      have hsum := h.sum
      refine Counts.goto ?_ t nofun nofun
      refine ⟨?_, hle, ?_, h.taking, h.posting⟩
      · show 0 ≤ c + n
        omega
      · show c + n = initial + (s.given + n) - s.taken
        omega
    · exact h.retryRelease t n
  case waking n =>
    cases n with
    | zero =>
      simp only [some.injEq] at hs
      exact hs ▸ h.goto t nofun nofun
    | succ n =>
      cases hq : s.queue with
      | nil | cons u q =>
        simp only [hq, some.injEq] at hs
        subst hs
        refine Counts.goto ?_ t nofun nofun
        exact h.congr rfl rfl rfl rfl

theorem step_counts {a : Act T} (hs : step limit s a = some s') : Counts limit initial s' := by
  cases a with
  | call t k | release t n =>
    simp only [step, ite_none_right_eq_some, some.injEq] at hs
    exact hs.2 ▸ h.goto t nofun nofun
  | next t weak => exact advance_counts h hs
  | tick | tickLock | expire _ _ | tickEnd =>
    obtain ⟨-, ⟨⟩⟩ := ite_none_right_eq_some.1 hs
    exact h.congr rfl rfl rfl rfl

end Counts

/-! ## Who stands where -/

/-- The thread is on the queue unless a release has popped it. -/
def Pc.onQueue : Pc → Bool
  | .enqueued _ | .armed _ | .asleep _ | .resumed _ => true
  | _ => false

/-- The thread may have an entry in the wheel. -/
def Pc.onWheel : Pc → Bool
  | .armed _ | .asleep (some _) | .resumed _ | .removed _ => true
  | _ => false

/-- The wakes that a release has still to do. -/
def Pc.remaining : Pc → Nat
  | .waking n => n
  | _ => 0

/-- What the queue, the wheel and the counters say about one thread. -/
structure Good (s : State T) (t : T) : Prop where
  queue : t ∈ s.queue → (s.pc t).onQueue = true ∧ t ∉ s.woken
  /-- Without a deadline only a release unblocks. -/
  blocked : t ∈ s.queue → (s.pc t).onWheel = false → s.ready t = false
  wheel : ∀ d, (d, t) ∈ s.wheel → (s.pc t).onWheel = true
  woken : t ∈ s.woken → (s.pc t).retries = true
  wakes : s.wakes.count t = (s.pc t).remaining

/-- While somebody stands on the queue, there are no more units than threads that are woken
and wakes that are still to be done. -/
structure Inv (s : State T) : Prop where
  good : ∀ t, Good s t
  queueNodup : s.queue.Nodup
  wokenNodup : s.woken.Nodup
  wheelNodup : (s.wheel.map Prod.snd).Nodup
  covered : s.queue ≠ [] → s.count ≤ s.woken.length + s.wakes.length

theorem inv_new (initial : Int) (now : Nat) : Inv (new initial now : State T) where
  good _ := ⟨nofun, nofun, nofun, nofun, rfl⟩
  queueNodup := nodup_nil
  wokenNodup := nodup_nil
  wheelNodup := nodup_nil
  covered h := absurd rfl h

theorem Inv.noneForgotten {s : State T} (h : Inv s) : NoneForgotten s := by
  intro hq hc
  have hcov := h.covered hq
  by_cases hw : s.woken = []
  · -- then a wake is still to be done, and its thread is at it
    have hlen : 0 < s.wakes.length := by
      rw [hw, length_nil] at hcov
      omega
    obtain ⟨t, ht⟩ := exists_mem_of_length_pos hlen
    have hcount := (h.good t).wakes
    have hpos := count_pos_iff.2 ht
    cases hp : s.pc t <;> rw [hp] at hcount <;> simp only [Pc.remaining] at hcount
    case waking n =>
      obtain ⟨m, rfl⟩ : ∃ m, n = m + 1 := ⟨n - 1, by omega⟩
      exact .inr ⟨t, m, hp⟩
    all_goals omega
  · obtain ⟨t, ht⟩ := exists_mem_of_ne_nil _ hw
    exact .inl ⟨t, ht, (h.good t).woken ht⟩

section Steps

variable {limit : Int} {s s' : State T} {t : T} {p q : Pc}

theorem Good.other {u : T} (h : Good s u) (hpc : s'.pc u = s.pc u)
    (hqueue : u ∈ s'.queue → u ∈ s.queue) (hready : s'.ready u = s.ready u)
    (hwheel : ∀ d, (d, u) ∈ s'.wheel → (d, u) ∈ s.wheel) (hwoken : u ∈ s'.woken ↔ u ∈ s.woken)
    (hwakes : s'.wakes.count u = s.wakes.count u) : Good s' u where
  queue hu := by
    rw [hpc, hwoken]
    exact h.queue (hqueue hu)
  blocked hu := by
    rw [hpc, hready]
    exact h.blocked (hqueue hu)
  wheel d hd := by
    rw [hpc]
    exact h.wheel d (hwheel d hd)
  woken hu := by
    rw [hpc]
    exact h.woken (hwoken.1 hu)
  wakes := by rw [hwakes, h.wakes, hpc]

theorem Inv.notMem_queue (h : Inv s) (hp : s.pc t = p) (hoff : p.onQueue = false) :
    t ∉ s.queue := fun hq => by
  have := ((h.good t).queue hq).1
  rw [hp, hoff] at this
  cases this

theorem Inv.notMem_woken (h : Inv s) (hp : s.pc t = p) (hoff : p.retries = false) :
    t ∉ s.woken := fun hw => by
  have := (h.good t).woken hw
  rw [hp, hoff] at this
  cases this

theorem Inv.count_wakes (h : Inv s) (hp : s.pc t = p) {n : Nat} (hn : p.remaining = n) :
    s.wakes.count t = n := by
  rw [(h.good t).wakes, hp, hn]

theorem inv_goto (hother : ∀ u, u ≠ t → Good s u)
    (hqueue : t ∈ s.queue → p.onQueue = true ∧ t ∉ s.woken)
    (hblk : t ∈ s.queue → p.onWheel = false → s.ready t = false)
    (hwheel : ∀ d, (d, t) ∈ s.wheel → p.onWheel = true) (hwoken : t ∈ s.woken → p.retries = true)
    (hwakes : s.wakes.count t = p.remaining) (hqueueNodup : s.queue.Nodup)
    (hwokenNodup : s.woken.Nodup) (hwheelNodup : (s.wheel.map Prod.snd).Nodup)
    (hcovered : s.queue ≠ [] → s.count ≤ s.woken.length + s.wakes.length) : Inv (s.goto t p) := by
  refine ⟨fun u => ?_, hqueueNodup, hwokenNodup, hwheelNodup, hcovered⟩
  by_cases hu : u = t
  · subst hu
    have hp : (s.goto u p).pc u = p := update_self ..
    constructor <;> rw [hp]
    exacts [hqueue, hblk, hwheel, hwoken, hwakes]
  · exact (hother u hu).other (update_of_ne hu ..) id rfl (fun _ => id) .rfl rfl

section

variable (h : Inv s)
include h

theorem Inv.goto (hqueue : t ∈ s.queue → p.onQueue = true)
    (hblk : t ∈ s.queue → p.onWheel = false → s.ready t = false)
    (hwheel : ∀ d, (d, t) ∈ s.wheel → p.onWheel = true) (hwoken : t ∈ s.woken → p.retries = true)
    (hwakes : s.wakes.count t = p.remaining) : Inv (s.goto t p) :=
  inv_goto (fun u _ => h.good u) (fun hq => ⟨hqueue hq, ((h.good t).queue hq).2⟩) hblk hwheel
    hwoken hwakes h.queueNodup h.wokenNodup h.wheelNodup h.covered

theorem Inv.notMem_wheel (hp : s.pc t = p) (hoff : p.onWheel = false) (d : Nat) :
    (d, t) ∉ s.wheel := fun hd => by
  have := (h.good t).wheel d hd
  rw [hp, hoff] at this
  cases this

theorem Inv.goto_free (hp : s.pc t = q) (hqueue : q.onQueue = false) (hwheel : q.onWheel = false)
    (hwoken : t ∈ s.woken → p.retries = true) (hwakes : q.remaining = p.remaining) :
    Inv (s.goto t p) := by
  have hnot := h.notMem_queue hp hqueue
  exact h.goto (fun hq => absurd hq hnot) (fun hq => absurd hq hnot)
    (fun d hd => absurd hd (h.notMem_wheel hp hwheel d)) hwoken (h.count_wakes hp hwakes)

theorem Inv.settled (t : T) {c : Int} (n : Nat)
    (hc : s.queue ≠ [] → c ≤ (s.woken.erase t).length + s.wakes.length) :
    Inv ({ s with count := c, taken := n }.settled t) where
  __ := h
  good u := by
    by_cases hu : u = t
    · subst hu
      have hnot : u ∉ s.woken.erase u := fun hw => (h.wokenNodup.mem_erase_iff.1 hw).1 rfl
      exact ⟨fun hq => ⟨((h.good u).queue hq).1, hnot⟩, (h.good u).blocked, (h.good u).wheel,
        fun hw => absurd hw hnot, (h.good u).wakes⟩
    · exact (h.good u).other rfl id rfl (fun _ => id) (mem_erase_of_ne hu) rfl
  wokenNodup := h.wokenNodup.erase _
  covered := hc

theorem Inv.retryTake {k : Call} (hp : s.pc t = p) (hqueue : p.onQueue = false)
    (hwheel : p.onWheel = false) (hretries : p.retries = (Pc.loading k).retries)
    (hwakes : p.remaining = 0) : Inv (s.retryTake t k) := by
  unfold State.retryTake
  split_ifs
  · have hset : Inv (s.settled t) := h.settled t s.taken fun _ => by omega
    have hnot : t ∉ (s.settled t).woken := fun hw => (h.wokenNodup.mem_erase_iff.1 hw).1 rfl
    cases k with
    | tryTake | wait d => exact hset.goto_free hp hqueue hwheel (fun hw => absurd hw hnot) hwakes
  · refine h.goto_free hp hqueue hwheel (fun hw => ?_) hwakes
    have hr := (h.good t).woken hw
    rw [hp, hretries] at hr
    cases k with
    | tryTake => cases hr
    | wait d => rfl

theorem Inv.retryRelease (n : Int) (hp : s.pc t = p) (hqueue : p.onQueue = false)
    (hwheel : p.onWheel = false) (hretries : p.retries = false) (hwakes : p.remaining = 0) :
    Inv (s.retryRelease limit t n) := by
  have hnot := h.notMem_woken hp hretries
  unfold State.retryRelease
  split_ifs
  · exact h.goto_free hp hqueue hwheel (fun hw => absurd hw hnot) hwakes
  · exact h.goto_free hp hqueue hwheel (fun hw => absurd hw hnot) hwakes

theorem Inv.enqueue {d : Option Nat} (hp : s.pc t = .checking d) (hc : s.count ≤ 0) :
    Inv ({ s with queue := s.queue ++ [t], ready := update s.ready t false }.goto t
      (.enqueued d)) := by
  have hnw : t ∉ s.woken := h.notMem_woken hp rfl
  have hnq : t ∉ s.queue := h.notMem_queue hp rfl
  refine inv_goto (fun u hu => ?_) (fun _ => ⟨rfl, hnw⟩) (fun _ _ => update_self ..)
    (fun d' hd' => absurd hd' (h.notMem_wheel hp rfl d')) (fun hw => absurd hw hnw)
    (h.count_wakes hp rfl) ?_ h.wokenNodup h.wheelNodup fun _ => ?_
  · refine (h.good u).other rfl (fun hq => ?_) (update_of_ne hu ..) (fun _ => id) .rfl rfl
    rcases mem_append.1 hq with hq | hq
    · exact hq
    · exact absurd (mem_singleton.1 hq) hu
  · exact nodup_append_comm.2 (nodup_cons.2 ⟨hnq, h.queueNodup⟩)
  · show s.count ≤ _
    omega

theorem Inv.arm {d : Nat} (hp : s.pc t = .enqueued (some d)) :
    Inv ({ s with wheel := s.wheel ++ [(d, t)] }.goto t (.armed d)) := by
  refine inv_goto (fun u hu => ?_) (fun hq => ⟨rfl, ((h.good t).queue hq).2⟩) (fun _ => nofun)
    (fun _ _ => rfl) (fun _ => rfl) (h.count_wakes hp rfl) h.queueNodup
    h.wokenNodup ?_ h.covered
  · refine (h.good u).other rfl id rfl (fun d' hd' => ?_) .rfl rfl
    rcases mem_append.1 hd' with hd' | hd'
    · exact hd'
    · simp only [mem_singleton, Prod.mk.injEq] at hd'
      exact absurd hd'.2 hu
  · show ((s.wheel ++ [(d, t)]).map Prod.snd).Nodup
    rw [map_append, nodup_append_comm]
    refine nodup_cons.2 ⟨fun ht => ?_, h.wheelNodup⟩
    obtain ⟨⟨d', u⟩, hmem, rfl⟩ := mem_map.1 ht
    exact h.notMem_wheel hp rfl d' hmem

theorem Inv.remove {d : Nat} (hp : s.pc t = .resumed d) :
    Inv ({ s with queue := s.queue.filter (· ≠ t) }.goto t (.removed d)) := by
  have hq : Inv { s with queue := s.queue.filter (· ≠ t) } := by
    refine ⟨fun u => ?_, h.queueNodup.filter _, h.wokenNodup, h.wheelNodup, fun hne => h.covered ?_⟩
    · exact (h.good u).other rfl (fun hq => (mem_filter.1 hq).1) rfl (fun _ => id) .rfl rfl
    · rintro hnil
      simp [hnil] at hne
  have hnot : t ∉ s.queue.filter (· ≠ t) := by simp
  refine hq.goto (fun hq => absurd hq hnot) (fun hq => absurd hq hnot) (fun _ _ => rfl)
    (fun _ => rfl) ?_
  exact h.count_wakes hp rfl

end

theorem notMem_eraseP {wheel : List (Nat × T)} (h : (wheel.map Prod.snd).Nodup) (d : Nat) :
    (d, t) ∉ wheel.eraseP fun e => e.2 = t := by
  intro hmem
  have hin : (d, t) ∈ wheel := eraseP_sublist.subset hmem
  obtain ⟨e, l₁, l₂, hno, he, hw, herase⟩ :=
    exists_of_eraseP (p := fun e => e.2 = t) hin (decide_eq_true rfl)
  rw [herase] at hmem
  rw [hw, map_append, map_cons] at h
  have hnot := (nodup_cons.1 (nodup_append.1 h).2.1).1
  rcases mem_append.1 hmem with h₁ | h₂
  · exact hno _ h₁ (decide_eq_true rfl)
  · rw [of_decide_eq_true he] at hnot
    exact hnot (mem_map.2 ⟨_, h₂, rfl⟩)

variable (h : Inv s)
include h

theorem Inv.disarm {d : Nat} (hp : s.pc t = .removed d) :
    Inv ({ s with wheel := s.wheel.eraseP fun e => e.2 = t }.goto t (.disarmed d)) := by
  have hsub : (s.wheel.eraseP fun e => e.2 = t).Sublist s.wheel := eraseP_sublist
  have hq : Inv { s with wheel := s.wheel.eraseP fun e => e.2 = t } := by
    refine ⟨fun u => ?_, h.queueNodup, h.wokenNodup, ?_, h.covered⟩
    · exact (h.good u).other rfl id rfl (fun _ hd => hsub.subset hd) .rfl rfl
    · exact (hsub.map Prod.snd).nodup h.wheelNodup
  have hnot : t ∉ s.queue := h.notMem_queue hp rfl
  refine hq.goto (fun hq => absurd hq hnot) (fun hq => absurd hq hnot) (fun d' hd' => ?_)
    (fun _ => rfl) ?_
  · exact absurd hd' (notMem_eraseP h.wheelNodup d')
  · exact h.count_wakes hp rfl

theorem Inv.post {n c : Int} (hp : s.pc t = .posting n c) (hc : s.count = c) : Inv ({ s with
      count := c + n
      given := s.given + n
      wakes := List.replicate n.toNat t ++ s.wakes }.goto t (.waking n.toNat)) := by
  have hnq : t ∉ s.queue := h.notMem_queue hp rfl
  have hnw : t ∉ s.woken := h.notMem_woken hp rfl
  refine inv_goto (fun u hu => (h.good u).other rfl id rfl (fun _ => id) .rfl ?_)
    (fun hq => absurd hq hnq) (fun hq => absurd hq hnq)
    (fun d hd => absurd hd (h.notMem_wheel hp rfl d)) (fun hw => absurd hw hnw) ?_
    h.queueNodup h.wokenNodup h.wheelNodup fun hq => ?_
  · show (List.replicate n.toNat t ++ s.wakes).count u = s.wakes.count u
    rw [count_append, count_replicate, if_neg (by simpa using Ne.symm hu), Nat.zero_add]
  · have hzero := h.count_wakes hp rfl
    show (List.replicate n.toNat t ++ s.wakes).count t = n.toNat
    rw [count_append, count_replicate_self, hzero]
    rfl
  · have := h.covered hq
    have := Int.self_le_toNat n
    show c + n ≤ s.woken.length + (List.replicate n.toNat t ++ s.wakes).length
    rw [length_append, length_replicate]
    omega

theorem Inv.wake {n : Nat} (hp : s.pc t = .waking (n + 1)) {u : T} {q : List T}
    (hq : s.queue = u :: q) : Inv ({ s with
      queue := q, ready := update s.ready u true, woken := s.woken ++ [u],
      wakes := s.wakes.erase t }.goto t (.waking n)) := by
  have hu : u ∈ s.queue := hq ▸ mem_cons_self
  have hut : u ≠ t := fun heq => h.notMem_queue (t := t) hp rfl (heq ▸ hu)
  have hnodup : u ∉ q ∧ q.Nodup := nodup_cons.1 (hq ▸ h.queueNodup)
  obtain ⟨hon, hnot⟩ := (h.good u).queue hu
  have hcount : s.wakes.count t = n + 1 := h.count_wakes hp rfl
  have hmem : t ∈ s.wakes := count_pos_iff.1 (by omega)
  have hnq : t ∉ q := fun hw => h.notMem_queue (t := t) hp rfl (hq ▸ mem_cons_of_mem _ hw)
  have hnw : t ∉ s.woken ++ [u] := by
    simp [h.notMem_woken hp rfl, Ne.symm hut]
  refine inv_goto (fun w hwt => ?_) (fun hw => absurd hw hnq) (fun hw => absurd hw hnq)
    (fun d hd => absurd hd (h.notMem_wheel hp rfl d)) (fun hw => absurd hw hnw) ?_
    hnodup.2 ?_ h.wheelNodup fun _ => ?_
  · have hwakes : (s.wakes.erase t).count w = s.wakes.count w := count_erase_of_ne hwt
    by_cases hwu : w = u
    · -- the thread that is woken leaves the queue; it was in a wait
      subst hwu
      refine ⟨fun hw => absurd hw hnodup.1, fun hw => absurd hw hnodup.1, (h.good w).wheel,
        fun _ => ?_, hwakes.trans (h.good w).wakes⟩
      show (s.pc w).retries = true
      cases hpw : s.pc w <;> rw [hpw] at hon <;> first | rfl | cases hon
    · refine (h.good w).other rfl (fun hw => hq ▸ mem_cons_of_mem _ hw)
        (update_of_ne hwu ..) (fun _ => id) ?_ hwakes
      show w ∈ s.woken ++ [u] ↔ _
      rw [mem_append, mem_singleton]
      exact or_iff_left hwu
  · show (s.wakes.erase t).count t = n
    rw [count_erase_self, hcount]
    rfl
  · exact nodup_append_comm.2 (nodup_cons.2 ⟨hnot, h.wokenNodup⟩)
  · have hcov := h.covered (by rw [hq]; exact cons_ne_nil _ _)
    have hlen := length_erase_of_mem hmem
    have hpos := length_pos_of_mem hmem
    show s.count ≤ (s.woken ++ [u]).length + (s.wakes.erase t).length
    rw [length_append, length_singleton]
    omega

theorem Inv.giveUp (hp : ∃ n, s.pc t = .waking n) (hq : s.queue = []) :
    Inv ({ s with wakes := s.wakes.filter (· ≠ t) }.goto t .outside) := by
  obtain ⟨n, hp⟩ := hp
  have hnw : t ∉ s.woken := h.notMem_woken hp rfl
  have hnq : t ∉ s.queue := h.notMem_queue hp rfl
  refine inv_goto (fun u hu => ?_) (fun hq => absurd hq hnq) (fun hq => absurd hq hnq)
    (fun d hd => absurd hd (h.notMem_wheel hp rfl d)) (fun hw => absurd hw hnw) ?_
    h.queueNodup h.wokenNodup h.wheelNodup fun hne => absurd hq hne
  · exact (h.good u).other rfl id rfl (fun _ => id) .rfl (count_filter (by simpa using hu))
  · exact count_eq_zero_of_not_mem (by simp)

theorem advance_inv {weak : Bool} (hin : t ∈ s.woken → ∀ d, s.pc t = .disarmed d → s.now < d)
    (hs : advance limit s t weak = some s') : Inv s' := by
  cases hp : s.pc t <;> simp only [advance, hp, some.injEq, reduceCtorEq,
    ite_none_right_eq_some, ite_none_left_eq_some] at hs
  case loading k =>
    subst hs
    exact h.retryTake hp rfl rfl rfl rfl
  case taking k c =>
    split_ifs at hs with hc <;> cases hs
    · have hset : Inv ({ s with count := c - 1, taken := s.taken + 1 }.settled t) := by
        refine h.settled t _ fun hq => ?_
        have hcov := h.covered hq
        have hlen := le_length_erase (a := t) (l := s.woken)
        omega
      refine hset.goto_free hp rfl rfl (fun hw => ?_) rfl
      exact absurd rfl (h.wokenNodup.mem_erase_iff.1 hw).1
    · exact h.retryTake hp rfl rfl (by cases k <;> rfl) rfl
  case checking d =>
    split_ifs at hs with hc <;> cases hs
    · exact h.goto_free hp rfl rfl (fun _ => rfl) rfl
    · exact h.enqueue hp (by omega)
  case enqueued d =>
    cases d with
    | none =>
      simp only [some.injEq] at hs
      subst hs
      exact h.goto (fun _ => rfl) (fun hq _ => (h.good t).blocked hq (by rw [hp]; rfl))
        (fun d hd => absurd hd (h.notMem_wheel hp rfl d)) (fun _ => rfl)
        (h.count_wakes hp rfl)
    | some d =>
      simp only [ite_none_left_eq_some, some.injEq] at hs
      exact hs.2 ▸ h.arm hp
  case armed d =>
    subst hs
    exact h.goto (fun _ => rfl) (fun _ => nofun) (fun _ _ => rfl) (fun _ => rfl)
      (h.count_wakes hp rfl)
  case asleep d =>
    obtain ⟨hready, rfl⟩ := hs
    have hwakes : s.wakes.count t = 0 := h.count_wakes hp rfl
    cases d with
    | none =>
      -- it is awake, so a release has popped it
      have hnq : t ∉ s.queue := fun hq => by
        have := (h.good t).blocked hq (by rw [hp]; rfl)
        cases hready ▸ this
      exact h.goto (fun hq => absurd hq hnq) (fun hq => absurd hq hnq)
        (fun d hd => absurd hd (h.notMem_wheel hp rfl d)) (fun _ => rfl) hwakes
    | some d => exact h.goto (fun _ => rfl) (fun _ => nofun) (fun _ _ => rfl) (fun _ => rfl) hwakes
  case resumed d => exact hs ▸ h.remove hp
  case removed d => exact hs.2 ▸ h.disarm hp
  case disarmed d =>
    split_ifs at hs with hd <;> cases hs
    · -- a timeout: no release has popped this thread, so no wake is lost
      have hnw : t ∉ s.woken := fun hw => by
        have := hin hw d hp
        omega
      have hset : Inv (s.settled t) := h.settled t s.taken fun hq => by
        rw [erase_of_not_mem hnw]
        exact h.covered hq
      refine hset.goto_free hp rfl rfl (fun hw => ?_) rfl
      exact absurd rfl (h.wokenNodup.mem_erase_iff.1 hw).1
    · exact h.goto_free hp rfl rfl (fun _ => rfl) rfl
  case adding n =>
    subst hs
    exact h.retryRelease n hp rfl rfl rfl rfl
  case posting n c =>
    split_ifs at hs with hc <;> cases hs
    · exact h.post hp hc.1
    · exact h.retryRelease n hp rfl rfl rfl rfl
  case waking n =>
    cases n with
    | zero =>
      simp only [some.injEq] at hs
      subst hs
      refine h.goto_free hp rfl rfl (fun hw => ?_) rfl
      exact absurd hw (h.notMem_woken hp rfl)
    | succ n =>
      cases hq : s.queue with
      | nil =>
        simp only [hq, some.injEq] at hs
        subst hs
        have := h.giveUp ⟨_, hp⟩ hq
        rwa [hq] at this
      | cons u q =>
        simp only [hq, some.injEq] at hs
        exact hs ▸ h.wake hp hq

theorem step_inv {a : Act T} (hin : a.InTime s) (hs : step limit s a = some s') : Inv s' := by
  have hcall : ∀ t p, s.pc t = .outside → p.remaining = 0 → Inv (s.goto t p) := fun t p hp hrem =>
    h.goto_free hp rfl rfl (fun hw => absurd hw (h.notMem_woken hp rfl)) hrem.symm
  cases a with
  | call t k | release t n =>
    simp only [step, ite_none_right_eq_some, some.injEq] at hs
    exact hs.2 ▸ hcall t _ hs.1 rfl
  | next t weak => exact advance_inv h hin hs
  | expire d t =>
    obtain ⟨⟨-, hmem, -⟩, ⟨⟩⟩ := ite_none_right_eq_some.1 hs
    refine ⟨fun u => ?_, h.queueNodup, h.wokenNodup, ?_, h.covered⟩
    · by_cases hu : u = t
      · subst hu
        have hg := h.good u
        have hon := hg.wheel d hmem
        exact ⟨hg.queue, fun _ hoff => absurd (hon.symm.trans hoff) nofun,
          fun d' hd' => hg.wheel d' (mem_of_mem_erase hd'), hg.woken, hg.wakes⟩
      · exact (h.good u).other rfl id (update_of_ne hu ..)
          (fun d' hd' => mem_of_mem_erase hd') .rfl rfl
    · exact (erase_sublist.map Prod.snd).nodup h.wheelNodup
  | tick | tickLock | tickEnd =>
    obtain ⟨-, ⟨⟩⟩ := ite_none_right_eq_some.1 hs
    exact ⟨fun u => (h.good u).other rfl id rfl (fun _ => id) .rfl rfl, h.queueNodup, h.wokenNodup,
      h.wheelNodup, h.covered⟩

end Steps

/-! ## Runs -/

/-- On every run the count stays within its limits and is the initial count, plus the units of
the releases, minus the takes. On every run on which no waiter that a release has popped comes
to its deadline, nobody is forgotten on the queue. -/
theorem semaphore_conserves {initial limit : Int} (h0 : 0 ≤ initial) (hlimit : initial ≤ limit)
    (now : Nat) : (∀ s : State T, Reach (step limit) (new initial now) s →
      0 ≤ s.count ∧ s.count ≤ limit ∧ s.count = initial + s.given - s.taken) ∧
    ∀ s : State T, Run (step limit) Act.InTime (new initial now) s → NoneForgotten s := by
  refine ⟨fun s hs => ?_, fun s hs => ?_⟩
  · have hcounts : Counts limit initial s :=
      hs.invariant (fun _ _ _ h _ hstep => step_counts h hstep)
        ⟨h0, hlimit, by simp [new], nofun, nofun⟩
    exact ⟨hcounts.low, hcounts.high, hcounts.sum⟩
  · have hinv : Inv s := hs.invariant (fun _ _ _ h hin hstep => step_inv h hin hstep)
      (inv_new initial now)
    exact hinv.noneForgotten

/-- Threads 0 (until tick 1) and 1 (without a deadline) go to sleep on an empty semaphore. -/
def twoSleep : List (Act (Fin 3)) :=
  [.call 0 (.wait (some 1)), .next 0 false, .next 0 false, .next 0 false, .next 0 false,
    .call 1 (.wait none), .next 1 false, .next 1 false, .next 1 false]

/-- Thread 2 releases a unit and wakes the first of the queue. -/
def releaseOne : List (Act (Fin 3)) :=
  [.release 2 1, .next 2 false, .next 2 false, .next 2 false, .next 2 false]

/-- A unit is there, thread 1 sleeps, and thread 0 has been woken. -/
theorem semaphore_conserves_woken : ∃ s : State (Fin 3),
    Run (step 1) Act.InTime (new 0 0) s ∧ s.queue = [1] ∧ s.count = 1 ∧ NoneForgotten s := by
  obtain ⟨s, hreach, hqueue, hcount⟩ : ∃ s, Run (step 1) Act.InTime (new 0 0) s ∧ s.queue = [1] ∧
      s.count = 1 := exists_run (twoSleep ++ releaseOne) (by decide)
  exact ⟨s, hreach, hqueue, hcount, (semaphore_conserves (by decide) (by decide) 0).2 s hreach⟩

/-- The wheel wakes thread 0; before it runs, a release spends its wake on it; it reports its
timeout. -/
def wakeSpent : List (Act (Fin 3)) :=
  [.tick, .tickLock, .expire 1 0, .tickEnd] ++ releaseOne ++
    [.next 0 false, .next 0 false, .next 0 false, .next 0 false]

/-- Thread 1 sleeps on the queue, there is a unit, no thread is about to take it, and no release
is under way. -/
theorem semaphore_forgets : ∃ s : State (Fin 3), Reach (step 1) (new 0 0) s ∧ s.pc 1 =
    .asleep none ∧ 1 ∈ s.queue ∧ 0 < s.count ∧ s.woken = [] ∧ (∀ t, t ≠ 1 → s.pc t = .outside) ∧
    ¬ NoneForgotten s := by
  obtain ⟨s, hs, hqueue, hcount, hwoken, h0, h1, h2⟩ : ∃ s, Reach (step 1) (new 0 0) s ∧
      s.queue = [1] ∧ s.count = 1 ∧ s.woken = [] ∧ s.pc 0 = .outside ∧ s.pc 1 = .asleep none ∧
      s.pc 2 = .outside := exists_reach (twoSleep ++ wakeSpent) (by decide)
  have hout : ∀ t : Fin 3, t ≠ 1 → s.pc t = .outside
    | 0, _ => h0
    | 1, ht => absurd rfl ht
    | 2, _ => h2
  refine ⟨s, hs, h1, by rw [hqueue]; decide, by
    omega, hwoken, hout, fun hnone => ?_⟩
  rcases hnone (by rw [hqueue]; decide) (by omega) with ⟨t, ht, -⟩ | ⟨t, n, ht⟩
  · cases hwoken ▸ ht
  · by_cases ht1 : t = 1
    · rw [ht1, h1] at ht
      cases ht
    · rw [hout t ht1] at ht
      cases ht

end Thos.Wait.Semaphore
