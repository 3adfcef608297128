import Thos.Sched.Safety
import Thos.Sched.Slots

/-!
# Tearing down an address space

`Process::teardown` gives the page tables of an address space back to the frame
allocator. It has two callers: `reap`, for the last thread of a task, and `execve`, for
the space it has just replaced. Neither looks at a CR3: `reap` goes by the counter
`active_threads`, and both by the reference count of the `Process`.

The model puts the tasks and their address spaces over the scheduler of
`Thos.Sched`. A thread carries the CR3 it was built with; a CPU reads the CR3 of the
next thread in the lock section of `reschedule` or `exit` and loads it afterwards, in
`apply_cpu_state`. The calls that create threads and replace images are cut at every
access to something shared, and any scheduling step may come in between.
-/

set_option autoImplicit false

namespace Thos.Process.Teardown

open Thos.Lib List Sched Option
open Function (forall_update_iff update update_apply update_of_ne update_self)
open Thos.Sched (Tid Inner Placed Place Effect SlotMove userOn)

/-! ## State -/

/-- How far a thread is in a call that creates a thread or replaces its image. Tasks and
address spaces go by number. -/
inductive Pc
  /-- In none of these calls. -/
  | user
  /-- The task of the new thread is known: before `thread_spawned`. -/
  | made (task : Nat)
  /-- Before the thread is built from the task's address space. -/
  | counted (task : Nat)
  /-- The thread is built with this CR3: before it is queued. -/
  | read (task cr3 : Nat)
  /-- `execve` has loaded the image into `new`: before `swap_space`. -/
  | built (new : Nat)
  /-- Before `set_cr3`. -/
  | swapped (old new : Nat)
  /-- Before `Cr3::write`. -/
  | pointed (old new : Nat)
  /-- Before the test of the reference count. -/
  | switched (old : Nat)
  deriving DecidableEq

/-- The task a thread is created in. -/
def Pc.building : Pc → Option Nat
  | .made k | .counted k | .read k _ => some k
  | _ => none

/-- The task that counts a thread which does not exist yet. -/
def Pc.pending : Pc → Option Nat
  | .counted k | .read k _ => some k
  | _ => none

/-- The space that `execve` has replaced and may still run on. -/
def Pc.old : Pc → Option Nat
  | .swapped old _ | .pointed old _ => some old
  | _ => none

/-- The space that a local variable of `execve` refers to. -/
def Pc.locals : Pc → Option Nat
  | .built x | .swapped x _ | .pointed x _ | .switched x => some x
  | _ => none

/-- The frame of the kernel's own PML4. -/
def kernelPml4 : Nat := 0

/-- The scheduler, and of the threads, the tasks and the address spaces what decides
which PML4 is in use where. -/
structure System (n : Nat) where
  sched : Inner n
  /-- `Thread::task`. -/
  task : Nat → Option Nat
  /-- `Thread::cr3`. -/
  cr3 : Nat → Nat
  pc : Nat → Pc
  /-- `Task::space`. -/
  space : Nat → Nat
  /-- `Task::active_threads`. -/
  activeThreads : Nat → Nat
  nextTask : Nat
  /-- `Process::pml4_phys`. -/
  pml4 : Nat → Nat
  nextSpace : Nat
  /-- The CR3 register of each CPU. -/
  loaded : Fin n → Nat
  /-- The CR3 that a CPU has read for the next thread and not loaded yet. -/
  latched : Fin n → Option Nat
  /-- The spaces torn down, the last one first. -/
  torn : List Nat

variable {n : Nat}

namespace System

variable (s : System n)

/-- `Thread::cr3`; the idle threads are kernel threads. -/
def cr3Of : Tid n → Nat
  | .idle _ => kernelPml4
  | .user id => s.cr3 id

/-- The thread that runs on a CPU, if it is not its idle thread. -/
def caller (c : Fin n) : Option Nat :=
  match userOn s.sched c with
  | some (.user id) => some id
  | _ => none

def setPc (id : Nat) (pc : Pc) : System n := { s with pc := update s.pc id pc }

/-- The allocator can hand out the frame: no address space that was not torn down has
it for its PML4. -/
def FrameFree (frame : Nat) : Prop :=
  frame ≠ kernelPml4 ∧ ∀ x < s.nextSpace, x ∈ s.torn ∨ s.pml4 x ≠ frame

instance (s : System n) (frame : Nat) : Decidable (s.FrameFree frame) :=
  inferInstanceAs (Decidable (_ ∧ _))

/-- `Process::new`. -/
def newSpace (frame : Nat) : System n :=
  { s with pml4 := update s.pml4 s.nextSpace frame, nextSpace := s.nextSpace + 1 }

/-- `Task::new`. -/
def newTask (x : Nat) : System n :=
  { s with
    space := update s.space s.nextTask x
    activeThreads := update s.activeThreads s.nextTask 0
    nextTask := s.nextTask + 1 }

def threadSpawned (k : Nat) : System n :=
  { s with activeThreads := update s.activeThreads k (s.activeThreads k + 1) }

/-- A new thread with its task and its CR3 joins the ready queue. -/
def pushThread (k cr3 : Nat) : System n :=
  { s with
    sched := spawn s.sched
    task := update s.task s.sched.nextTid (some k)
    cr3 := update s.cr3 s.sched.nextTid cr3 }

def swapSpace (k new : Nat) : System n := { s with space := update s.space k new }

def setCr3 (id v : Nat) : System n := { s with cr3 := update s.cr3 id v }

/-- `Cr3::write`. -/
def load (c : Fin n) (v : Nat) : System n := { s with loaded := update s.loaded c v }

/-- `Process::teardown`. -/
def teardown (x : Nat) : System n := { s with torn := x :: s.torn }

/-- `Arc::strong_count` of a `Process`: the tasks and the calls of `execve` that refer to
it, and `refs` clones elsewhere. -/
def strongCount (refs : Nat → Nat) (x : Nat) : Nat :=
  (List.range s.nextTask).countP (fun k => s.space k = x) +
    (List.range s.sched.nextTid).countP (fun id => (s.pc id).locals = some x) + refs x

/-- `teardown` behind the test of both callers. -/
def teardownIfUnreferenced (refs : Nat → Nat) (x : Nat) : System n :=
  if s.strongCount refs x = 1 then s.teardown x else s

/-- The graveyard gives up a corpse. -/
def bury (id : Nat) : System n :=
  { s with
    sched := { s.sched with
      graveyard := s.sched.graveyard.erase (.user id)
      freed := s.sched.freed ++ [.user id] } }

/-- `thread_exited`, the decrement. -/
def threadExited (k : Nat) : System n :=
  { s with activeThreads := update s.activeThreads k (s.activeThreads k - 1) }

/-- The loop body of `reap` for a corpse that passes the test. -/
def reapCorpse (id : Nat) (refs : Nat → Nat) : System n :=
  match s.task id with
  | none => s.bury id
  | some k =>
    if s.activeThreads k = 1 then
      ((s.bury id).threadExited k).teardownIfUnreferenced refs (s.space k)
    else (s.bury id).threadExited k

end System

/-! ## Steps -/

/-- What the CPUs can do. -/
inductive Act (n : Nat)
  /-- A step of the scheduler, of any thread; `spawn` creates a kernel thread. -/
  | sched (a : Sched.Act n)
  /-- `apply_cpu_state` of the switch under way. -/
  | applyCpuState (c : Fin n)
  /-- `spawn_init` and its variants, up to the new `Task`. -/
  | spawnProcess (c : Fin n) (frame : Nat)
  /-- The same with an image that is rejected: the `Process` is dropped. -/
  | spawnRejected (c : Fin n) (frame : Nat)
  /-- `fork`, up to the new `Task`. -/
  | fork (c : Fin n) (frame : Nat)
  /-- `spawn_thread`: a worker thread in the caller's task. -/
  | spawnThread (c : Fin n)
  | threadSpawned (c : Fin n)
  /-- `Thread::spawned_user`: reads the task's address space. -/
  | spawnedUser (c : Fin n)
  | pushThread (c : Fin n)
  /-- `execve`, up to the loaded image. -/
  | execve (c : Fin n) (frame : Nat)
  | swapSpace (c : Fin n)
  | setCr3 (c : Fin n)
  | writeCr3 (c : Fin n)
  /-- The end of `execve`, with `refs` clones of each `Process` elsewhere. -/
  | teardownOld (c : Fin n) (refs : Nat → Nat)
  /-- `reap`, for one corpse: `arcs` and `refs` count the clones of each `Thread` and
  of each `Process` elsewhere. -/
  | reap (id : Nat) (arcs : Tid n → Nat) (refs : Nat → Nat)

namespace System

variable (s : System n) (c : Fin n)

/-- A switch on CPU `c` reads the CR3 of the next thread. -/
def latch (i : Inner n) : System n :=
  match (i.cpus c).phase with
  | .spin _ next => { s with sched := i, latched := update s.latched c (s.cr3Of next) }
  | _ => { s with sched := i }

/-- A step of the scheduler. The claim of the next thread comes after `apply_cpu_state`,
and a thread ends in none of the calls that have a `Pc`. -/
def schedStep : Sched.Act n → Option (System n)
  | .reap _ => none
  | .claim c =>
    if s.latched c = none then
      (step s.sched (.claim c)).map fun i => { s with sched := i }
    else none
  | .exit c =>
    if ∀ id, s.caller c = some id → s.pc id = .user then
      (step s.sched (.exit c)).map (s.latch c)
    else none
  | .yieldNow c => (step s.sched (.yieldNow c)).map (s.latch c)
  | .blockCurrent c => (step s.sched (.blockCurrent c)).map (s.latch c)
  | a => (step s.sched a).map fun i => { s with sched := i }

instance (s : System n) (c : Fin n) : Decidable (∀ id, s.caller c = some id → s.pc id = .user) :=
  match h : s.caller c with
  | none => .isTrue (by simp)
  | some id => decidable_of_iff (s.pc id = .user) (by simp)

/-- A step of the thread that runs on a CPU. -/
def byCaller (f : Nat → Option (System n)) : Option (System n) := (s.caller c).bind f

/-- One step; `none` if it is not enabled. -/
def step : Act n → Option (System n)
  | .sched a => s.schedStep a
  | .applyCpuState c =>
    (s.latched c).map fun v =>
      { s.load c v with latched := update s.latched c none }
  | .spawnProcess c frame =>
    s.byCaller c fun id =>
      if s.pc id = .user ∧ s.FrameFree frame then
        some (((s.newSpace frame).newTask s.nextSpace).setPc id (.made s.nextTask))
      else none
  | .spawnRejected c frame =>
    s.byCaller c fun id =>
      if s.pc id = .user ∧ s.FrameFree frame then some (s.newSpace frame) else none
  | .fork c frame =>
    s.byCaller c fun id =>
      if s.pc id = .user ∧ (s.task id).isSome ∧ s.FrameFree frame then
        some (((s.newSpace frame).newTask s.nextSpace).setPc id (.made s.nextTask))
      else none
  | .spawnThread c =>
    s.byCaller c fun id =>
      match s.pc id, s.task id with
      | .user, some k => some (s.setPc id (.made k))
      | _, _ => none
  | .threadSpawned c =>
    s.byCaller c fun id =>
      match s.pc id with
      | .made k => some ((s.threadSpawned k).setPc id (.counted k))
      | _ => none
  | .spawnedUser c =>
    s.byCaller c fun id =>
      match s.pc id with
      | .counted k => some (s.setPc id (.read k (s.pml4 (s.space k))))
      | _ => none
  | .pushThread c =>
    s.byCaller c fun id =>
      match s.pc id with
      | .read k v => some ((s.setPc id .user).pushThread k v)
      | _ => none
  | .execve c frame =>
    s.byCaller c fun id =>
      if s.pc id = .user ∧ (s.task id).isSome ∧ s.FrameFree frame then
        some ((s.newSpace frame).setPc id (.built s.nextSpace))
      else none
  | .swapSpace c =>
    s.byCaller c fun id =>
      match s.pc id, s.task id with
      | .built new, some k => some ((s.swapSpace k new).setPc id (.swapped (s.space k) new))
      | _, _ => none
  | .setCr3 c =>
    s.byCaller c fun id =>
      match s.pc id with
      | .swapped old new => some ((s.setCr3 id (s.pml4 new)).setPc id (.pointed old new))
      | _ => none
  | .writeCr3 c =>
    s.byCaller c fun id =>
      match s.pc id with
      | .pointed old new => some ((s.load c (s.pml4 new)).setPc id (.switched old))
      | _ => none
  | .teardownOld c refs =>
    s.byCaller c fun id =>
      match s.pc id with
      | .switched old => some ((s.teardownIfUnreferenced refs old).setPc id .user)
      | _ => none
  | .reap id arcs refs =>
    if .user id ∈ s.sched.graveyard ∧ isDead s.sched arcs (.user id) = true then
      some (s.reapCorpse id refs)
    else none

/-- The system when the boot thread starts: no task, and the kernel's PML4 on every
CPU. -/
def boot (n : Nat) : System (n + 1) where
  sched := Sched.boot n
  task _ := none
  cr3 _ := kernelPml4
  pc _ := .user
  space _ := 0
  activeThreads _ := 0
  nextTask := 0
  pml4 _ := 0
  nextSpace := 0
  loaded _ := kernelPml4
  latched _ := none
  torn := []

/-! ## What is to be shown -/

/-- The thread has exited and the CPU it ran on is off its stack. -/
def Gone (i : Inner n) (id : Nat) : Prop :=
  (i.threads (.user id)).state = .exited ∧ (i.threads (.user id)).running = false

instance (i : Inner n) (id : Nat) : Decidable (Gone i id) := inferInstanceAs (Decidable (_ ∧ _))

/-- Nothing can run on the PML4 of a space: no CPU has it loaded or is about to load it,
and no thread that has not exited, or is being built, carries it. -/
structure Unused (s : System n) (x : Nat) : Prop where
  loaded : ∀ c, s.loaded c ≠ s.pml4 x
  latched : ∀ c, s.latched c ≠ some (s.pml4 x)
  cr3 : ∀ id < s.sched.nextTid, (s.sched.threads (.user id)).state ≠ .exited → s.cr3 id ≠ s.pml4 x
  coming : ∀ id k v, s.pc id = .read k v → v ≠ s.pml4 x

/-- `execve` is called only when every other thread of the caller's task is gone. -/
def ExecsAlone : Act n → Prop
  | .execve c _ => ∀ u < s.sched.nextTid, ∀ id ∈ s.caller c, u ≠ id → s.task u = s.task id →
      Gone s.sched u
  | _ => True

instance (s : System n) : ∀ a : Act n, Decidable (s.ExecsAlone a)
  | .execve c _ => inferInstanceAs (Decidable (∀ u < s.sched.nextTid, ∀ id ∈ s.caller c, _))
  | .sched _ | .applyCpuState _ | .spawnProcess _ _ | .spawnRejected _ _ | .fork _ _
  | .spawnThread _ | .threadSpawned _ | .spawnedUser _ | .pushThread _ | .swapSpace _ | .setCr3 _
  | .writeCr3 _ | .teardownOld _ _ | .reap _ _ _ => .isTrue trivial

/-! ## The invariant -/

/-- The spaces whose PML4 a thread can carry: that of its task, and the one that its
`execve` has replaced until CR3 is written. -/
def Holds (id x : Nat) : Prop := ∃ k, s.task id = some k ∧ (s.space k = x ∨ (s.pc id).old = some x)

/-- The PML4 is the kernel's or that of a space the thread holds. -/
def Carries (id v : Nat) : Prop := v = kernelPml4 ∨ ∃ x < s.nextSpace, s.Holds id x ∧ v = s.pml4 x

/-- The PML4 is the kernel's or one that a thread in `on` carries. -/
def From (on : Nat → Prop) (v : Nat) : Prop := v = kernelPml4 ∨ ∃ id, on id ∧ s.Carries id v

/-- The thread is the current one of a CPU. -/
def Current (id : Nat) : Prop := (s.sched.cpus c).current = some (.user id)

/-- The CPU is switching away from the thread. -/
def Leaving (id : Nat) : Prop := ∃ b, (s.sched.cpus c).handoff = some (.user id, b)

/-- The CR3 of a CPU is that of the thread it runs, or of the one it is switching away
from until it has loaded the next. -/
def CpuOk : Prop :=
  match s.latched c with
  | none => s.From (s.Current c) (s.loaded c)
  | some v => s.From (s.Leaving c) (s.loaded c) ∧ s.From (s.Current c) v ∧
      ∃ prev next, (s.sched.cpus c).phase = .spin prev next

/-- The task is new: it has no thread yet, and only one is being made in it. -/
def Young (id k : Nat) : Prop := (∀ u, s.task u ≠ some k) ∧ ∀ u, (s.pc u).building = some k → u = id

/-- The thread makes a thread in task `k`, its own or a new one. -/
def Spawning (id k : Nat) : Prop :=
  k < s.nextTask ∧ s.space k ∉ s.torn ∧ (s.task id = some k ∨ s.Young id k)

/-- The thread is the last one of task `k`. -/
def Alone (id k : Nat) : Prop :=
  s.task id = some k ∧ ∀ u, u ≠ id → s.task u = some k → Gone s.sched u

/-- Task `k` owns the space, which has not been torn down. -/
def Owned (home : Nat → Nat) (k x : Nat) : Prop := x < s.nextSpace ∧ x ∉ s.torn ∧ home x = k

/-- What holds of a thread at a point of a call. -/
def At (home : Nat → Nat) (id : Nat) : Pc → Prop
  | .user => True
  | .made k | .counted k => s.Spawning id k
  | .read k v => s.Spawning id k ∧ v = s.pml4 (s.space k)
  | .built new => ∃ k, s.Alone id k ∧ s.Owned home k new ∧ s.space k ≠ new
  | .swapped old new => ∃ k, s.Alone id k ∧ s.Owned home k old ∧ s.space k = new ∧ old ≠ new
  | .pointed old new => ∃ k, s.Alone id k ∧ s.Owned home k old ∧ s.space k = new ∧ old ≠ new ∧
      s.cr3 id = s.pml4 new
  | .switched old => ∃ k, s.Alone id k ∧ s.Owned home k old ∧ s.space k ≠ old

/-- What `active_threads` of a task counts: its threads that have not been reaped, and
the threads that are being made. -/
def tokens (k : Nat) : Set (Nat ⊕ Nat) :=
  {e | match e with
    | .inl id => s.task id = some k ∧ .user id ∉ s.sched.freed
    | .inr id => (s.pc id).pending = some k}

/-- The invariant: the places `P` of the threads, and the task `home x` that the space
`x` was made for. -/
structure Inv (s : System n) (P : Tid n → Place n) (home : Nat → Nat) : Prop where
  placed : Placed s.sched P
  corpse : ∀ t ∈ s.sched.graveyard, t ∉ s.sched.freed
  unborn : ∀ id, s.sched.nextTid ≤ id → s.task id = none ∧ s.cr3 id = kernelPml4 ∧ s.pc id = .user
  exited : ∀ id, (s.sched.threads (.user id)).state = .exited → s.pc id = .user
  kernel : ∀ x < s.nextSpace, s.pml4 x ≠ kernelPml4
  apart : ∀ x < s.nextSpace, ∀ y < s.nextSpace, x ∉ s.torn → y ∉ s.torn →
    s.pml4 x = s.pml4 y → x = y
  torn : ∀ x ∈ s.torn, x < s.nextSpace
  task : ∀ id k, s.task id = some k → k < s.nextTask
  space : ∀ k < s.nextTask, s.space k < s.nextSpace ∧ home (s.space k) = k
  intact : ∀ id k, .user id ∉ s.sched.freed → s.task id = some k → s.space k ∉ s.torn
  carries : ∀ id, ¬ Gone s.sched id → s.Carries id (s.cr3 id)
  cpu : ∀ c, s.CpuOk c
  atPc : ∀ id, s.At home id (s.pc id)
  count : ∀ k, (s.tokens k).encard ≤ s.activeThreads k

section Places

variable {i : Inner n} {P : Tid n → Place n} {id : Nat} (h : Placed i P)
include h

theorem born_of_place (hp : P (.user id) ≠ .unborn) : id < i.nextTid := by
  by_contra hlt
  exact hp ((h.unborn id).2 (by omega))

theorem gone_iff (hid : id < i.nextTid) : Gone i id ↔ P (.user id) = .dead := by
  constructor
  · rintro ⟨hstate, hrun⟩
    rcases (h.exited_iff hid).1 hstate with hp | ⟨c, hp⟩
    · exact hp
    · rw [h.running, hp] at hrun
      cases hrun
  · intro hp
    exact ⟨(h.exited_iff hid).2 (.inl hp), by rw [h.running, hp]; rfl⟩

theorem not_gone_of_place (hborn : P (.user id) ≠ .unborn) (hlive : P (.user id) ≠ .dead) :
    id < i.nextTid ∧ ¬ Gone i id :=
  ⟨born_of_place h hborn, fun hg => hlive ((gone_iff h (born_of_place h hborn)).1 hg)⟩

theorem not_gone_of_current {c : Fin n} (hc : (i.cpus c).current = some (.user id)) :
    id < i.nextTid ∧ ¬ Gone i id := by
  have hp := (h.current c _).1 hc
  exact not_gone_of_place h (by simp [hp]) (by simp [hp])

theorem not_gone_of_handoff {c : Fin n} {b : Bool}
    (hc : (i.cpus c).handoff = some (.user id, b)) : ¬ Gone i id := by
  obtain ⟨w, hp, -⟩ := (h.handoff c _ b).1 hc
  exact (not_gone_of_place h (by simp [hp]) (by simp [hp])).2

theorem gone_of_freed (hf : .user id ∈ i.freed) : Gone i id := by
  have hp := h.freed _ hf
  exact (gone_iff h (born_of_place h (by rw [hp]; simp))).2 hp

end Places

section Invariant

variable {s s' : System n} {P : Tid n → Place n} {home : Nat → Nat} {c : Fin n} {id new v : Nat}

theorem Carries.mono (hv : s.Carries id v) (hnext : s.nextSpace ≤ s'.nextSpace)
    (hpml4 : ∀ x < s.nextSpace, s'.pml4 x = s.pml4 x)
    (hhold : ∀ k x, s.task id = some k → s.space k = x ∨ (s.pc id).old = some x →
      s'.task id = some k ∧ (s'.space k = x ∨ (s'.pc id).old = some x)) : s'.Carries id v := by
  refine hv.imp_right ?_
  rintro ⟨x, hx, ⟨k, hk, hxk⟩, hv⟩
  exact ⟨x, hx.trans_le hnext, ⟨k, hhold k x hk hxk⟩, hv.trans (hpml4 x hx).symm⟩

theorem From.mono {on on' : Nat → Prop} (h : s.From on v)
    (hon : ∀ id, on id → on' id ∧ ∀ v, s.Carries id v → s'.Carries id v) : s'.From on' v :=
  h.imp_right fun ⟨id, hid, hv⟩ => ⟨id, (hon id hid).1, (hon id hid).2 v hv⟩

theorem cpuOk_iff_of_none (hl : s.latched c = none) :
    s.CpuOk c ↔ s.From (s.Current c) (s.loaded c) := by
  unfold CpuOk
  rw [hl]

theorem caller_eq (h : s.caller c = some id) : userOn s.sched c = some (.user id) := by
  unfold caller at h
  split at h
  · next id' hu => rw [hu, some.inj h]
  · cases h

variable {x k : Nat} (h : Inv s P home)
include h

theorem Inv.of_caller (hc : s.caller c = some id) :
    (s.sched.cpus c).phase = .run ∧ (s.sched.cpus c).current = some (.user id) ∧
      id < s.sched.nextTid ∧ ¬ Gone s.sched id ∧ (s.sched.threads (.user id)).state ≠ .exited := by
  obtain ⟨hrun, -⟩ := userOn_eq (caller_eq hc)
  obtain ⟨hphase, hp⟩ := h.placed.runningOn hrun
  have hcur := (h.placed.current c _).2 hp
  obtain ⟨hid, hgone⟩ := not_gone_of_current h.placed hcur
  refine ⟨hphase, hcur, hid, hgone, ?_⟩
  rw [h.placed.running_of_runningOn hrun]
  simp

theorem Inv.at_pc {pc : Pc} (hpc : s.pc id = pc) : s.At home id pc := hpc ▸ h.atPc id

theorem Inv.owned (hid : ¬ Gone s.sched id)
    (hk : s.task id = some k) : s.Owned home k (s.space k) := by
  obtain ⟨hlt, hhome⟩ := h.space k (h.task id k hk)
  exact ⟨hlt, h.intact id k (fun hf => hid (gone_of_freed h.placed hf)) hk, hhome⟩

theorem Inv.carries_space (hk : s.task id = some k) : s.Carries id (s.pml4 (s.space k)) :=
  .inr ⟨_, (h.space k (h.task id k hk)).1, ⟨k, hk, .inl rfl⟩, rfl⟩

theorem Inv.owned_of_holds (hid : ¬ Gone s.sched id)
    (hx : s.Holds id x) : ∃ k, s.task id = some k ∧ s.Owned home k x := by
  obtain ⟨k, hk, hx⟩ := hx
  refine ⟨k, hk, ?_⟩
  rcases hx with rfl | hold
  · exact h.owned hid hk
  · have hat := h.atPc id
    cases hpc : s.pc id <;> rw [hpc] at hold hat <;> cases hold
    all_goals
      obtain ⟨k', ⟨hk', -⟩, howned, -⟩ := hat
      rw [hk] at hk'
      cases hk'
      exact howned

theorem Inv.spawning (hk : (s.pc id).building = some k) : s.Spawning id k := by
  have hat := h.atPc id
  cases hpc : s.pc id <;> rw [hpc] at hk hat <;> cases hk
  · exact hat
  · exact hat
  · exact hat.1

theorem Inv.unused (hx : s.Owned home k x)
    (hhold : ∀ id, ¬ Gone s.sched id → s.task id = some k → ¬ s.Holds id x)
    (hcome : ∀ id v, s.pc id = .read k v → s.space k ≠ x) : s.Unused x := by
  have hcarry : ∀ id, ¬ Gone s.sched id → ¬ s.Carries id (s.pml4 x) := by
    rintro id hid (hv | ⟨y, hy, hhy, hv⟩)
    · exact h.kernel x hx.1 hv
    · obtain ⟨k', hk', howned⟩ := h.owned_of_holds hid hhy
      obtain rfl := h.apart x hx.1 y hy hx.2.1 howned.2.1 hv
      obtain rfl : k' = k := howned.2.2.symm.trans hx.2.2
      exact hhold id hid hk' hhy
  have hfrom : ∀ on : Nat → Prop, (∀ id, on id → ¬ Gone s.sched id) →
      ¬ s.From on (s.pml4 x) := by
    rintro on hon (hv | ⟨id, hid, hv⟩)
    · exact h.kernel x hx.1 hv
    · exact hcarry id (hon id hid) hv
  have hcur : ∀ c, ¬ s.From (s.Current c) (s.pml4 x) := fun c =>
    hfrom _ fun id hc => (not_gone_of_current h.placed hc).2
  constructor
  · intro c hv
    have hcpu := h.cpu c
    unfold CpuOk at hcpu
    rw [hv] at hcpu
    split at hcpu
    · exact hcur c hcpu
    · exact hfrom _ (fun id ⟨b, hc⟩ => not_gone_of_handoff h.placed hc) hcpu.1
  · intro c hv
    have hcpu := h.cpu c
    unfold CpuOk at hcpu
    rw [hv] at hcpu
    exact hcur c hcpu.2.1
  · intro id _ hstate hv
    have hid : ¬ Gone s.sched id := fun hg => hstate hg.1
    exact hcarry id hid (hv ▸ h.carries id hid)
  · intro id k' v hpc hv
    obtain ⟨⟨hk', htorn, -⟩, hv'⟩ := h.at_pc hpc
    obtain ⟨hlt, hhome⟩ := h.space k' hk'
    have heq := h.apart _ hlt x hx.1 htorn hx.2.1 (hv' ▸ hv)
    obtain rfl : k = k' := by rw [← hhome, heq, hx.2.2]
    exact hcome id v hpc heq

/-! ## Edits that leave the scheduler alone -/

omit h in
theorem CpuOk.mono_of_slot (h : s.CpuOk c) (hcpus : s'.sched.cpus c = s.sched.cpus c)
    (hloaded : s'.loaded c = s.loaded c) (hlatched : s'.latched c = s.latched c)
    (hmono : ∀ u, s.Current c u ∨ s.Leaving c u → ∀ v, s.Carries u v → s'.Carries u v) :
    s'.CpuOk c := by
  have hcur : ∀ v, s.From (s.Current c) v → s'.From (s'.Current c) v := fun v hv =>
    hv.mono fun id hid => ⟨by rwa [Current, hcpus], hmono id (.inl hid)⟩
  unfold CpuOk at h ⊢
  rw [hlatched, hloaded]
  split at h
  · exact hcur _ h
  · next v _ =>
    exact ⟨h.1.mono fun id hid => ⟨by rwa [Leaving, hcpus], hmono id (.inr hid)⟩, hcur v h.2.1,
      hcpus ▸ h.2.2⟩

omit h in
theorem CpuOk.mono (hP : Placed s.sched P) (h : s.CpuOk c)
    (hcpus : s'.sched.cpus c = s.sched.cpus c) (hloaded : s'.loaded c = s.loaded c)
    (hlatched : s'.latched c = s.latched c)
    (hmono : ∀ u, ¬ Gone s.sched u → ∀ v, s.Carries u v → s'.Carries u v) : s'.CpuOk c := by
  refine h.mono_of_slot hcpus hloaded hlatched fun u hu => hmono u ?_
  rcases hu with hu | ⟨b, hu⟩
  · exact (not_gone_of_current hP hu).2
  · exact not_gone_of_handoff hP hu

omit h in
theorem At.mono {home' : Nat → Nat} {pc : Pc} (h : s.At home id pc)
    (hspawn : ∀ k, pc.building = some k → s.Spawning id k →
      s'.Spawning id k ∧ s'.pml4 (s'.space k) = s.pml4 (s.space k))
    (hexec : ∀ k x, pc.locals = some x → s.Alone id k → s.Owned home k x →
      s'.Alone id k ∧ s'.Owned home' k x ∧ s'.space k = s.space k ∧
        s'.pml4 (s.space k) = s.pml4 (s.space k) ∧ s'.cr3 id = s.cr3 id) : s'.At home' id pc := by
  cases pc with
  | user => trivial
  | made k | counted k => exact (hspawn k rfl h).1
  | read k v =>
    obtain ⟨hk, hv⟩ := hspawn k rfl h.1
    exact ⟨hk, h.2.trans hv.symm⟩
  | built new =>
    obtain ⟨k, halone, howned, hne⟩ := h
    obtain ⟨halone', howned', hspace, -⟩ := hexec k new rfl halone howned
    exact ⟨k, halone', howned', by rwa [hspace]⟩
  | swapped old new =>
    obtain ⟨k, halone, howned, hnew, hne⟩ := h
    obtain ⟨halone', howned', hspace, -⟩ := hexec k old rfl halone howned
    exact ⟨k, halone', howned', by rwa [hspace], hne⟩
  | pointed old new =>
    obtain ⟨k, halone, howned, rfl, hne, hcr3⟩ := h
    obtain ⟨halone', howned', hspace, hpml4, hsame⟩ := hexec k old rfl halone howned
    exact ⟨k, halone', howned', hspace, hne, by rw [hsame, hpml4, hcr3]⟩
  | switched old =>
    obtain ⟨k, halone, howned, hne⟩ := h
    obtain ⟨halone', howned', hspace, -⟩ := hexec k old rfl halone howned
    exact ⟨k, halone', howned', by rwa [hspace]⟩

variable {frame : Nat}

theorem Inv.newSpace (hfree : s.FrameFree frame) (k : Nat) :
    Inv (s.newSpace frame) P (update home s.nextSpace k) := by
  have hpml4 : ∀ x < s.nextSpace, (s.newSpace frame).pml4 x = s.pml4 x := fun x hx =>
    update_of_ne (by omega) ..
  have hnew : (s.newSpace frame).pml4 s.nextSpace = frame := update_self ..
  have hhome : ∀ x < s.nextSpace, update home s.nextSpace k x = home x := fun x hx =>
    update_of_ne (by omega) ..
  have hcarry : ∀ u v, s.Carries u v → (s.newSpace frame).Carries u v := fun u v hv =>
    hv.mono (Nat.le_succ _) hpml4 fun k x hk hx => ⟨hk, hx⟩
  have howned : ∀ j x, s.Owned home j x →
      (s.newSpace frame).Owned (update home s.nextSpace k) j x := fun j x hx =>
    ⟨Nat.lt_succ_of_lt hx.1, hx.2.1, by rw [hhome x hx.1]; exact hx.2.2⟩
  refine { h with
    kernel := fun x hx => ?_, apart := fun x hx y hy hxt hyt heq => ?_,
    torn := fun x hx => Nat.lt_succ_of_lt (h.torn x hx), space := fun j hj => ?_,
    carries := fun u hu => hcarry u _ (h.carries u hu),
    cpu := fun c => (h.cpu c).mono h.placed rfl rfl rfl fun u _ => hcarry u, atPc := fun id => ?_ }
  · rcases Nat.lt_succ_iff_lt_or_eq.1 hx with hx | rfl
    · rw [hpml4 x hx]
      exact h.kernel x hx
    · rw [hnew]
      exact hfree.1
  · -- the allocator does not hand out a PML4 that is in use
    rcases Nat.lt_succ_iff_lt_or_eq.1 hx with hx | rfl <;>
      rcases Nat.lt_succ_iff_lt_or_eq.1 hy with hy | rfl
    · rw [hpml4 x hx, hpml4 y hy] at heq
      exact h.apart x hx y hy hxt hyt heq
    · rw [hpml4 x hx, hnew] at heq
      exact absurd heq ((hfree.2 x hx).resolve_left hxt)
    · rw [hpml4 y hy, hnew] at heq
      exact absurd heq.symm ((hfree.2 y hy).resolve_left hyt)
    · rfl
  · obtain ⟨hlt, hh⟩ := h.space j hj
    exact ⟨Nat.lt_succ_of_lt hlt, (hhome _ hlt).trans hh⟩
  · refine (h.atPc id).mono (fun j _ hj => ⟨hj, hpml4 _ (h.space j hj.1).1⟩)
      fun j x _ hj hx => ⟨hj, howned j x hx, rfl, hpml4 _ (h.space j (h.task id j hj.1)).1, rfl⟩

theorem Inv.no_tokens : s.tokens s.nextTask = ∅ := by
  refine Set.eq_empty_of_forall_notMem ?_
  rintro (id | id) he
  · exact absurd (h.task id _ he.1) (lt_irrefl _)
  · have hat := h.atPc id
    have hpend : (s.pc id).pending = some s.nextTask := he
    cases hpc : s.pc id <;> rw [hpc] at hat hpend <;> cases hpend
    · exact absurd hat.1 (lt_irrefl _)
    · exact absurd hat.1.1 (lt_irrefl _)

theorem Inv.newTask (hx : s.Owned home s.nextTask x) : Inv (s.newTask x) P home := by
  have hspace : ∀ k < s.nextTask, (s.newTask x).space k = s.space k := fun k hk =>
    update_of_ne (by omega) ..
  have hcarry : ∀ u v, s.Carries u v → (s.newTask x).Carries u v := fun u v hv =>
    hv.mono le_rfl (fun _ _ => rfl) fun k y hk hy => ⟨hk, by rwa [hspace k (h.task u k hk)]⟩
  have hspawn : ∀ id k, s.Spawning id k → (s.newTask x).Spawning id k := fun id k hk =>
    ⟨Nat.lt_succ_of_lt hk.1, by rw [hspace k hk.1]; exact hk.2.1, hk.2.2⟩
  refine { h with
    task := fun id k hk => Nat.lt_succ_of_lt (h.task id k hk), space := fun k hk => ?_,
    intact := fun id k hid hk => ?_, carries := fun u hu => hcarry u _ (h.carries u hu),
    cpu := fun c => (h.cpu c).mono h.placed rfl rfl rfl fun u _ => hcarry u,
    atPc := fun id => ?_,
    count := (forall_update_iff s.activeThreads fun k m => (s.tokens k).encard ≤ m).2
      ⟨by simp [h.no_tokens], fun k _ => h.count k⟩ }
  · rcases Nat.lt_succ_iff_lt_or_eq.1 hk with hk | rfl
    · rw [hspace k hk]
      exact h.space k hk
    · have heq : (s.newTask x).space s.nextTask = x := update_self ..
      rw [heq]
      exact ⟨hx.1, hx.2.2⟩
  · rw [hspace k (h.task id k hk)]
    exact h.intact id k hid hk
  · exact (h.atPc id).mono (fun j _ hj => ⟨hspawn id j hj, congrArg s.pml4 (hspace j hj.1)⟩)
      fun j y _ hj hy => ⟨hj, hy, hspace j (h.task id j hj.1), rfl, rfl⟩

theorem Inv.setCount {m : Nat} (hm : (s.tokens k).encard ≤ m) :
    Inv { s with activeThreads := update s.activeThreads k m } P home :=
  { h with
    count := (forall_update_iff s.activeThreads fun j m => (s.tokens j).encard ≤ m).2
      ⟨hm, fun j _ => h.count j⟩ }

theorem Inv.threadSpawned (k : Nat) : Inv (s.threadSpawned k) P home ∧
      ((s.threadSpawned k).tokens k).encard + 1 ≤ (s.threadSpawned k).activeThreads k := by
  have hself : (s.threadSpawned k).activeThreads k = s.activeThreads k + 1 := update_self ..
  refine ⟨h.setCount ((h.count k).trans (by exact_mod_cast Nat.le_succ _)), ?_⟩
  rw [hself, Nat.cast_succ]
  exact add_le_add_left (h.count k) 1

section SetPc

variable {p pc : Pc}

omit h in
theorem pc_setPc (u : Nat) : (s.setPc id pc).pc u = if u = id then pc else s.pc u := update_apply ..

omit h in
theorem pc_setPc_of_ne {u : Nat} (hu : u ≠ id) : (s.setPc id pc).pc u = s.pc u := update_of_ne hu ..

theorem Inv.unborn_setPc (hborn : id < s.sched.nextTid) (u : Nat) (hu : s.sched.nextTid ≤ u) :
    s.task u = none ∧ s.cr3 u = kernelPml4 ∧ (s.setPc id pc).pc u = .user := by
  rw [pc_setPc_of_ne (by omega)]
  exact h.unborn u hu

theorem Inv.exited_setPc (hlive : (s.sched.threads (.user id)).state ≠ .exited) (u : Nat)
    (hu : (s.sched.threads (.user u)).state = .exited) : (s.setPc id pc).pc u = .user := by
  have hne : u ≠ id := by
    rintro rfl
    exact hlive hu
  rw [pc_setPc_of_ne hne]
  exact h.exited u hu

omit h in
theorem encard_le_of_room {A B : Set (Nat ⊕ Nat)} {e : Nat ⊕ Nat} {p : Prop} {m : ℕ∞}
    (hsub : ∀ t ∈ A, t ∈ B ∨ t = e ∧ p) (hroom : B.encard + 1 ≤ m) : A.encard ≤ m :=
  (Set.encard_le_encard (t := insert e B) fun t ht => (hsub t ht).symm.imp_left And.left).trans
    ((Set.encard_insert_le ..).trans hroom)

omit h in
theorem Spawning.setPc (hspawn : s.Spawning id k) : (s.setPc id pc).Spawning id k := by
  refine ⟨hspawn.1, hspawn.2.1, hspawn.2.2.imp_right fun hyoung => ⟨hyoung.1, fun u hu => ?_⟩⟩
  by_contra hne
  rw [pc_setPc_of_ne hne] at hu
  exact hne (hyoung.2 u hu)

variable (hp : s.pc id = p) (hpend : ∀ k, pc.pending = some k → p.pending = some k ∨
  (s.tokens k).encard + 1 ≤ s.activeThreads k)
include hp hpend

theorem Inv.count_setPc (k : Nat) : ((s.setPc id pc).tokens k).encard ≤ s.activeThreads k := by
  have hsub : ∀ e ∈ (s.setPc id pc).tokens k, e ∈ s.tokens k ∨
      e = .inr id ∧ pc.pending = some k := by
    rintro (u | u) hu
    · exact .inl hu
    · have hpc : ((s.setPc id pc).pc u).pending = some k := hu
      rw [pc_setPc] at hpc
      split_ifs at hpc with hne
      · exact .inr ⟨hne ▸ rfl, hpc⟩
      · exact .inl hpc
  by_cases hroom : (s.tokens k).encard + 1 ≤ s.activeThreads k
  · exact encard_le_of_room hsub hroom
  · refine le_trans (Set.encard_le_encard fun e he => ?_) (h.count k)
    rcases hsub e he with he | ⟨rfl, hk⟩
    · exact he
    · exact congrArg Pc.pending hp |>.trans ((hpend k hk).resolve_right hroom)

variable (hbuild : ∀ k, pc.building = some k → p.building = some k ∨ s.task id = some k ∨
  ∀ u, (s.pc u).building ≠ some k)
include hbuild

theorem Inv.setPc (hborn : id < s.sched.nextTid)
    (hlive : (s.sched.threads (.user id)).state ≠ .exited)
    (hcarries : ∀ u, ¬ Gone s.sched u → (s.setPc id pc).Carries u (s.cr3 u))
    (hcpu : ∀ c, (s.setPc id pc).CpuOk c) (hat : (s.setPc id pc).At home id pc) :
    Inv (s.setPc id pc) P home := by
  refine { h with
      unborn := h.unborn_setPc hborn, exited := h.exited_setPc hlive, carries := hcarries,
      cpu := hcpu, atPc := fun u => ?_, count := h.count_setPc hp hpend }
  rw [pc_setPc]
  split_ifs with hu
  · exact hu ▸ hat
  · refine (h.atPc u).mono (fun k hk hspawn => ⟨⟨hspawn.1, hspawn.2.1, ?_⟩, rfl⟩)
      fun k x _ halone howned => ⟨halone, howned, rfl, rfl, rfl⟩
    refine hspawn.2.2.imp_right fun hyoung => ⟨hyoung.1, fun w hw => ?_⟩
    rw [pc_setPc] at hw
    split_ifs at hw with hwid
    · -- the caller does not begin to make a thread in a task somebody else makes
      subst hwid
      rcases hbuild k hw with hb | hb | hb
      · exact hyoung.2 w (hp ▸ hb)
      · exact absurd hb (hyoung.1 w)
      · exact absurd hk (hb u)
    · exact hyoung.2 w hw

omit h hpend hbuild in
include hp in
theorem carries_setPc (hold : ∀ x, p.old = some x → pc.old = some x) (u v : Nat)
    (hv : s.Carries u v) : (s.setPc id pc).Carries u v := by
  refine hv.mono le_rfl (fun _ _ => rfl) fun k x hk hx => ⟨hk, hx.imp_right fun hxold => ?_⟩
  rw [pc_setPc]
  split_ifs with hu
  · exact hold x (hp ▸ hu ▸ hxold)
  · exact hxold

theorem Inv.advance {c : Fin n} (hc : s.caller c = some id)
    (hold : ∀ x, p.old = some x → pc.old = some x)
    (hat : (s.setPc id pc).At home id pc) : Inv (s.setPc id pc) P home := by
  obtain ⟨-, -, hborn, -, hlive⟩ := h.of_caller hc
  exact h.setPc hp hpend hbuild hborn hlive
    (fun u hu => carries_setPc hp hold u _ (h.carries u hu))
    (fun d => (h.cpu d).mono h.placed rfl rfl rfl fun u _ => carries_setPc hp hold u) hat

end SetPc

theorem Inv.teardown (hx : s.Owned home k x)
    (hintact : ∀ id, .user id ∉ s.sched.freed → s.task id = some k → s.space k ≠ x)
    (hbuild : ∀ id, (s.pc id).building = some k → s.space k ≠ x)
    (hexec : ∀ id, s.task id = some k → (s.pc id).locals = none) : Inv (s.teardown x) P home := by
  have hspace : ∀ j < s.nextTask, s.space j = x → j = k := fun j hj heq => by
    rw [← (h.space j hj).2, heq]
    exact hx.2.2
  refine { h with
      apart := fun y hy z hz hyt hzt heq => ?_, torn := forall_mem_cons.2 ⟨hx.1, h.torn⟩,
      intact := fun id j hid hj => ?_, atPc := fun id => ?_ }
  · exact h.apart y hy z hz (fun hm => hyt (.tail _ hm)) (fun hm => hzt (.tail _ hm)) heq
  · refine not_mem_cons_of_ne_of_not_mem (fun heq => ?_) (h.intact id j hid hj)
    obtain rfl := hspace j (h.task id j hj) heq
    exact hintact id hid hj heq
  · refine (h.atPc id).mono (fun j hj hspawn => ⟨⟨hspawn.1, ?_, hspawn.2.2⟩, rfl⟩)
      fun j y hy halone howned => ⟨halone, ⟨howned.1, ?_, howned.2.2⟩, rfl, rfl, rfl⟩
    · refine not_mem_cons_of_ne_of_not_mem (fun heq => ?_) hspawn.2.1
      obtain rfl := hspace j hspawn.1 heq
      exact hbuild id hj heq
    · -- an `execve` in the same task would refer to it
      refine not_mem_cons_of_ne_of_not_mem ?_ howned.2.1
      rintro rfl
      obtain rfl : j = k := howned.2.2.symm.trans hx.2.2
      rw [hexec id halone.1] at hy
      cases hy

/-! ## The steps of `execve` -/

section Execve

variable {old : Nat}

theorem Inv.pc_of_alone (halone : s.Alone id k) {u : Nat} (hu : u ≠ id)
    (hk : s.task u = some k) : s.pc u = .user :=
  h.exited u (halone.2 u hu hk).1

theorem Inv.not_building (halone : s.Alone id k)
    (hid : (s.pc id).building ≠ some k) (u : Nat) : (s.pc u).building ≠ some k := by
  intro hu
  by_cases huid : u = id
  · exact hid (huid ▸ hu)
  · rcases (h.spawning hu).2.2 with hk | hyoung
    · rw [h.pc_of_alone halone huid hk] at hu
      cases hu
    · exact hyoung.1 id halone.1

theorem Inv.swapSpace (hc : s.caller c = some id)
    (hpc : s.pc id = .built new) (hk : s.task id = some k) :
    Inv ((s.swapSpace k new).setPc id (.swapped (s.space k) new)) P home := by
  obtain ⟨-, -, hborn, hgone, hlive⟩ := h.of_caller hc
  obtain ⟨k', halone, hnew, hne⟩ := h.at_pc hpc
  obtain rfl : k = k' := some.inj (hk.symm.trans halone.1)
  have hold := h.owned hgone hk
  let s₁ := (s.swapSpace k new).setPc id (.swapped (s.space k) new)
  have hself : s₁.space k = new := update_self ..
  have hother : ∀ j, j ≠ k → s₁.space j = s.space j := fun j hj => update_of_ne hj ..
  have hpcself : s₁.pc id = .swapped (s.space k) new := update_self ..
  have hpcother : ∀ u, u ≠ id → s₁.pc u = s.pc u := fun u hu => update_of_ne hu ..
  have hcarry : ∀ u, ¬ Gone s.sched u → ∀ v, s.Carries u v → s₁.Carries u v := by
    intro u hu v hv
    refine hv.mono le_rfl (fun _ _ => rfl) fun j x hj hxj => ⟨hj, ?_⟩
    by_cases huid : u = id
    · subst huid
      cases hk ▸ hj
      rw [hpc] at hxj
      rcases hxj with rfl | hxj
      · exact .inr (by rw [hpcself]; rfl)
      · cases hxj
    · have hjk : j ≠ k := by
        rintro rfl
        exact hu (halone.2 u huid hj)
      rw [hother j hjk, hpcother u huid]
      exact hxj
  change Inv s₁ P home
  refine { h with
      unborn := h.unborn_setPc hborn, exited := h.exited_setPc hlive, space := fun j hj => ?_,
      intact := fun u j hu hj => ?_, carries := fun u hu => hcarry u hu _ (h.carries u hu),
      cpu := fun d => (h.cpu d).mono h.placed rfl rfl rfl hcarry, atPc := fun u => ?_,
      count := h.count_setPc hpc nofun }
  · by_cases hjk : j = k
    · subst hjk
      rw [hself]
      exact ⟨hnew.1, hnew.2.2⟩
    · rw [hother j hjk]
      exact h.space j hj
  · by_cases hjk : j = k
    · subst hjk
      rw [hself]
      exact hnew.2.1
    · rw [hother j hjk]
      exact h.intact u j hu hj
  · by_cases huid : u = id
    · subst huid
      rw [hpcself]
      exact ⟨k, halone, hold, hself, hne⟩
    · rw [hpcother u huid]
      refine (h.atPc u).mono (fun j hj hspawn => ?_) fun j x hx hj howned => ?_
      · have hjk : j ≠ k := by
          rintro rfl
          exact h.not_building halone (by rw [hpc]; simp [Pc.building]) u hj
        refine ⟨⟨hspawn.1, by rw [hother j hjk]; exact hspawn.2.1, ?_⟩, by rw [hother j hjk]; rfl⟩
        refine hspawn.2.2.imp_right fun hyoung => ⟨hyoung.1, fun w hw => ?_⟩
        by_cases hwid : w = id
        · subst hwid
          cases hpcself ▸ hw
        · rw [hpcother w hwid] at hw
          exact hyoung.2 w hw
      · have hjk : j ≠ k := by
          rintro rfl
          rw [h.pc_of_alone halone huid hj.1] at hx
          cases hx
        exact ⟨hj, howned, hother j hjk, rfl, rfl⟩

theorem Inv.setCr3 (hborn : id < s.sched.nextTid)
    (hpc : s.pc id = .swapped old new) (hv : s.Carries id v) : Inv (s.setCr3 id v) P home := by
  have hother : ∀ u, u ≠ id → (s.setCr3 id v).cr3 u = s.cr3 u := fun u hu =>
    update_of_ne hu ..
  refine { h with unborn := fun u hu => ?_, carries := fun u hu => ?_, atPc := fun u => ?_ }
  · have hne : u ≠ id := by
      rintro rfl
      exact absurd (show s.sched.nextTid ≤ u from hu) (by omega)
    rw [hother u hne]
    exact h.unborn u hu
  · by_cases huid : u = id
    · subst huid
      have hself : (s.setCr3 u v).cr3 u = v := update_self ..
      rw [hself]
      exact hv
    · rw [hother u huid]
      exact h.carries u hu
  · by_cases huid : u = id
    · subst huid
      change (s.setCr3 u v).At home u (s.pc u)
      rw [hpc]
      exact h.at_pc hpc
    · exact (h.atPc u).mono (fun j _ hj => ⟨hj, rfl⟩)
        fun j x _ hj hx => ⟨hj, hx, rfl, rfl, hother u huid⟩

theorem Inv.latched_of_phase (hc : ∀ prev next, (s.sched.cpus c).phase ≠ .spin prev next) :
    s.latched c = none := by
  have hcpu := h.cpu c
  unfold CpuOk at hcpu
  split at hcpu
  · assumption
  · obtain ⟨-, -, prev, next, hspin⟩ := hcpu
    exact absurd hspin (hc prev next)

theorem Inv.latched_of_run (hc : (s.sched.cpus c).phase = .run) : s.latched c = none :=
  h.latched_of_phase (by simp [hc])

theorem Inv.load (hc : s.caller c = some id) (hv : s.Carries id v) : Inv (s.load c v) P home := by
  obtain ⟨hrun, hcur, -⟩ := h.of_caller hc
  refine { h with cpu := fun d => ?_ }
  by_cases hd : d = c
  · subst hd
    have hself : (s.load d v).loaded d = v := update_self ..
    rw [cpuOk_iff_of_none (s := s.load d v) (h.latched_of_run hrun), hself]
    exact .inr ⟨id, hcur, hv⟩
  · exact (h.cpu d).mono h.placed rfl (update_of_ne hd ..) rfl fun _ _ _ hu => hu

/-- After `Cr3::write` the thread no longer runs on the old space: only its own CPU had
loaded it. -/
theorem Inv.switched {old : Nat} (hc : s.caller c = some id) (hpc : s.pc id = .pointed old new)
    (hload : s.loaded c = s.pml4 new) : Inv (s.setPc id (.switched old)) P home := by
  obtain ⟨hrun, hcur, hborn, hgone, hlive⟩ := h.of_caller hc
  obtain ⟨k, halone, howned, hspace, hne, hcr3⟩ := h.at_pc hpc
  have hlt : new < s.nextSpace := hspace ▸ (h.space k (h.task id k halone.1)).1
  have hnew : (s.setPc id (.switched old)).Carries id (s.pml4 new) :=
    .inr ⟨new, hlt, ⟨k, halone.1, .inl hspace⟩, rfl⟩
  have hother : ∀ u, u ≠ id → ∀ v, s.Carries u v → (s.setPc id (.switched old)).Carries u v := by
    intro u hu v hv
    refine hv.mono le_rfl (fun _ _ => rfl) fun j x hj hxj => ⟨hj, ?_⟩
    rw [pc_setPc_of_ne hu]
    exact hxj
  refine h.setPc hpc nofun nofun hborn hlive (fun u hu => ?_) (fun d => ?_)
    ⟨k, halone, howned, show s.space k ≠ old from hspace ▸ hne.symm⟩
  · by_cases huid : u = id
    · subst huid
      rw [hcr3]
      exact hnew
    · exact hother u huid _ (h.carries u hu)
  · by_cases hd : d = c
    · subst hd
      rw [cpuOk_iff_of_none (s := s.setPc id _) (h.latched_of_run hrun)]
      exact .inr ⟨id, hcur, hload ▸ hnew⟩
    · refine (h.cpu d).mono_of_slot rfl rfl rfl fun u hu => hother u ?_
      -- the caller is on `c` only
      rintro rfl
      have hp := (h.placed.current c _).1 hcur
      rcases hu with hu | ⟨b, hu⟩
      · rw [(h.placed.current d _).1 hu] at hp
        cases hp
        exact hd rfl
      · obtain ⟨w, hw, -⟩ := (h.placed.handoff d _ b).1 hu
        cases hw ▸ hp

theorem Inv.unused_old (hpc : s.pc id = .switched old) : s.Unused old := by
  obtain ⟨k, halone, howned, hne⟩ := h.at_pc hpc
  refine h.unused howned (fun u hu hk hhold => ?_) fun _ _ _ => hne
  by_cases huid : u = id
  · subst huid
    obtain ⟨j, hj, hx⟩ := hhold
    cases hk ▸ hj
    rw [hpc] at hx
    rcases hx with hx | hx
    · exact hne hx
    · cases hx
  · exact hu (halone.2 u huid hk)

theorem Inv.teardownOld (hc : s.caller c = some id) (hpc : s.pc id = .switched old)
    (refs : Nat → Nat) : Inv ((s.teardownIfUnreferenced refs old).setPc id .user) P home := by
  obtain ⟨k, halone, howned, hne⟩ := h.at_pc hpc
  have hdone : Inv (s.setPc id .user) P home :=
    h.advance hpc nofun nofun hc nofun trivial
  unfold teardownIfUnreferenced
  split_ifs
  · refine hdone.teardown (x := old) howned (fun _ _ _ => hne) (fun _ _ => hne) fun u hu => ?_
    rw [pc_setPc]
    split_ifs with huid
    · rfl
    · rw [h.pc_of_alone halone huid hu]
      rfl
  · exact hdone

end Execve

/-! ## Reaping -/

omit h in
theorem dead_of_isDead (h : Placed s.sched P) {arcs : Tid n → Nat}
    (hmem : .user id ∈ s.sched.graveyard) (hdead : Sched.isDead s.sched arcs (.user id) = true) :
    P (.user id) = .dead ∧ .user id ∉ s.sched.graveyard.erase (.user id) := by
  simp only [Sched.isDead, Bool.and_eq_true, Bool.not_eq_true', decide_eq_true_eq] at hdead
  obtain ⟨hrun, hone⟩ := hdead
  constructor
  · rcases h.graveyard _ hmem with hp | ⟨c, hp⟩
    · exact hp
    · rw [h.running, hp] at hrun
      cases hrun
  · have hcount : s.sched.graveyard.count (.user id) ≤ 1 := by
      unfold Sched.strongCount at hone
      omega
    rw [← count_pos_iff, count_erase_self]
    omega

omit h in
theorem tokens_bury (k : Nat) : (s.bury id).tokens k = s.tokens k \ {.inl id} := by
  ext e
  rcases e with u | u
  · simp [tokens, bury, not_or, and_assoc]
  · simp [tokens, bury]

theorem Inv.bury (hdead : P (.user id) = .dead)
    (honce : .user id ∉ s.sched.graveyard.erase (.user id)) : Inv (s.bury id) P home := by
  refine { h with
      placed := h.placed.congr (fun _ => rfl) (fun _ => rfl) rfl rfl
        (fun t ht => mem_of_mem_erase ht)
        (forall_mem_append.2 ⟨h.placed.freed, forall_mem_singleton.2 hdead⟩) h.placed.waking rfl rfl
      corpse := fun t ht hf => ?_
      intact := fun u k hu => h.intact u k fun hf => hu (mem_append_left _ hf)
      count := fun k => ?_ }
  · rcases mem_append.1 hf with hf | hf
    · exact h.corpse t (mem_of_mem_erase ht) hf
    · rw [mem_singleton.1 hf] at ht
      exact honce ht
  · rw [tokens_bury]
    exact (Set.encard_le_encard Set.sdiff_subset).trans (h.count k)

theorem Inv.threadExited {k : Nat}
    (hroom : (s.tokens k).encard + 1 ≤ s.activeThreads k) : Inv (s.threadExited k) P home := by
  refine h.setCount ?_
  rw [ENat.natCast_sub]
  exact ENat.le_sub_of_add_le_right (by simp) hroom

/-- When a task counts no thread any more, its space can be torn down, and nothing runs
on it. -/
theorem Inv.last_thread {k : Nat} (hid : s.task id = some k) (hspace : s.space k ∉ s.torn)
    (hnone : s.tokens k = ∅) : s.Unused (s.space k) ∧ Inv (s.teardown (s.space k)) P home := by
  obtain ⟨hlt, hhome⟩ := h.space k (h.task id k hid)
  have howned : s.Owned home k (s.space k) := ⟨hlt, hspace, hhome⟩
  have hreaped : ∀ u, s.task u = some k → .user u ∈ s.sched.freed := by
    intro u hu
    by_contra hf
    have htoken : Sum.inl u ∈ s.tokens k := ⟨hu, hf⟩
    rwa [hnone] at htoken
  have huser : ∀ u, s.task u = some k → s.pc u = .user := fun u hu =>
    h.exited u (gone_of_freed h.placed (hreaped u hu)).1
  have hbuild : ∀ u, (s.pc u).building ≠ some k := by
    intro u hu
    rcases (h.spawning hu).2.2 with htask | hyoung
    · rw [huser u htask] at hu
      cases hu
    · exact hyoung.1 id hid
  refine ⟨h.unused howned (fun u hu hk _ => ?_) fun u v hu => ?_, ?_⟩
  · exact hu (gone_of_freed h.placed (hreaped u hk))
  · exact absurd (by rw [hu]; rfl) (hbuild u)
  · exact h.teardown howned (fun u hu htask => absurd (hreaped u htask) hu)
      (fun u hu => absurd hu (hbuild u)) fun u hu => by rw [huser u hu]; rfl

theorem Inv.reapCorpse {arcs : Tid n → Nat} (hmem : .user id ∈ s.sched.graveyard)
    (hdead : isDead s.sched arcs (.user id) = true) (refs : Nat → Nat) :
    Inv (s.reapCorpse id refs) P home ∧
      ∀ x, (s.reapCorpse id refs).torn = x :: s.torn → s.Unused x := by
  obtain ⟨hp, honce⟩ := dead_of_isDead h.placed hmem hdead
  have hbury := h.bury hp honce
  have hfresh := h.corpse _ hmem
  unfold System.reapCorpse
  cases hk : s.task id with
  | none => exact ⟨hbury, fun x hx => absurd hx (cons_ne_self x _).symm⟩
  | some k =>
    have hcount : ((s.bury id).tokens k).encard + 1 ≤ s.activeThreads k := by
      have htoken : Sum.inl id ∈ s.tokens k := ⟨hk, hfresh⟩
      rw [tokens_bury, Set.encard_sdiff_singleton_add_one htoken]
      exact h.count k
    have hexd : Inv ((s.bury id).threadExited k) P home := hbury.threadExited hcount
    dsimp only
    split_ifs with hone
    · have hnone : ((s.bury id).threadExited k).tokens k = ∅ := by
        have hzero : ((s.bury id).threadExited k).activeThreads k = 0 := by
          have hself : ((s.bury id).threadExited k).activeThreads k = s.activeThreads k - 1 :=
            update_self ..
          rw [hself, hone]
        have hle := hexd.count k
        rw [hzero] at hle
        exact Set.encard_eq_zero.1 (le_antisymm hle bot_le)
      obtain ⟨hunused, htorn⟩ := hexd.last_thread hk (h.intact id k hfresh hk) hnone
      unfold teardownIfUnreferenced
      split_ifs
      · refine ⟨htorn, fun x hx => ?_⟩
        obtain rfl : s.space k = x := (cons.inj hx).1
        exact ⟨hunused.loaded, hunused.latched, hunused.cr3, hunused.coming⟩
      · exact ⟨hexd, fun x hx => absurd hx (cons_ne_self x _).symm⟩
    · exact ⟨hexd, fun x hx => absurd hx (cons_ne_self x _).symm⟩

/-! ## A thread joins the ready queue -/

theorem Inv.pushThread (hk : k < s.nextTask) (htorn : s.space k ∉ s.torn)
    (hv : v = s.pml4 (s.space k)) (hroom : (s.tokens k).encard + 1 ≤ s.activeThreads k)
    (hyoung : ∀ u, (s.pc u).building = some k → s.task u = some k)
    (hexec : ∀ u, s.task u = some k → (s.pc u).locals = none) :
    Inv (s.pushThread k v) (update P (.user s.sched.nextTid) .queued) home := by
  obtain ⟨hnone, -, -⟩ := h.unborn s.sched.nextTid le_rfl
  have htself : (s.pushThread k v).task s.sched.nextTid = some k := update_self ..
  have htask : ∀ u, u ≠ s.sched.nextTid → (s.pushThread k v).task u = s.task u := fun u hu =>
    update_of_ne hu ..
  have hcr3 : ∀ u, u ≠ s.sched.nextTid → (s.pushThread k v).cr3 u = s.cr3 u := fun u hu =>
    update_of_ne hu ..
  have hold : ∀ u j, s.task u = some j →
      u ≠ s.sched.nextTid ∧ (s.pushThread k v).task u = some j := by
    intro u j hu
    have hne : u ≠ s.sched.nextTid := by
      rintro rfl
      cases hnone ▸ hu
    exact ⟨hne, (htask u hne).trans hu⟩
  have hof : ∀ u j, (s.pushThread k v).task u = some j →
      u = s.sched.nextTid ∧ j = k ∨ u ≠ s.sched.nextTid ∧ s.task u = some j := by
    intro u j hu
    by_cases hne : u = s.sched.nextTid
    · rw [hne, htself] at hu
      exact .inl ⟨hne, (some.inj hu).symm⟩
    · exact .inr ⟨hne, (htask u hne).symm.trans hu⟩
  have hthr : ∀ u, u ≠ s.sched.nextTid →
      (s.pushThread k v).sched.threads (.user u) = s.sched.threads (.user u) := fun u hu =>
    update_of_ne (fun heq => hu (Tid.user.inj heq)) ..
  have hready : ((s.pushThread k v).sched.threads (.user s.sched.nextTid)).state = .ready := by
    have hself : (s.pushThread k v).sched.threads (.user s.sched.nextTid) =
      ⟨.ready, false, false⟩ := update_self ..
    rw [hself]
  have hgone : ∀ u, u ≠ s.sched.nextTid → Gone s.sched u → Gone (s.pushThread k v).sched u := by
    intro u hne hg
    rwa [Gone, hthr u hne]
  have hcarry : ∀ u w, s.Carries u w → (s.pushThread k v).Carries u w := fun u w hw =>
    hw.mono le_rfl (fun _ _ => rfl) fun j x hj hxj => ⟨(hold u j hj).2, hxj⟩
  refine { h with
      placed := h.placed.spawn, unborn := fun u hu => ?_, exited := fun u hu => ?_,
      task := fun u j hj => ?_, intact := fun u j hu hj => ?_, carries := fun u hu => ?_,
      cpu := fun c => (h.cpu c).mono_of_slot rfl rfl rfl fun u _ => hcarry u,
      atPc := fun u => ?_, count := fun j => ?_ }
  · have hu : s.sched.nextTid < u := hu
    rw [htask u hu.ne', hcr3 u hu.ne']
    exact h.unborn u hu.le
  · by_cases hne : u = s.sched.nextTid
    · rw [hne, hready] at hu
      cases hu
    · rw [hthr u hne] at hu
      exact h.exited u hu
  · rcases hof u j hj with ⟨-, rfl⟩ | ⟨-, hj⟩
    · exact hk
    · exact h.task u j hj
  · rcases hof u j hj with ⟨-, rfl⟩ | ⟨-, hj⟩
    · exact htorn
    · exact h.intact u j hu hj
  · by_cases hne : u = s.sched.nextTid
    · subst hne
      have hself : (s.pushThread k v).cr3 s.sched.nextTid = v := update_self ..
      rw [hself]
      exact .inr ⟨s.space k, (h.space k hk).1, ⟨k, htself, .inl rfl⟩, hv⟩
    · rw [hcr3 u hne]
      exact hcarry u _ (h.carries u fun hg => hu (hgone u hne hg))
  · refine (h.atPc u).mono (fun j hj hspawn => ⟨⟨hspawn.1, hspawn.2.1, ?_⟩, rfl⟩)
      fun j x hx halone howned => ?_
    · refine hspawn.2.2.imp (fun hu => (hold u j hu).2) fun hy => ⟨fun w hw => ?_, hy.2⟩
      rcases hof w j hw with ⟨-, rfl⟩ | ⟨-, hw⟩
      · -- nobody else makes the first thread of this task
        exact hy.1 u (hyoung u hj)
      · exact hy.1 w hw
    · obtain ⟨hu, hj⟩ := hold u j halone.1
      refine ⟨⟨hj, fun w hw hwj => ?_⟩, howned, rfl, rfl, hcr3 u hu⟩
      rcases hof w j hwj with ⟨-, rfl⟩ | ⟨hne, hwj⟩
      · rw [hexec u halone.1] at hx
        cases hx
      · exact hgone w hne (halone.2 w hw hwj)
  · have hsub : ∀ e ∈ (s.pushThread k v).tokens j, e ∈ s.tokens j ∨
        e = .inl s.sched.nextTid ∧ j = k := by
      rintro (u | u) hu
      · rcases hof u j hu.1 with ⟨rfl, hj⟩ | ⟨-, hj⟩
        · exact .inr ⟨rfl, hj⟩
        · exact .inl ⟨hj, hu.2⟩
      · exact .inl hu
    by_cases hjk : j = k
    · subst hjk
      exact encard_le_of_room hsub hroom
    · refine le_trans (Set.encard_le_encard fun e he => ?_) (h.count j)
      exact (hsub e he).resolve_right fun hcon => hjk hcon.2

/-! ## Steps of the scheduler -/

section Sched

variable {i : Inner n} {a : Sched.Act n} {latched : Fin n → Option Nat}

omit h in
theorem gone_step (h : Placed s.sched P) (hstep : Sched.step s.sched a = some i)
    (hid : id < s.sched.nextTid) (hg : Gone s.sched id) : Gone i id := by
  obtain ⟨P', hP', hmoves⟩ := h.step hstep
  have hp := (gone_iff h hid).1 hg
  have hp' : P' (.user id) = .dead := by
    rcases hmoves id with heq | hmove
    · rw [heq, hp]
    · exact hmove.dead_of_exited (.inl hp)
  exact (gone_iff hP' (born_of_place hP' (by rw [hp']; simp))).2 hp'

/-- What a switch on a CPU leaves in its latch: the CR3 of the next thread. -/
def Latched (s : System n) (a : Sched.Act n) (i : Inner n) (latched : Fin n → Option Nat) : Prop :=
  ∀ d, (latched d = s.latched d ∧
      (a.switchesOn = some d → ∀ prev next, (i.cpus d).phase ≠ .spin prev next)) ∨
    a.switchesOn = some d ∧
      ∃ prev next, (i.cpus d).phase = .spin prev next ∧ latched d = some (s.cr3Of next)

theorem Inv.cpu_sched (hstep : Sched.step s.sched a = some i) (heff : Effect s.sched i a)
    (hclaim : ∀ c, a = .claim c → s.latched c = none) (hl : s.Latched a i latched) (d : Fin n) :
    ({ s with sched := i, latched := latched } : System n).CpuOk d := by
  have hcpu := h.cpu d
  have hnone : s.latched d = none → latched d = s.latched d →
      (i.cpus d).current = (s.sched.cpus d).current →
      ({ s with sched := i, latched := latched } : System n).CpuOk d := fun hlat hlatch hcur =>
    (cpuOk_iff_of_none (hlatch.trans hlat)).2
      (((cpuOk_iff_of_none hlat).1 hcpu).mono fun id hid => ⟨hcur.trans hid, fun _ hv => hv⟩)
  have hstays : (∀ prev next, (i.cpus d).phase ≠ .spin prev next) → latched d = s.latched d := by
    intro hphase
    rcases hl d with ⟨hlatch, -⟩ | ⟨-, prev, next, hsp, -⟩
    · exact hlatch
    · exact absurd hsp (hphase prev next)
  by_cases hsame : i.cpus d = s.sched.cpus d
  · -- a CPU whose slot the step leaves alone latches nothing
    rcases hl d with ⟨hlatch, -⟩ | ⟨hsw, prev, next, hsp, -⟩
    · exact hcpu.mono_of_slot hsame rfl hlatch fun _ _ _ hv => hv
    · rw [hsame, Sched.phase_of_switchesOn hstep hsw] at hsp
      cases hsp
  have hon : ∀ {c slot}, i.cpus = update s.sched.cpus c slot → d = c ∧ i.cpus d = slot := by
    intro c slot hc
    have hd : d = c := by_contra fun hd => hsame (by rw [hc]; exact update_of_ne hd ..)
    exact ⟨hd, by rw [hc, hd]; exact update_self ..⟩
  cases heff.slots with
  | quiet hcpus => exact absurd (congrFun hcpus d) hsame
  | entered c hc hcpus =>
    obtain ⟨rfl, heq⟩ := hon hcpus
    have hslot := h.placed.slot d
    rw [Sched.CpuSlot.Ok, hc] at hslot
    have hlat := h.latched_of_phase (c := d) (by rw [hc]; simp)
    rw [cpuOk_iff_of_none ((hstays (by rw [heq]; simp)).trans hlat)]
    -- a CPU that is off has the kernel's PML4 loaded
    rcases (cpuOk_iff_of_none hlat).1 hcpu with hv | ⟨id, hcur, -⟩
    · exact .inl hv
    · rw [Current, hslot.1] at hcur
      cases hcur
  | claimed c prev next ha hc hcpus =>
    obtain ⟨rfl, heq⟩ := hon hcpus
    exact hnone (hclaim d ha) (hstays (by rw [heq]; simp)) (by rw [heq])
  | landed c prev next hc hcpus | finished c hc hcpus =>
    obtain ⟨rfl, heq⟩ := hon hcpus
    exact hnone (h.latched_of_phase (by rw [hc]; simp)) (hstays (by rw [heq]; simp)) (by rw [heq])
  | switched c prev next b ha hrun hcur hcpus =>
    obtain ⟨rfl, heq⟩ := hon hcpus
    rcases hl d with ⟨-, hno⟩ | ⟨-, prev', next', hsp, hlatch⟩
    · exact absurd (by rw [heq]) (hno ha prev next)
    · cases heq ▸ hsp
      rw [cpuOk_iff_of_none (h.latched_of_run hrun)] at hcpu
      unfold CpuOk
      dsimp only
      rw [hlatch]
      refine ⟨hcpu.mono fun id hid => ⟨?_, fun _ hv => hv⟩, ?_, prev, next, by rw [heq]⟩
      · cases hcur.symm.trans hid
        exact ⟨b, by rw [heq]⟩
      · cases next with
        | idle e => exact .inl rfl
        | user id =>
          obtain ⟨P', hP', -⟩ := h.placed.step hstep
          have hnext : (i.cpus d).current = some (.user id) := by rw [heq]
          by_cases hid : id < s.sched.nextTid
          · -- the next thread would be gone after the step too
            exact .inr ⟨id, hnext, h.carries id fun hg =>
              (not_gone_of_current hP' hnext).2 (gone_step h.placed hstep hid hg)⟩
          · exact .inl (h.unborn id (by omega)).2.1

theorem Inv.sched (hstep : Sched.step s.sched a = some i)
    (hreap : ∀ ext, a ≠ .reap ext) (hclaim : ∀ c, a = .claim c → s.latched c = none)
    (hexit : ∀ c, a = .exit c → ∀ id, s.caller c = some id → s.pc id = .user)
    (hl : s.Latched a i latched) :
    ∃ P', Inv ({ s with sched := i, latched := latched } : System n) P' home := by
  have heff := h.placed.effect hstep hreap
  obtain ⟨P', hP', hmoves⟩ := h.placed.step hstep
  have hnext := h.placed.nextTid_le hP' hmoves
  have hborn : ∀ u k, s.task u = some k → u < s.sched.nextTid := by
    intro u k hu
    by_contra hlt
    rw [(h.unborn u (by omega)).1] at hu
    cases hu
  refine ⟨P', { h with
      placed := hP', corpse := fun t ht hf => ?_,
      unborn := fun u hu => h.unborn u (le_trans hnext hu), exited := fun u hu => ?_,
      intact := fun u k hu => h.intact u k (heff.freed ▸ hu), carries := fun u hu => ?_,
      cpu := h.cpu_sched hstep heff hclaim hl, atPc := fun u => ?_, count := fun k => ?_ }⟩
  · have hf : t ∈ s.sched.freed := heff.freed ▸ hf
    rcases heff.graveyard t ht with hold | ⟨c, -, hon⟩
    · exact h.corpse t hold hf
    · -- the thread that exits was running
      obtain ⟨-, hp⟩ := h.placed.runningOn (Sched.userOn_eq hon).1
      rw [h.placed.freed t hf] at hp
      cases hp
  · by_cases hid : u < s.sched.nextTid
    · rcases heff.exited u hid hu with hold | ⟨c, ha, hon⟩
      · exact h.exited u hold
      · refine hexit c ha u ?_
        unfold caller
        rw [hon]
    · exact (h.unborn u (by omega)).2.2
  · by_cases hid : u < s.sched.nextTid
    · exact h.carries u fun hg => hu (gone_step h.placed hstep hid hg)
    · exact .inl (h.unborn u (by omega)).2.1
  · refine (h.atPc u).mono (fun k _ hk => ⟨hk, rfl⟩) fun k x _ halone howned =>
      ⟨⟨halone.1, fun w hw hwk => ?_⟩, howned, rfl, rfl, rfl⟩
    exact gone_step h.placed hstep (hborn w k hwk) (halone.2 w hw hwk)
  · have htoks : ({ s with sched := i, latched := latched } : System n).tokens k = s.tokens k := by
      ext e
      rcases e with u | u
      · simp [tokens, heff.freed]
      · rfl
    rw [htoks]
    exact h.count k

omit h in
theorem latch_eq (c : Fin n) (ha : a.switchesOn = some c) :
    ∃ latched, s.latch c i = { s with sched := i, latched := latched } ∧ s.Latched a i latched := by
  unfold latch
  split
  · next prev next hsp =>
      refine ⟨_, rfl, fun d => ?_⟩
      by_cases hd : d = c
      · subst hd
        exact .inr ⟨ha, prev, next, hsp, update_self ..⟩
      · refine .inl ⟨update_of_ne hd .., fun hsw => ?_⟩
        rw [ha] at hsw
        exact absurd (some.inj hsw).symm hd
  · next hno =>
      refine ⟨s.latched, rfl, fun d => .inl ⟨rfl, fun hsw prev next hsp => ?_⟩⟩
      cases ha ▸ hsw
      exact hno prev next hsp

omit h in
theorem latched_of_not_switch (ha : a.switchesOn = none) : s.Latched a i s.latched :=
  fun d => .inl ⟨rfl, fun hsw => by rw [ha] at hsw; cases hsw⟩

theorem Inv.schedStep (hstep : s.schedStep a = some s') :
    (∃ P', Inv s' P' home) ∧ s'.torn = s.torn := by
  have hplain : ∀ {a i}, Sched.step s.sched a = some i → (∀ ext, a ≠ .reap ext) →
      (∀ c, a = .claim c → s.latched c = none) → a.switchesOn = none →
      ({ s with sched := i } : System n) = s' → (∃ P', Inv s' P' home) ∧ s'.torn = s.torn := by
    rintro a i hi hreap hclaim ha rfl
    refine ⟨h.sched hi hreap hclaim (fun c hc => ?_) (latched_of_not_switch ha), rfl⟩
    cases hc ▸ ha
  have hswitch : ∀ {a i c}, Sched.step s.sched a = some i → (∀ ext, a ≠ .reap ext) →
      (∀ c, a = .exit c → ∀ id, s.caller c = some id → s.pc id = .user) →
      a.switchesOn = some c → s.latch c i = s' → (∃ P', Inv s' P' home) ∧ s'.torn = s.torn := by
    rintro a i c hi hreap hexit ha rfl
    obtain ⟨latched, heq, hl⟩ := latch_eq (s := s) (i := i) c ha
    rw [heq]
    refine ⟨h.sched hi hreap (fun d hd => ?_) hexit hl, rfl⟩
    cases hd ▸ ha
  cases a with
  | reap ext => cases hstep
  | claim c =>
    obtain ⟨hlat, i, hi, heq⟩ := ite_map_eq_some.1 hstep
    exact hplain hi (by simp) (fun d hd => by cases hd; exact hlat) rfl heq
  | exit c =>
    simp only [System.schedStep, ite_map_eq_some] at hstep
    obtain ⟨hpc, i, hi, heq⟩ := hstep
    exact hswitch hi (by simp) (fun d hd => by cases hd; exact hpc) rfl heq
  | yieldNow c | blockCurrent c =>
    obtain ⟨i, hi, heq⟩ := map_eq_some_iff.1 hstep
    exact hswitch hi (by simp) (by simp) rfl heq
  | spawn => exact hplain (a := .spawn) rfl (by simp) (by simp) rfl (some.inj hstep)
  | cpuEnter c | markBlocking c | unblockStore t | unblockLock t | ctxSwitch c
  | finishSwitch c =>
    obtain ⟨i, hi, heq⟩ := map_eq_some_iff.1 hstep
    exact hplain hi (by simp) (by simp) rfl heq

end Sched

/-! ## All steps -/

theorem Inv.makeProcess (hc : s.caller c = some id) (hpc : s.pc id = .user)
    (hfree : s.FrameFree frame) : ∃ home', Inv (((s.newSpace frame).newTask s.nextSpace).setPc id
      (.made s.nextTask)) P home' := by
  have hfresh : s.nextSpace ∉ s.torn := fun hm => absurd (h.torn _ hm) (lt_irrefl _)
  have howned : (s.newSpace frame).Owned (update home s.nextSpace s.nextTask) s.nextTask
      s.nextSpace := ⟨lt_add_one _, hfresh, update_self ..⟩
  have htask := (h.newSpace hfree s.nextTask).newTask howned
  have hnobody : ∀ u, (s.pc u).building ≠ some s.nextTask := fun u hu =>
    absurd (h.spawning hu).1 (lt_irrefl _)
  refine ⟨_, htask.advance hpc nofun (fun k hk => ?_) hc nofun ?_⟩
  · cases hk
    exact .inr (.inr hnobody)
  · refine ⟨lt_add_one _, ?_, .inr ⟨fun u hu => ?_, fun u hu => ?_⟩⟩
    · have hspace : ((s.newSpace frame).newTask s.nextSpace).space s.nextTask = s.nextSpace :=
        update_self ..
      exact fun hm => hfresh (hspace ▸ hm)
    · exact absurd (h.task u _ hu) (lt_irrefl _)
    · by_contra hne
      rw [pc_setPc_of_ne hne] at hu
      exact hnobody u hu

theorem Inv.pushed (hc : s.caller c = some id)
    (hpc : s.pc id = .read k v) : ∃ P', Inv ((s.setPc id .user).pushThread k v) P' home := by
  obtain ⟨-, -, -, hgone, -⟩ := h.of_caller hc
  obtain ⟨⟨hk, htorn, hwhose⟩, hv⟩ := h.at_pc hpc
  have hdone : Inv (s.setPc id .user) P home :=
    h.advance hpc nofun nofun hc nofun trivial
  -- the count made for it is free again
  have htoken : Sum.inr id ∈ s.tokens k := by
    change (s.pc id).pending = some k
    rw [hpc]
    rfl
  have hsub : (s.setPc id .user).tokens k ⊆ s.tokens k \ {.inr id} := by
    rintro (u | u) hu
    · exact ⟨hu, by simp⟩
    · have hp : ((s.setPc id .user).pc u).pending = some k := hu
      rw [pc_setPc] at hp
      split_ifs at hp with hne
      · cases hp
      · exact ⟨hp, by simpa using hne⟩
  have hroom : ((s.setPc id .user).tokens k).encard + 1 ≤ s.activeThreads k :=
    calc ((s.setPc id .user).tokens k).encard + 1
        ≤ (s.tokens k \ {.inr id}).encard + 1 := by gcongr
      _ = (s.tokens k).encard := Set.encard_sdiff_singleton_add_one htoken
      _ ≤ s.activeThreads k := h.count k
  refine ⟨_, hdone.pushThread hk htorn hv hroom (fun u hu => ?_) fun u hu => ?_⟩
  · -- another thread that makes one in this task belongs to it
    have hne : u ≠ id := by
      rintro rfl
      rw [pc_setPc, if_pos rfl] at hu
      cases hu
    rw [pc_setPc_of_ne hne] at hu
    rcases (h.spawning hu).2.2 with htask | hyoung
    · exact htask
    · exact absurd (hyoung.2 id (by rw [hpc]; rfl)).symm hne
  · rw [pc_setPc]
    split_ifs with hne
    · rfl
    · -- an `execve` in this task would have found the caller gone
      rcases hwhose with htask | hyoung
      · cases hp : s.pc u <;> try rfl
        all_goals
          obtain ⟨j, halone, -⟩ := h.at_pc hp
          obtain rfl : k = j := some.inj (Eq.trans hu.symm halone.1)
          exact absurd (halone.2 id (Ne.symm hne) htask) hgone
      · exact absurd hu (hyoung.1 u)

theorem Inv.execve (hc : s.caller c = some id) (hpc : s.pc id = .user)
    (hk : s.task id = some k) (hfree : s.FrameFree frame) (hok : s.ExecsAlone (.execve c frame)) :
    Inv ((s.newSpace frame).setPc id (.built s.nextSpace)) P (update home s.nextSpace k) := by
  have hfresh : s.nextSpace ∉ s.torn := fun hm => absurd (h.torn _ hm) (lt_irrefl _)
  have halone : s.Alone id k := by
    refine ⟨hk, fun u hu htask => hok u ?_ id hc hu (htask.trans hk.symm)⟩
    by_contra hlt
    rw [(h.unborn u (by omega)).1] at htask
    cases htask
  exact (h.newSpace hfree k).advance hpc nofun nofun hc nofun
    ⟨k, halone, ⟨lt_add_one _, hfresh, update_self ..⟩, ne_of_lt (h.space k (h.task id k hk)).1⟩

theorem Inv.pointed {old : Nat} (hc : s.caller c = some id) (hpc : s.pc id = .swapped old new) :
    Inv ((s.setCr3 id (s.pml4 new)).setPc id (.pointed old new)) P home := by
  obtain ⟨-, -, hborn, -⟩ := h.of_caller hc
  obtain ⟨k, halone, howned, rfl, hne⟩ := h.at_pc hpc
  exact (h.setCr3 hborn hpc (h.carries_space halone.1)).advance hpc nofun nofun hc
    (fun _ hx => hx) ⟨k, halone, howned, rfl, hne, update_self ..⟩

theorem Inv.step {a : Act n} (hok : s.ExecsAlone a) (hstep : s.step a = some s') :
    (∃ P' home', Inv s' P' home') ∧ ∀ x, s'.torn = x :: s.torn → s.Unused x := by
  -- a step that tears nothing down
  have hkeeps : s'.torn = s.torn → ∀ x, s'.torn = x :: s.torn → s.Unused x := fun heq x hx =>
    absurd (heq.symm.trans hx) (cons_ne_self x _).symm
  cases a
  case sched a =>
    obtain ⟨⟨P', hinv⟩, htorn⟩ := h.schedStep hstep
    exact ⟨⟨P', home, hinv⟩, hkeeps htorn⟩
  case applyCpuState c =>
    obtain ⟨v, hv, rfl⟩ := map_eq_some_iff.1 hstep
    refine ⟨⟨P, home, { h with cpu := fun d => ?_ }⟩, hkeeps rfl⟩
    by_cases hd : d = c
    · subst hd
      have hcpu := h.cpu d
      unfold CpuOk at hcpu ⊢
      rw [hv] at hcpu
      have hloaded : (s.load d v).loaded d = v := update_self ..
      dsimp only
      rw [update_self, hloaded]
      exact hcpu.2.1
    · exact (h.cpu d).mono h.placed rfl (update_of_ne hd ..)
        (update_of_ne hd ..) fun _ _ _ hu => hu
  case reap id arcs refs =>
    obtain ⟨⟨hmem, hdead⟩, ⟨⟩⟩ := ite_none_right_eq_some.1 hstep
    obtain ⟨hinv, hunused⟩ := h.reapCorpse hmem hdead refs
    exact ⟨⟨P, home, hinv⟩, hunused⟩
  -- the others are steps of a thread that runs
  all_goals obtain ⟨id, hc, hstep⟩ := bind_eq_some_iff.1 hstep
  case spawnProcess c frame =>
    obtain ⟨⟨hpc, hfree⟩, ⟨⟩⟩ := ite_none_right_eq_some.1 hstep
    obtain ⟨home', hinv⟩ := h.makeProcess hc hpc hfree
    exact ⟨⟨P, home', hinv⟩, hkeeps rfl⟩
  case spawnRejected c frame =>
    obtain ⟨⟨hpc, hfree⟩, ⟨⟩⟩ := ite_none_right_eq_some.1 hstep
    exact ⟨⟨P, _, h.newSpace hfree 0⟩, hkeeps rfl⟩
  case fork c frame =>
    obtain ⟨⟨hpc, -, hfree⟩, ⟨⟩⟩ := ite_none_right_eq_some.1 hstep
    obtain ⟨home', hinv⟩ := h.makeProcess hc hpc hfree
    exact ⟨⟨P, home', hinv⟩, hkeeps rfl⟩
  case execve c frame =>
    obtain ⟨⟨hpc, hk, hfree⟩, ⟨⟩⟩ := ite_none_right_eq_some.1 hstep
    obtain ⟨k, hk⟩ := isSome_iff_exists.1 hk
    exact ⟨⟨P, _, h.execve hc hpc hk hfree hok⟩, hkeeps rfl⟩
  -- and these depend on the point that its call has reached
  case spawnThread =>
    split at hstep <;> cases hstep
    rename_i k hpc hk
    obtain ⟨-, -, -, hgone, -⟩ := h.of_caller hc
    refine ⟨⟨P, home, h.advance hpc nofun (fun j hj => ?_) hc nofun
      ⟨h.task id k hk, (h.owned hgone hk).2.1, .inl hk⟩⟩, hkeeps rfl⟩
    cases hj
    exact .inr (.inl hk)
  case threadSpawned =>
    split at hstep <;> cases hstep
    rename_i k hpc
    obtain ⟨hinv, hroom⟩ := h.threadSpawned k
    have hspawn : (s.threadSpawned k).Spawning id k := h.at_pc hpc
    refine ⟨⟨P, home, hinv.advance hpc (fun j hj => .inr ?_) (fun _ => .inl) hc nofun
      hspawn.setPc⟩, hkeeps rfl⟩
    cases hj
    exact hroom
  case spawnedUser =>
    split at hstep <;> cases hstep
    rename_i k hpc
    have hspawn : s.Spawning id k := h.at_pc hpc
    exact ⟨⟨P, home, h.advance hpc (fun _ => .inl) (fun _ => .inl) hc nofun
      ⟨hspawn.setPc, rfl⟩⟩, hkeeps rfl⟩
  case pushThread =>
    split at hstep <;> cases hstep
    rename_i k v hpc
    obtain ⟨P', hinv⟩ := h.pushed hc hpc
    exact ⟨⟨P', home, hinv⟩, hkeeps rfl⟩
  case swapSpace =>
    split at hstep <;> cases hstep
    rename_i new k hpc hk
    exact ⟨⟨P, home, h.swapSpace hc hpc hk⟩, hkeeps rfl⟩
  case setCr3 =>
    split at hstep <;> cases hstep
    rename_i old new hpc
    exact ⟨⟨P, home, h.pointed hc hpc⟩, hkeeps rfl⟩
  case writeCr3 =>
    split at hstep <;> cases hstep
    rename_i old new hpc
    obtain ⟨k, halone, -, rfl, -⟩ := h.at_pc hpc
    exact ⟨⟨P, home, (h.load hc (h.carries_space halone.1)).switched hc hpc
      (update_self ..)⟩, hkeeps rfl⟩
  case teardownOld =>
    split at hstep <;> cases hstep
    rename_i old hpc
    refine ⟨⟨P, home, h.teardownOld hc hpc _⟩, fun x hx => ?_⟩
    unfold teardownIfUnreferenced at hx
    split_ifs at hx
    · obtain rfl : old = x := (cons.inj hx).1
      exact h.unused_old hpc
    · exact absurd hx (cons_ne_self x _).symm

/-! ## From boot -/

omit h in
theorem inv_boot (n : Nat) : Inv (boot n) (Sched.bootPlace n) (fun k => k) where
  placed := Sched.placed_boot n
  corpse _ ht := by cases ht
  unborn _ _ := ⟨rfl, rfl, rfl⟩
  exited _ _ := rfl
  kernel _ hx := absurd hx (Nat.not_lt_zero _)
  apart _ hx := absurd hx (Nat.not_lt_zero _)
  torn _ hx := by cases hx
  task _ _ hk := by cases hk
  space _ hk := absurd hk (Nat.not_lt_zero _)
  intact _ _ _ hk := by cases hk
  carries _ _ := .inl rfl
  cpu _ := .inl rfl
  atPc _ := trivial
  count k := by
    have hempty : (boot n).tokens k = ∅ := by
      refine Set.eq_empty_of_forall_notMem ?_
      rintro (u | u) hu
      · cases hu.1
      · cases (show (Pc.user).pending = some k from hu)
    rw [hempty, Set.encard_empty]
    exact bot_le

end Invariant

/-- Address-space teardown: on any number of CPUs, in every run in which `execve` is
called only when the other threads of the task are gone, whatever is torn down is loaded
on no CPU and carried by no live thread. -/
theorem teardown_unused {s s' : System (n + 1)} {a : Act (n + 1)} {x : Nat}
    (hrun : Run step ExecsAlone (boot n) s) (hok : s.ExecsAlone a) (hstep : s.step a = some s')
    (htorn : s'.torn = x :: s.torn) : s.Unused x := by
  have hinv : ∃ P home, Inv s P home := by
    refine hrun.invariant (P := fun s => ∃ P home, Inv s P home) ?_ ⟨_, _, inv_boot n⟩
    rintro s a s' ⟨P, home, h⟩ hok hstep
    exact (h.step hok hstep).1
  obtain ⟨P, home, h⟩ := hinv
  exact (h.step hok hstep).2 x htorn

/-- The boot thread spawns a process, whose thread gets the CPU. -/
def startProcess : List (Act 1) :=
  [.spawnProcess 0 1, .threadSpawned 0, .spawnedUser 0, .pushThread 0, .sched (.yieldNow 0),
   .applyCpuState 0, .sched (.claim 0), .sched (.ctxSwitch 0), .sched (.finishSwitch 0)]

/-- `execve` up to the test of the reference count. -/
def replaceImage : List (Act 1) := [.execve 0 2, .swapSpace 0, .setCr3 0, .writeCr3 0]

def execState : System 1 :=
  (runAll (guarded step ExecsAlone) (boot 0) (startProcess ++ replaceImage)).get (by decide +kernel)

theorem teardown_unused_exec : execState.Unused 0 := by
  have hrun : Run step ExecsAlone (boot 0) execState :=
    run_of_guarded (reach_of_runAll (some_get _).symm)
  exact teardown_unused (a := .teardownOld 0 fun _ => 0) hrun trivial rfl (by decide +kernel :
      (execState.teardownIfUnreferenced (fun _ => 0) 0).torn = 0 :: execState.torn)

/-- The process starts a worker thread before it replaces its image. -/
def workerState : System 1 :=
  (runAll step (boot 0) (startProcess ++
    [.spawnThread 0, .threadSpawned 0, .spawnedUser 0, .pushThread 0] ++ replaceImage)).get
    (by decide +kernel)

/-- `execve` then tears the old space down although the worker, which is ready to run,
will load its PML4. -/
theorem worker_keeps_torn_space : Reach step (boot 0) workerState ∧
      ((workerState.step (.teardownOld 0 fun _ => 0)).map torn = some (0 :: workerState.torn)) ∧
      ¬ workerState.Unused 0 := by
  refine ⟨reach_of_runAll (some_get _).symm, by decide +kernel, fun hunused => ?_⟩
  exact hunused.cr3 2 (by decide +kernel) (by decide +kernel) (by decide +kernel)

end System

end Thos.Process.Teardown
