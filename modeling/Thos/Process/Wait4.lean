import Thos.Lib.Condition
import Thos.Lib.Run

/-!
# fork, exit and wait4

The task table of `process.rs` and the queue `CHILD_EXIT`, with any number of threads that fork,
exit and wait. A thread goes through the table in `wait4` with the table locked, but the flag of a
task that exits is set without that lock; so each look at a flag is a step of its own. An exit sets
the status, sets the flag, and wakes all waiters, in this order.

A child that was forked runs once its thread has been made; until then its pid is in `unstarted`.
A thread of the kernel has pid 0, and the tasks it starts (`spawn_init`) are made as by a fork. A
task may have several threads: each may wait, and each that exits records a status.

`log` and `exits` are not in the source: they have each child that a call has returned, with the
thread and the status, and all statuses recorded, the newest first.
-/

set_option autoImplicit false

namespace Thos.Process.Wait4

open Thos.Lib Function List Condition Nat
open Option (ite_none_right_eq_some map_eq_some_iff)

/-! ## State -/

/-- The parts of `Task` that matter here. -/
structure Task where
  ppid : Nat
  status : Option Int32
  exited : Bool
  deriving DecidableEq

inductive Result
  /-- The pid, and what is stored at `status_ptr`. -/
  | child (pid : Nat) (status : Int32)
  | noChild
  deriving DecidableEq

/-- The step that a thread takes next. -/
inductive Pc
  | unborn
  | outside
  /-- The child has a pid and goes into the table. -/
  | forking (child : Nat)
  /-- The child is in the table, and its thread is made. -/
  | forked (child : Nat)
  /-- The top of the loop of `wait4`. -/
  | top (pid : Int)
  /-- Going through the table for a child that has exited, with the table locked. -/
  | scan (pid : Int) (rest : List Nat)
  /-- About to lock the queue in `wait_if`. -/
  | lockQueue (pid : Int)
  /-- About to lock the table in `should_block_in_wait4`. -/
  | lockTable (pid : Int)
  /-- Going through the table with both locked. -/
  | check (pid : Int) (rest : List Nat) (hasChild : Bool)
  /-- About to enqueue, with the queue locked. -/
  | enqueue (pid : Int)
  | asleep (pid : Int)
  | returned (r : Result)
  /-- In `set_exit_status`. -/
  | record (code : Int32)
  | flag
  /-- About to take all threads off the queue, in `wake_all`. -/
  | wake
  /-- Unblocking them. -/
  | unblock
  | gone
  deriving DecidableEq

/-- `task` has the tasks by pid, those that are no longer in `table` as well. -/
structure System (T : Type) where
  task : Nat → Task
  table : List Nat
  tableLock : Option T
  wq : Condition T
  nextPid : Nat
  unstarted : List Nat
  owner : T → Nat
  pc : T → Pc
  log : List (T × Nat × Int32)
  exits : List (Nat × Int32)

variable {T : Type}

/-- What the parent gets to see of an exit code. -/
def waitStatus (code : Int32) : Int32 := (code &&& 0xFF) <<< 8

namespace System

/-- The task is a child of the thread's that `wait4 pid` asks for. -/
def Matches (s : System T) (t : T) (pid : Int) (c : Nat) : Prop :=
  (s.task c).ppid = s.owner t ∧ (pid = -1 ∨ (c : Int) = pid)

instance (s : System T) (t : T) (pid : Int) (c : Nat) : Decidable (s.Matches t pid c) :=
  inferInstanceAs (Decidable (_ ∧ _))

section Steps

variable [DecidableEq T]

/-- The kernel at boot, with threads of its own and no task. -/
def boot (kernel : T → Bool) : System T where
  task _ := ⟨0, none, false⟩
  table := []
  tableLock := none
  wq := .new
  nextPid := 1
  unstarted := []
  owner _ := 0
  pc t := if kernel t then .outside else .unborn
  log := []
  exits := []

variable (s : System T)

def goto (t : T) (p : Pc) : System T := { s with pc := update s.pc t p }

/-- One step of the search in `wait4`. -/
def scanStep (t : T) (pid : Int) : List Nat → System T
  | c :: rest =>
    if s.Matches t pid c ∧ (s.task c).exited then
      let code := (s.task c).status.getD 0
      { s with
        table := s.table.erase c
        tableLock := none
        log := (t, c, code) :: s.log }.goto t (.returned (.child c (waitStatus code)))
    else s.goto t (.scan pid rest)
  | [] =>
    if ∃ c ∈ s.table, s.Matches t pid c then { s with tableLock := none }.goto t (.lockQueue pid)
    else { s with tableLock := none }.goto t (.returned .noChild)

/-- One step of `should_block_in_wait4`. -/
def checkStep (t : T) (pid : Int) (hasChild : Bool) : List Nat → System T
  | c :: rest =>
    if s.Matches t pid c then
      if (s.task c).exited then
        { s with tableLock := none, wq := s.wq.release }.goto t (.top pid)
      else s.goto t (.check pid rest true)
    else s.goto t (.check pid rest hasChild)
  | [] =>
    if hasChild then { s with tableLock := none }.goto t (.enqueue pid)
    else { s with tableLock := none, wq := s.wq.release }.goto t (.top pid)

/-- The next step of a thread that is in a call. -/
def advance (t : T) : Option (System T) :=
  match s.pc t with
  | .unborn | .outside | .gone => none
  | .forking c =>
    if s.tableLock = none then
      some ({ s with table := s.table.orderedInsert (· ≤ ·) c }.goto t (.forked c))
    else none
  | .forked c => some ({ s with unstarted := c :: s.unstarted }.goto t .outside)
  | .top pid =>
    if s.tableLock = none then
      some ({ s with tableLock := some t }.goto t (.scan pid s.table))
    else none
  | .scan pid rest => some (s.scanStep t pid rest)
  | .lockQueue pid => (s.wq.acquire t).map fun wq => { s with wq }.goto t (.lockTable pid)
  | .lockTable pid =>
    if s.tableLock = none then
      some ({ s with tableLock := some t }.goto t (.check pid s.table false))
    else none
  | .check pid rest hasChild => some (s.checkStep t pid hasChild rest)
  | .enqueue pid => some ({ s with wq := s.wq.enqueue t }.goto t (.asleep pid))
  | .asleep pid => if s.wq.ready t then some (s.goto t (.top pid)) else none
  | .returned _ => some (s.goto t .outside)
  | .record code =>
    some ({ s with
      task := update s.task (s.owner t) { s.task (s.owner t) with status := some code }
      exits := (s.owner t, code) :: s.exits }.goto t .flag)
  | .flag =>
    some ({ s with
      task := update s.task (s.owner t)
        { s.task (s.owner t) with exited := true } }.goto t
        .wake)
  | .wake => (s.wq.drain t).map fun wq => { s with wq }.goto t .unblock
  | .unblock =>
    if s.wq.draining t = [] then some (s.goto t .gone) else some { s with wq := s.wq.unblock t }

/-- What can happen. -/
inductive Act (T : Type)
  | fork (t : T)
  /-- A thread comes to life in a task that was forked. -/
  | start (t : T) (c : Nat)
  /-- A thread comes to life in the task of another. -/
  | createThread (t u : T)
  | wait4 (t : T) (pid : Int)
  | exit (t : T) (code : Int32)
  /-- A thread that is in a call takes its next step. -/
  | next (t : T)

def step : Act T → Option (System T)
  | .fork t =>
    if s.pc t = .outside then
      some ({ s with
        task := update s.task s.nextPid ⟨s.owner t, none, false⟩
        nextPid := s.nextPid + 1 }.goto t (.forking s.nextPid))
    else none
  | .start t c =>
    if s.pc t = .unborn ∧ c ∈ s.unstarted then
      some ({ s with
        unstarted := s.unstarted.erase c
        owner := update s.owner t c }.goto t .outside)
    else none
  | .createThread t u =>
    if s.pc t = .unborn ∧ s.pc u = .outside then
      some ({ s with owner := update s.owner t (s.owner u) }.goto t .outside)
    else none
  | .wait4 t pid =>
    if s.pc t = .outside ∧ (pid = -1 ∨ 0 < pid) then some (s.goto t (.top pid)) else none
  | .exit t code => if s.pc t = .outside then some (s.goto t (.record code)) else none
  | .next t => s.advance t

end Steps

end System

/-! ## Where the threads are -/

namespace Pc

/-- The child that is being forked. -/
def making : Pc → Option Nat
  | .forking c | .forked c => some c
  | _ => none

def locksTable : Pc → Bool
  | .scan _ _ | .check _ _ _ => true
  | _ => false

def locksQueue : Pc → Bool
  | .lockTable _ | .check _ _ _ | .enqueue _ => true
  | _ => false

/-- The thread holds nothing and has promised nothing. -/
def plain : Pc → Bool
  | .outside | .top _ | .lockQueue _ | .returned .noChild | .record _ | .gone => true
  | _ => false

end Pc

namespace System

variable (s : System T)

/-- The task has no thread yet. -/
def Unowned (c : Nat) : Prop :=
  c < s.nextPid ∧ (s.task c).exited = false ∧ ∀ u, s.pc u ≠ .unborn → s.owner u ≠ c

/-- Somebody has exited and is about to wake all threads. -/
def WakeDue : Prop := ∃ t, s.pc t = .wake

/-- No child that was looked at has exited, or somebody is about to wake all. -/
def Looked (t : T) (pid : Int) (rest : List Nat) : Prop :=
  (∀ c ∈ s.table, c ∉ rest → s.Matches t pid c → (s.task c).exited = false) ∨ s.WakeDue

/-- The status that a task has recorded last. -/
def lastExit (c : Nat) : Option Int32 := (s.exits.find? (·.1 = c)).map Prod.snd

/-- What holds of a thread that is at `p`. -/
structure At (s : System T) (t : T) (p : Pc) : Prop where
  born : p ≠ .unborn → s.owner t < s.nextPid
  making : ∀ c ∈ p.making, s.Unowned c ∧ c ∉ s.unstarted
  absent : ∀ c, p = .forking c → c ∉ s.table ∧ ∀ e ∈ s.log, e.2.1 ≠ c
  tableLocked : p.locksTable = true → s.tableLock = some t
  queueLocked : p.locksQueue = true → s.wq.lock = some t
  drained : p ≠ .unblock → s.wq.draining t = []
  scanning : ∀ pid rest, p = .scan pid rest → rest ⊆ s.table
  looked : ∀ pid rest hasChild, p = .check pid rest hasChild → s.Looked t pid rest
  lookedAll : ∀ pid, p = .enqueue pid → s.Looked t pid []
  recorded : p = .flag → (s.task (s.owner t)).status ≠ none
  result : ∀ c st, p = .returned (.child c st) → ∃ code, st = waitStatus code ∧ (t, c, code) ∈ s.log

theorem At.of_plain {s : System T} {t : T} {p : Pc} (hp : p.plain = true)
    (hborn : s.owner t < s.nextPid) (hdrained : s.wq.draining t = []) : At s t p := by
  cases p with
  | returned r =>
    cases r with
    | noChild =>
      exact ⟨fun _ => hborn, nofun, nofun, nofun, nofun, fun _ => hdrained, nofun, nofun, nofun,
        nofun, nofun⟩
    | child c st => cases hp
  | outside | top | lockQueue | record | gone =>
    exact ⟨fun _ => hborn, nofun, nofun, nofun, nofun, fun _ => hdrained, nofun, nofun, nofun,
      nofun, nofun⟩
  | _ => cases hp

theorem At.unblock {s : System T} {t : T} (hborn : s.owner t < s.nextPid) : At s t .unblock :=
  ⟨fun _ => hborn, nofun, nofun, nofun, nofun, fun hne => absurd rfl hne, nofun, nofun, nofun,
    nofun, nofun⟩

/-- The children that threads wait for are the same and have not exited, or somebody is about to
wake all. -/
def Calm (s s' : System T) : Prop :=
  (∀ c ∈ s'.table, c ∈ s.table ∧ (s'.task c).ppid = (s.task c).ppid ∧
      (s'.task c).exited = (s.task c).exited ∨ (s'.task c).exited = false) ∧
    (s.WakeDue → s'.WakeDue) ∨ s'.WakeDue

/-- A step of `t` leaves the others alone. -/
structure Frame (s s' : System T) (t : T) : Prop where
  pc : ∀ u ≠ t, s'.pc u = s.pc u
  owner : ∀ u ≠ t, s'.owner u = s.owner u
  nextPid : s.nextPid ≤ s'.nextPid
  making : ∀ u ≠ t, ∀ c ∈ (s.pc u).making, s.Unowned c → c ∉ s.unstarted →
    s'.Unowned c ∧ c ∉ s'.unstarted
  absent : ∀ u ≠ t, ∀ c, s.pc u = .forking c → (c ∈ s'.table → c ∈ s.table) ∧
    ∀ e ∈ s'.log, e ∈ s.log ∨ e.2.1 ∈ s.table
  log : s.log ⊆ s'.log
  tableLock : ∀ u ≠ t, s.tableLock = some u → s'.tableLock = some u ∧ s'.table = s.table
  lock : ∀ u ≠ t, s.wq.lock = some u → s'.wq.lock = some u
  draining : ∀ u ≠ t, s'.wq.draining u = s.wq.draining u
  status : ∀ c < s.nextPid, (s.task c).status ≠ none → (s'.task c).status ≠ none
  calm : s.wq.lock ≠ none → Calm s s'

variable {s s' : System T} {t : T} {pid : Int} {rest : List Nat}

theorem Calm.looked (h : Calm s s') (howner : s'.owner t = s.owner t)
    (hlook : s.Looked t pid rest) : s'.Looked t pid rest := by
  rcases h with ⟨htable, hdue⟩ | hdue
  · refine hlook.imp (fun hall c hc hrest hmatch => ?_) hdue
    rcases htable c hc with ⟨hmem, hppid, hexd⟩ | hexd
    · rw [hexd]
      refine hall c hmem hrest ?_
      rwa [Matches, hppid, howner] at hmatch
    · exact hexd
  · exact .inr hdue

variable {u : T}

theorem At.frame (h : At s u (s.pc u)) (hu : u ≠ t) (hframe : Frame s s' t) :
    At s' u (s'.pc u) := by
  have howner := hframe.owner u hu
  have hlook : ∀ pid rest, (s.pc u).locksQueue = true → s.Looked u pid rest →
      s'.Looked u pid rest := by
    intro pid rest hlocks
    exact (hframe.calm (by simp [h.queueLocked hlocks])).looked howner
  rw [hframe.pc u hu]
  refine ⟨fun hb => ?_, fun c hc => ?_, fun c hc => ?_, fun hl => ?_,
    fun hl => hframe.lock u hu (h.queueLocked hl), fun hd =>
      (hframe.draining u hu).trans (h.drained hd),
    fun pid rest hp => ?_, fun pid rest hasChild hp => ?_, fun pid hp => ?_, fun hp => ?_,
      fun c st hp => ?_⟩
  · rw [howner]
    exact (h.born hb).trans_le hframe.nextPid
  · exact hframe.making u hu c hc (h.making c hc).1 (h.making c hc).2
  · obtain ⟨htable, hlog⟩ := h.absent c hc
    obtain ⟨htable', hlog'⟩ := hframe.absent u hu c hc
    refine ⟨fun hmem => htable (htable' hmem), fun e he => ?_⟩
    rcases hlog' e he with hold | hold
    · exact hlog e hold
    · rintro rfl
      exact htable hold
  · exact (hframe.tableLock u hu (h.tableLocked hl)).1
  · rw [(hframe.tableLock u hu (h.tableLocked (by rw [hp]; rfl))).2]
    exact h.scanning pid rest hp
  · exact hlook pid rest (by rw [hp]; rfl) (h.looked pid rest hasChild hp)
  · exact hlook pid [] (by rw [hp]; rfl) (h.lookedAll pid hp)
  · rw [howner]
    exact hframe.status _ (h.born (by simp [hp])) (h.recorded hp)
  · obtain ⟨code, hst, hmem⟩ := h.result c st hp
    exact ⟨code, hst, hframe.log hmem⟩

/-! ## The invariant -/

def Asleep (s : System T) (t : T) : Prop := ∃ pid, s.pc t = .asleep pid

def RightlyAsleep (s : System T) (t : T) : Prop := ∀ pid, s.pc t = .asleep pid → s.Looked t pid []

/-- What is known of a child that was returned. -/
structure Reaped (s : System T) (e : T × Nat × Int32) : Prop where
  absent : e.2.1 ∉ s.table
  lt : e.2.1 < s.nextPid
  born : s.pc e.1 ≠ .unborn
  parent : s.owner e.1 = (s.task e.2.1).ppid
  status : (e.2.1, e.2.2) ∈ s.exits

/-- What holds of the tables. -/
structure Tables (s : System T) : Prop where
  nodup : s.table.Nodup
  lt : ∀ c ∈ s.table, c < s.nextPid
  logNodup : (s.log.map fun e => e.2.1).Nodup
  log : ∀ e ∈ s.log, s.Reaped e
  unstartedNodup : s.unstarted.Nodup
  unstarted : ∀ c ∈ s.unstarted, s.Unowned c
  status : ∀ c, (s.task c).status = s.lastExit c
  exited : ∀ c, (s.task c).exited = true → (s.task c).status ≠ none
  exits : ∀ e ∈ s.exits, e.1 < s.nextPid

structure Inv (s : System T) : Prop where
  tables : Tables s
  once : ∀ t u c, c ∈ (s.pc t).making → c ∈ (s.pc u).making → t = u
  thread : ∀ t, At s t (s.pc t)
  watched : s.wq.Watched s.Asleep s.RightlyAsleep

theorem Inv.at_pc {p : Pc} (h : Inv s) (ht : s.pc t = p) : At s t p := ht ▸ h.thread t

theorem Inv.step_of_frame (h : Inv s) (hframe : Frame s s' t) (htabs : Tables s')
    (honce : ∀ c ∈ (s'.pc t).making, ∀ u ≠ t, c ∉ (s.pc u).making) (hthr : At s' t (s'.pc t))
    (hwatch : s'.wq.Watched s'.Asleep s'.RightlyAsleep) : Inv s' := by
  refine ⟨htabs, once_of_step (R := fun p c => c ∈ p.making) h.once hframe.pc honce,
    fun u => ?_, hwatch⟩
  by_cases hut : u = t
  · exact hut ▸ hthr
  · exact (h.thread u).frame hut hframe

theorem inv_boot (kernel : T → Bool) : Inv (boot kernel) where
  tables := ⟨.nil, nofun, .nil, nofun, .nil, nofun, fun _ => rfl, nofun, nofun⟩
  once t u c hc := by
    by_cases ht : kernel t <;> simp [boot, ht, Pc.making] at hc
  thread t := by
    by_cases ht : kernel t
    · rw [show (boot kernel).pc t = .outside from if_pos ht]
      exact .of_plain rfl zero_lt_one rfl
    · rw [show (boot kernel).pc t = .unborn from if_neg ht]
      exact ⟨fun hne => absurd rfl hne, nofun, nofun, nofun, nofun, fun _ => rfl, nofun,
        nofun, nofun, nofun, nofun⟩
  watched t := by
    rintro ⟨pid, hp⟩
    by_cases ht : kernel t <;> simp [boot, ht] at hp

theorem Inv.watched_of_calm (h : Inv s) {q : Condition T}
    (hq : s.wq.Watched s.Asleep s.RightlyAsleep → q.Watched s.Asleep s.RightlyAsleep)
    (hcalm : Calm s s')
    (hpc : ∀ u pid, s'.pc u = .asleep pid → s.pc u = .asleep pid ∧ s'.owner u = s.owner u) :
    q.Watched s'.Asleep s'.RightlyAsleep :=
  (hq h.watched).mono (fun u ⟨pid, hp⟩ => ⟨pid, (hpc u pid hp).1⟩) fun u _ hgood pid hp =>
    hcalm.looked (hpc u pid hp).2 (hgood pid (hpc u pid hp).1)

variable {p : Pc}

theorem wakeDue_of_ne (hp : s.pc t ≠ .wake) (hpc : ∀ u ≠ t, s'.pc u = s.pc u) (h : s.WakeDue) :
    s'.WakeDue := by
  obtain ⟨u, hu⟩ := h
  have hut : u ≠ t := by
    rintro rfl
    exact hp hu
  exact ⟨u, (hpc u hut).trans hu⟩

theorem Calm.of_same (htable : s'.table = s.table) (htask : s'.task = s.task)
    (hwake : s.pc t ≠ .wake) (hpc : ∀ u ≠ t, s'.pc u = s.pc u) : Calm s s' :=
  .inl ⟨fun c hc => .inl ⟨htable ▸ hc, by rw [htask], by rw [htask]⟩, wakeDue_of_ne hwake hpc⟩

theorem Tables.of_pc (h : Tables s) (htask : s'.task = s.task) (htable : s'.table = s.table)
    (hnext : s'.nextPid = s.nextPid) (hunstarted : s'.unstarted = s.unstarted)
    (howner : s'.owner = s.owner) (hlog : s'.log = s.log) (hexits : s'.exits = s.exits)
    (hborn : ∀ u, s'.pc u = .unborn ↔ s.pc u = .unborn) : Tables s' := by
  have hunown : ∀ c, s'.Unowned c ↔ s.Unowned c := by
    intro c
    simp [Unowned, htask, hnext, howner, hborn]
  refine ⟨htable ▸ h.nodup, ?_, hlog ▸ h.logNodup, ?_, hunstarted ▸ h.unstartedNodup,
    ?_, ?_, ?_, ?_⟩
  · simpa only [htable, hnext] using h.lt
  · intro e he
    obtain ⟨habsent, hlt, hbe, hpar, hstat⟩ := h.log e (hlog ▸ he)
    exact ⟨htable ▸ habsent, hnext ▸ hlt, fun hb => hbe ((hborn _).1 hb), by
      rw [howner, htask, hpar], hexits ▸ hstat⟩
  · intro c hc
    exact (hunown c).2 (h.unstarted c (hunstarted ▸ hc))
  · simpa only [htask, lastExit, hexits] using h.status
  · simpa only [htask] using h.exited
  · simpa only [hexits, hnext] using h.exits

variable [DecidableEq T]

theorem goto_pc_of_ne (s : System T) (hu : u ≠ t) : (s.goto t p).pc u = s.pc u := update_of_ne hu ..

@[simp]
theorem goto_pc_self (s : System T) : (s.goto t p).pc t = p := update_self _ _ _

theorem asleep_of_goto (t : T) (p : Pc) (hp : ∀ pid, p ≠ .asleep pid) (s : System T)
    (u : T) (pid : Int) (h : (s.goto t p).pc u = .asleep pid) : s.pc u = .asleep pid := by
  by_cases hut : u = t
  · subst hut
    rw [goto_pc_self] at h
    exact absurd h (hp pid)
  · exact (goto_pc_of_ne s hut).symm.trans h

theorem unborn_iff (hpc : ∀ u ≠ t, s'.pc u = s.pc u) (hs : s.pc t ≠ .unborn)
    (hs' : s'.pc t ≠ .unborn) (u : T) : s'.pc u = .unborn ↔ s.pc u = .unborn := by
  by_cases hut : u = t
  · subst hut
    simp [hs, hs']
  · rw [hpc u hut]

variable {wq : Condition T} {c : Nat}

section

variable (h : Inv s)
include h

variable {tableLock : Option T}
  (htableLock : ∀ u ≠ t, s.tableLock = some u → tableLock = some u)
include htableLock

theorem Inv.pass (hlock : ∀ u ≠ t, s.wq.lock = some u → wq.lock = some u)
    (hdrain : ∀ u ≠ t, wq.draining u = s.wq.draining u) (hborn : s.pc t ≠ .unborn)
    (hwake : s.wq.lock ≠ none → s.pc t ≠ .wake) (hp : p ≠ .unborn) (hmaking : p.making = none)
    (hat : At ({ s with wq, tableLock }.goto t p) t p)
    (hwatch : wq.Watched ({ s with wq, tableLock }.goto t p).Asleep
      ({ s with wq, tableLock }.goto t p).RightlyAsleep) :
    Inv ({ s with wq, tableLock }.goto t p) := by
  have hpc : ∀ u ≠ t, ({ s with wq, tableLock }.goto t p).pc u = s.pc u :=
    fun u hu => goto_pc_of_ne _ hu
  have hunborn := unborn_iff hpc hborn (by simpa using hp)
  have hunown : ∀ c, s.Unowned c → ({ s with wq, tableLock }.goto t p).Unowned c :=
    fun c hc => ⟨hc.1, hc.2.1, fun u hu => hc.2.2 u fun hb => hu ((hunborn u).2 hb)⟩
  refine h.step_of_frame (t := t) ⟨hpc, fun u _ => rfl, le_rfl,
    fun u _ c _ hc hn => ⟨hunown c hc, hn⟩, fun u _ c _ => ⟨id, fun e he => .inl he⟩, fun _ => id,
    fun u hu hl => ⟨htableLock u hu hl, rfl⟩, hlock, hdrain, fun c _ hc => hc, fun hl =>
      .of_same (t := t) rfl rfl (hwake hl) hpc⟩
    (h.tables.of_pc rfl rfl rfl rfl rfl rfl rfl hunborn) ?_ ?_ hwatch
  · rw [goto_pc_self, hmaking]
    exact nofun
  · rwa [goto_pc_self]

variable (tableLock)

theorem Inv.move (hact : s.pc t ≠ .unborn ∧ s.pc t ≠ .wake) (hp : p ≠ .unborn)
    (hmaking : p.making = none) (hslp : ∀ pid, p ≠ .asleep pid)
    (hat : Calm s ({ s with tableLock }.goto t p) → At ({ s with tableLock }.goto t p) t p) :
    Inv ({ s with tableLock }.goto t p) := by
  have hcalm : Calm s ({ s with tableLock }.goto t p) :=
    .of_same (t := t) rfl rfl hact.2 fun u hu => goto_pc_of_ne _ hu
  exact h.pass htableLock (fun _ _ hu => hu) (fun _ _ => rfl) hact.1 (fun _ => hact.2) hp hmaking
    (hat hcalm)
    (h.watched_of_calm id hcalm fun u pid hu => ⟨asleep_of_goto t p hslp _ u pid hu, rfl⟩)

theorem Inv.goOn (hact : s.pc t ≠ .unborn ∧ s.pc t ≠ .wake)
    (hdrained : s.wq.draining t = []) (hp : p.plain = true) :
    Inv ({ s with tableLock }.goto t p) := by
  refine h.move _ htableLock hact ?_ ?_ ?_ fun _ =>
    .of_plain hp ((h.thread t).born hact.1) hdrained
  · rintro rfl
    cases hp
  · cases p <;> first | rfl | cases hp
  · rintro pid rfl
    cases hp

omit htableLock

theorem Inv.giveUp {hasChild : Bool} (ht : s.pc t = .check pid rest hasChild) :
    Inv ({ s with tableLock := none, wq := s.wq.release }.goto t (.top pid)) := by
  have hat := h.at_pc ht
  have hwake : s.pc t ≠ .wake := by simp [ht]
  exact h.pass (lock_of_ne (hat.tableLocked rfl)) (lock_of_ne (hat.queueLocked rfl))
    (fun u _ => rfl) (by simp [ht]) (fun _ => hwake) nofun rfl
    (.of_plain rfl (hat.born nofun) (hat.drained nofun))
    (h.watched_of_calm (·.release) (.of_same (t := t) rfl rfl hwake fun u hu => goto_pc_of_ne _ hu)
      fun u pid' hu => ⟨asleep_of_goto t (.top pid) nofun _ u pid' hu, rfl⟩)

theorem Inv.checkStep {hasChild : Bool} (ht : s.pc t = .check pid rest hasChild) :
    Inv (s.checkStep t pid hasChild rest) := by
  have hat := h.at_pc ht
  have hlook := hat.looked pid rest hasChild rfl
  have hgoOn : ∀ c rest', rest = c :: rest' → (s.Matches t pid c → (s.task c).exited = false) →
      ∀ has, Inv (s.goto t (.check pid rest' has)) := by
    rintro c rest' rfl hc has
    refine h.move s.tableLock (fun _ _ hu => hu) (by simp [ht]) nofun rfl nofun
      fun hcalm => ⟨fun _ => hat.born nofun, nofun, nofun, fun _ => hat.tableLocked rfl,
        fun _ => hat.queueLocked rfl, fun _ => hat.drained nofun, nofun, ?_, nofun, nofun, nofun⟩
    rintro _ _ _ ⟨⟩
    refine hcalm.looked rfl (hlook.imp_left fun hall d hd hrest hmatch => ?_)
    by_cases hdc : d = c
    · exact hdc ▸ hc (hdc ▸ hmatch)
    · exact hall d hd (by simp [hdc, hrest]) hmatch
  cases rest with
  | nil =>
    simp only [checkStep]
    split_ifs
    · refine h.move _ (lock_of_ne (hat.tableLocked rfl)) (by simp [ht]) nofun rfl
        nofun fun hcalm => ⟨fun _ => hat.born nofun, nofun, nofun, nofun,
          fun _ => hat.queueLocked rfl, fun _ => hat.drained nofun, nofun, nofun, ?_, nofun, nofun⟩
      rintro _ ⟨⟩
      exact hcalm.looked rfl hlook
    · exact h.giveUp ht
  | cons c rest' =>
    simp only [checkStep]
    split_ifs with hmatch hexd
    · exact h.giveUp ht
    · exact hgoOn c rest' rfl (fun _ => by simpa using hexd) true
    · exact hgoOn c rest' rfl (fun hm => absurd hm hmatch) hasChild

theorem Inv.fallAsleep (ht : s.pc t = .enqueue pid) :
    Inv ({ s with wq := s.wq.enqueue t }.goto t (.asleep pid)) := by
  have hat := h.at_pc ht
  have hwake : s.pc t ≠ .wake := by simp [ht]
  have hcalm : Calm s ({ s with wq := s.wq.enqueue t }.goto t (.asleep pid)) :=
    .of_same (t := t) rfl rfl hwake fun u hu => goto_pc_of_ne _ hu
  refine h.pass (fun u _ hu => hu) (lock_of_ne (hat.queueLocked rfl)) (fun u _ => rfl)
    (by simp [ht]) (fun _ => hwake) nofun rfl
    ⟨fun _ => hat.born nofun, nofun, nofun, nofun, nofun, fun _ => hat.drained nofun, nofun, nofun,
      nofun, nofun, nofun⟩ ?_
  refine h.watched.fallAsleep (fun pid' hp => ?_) (fun u hut ⟨pid', hp⟩ => ?_)
    fun u hut hgood pid' hp => ?_
  · -- `t` has looked at all its children with the queue locked
    rw [goto_pc_self] at hp
    cases hp
    exact hcalm.looked rfl (hat.lookedAll pid rfl)
  · exact ⟨pid', (goto_pc_of_ne _ hut).symm.trans hp⟩
  · exact hcalm.looked rfl (hgood pid' ((goto_pc_of_ne _ hut).symm.trans hp))

theorem Inv.lockQueue (ht : s.pc t = .lockQueue pid) (hwq : s.wq.acquire t = some wq) :
    Inv ({ s with wq }.goto t (.lockTable pid)) := by
  have hat := h.at_pc ht
  have hwake : s.pc t ≠ .wake := by simp [ht]
  have hnone : ∀ u ≠ t, s.wq.lock = some u → wq.lock = some u := by
    intro u _ hu
    simp [acquire, hu] at hwq
  have hwatch : wq.Watched ({ s with wq }.goto t (.lockTable pid)).Asleep
      ({ s with wq }.goto t (.lockTable pid)).RightlyAsleep :=
    h.watched_of_calm (·.acquire hwq)
      (.of_same (t := t) rfl rfl hwake fun u hu => goto_pc_of_ne _ hu)
      fun u pid' hu => ⟨asleep_of_goto t (.lockTable pid) nofun _ u pid' hu, rfl⟩
  obtain ⟨-, ⟨⟩⟩ := ite_none_right_eq_some.1 hwq
  exact h.pass (fun u _ hu => hu) hnone (fun u _ => rfl) (by simp [ht]) (fun _ => hwake) nofun rfl
    ⟨fun _ => hat.born nofun, nofun, nofun, nofun, fun _ => rfl, fun _ => hat.drained nofun, nofun,
      nofun, nofun, nofun, nofun⟩ hwatch

theorem Inv.drainQueue (ht : s.pc t = .wake) (hwq : s.wq.drain t = some wq) :
    Inv ({ s with wq }.goto t .unblock) := by
  have hat := h.at_pc ht
  have hmono : s.wq.Watched ({ s with wq }.goto t .unblock).Asleep s.RightlyAsleep :=
    h.watched.mono (fun u ⟨pid, hp⟩ => ⟨pid, asleep_of_goto t .unblock nofun _ u pid hp⟩)
      fun _ _ hgood => hgood
  have hwatch : wq.Watched ({ s with wq }.goto t .unblock).Asleep
      ({ s with wq }.goto t .unblock).RightlyAsleep :=
    hmono.drain hwq (hat.drained nofun)
  obtain ⟨hnone, ⟨⟩⟩ := ite_none_right_eq_some.1 hwq
  exact h.pass (fun u _ hu => hu) (fun u _ hu => hu) (fun u hu => update_of_ne hu ..)
    (by simp [ht]) (fun hl => absurd hnone hl) nofun rfl
    (.unblock (hat.born nofun)) hwatch

theorem Inv.unblockNext (ht : s.pc t = .unblock) : Inv { s with wq := s.wq.unblock t } := by
  have hself : { s with wq := s.wq.unblock t } = { s with wq := s.wq.unblock t }.goto t
    .unblock := by
    simp [goto, ← ht]
  have hwake : s.pc t ≠ .wake := by simp [ht]
  rw [hself]
  exact h.pass (fun u _ hu => hu) (fun u _ hu => (s.wq.lock_unblock t).trans hu)
    (fun u hu => s.wq.draining_unblock hu) (by simp [ht]) (fun _ => hwake) nofun rfl
    (.unblock ((h.at_pc ht).born nofun))
    (h.watched_of_calm (·.unblock t)
      (.of_same (t := t) rfl rfl hwake fun u hu => goto_pc_of_ne _ hu)
      fun u pid hu => ⟨asleep_of_goto t .unblock nofun _ u pid hu, rfl⟩)

theorem Inv.edit {s₀ : System T} (hs₀ : s₀.pc = s.pc ∧ s₀.owner = s.owner ∧ s₀.wq = s.wq)
    (hborn : s.pc t ≠ .unborn) (hp : p ≠ .unborn) (hslp : ∀ pid, p ≠ .asleep pid)
    (hcalm : (∀ c ∈ s₀.table, c ∈ s.table ∧ (s₀.task c).ppid = (s.task c).ppid ∧
      (s₀.task c).exited = (s.task c).exited ∨ (s₀.task c).exited = false) ∧ s.pc t ≠ .wake ∨
      p = .wake) (hnext : s.nextPid ≤ s₀.nextPid)
    (htask : ∀ c < s.nextPid, ((s.task c).status ≠ none → (s₀.task c).status ≠ none) ∧
      (s.Unowned c → (s₀.task c).exited = false))
    (hothers : ∀ u ≠ t, ∀ c ∈ (s.pc u).making, (c ∉ s.unstarted → c ∉ s₀.unstarted) ∧
      (c ∈ s₀.table → c ∈ s.table))
    (hlog : s.log ⊆ s₀.log ∧ ∀ e ∈ s₀.log, e ∈ s.log ∨ e.2.1 ∈ s.table)
    (hlock : ∀ u ≠ t, s.tableLock = some u → s₀.tableLock = some u ∧ s₀.table = s.table)
    (htabs : Tables s₀) (honce : ∀ c ∈ p.making, ∀ u ≠ t, c ∉ (s.pc u).making)
    (hat : (∀ u, (s₀.goto t p).pc u ≠ .unborn → s.pc u ≠ .unborn) → At (s₀.goto t p) t p) :
    Inv (s₀.goto t p) := by
  obtain ⟨hpc₀, howner, hwq⟩ := hs₀
  have hpc : ∀ u ≠ t, (s₀.goto t p).pc u = s.pc u := fun u hu => hpc₀ ▸ goto_pc_of_ne s₀ hu
  have hunborn := unborn_iff hpc hborn (by simpa using hp)
  have hcalm : Calm s (s₀.goto t p) :=
    hcalm.imp (fun h => ⟨h.1, wakeDue_of_ne h.2 hpc⟩) fun hp => ⟨t, by simp [hp]⟩
  refine h.step_of_frame (t := t) ⟨hpc, fun u _ => congrFun howner u, hnext,
    fun u hu c hc hun hn => ⟨⟨hun.1.trans_le hnext, (htask c hun.1).2 hun, fun v hv => ?_⟩,
      (hothers u hu c hc).1 hn⟩,
    fun u hu c hc => ⟨(hothers u hu c (by rw [hc]; rfl)).2, hlog.2⟩, hlog.1, hlock,
    fun u _ hl => hwq ▸ hl, fun u _ => hwq ▸ rfl, fun c hc => (htask c hc).1, fun _ => hcalm⟩
    (htabs.of_pc rfl rfl rfl rfl rfl rfl rfl fun u => (hunborn u).trans (by rw [hpc₀])) ?_ ?_
    (hwq ▸ h.watched_of_calm id hcalm fun u pid hu => ⟨?_, congrFun howner u⟩)
  · exact howner ▸ hun.2.2 v (mt (hunborn v).2 hv)
  · rwa [goto_pc_self]
  · rw [goto_pc_self]
    exact hat fun u => mt (hunborn u).2
  · exact hpc₀ ▸ asleep_of_goto t p hslp s₀ u pid hu

theorem Inv.reap (ht : s.pc t = .scan pid (c :: rest)) (hmem : c ∈ s.table)
    (hmatch : s.Matches t pid c) {code : Int32} (hcode : (s.task c).status = some code) :
    Inv ({ s with
      table := s.table.erase c
      tableLock := none
      log := (t, c, code) :: s.log }.goto t (.returned (.child c (waitStatus code)))) := by
  have hat := h.at_pc ht
  have hexit : (c, code) ∈ s.exits := by
    rw [h.tables.status c, lastExit, map_eq_some_iff] at hcode
    obtain ⟨e, he, rfl⟩ := hcode
    have hfst : e.1 = c := by simpa using find?_some he
    exact hfst ▸ mem_of_find?_eq_some he
  refine h.edit ⟨rfl, rfl, rfl⟩ (by simp [ht]) nofun nofun
    (.inl ⟨fun d hd => .inl ⟨mem_of_mem_erase hd, rfl, rfl⟩, by simp [ht]⟩) le_rfl
    (fun d _ => ⟨id, fun hd => hd.2.1⟩) (fun u _ d _ => ⟨id, mem_of_mem_erase⟩)
    ⟨subset_cons_self .., fun e he => ?_⟩ (lock_of_ne (hat.tableLocked rfl))
    { h.tables with
      nodup := h.tables.nodup.erase c, lt := fun d hd => h.tables.lt d (mem_of_mem_erase hd),
      logNodup := nodup_cons.2 ⟨fun hc => ?_, h.tables.logNodup⟩, log := fun e he => ?_ } nofun
    fun _ => ⟨fun _ => hat.born nofun, nofun, nofun, nofun, nofun, fun _ => hat.drained nofun,
      nofun, nofun, nofun, nofun, ?_⟩
  · rcases mem_cons.1 he with rfl | he
    · exact .inr hmem
    · exact .inl he
  · -- the child is still in the table, so no call has returned it before
    obtain ⟨e, he, hec⟩ := mem_map.1 hc
    exact (h.tables.log e he).absent (hec ▸ hmem)
  · rcases mem_cons.1 he with rfl | he
    · exact ⟨h.tables.nodup.not_mem_erase, h.tables.lt c hmem, by simp [ht], hmatch.1.symm, hexit⟩
    · have hold := h.tables.log e he
      exact { hold with absent := fun hm => hold.absent (mem_of_mem_erase hm) }
  · rintro d st ⟨⟩
    exact ⟨code, rfl, mem_cons_self⟩

theorem Inv.scanStep (ht : s.pc t = .scan pid rest) : Inv (s.scanStep t pid rest) := by
  have hat := h.at_pc ht
  have hrest := hat.scanning pid rest rfl
  cases rest with
  | nil =>
    simp only [scanStep]
    split_ifs <;> exact h.goOn _ (lock_of_ne (hat.tableLocked rfl)) (by simp [ht])
      (hat.drained nofun) rfl
  | cons c rest =>
    simp only [scanStep]
    split_ifs with hhit
    · obtain ⟨code, hcode⟩ := Option.ne_none_iff_exists'.1 (h.tables.exited c hhit.2)
      rw [hcode]
      exact h.reap ht (hrest mem_cons_self) hhit.1 hcode
    · refine h.move s.tableLock (fun _ _ hu => hu) (by simp [ht]) nofun rfl nofun
        fun _ => ⟨fun _ => hat.born nofun, nofun, nofun, fun _ => hat.tableLocked rfl, nofun,
          fun _ => hat.drained nofun, ?_, nofun, nofun, nofun, nofun⟩
      rintro _ _ ⟨⟩
      exact fun d hd => hrest (mem_cons_of_mem c hd)

theorem Inv.insert (ht : s.pc t = .forking c) (hnone : s.tableLock = none) :
    Inv ({ s with table := s.table.orderedInsert (· ≤ ·) c }.goto t (.forked c)) := by
  have hat := h.at_pc ht
  obtain ⟨hunown, hnotin⟩ := hat.making c rfl
  obtain ⟨habsent, hlog⟩ := hat.absent c rfl
  have hmem : ∀ d, d ∈ s.table.orderedInsert (· ≤ ·) c ↔ d = c ∨ d ∈ s.table := fun d =>
    mem_orderedInsert _
  have honce : ∀ u ≠ t, c ∉ (s.pc u).making := fun u hu hc =>
    hu (h.once u t c hc (by rw [ht]; rfl))
  refine h.edit ⟨rfl, rfl, rfl⟩ (by simp [ht]) nofun nofun
    (.inl ⟨fun d hd => ?_, by simp [ht]⟩) le_rfl (fun d _ => ⟨id, fun hd => hd.2.1⟩)
    (fun u hu d hd => ⟨id, fun hdmem => ?_⟩) ⟨fun _ => id, fun _ => .inl⟩
    (fun u _ hlock => by cases hnone ▸ hlock)
    { h.tables with
      nodup := (perm_orderedInsert _ c s.table).nodup_iff.2
        (nodup_cons.2 ⟨habsent, h.tables.nodup⟩),
      lt := fun d hd => ?_, log := fun e he => ?_ } ?_
    fun hborn => ⟨fun _ => hat.born nofun, ?_, nofun, nofun, nofun, fun _ => hat.drained nofun,
      nofun, nofun, nofun, nofun, nofun⟩
  · rcases (hmem d).1 hd with rfl | hd
    · exact .inr hunown.2.1
    · exact .inl ⟨hd, rfl, rfl⟩
  · rcases (hmem d).1 hdmem with rfl | hdmem
    · exact absurd hd (honce u hu)
    · exact hdmem
  · rcases (hmem d).1 hd with rfl | hd
    · exact hunown.1
    · exact h.tables.lt d hd
  · have hold := h.tables.log e he
    exact { hold with absent := fun hm => ((hmem _).1 hm).elim (hlog e he) hold.absent }
  · rintro d ⟨⟩
    exact honce
  · rintro d ⟨⟩
    exact ⟨⟨hunown.1, hunown.2.1, fun u hu => hunown.2.2 u (hborn u hu)⟩, hnotin⟩

theorem Inv.makeThread (ht : s.pc t = .forked c) :
    Inv ({ s with unstarted := c :: s.unstarted }.goto t .outside) := by
  have hat := h.at_pc ht
  obtain ⟨hunown, hnotin⟩ := hat.making c rfl
  refine h.edit ⟨rfl, rfl, rfl⟩ (by simp [ht]) nofun nofun
    (.inl ⟨fun d hd => .inl ⟨hd, rfl, rfl⟩, by simp [ht]⟩) le_rfl
    (fun d _ => ⟨id, fun hd => hd.2.1⟩) (fun u hu d hdu => ⟨fun hn hmem => ?_, id⟩)
    ⟨fun _ => id, fun _ => .inl⟩ (fun u _ hu => ⟨hu, rfl⟩)
    { h.tables with
      log := fun e he => { h.tables.log e he with },
      unstartedNodup := nodup_cons.2 ⟨hnotin, h.tables.unstartedNodup⟩,
      unstarted := forall_mem_cons.2 ⟨hunown, h.tables.unstarted⟩ } nofun
    fun _ => .of_plain rfl (hat.born nofun) (hat.drained nofun)
  rcases mem_cons.1 hmem with rfl | hmem
  · exact hu (h.once u t d hdu (by rw [ht]; rfl))
  · exact hn hmem

theorem Inv.fork (ht : s.pc t = .outside) : Inv ({ s with
      task := update s.task s.nextPid ⟨s.owner t, none, false⟩
      nextPid := s.nextPid + 1 }.goto t (.forking s.nextPid)) := by
  have hat := h.at_pc ht
  set task := update s.task s.nextPid ⟨s.owner t, none, false⟩ with htaskdef
  have hself : task s.nextPid = ⟨s.owner t, none, false⟩ := update_self ..
  have htask : ∀ c ≠ s.nextPid, task c = s.task c := fun c hc => update_of_ne hc ..
  refine h.edit ⟨rfl, rfl, rfl⟩ (by simp [ht]) nofun nofun
    (.inl ⟨fun c hc => .inl ⟨hc, ?_⟩, by simp [ht]⟩) (le_succ _)
    (fun c hc => ?_) (fun u _ d _ => ⟨id, id⟩) ⟨fun _ => id, fun _ => .inl⟩
    (fun u _ hu => ⟨hu, rfl⟩)
    { h.tables with
      lt := fun c hc => (h.tables.lt c hc).trans (lt_succ_self _), log := fun e he => ?_,
      unstarted := fun d hd => ?_, status := fun c => ?_, exited := fun c hc => ?_,
      exits := fun e he => (h.tables.exits e he).trans (lt_succ_self _) } ?_
    fun hborn => ⟨fun _ => (hat.born nofun).trans (lt_succ_self _), ?_, ?_, nofun, nofun,
      fun _ => hat.drained nofun, nofun, nofun, nofun, nofun, nofun⟩
  · simp only [htask c (h.tables.lt c hc).ne, and_self]
  · simp only [htask c hc.ne]
    exact ⟨id, fun hd => hd.2.1⟩
  · have hold := h.tables.log e he
    exact { hold with
      lt := hold.lt.trans (lt_succ_self _)
      parent := by simpa only [htask _ hold.lt.ne] using hold.parent }
  · have hold := h.tables.unstarted d hd
    exact ⟨hold.1.trans (lt_succ_self _), by simpa only [htask d hold.1.ne] using hold.2.1,
      hold.2.2⟩
  · by_cases hc : c = s.nextPid
    · -- no exit was recorded for a pid that is not given out yet
      have hnone : s.lastExit s.nextPid = none := by
        rw [lastExit, Option.map_eq_none_iff, find?_eq_none]
        intro e he
        simpa using (h.tables.exits e he).ne
      simp only [hc, hself]
      exact hnone.symm
    · simp only [htask c hc]
      exact h.tables.status c
  · by_cases hcn : c = s.nextPid
    · simp only [hcn, hself] at hc
      cases hc
    · simp only [htask c hcn] at hc ⊢
      exact h.tables.exited c hc
  · rintro c ⟨⟩ u _ hcu
    exact absurd ((h.thread u).making _ hcu).1.1 (lt_irrefl _)
  · rintro c ⟨⟩
    refine ⟨⟨lt_succ_self _, congrArg Task.exited hself, fun u hu => ?_⟩, fun hmem => ?_⟩
    · exact ((h.thread u).born (hborn u hu)).ne
    · exact absurd (h.tables.unstarted _ hmem).1 (lt_irrefl _)
  · rintro c ⟨⟩
    exact ⟨fun hmem => absurd (h.tables.lt _ hmem) (lt_irrefl _),
      fun e he => (h.tables.log e he).lt.ne⟩

theorem Inv.birth (ht : s.pc t = .unborn) (hlt : c < s.nextPid) {unstarted : List Nat}
    (hsub : unstarted.Sublist s.unstarted) (hfree : ∀ d ∈ unstarted, d ≠ c)
    (hmaking : ∀ u, ∀ d ∈ (s.pc u).making, d ≠ c) :
    Inv ({ s with unstarted, owner := update s.owner t c }.goto t .outside) := by
  have hat := h.at_pc ht
  set s' : System T := { s with unstarted, owner := update s.owner t c }.goto t .outside with hs'
  have hpc : ∀ u ≠ t, s'.pc u = s.pc u := fun u hu => goto_pc_of_ne _ hu
  have howner : ∀ u ≠ t, s'.owner u = s.owner u := fun u hu => update_of_ne hu ..
  have hself : s'.owner t = c := update_self ..
  have hkeep : ∀ d, d ≠ c → s.Unowned d → s'.Unowned d := by
    refine fun d hdc hd => ⟨hd.1, hd.2.1, fun u hu => ?_⟩
    by_cases hut : u = t
    · rw [hut, hself]
      exact hdc.symm
    · rw [howner u hut]
      exact hd.2.2 u (hpc u hut ▸ hu)
  have hcalm : Calm s s' := .of_same (t := t) rfl rfl (by simp [ht]) hpc
  refine h.step_of_frame (t := t) ⟨hpc, howner, le_rfl, ?_,
    fun u _ d _ => ⟨id, fun e he => .inl he⟩,
    fun _ => id, fun u _ hu => ⟨hu, rfl⟩, fun u _ hu => hu, fun u _ => rfl, fun d _ hd => hd,
    fun _ => hcalm⟩ ?_ ?_ ?_ (h.watched_of_calm id hcalm fun u pid hu => ?_)
  · exact fun u _ d hdu hd hn => ⟨hkeep d (hmaking u d hdu) hd, fun hmem => hn (hsub.subset hmem)⟩
  · refine ⟨h.tables.nodup, h.tables.lt, h.tables.logNodup, fun e he => ?_,
      h.tables.unstartedNodup.sublist hsub,
      fun d hd => hkeep d (hfree d hd) (h.tables.unstarted d (hsub.subset hd)), h.tables.status,
      h.tables.exited, h.tables.exits⟩
    obtain ⟨hab, hlt', hbe, hpar, hstat⟩ := h.tables.log e he
    have het : e.1 ≠ t := by
      rintro rfl
      exact hbe ht
    exact ⟨hab, hlt', hpc _ het ▸ hbe, (howner _ het).trans hpar, hstat⟩
  · simp [hs', Pc.making]
  · rw [hs', goto_pc_self]
    exact .of_plain rfl (hself.symm ▸ hlt) (hat.drained nofun)
  · have hold := asleep_of_goto t .outside nofun _ u pid hu
    have hut : u ≠ t := by
      rintro rfl
      rw [show s.pc u = .asleep pid from hold] at ht
      cases ht
    exact ⟨hold, howner u hut⟩

theorem Inv.start (ht : s.pc t = .unborn) (hc : c ∈ s.unstarted) :
    Inv ({ s with unstarted := s.unstarted.erase c, owner := update s.owner t c }.goto t
      .outside) := by
  refine h.birth ht (h.tables.unstarted c hc).1 erase_sublist (fun d hd => ?_) fun u d hd => ?_
  · exact (h.tables.unstartedNodup.mem_erase_iff.1 hd).1
  · rintro rfl
    exact ((h.thread u).making d hd).2 hc

theorem Inv.createThread (ht : s.pc t = .unborn) (hu : s.pc u = .outside) :
    Inv ({ s with owner := update s.owner t (s.owner u) }.goto t .outside) := by
  have hborn : s.pc u ≠ .unborn := by simp [hu]
  refine h.birth ht ((h.thread u).born hborn) (List.Sublist.refl _) (fun d hd => ?_)
    fun v d hd => ?_
  · exact ((h.tables.unstarted d hd).2.2 u hborn).symm
  · exact (((h.thread v).making d hd).1.2.2 u hborn).symm

theorem Inv.exitStep (hact : s.pc t ≠ .unborn ∧ s.pc t ≠ .wake) (hdrained : s.wq.draining t = [])
    {task : Task} {exits : List (Nat × Int32)} (hppid : task.ppid = (s.task (s.owner t)).ppid)
    (hexd : task.exited = (s.task (s.owner t)).exited ∧ p = .flag ∨ p = .wake)
    (hstat : task.status ≠ none) (hexits : s.exits ⊆ exits) (hlt : ∀ e ∈ exits, e.1 < s.nextPid)
    (hlast : ∀ c, (update s.task (s.owner t) task c).status =
      (exits.find? (·.1 = c)).map Prod.snd) :
    Inv ({ s with task := update s.task (s.owner t) task, exits }.goto t p) := by
  have hp : p ≠ .unborn ∧ p.making = none ∧ ∀ pid, p ≠ .asleep pid := by
    rcases hexd with ⟨-, rfl⟩ | rfl <;> exact ⟨nofun, rfl, nofun⟩
  set task' := update s.task (s.owner t) task with htask'
  have hself : task' (s.owner t) = task := update_self ..
  have htask : ∀ c ≠ s.owner t, task' c = s.task c := fun c hc => update_of_ne hc ..
  have hppid' : ∀ c, (task' c).ppid = (s.task c).ppid := by
    intro c
    by_cases hc : c = s.owner t
    · rw [hc, hself, hppid]
    · rw [htask c hc]
  have hnone : ∀ c, (s.task c).status ≠ none ∨ c = s.owner t → (task' c).status ≠ none := by
    intro c hc
    by_cases hct : c = s.owner t
    · rw [hct, hself]
      exact hstat
    · rw [htask c hct]
      exact hc.resolve_right hct
  have hunown : ∀ c, s.Unowned c → (task' c).exited = false := by
    intro c hc
    rw [htask c (hc.2.2 t hact.1).symm]
    exact hc.2.1
  refine h.edit ⟨rfl, rfl, rfl⟩ hact.1 hp.1 hp.2.2
    (hexd.imp_left fun hsame => ⟨fun c hc => .inl ⟨hc, hppid' c, ?_⟩, hact.2⟩) le_rfl
    (fun c _ => ⟨fun hc => hnone c (.inl hc), hunown c⟩) (fun u _ d _ => ⟨id, id⟩)
    ⟨fun _ => id, fun _ => .inl⟩ (fun u _ hu => ⟨hu, rfl⟩)
    { h.tables with
      log := fun e he => ?_, unstarted := fun d hd => ?_, status := hlast, exited := fun c hc => ?_,
      exits := hlt } (by rw [hp.2.1]; exact nofun)
    fun _ => ⟨fun _ => (h.thread t).born hact.1, by rw [hp.2.1]; exact nofun, ?_, ?_, ?_,
      fun _ => hdrained, ?_, ?_, ?_, fun _ => hnone _ (.inr rfl), ?_⟩
  · by_cases hct : c = s.owner t
    · simp only [hct, hself, hsame.1]
    · simp only [htask c hct]
  · have hold := h.tables.log e he
    exact { hold with parent := hold.parent.trans (hppid' _).symm, status := hexits hold.status }
  · have hold := h.tables.unstarted d hd
    exact ⟨hold.1, hunown d hold, hold.2.2⟩
  · by_cases hct : c = s.owner t
    · exact hnone c (.inr hct)
    · simp only [htask c hct] at hc ⊢
      exact h.tables.exited c hc
  all_goals rcases hexd with ⟨-, rfl⟩ | rfl <;> exact nofun

theorem Inv.record {code : Int32} (ht : s.pc t = .record code) : Inv ({ s with
      task := update s.task (s.owner t) { s.task (s.owner t) with status := some code }
      exits := (s.owner t, code) :: s.exits }.goto t .flag) := by
  have hat := h.at_pc ht
  refine h.exitStep (by simp [ht]) (hat.drained nofun) rfl (.inl ⟨rfl, rfl⟩) nofun
    (subset_cons_self ..) (forall_mem_cons.2 ⟨hat.born nofun, h.tables.exits⟩) fun c => ?_
  by_cases hc : c = s.owner t
  · subst hc
    simp
  · rw [update_of_ne hc, h.tables.status c, lastExit, find?_cons_of_neg]
    simpa using Ne.symm hc

theorem Inv.flag (ht : s.pc t = .flag) : Inv ({ s with
      task := update s.task (s.owner t) { s.task (s.owner t) with exited := true } }.goto
        t .wake) := by
  have hat := h.at_pc ht
  refine h.exitStep (by simp [ht]) (hat.drained nofun) rfl (.inr rfl)
    (hat.recorded rfl)
    (fun _ => id) h.tables.exits fun c => ?_
  refine Eq.trans ?_ (h.tables.status c)
  by_cases hc : c = s.owner t
  · subst hc
    simp
  · rw [update_of_ne hc]

theorem Inv.advance (hs : s.advance t = some s') : Inv s' := by
  have hat := h.thread t
  cases ht : s.pc t <;> rw [ht] at hat <;> simp only [System.advance, ht, Option.some.injEq,
    reduceCtorEq, ite_none_right_eq_some, map_eq_some_iff] at hs
  case forking c => exact hs.2 ▸ h.insert ht hs.1
  case forked c => exact hs ▸ h.makeThread ht
  case top pid =>
    obtain ⟨hnone, rfl⟩ := hs
    refine h.move _ (by simp [hnone]) (by simp [ht]) nofun rfl nofun
      fun _ => ⟨fun _ => hat.born nofun, nofun, nofun, fun _ => rfl, nofun,
        fun _ => hat.drained nofun, ?_, nofun, nofun, nofun, nofun⟩
    rintro _ _ ⟨⟩
    exact List.Subset.refl _
  case scan pid rest => exact hs ▸ h.scanStep ht
  case lockQueue pid =>
    obtain ⟨wq, hwq, rfl⟩ := hs
    exact h.lockQueue ht hwq
  case lockTable pid =>
    obtain ⟨hnone, rfl⟩ := hs
    refine h.move _ (by simp [hnone]) (by simp [ht]) nofun rfl nofun
      fun _ => ⟨fun _ => hat.born nofun, nofun, nofun, fun _ => rfl, fun _ => hat.queueLocked rfl,
        fun _ => hat.drained nofun, nofun, ?_, nofun, nofun, nofun⟩
    rintro _ _ _ ⟨⟩
    exact .inl fun c hc hrest => absurd hc hrest
  case check pid rest hasChild => exact hs ▸ h.checkStep ht
  case enqueue pid => exact hs ▸ h.fallAsleep ht
  case asleep pid =>
    exact hs.2 ▸ h.goOn s.tableLock (fun _ _ hu => hu) (by simp [ht])
      (hat.drained nofun) rfl
  case returned r =>
    exact hs ▸ h.goOn s.tableLock (fun _ _ hu => hu) (by simp [ht])
      (hat.drained nofun) rfl
  case record code => exact hs ▸ h.record ht
  case flag => exact hs ▸ h.flag ht
  case wake =>
    obtain ⟨wq, hwq, rfl⟩ := hs
    exact h.drainQueue ht hwq
  case unblock =>
    split at hs <;> cases hs
    · next hdrained =>
      exact h.goOn s.tableLock (fun _ _ hu => hu) (by simp [ht]) hdrained rfl
    · exact h.unblockNext ht

theorem Inv.step (a : Act T) (hs : s.step a = some s') : Inv s' := by
  cases a with
  | fork t =>
    obtain ⟨ht, ⟨⟩⟩ := ite_none_right_eq_some.1 hs
    exact h.fork ht
  | start t c =>
    obtain ⟨⟨ht, hc⟩, ⟨⟩⟩ := ite_none_right_eq_some.1 hs
    exact h.start ht hc
  | createThread t u =>
    obtain ⟨⟨ht, hu⟩, ⟨⟩⟩ := ite_none_right_eq_some.1 hs
    exact h.createThread ht hu
  | wait4 t pid =>
    obtain ⟨⟨ht, -⟩, ⟨⟩⟩ := ite_none_right_eq_some.1 hs
    exact h.goOn s.tableLock (fun _ _ hu => hu) (by simp [ht])
      ((h.at_pc ht).drained nofun) rfl
  | exit t code =>
    obtain ⟨ht, ⟨⟩⟩ := ite_none_right_eq_some.1 hs
    exact h.goOn s.tableLock (fun _ _ hu => hu) (by simp [ht])
      ((h.at_pc ht).drained nofun) rfl
  | next t => exact h.advance hs

end

/-! ## What a call returns -/

theorem advance_cases (hs : s.advance t = some s') :
    (∃ pid rest, s.pc t = .scan pid rest ∧ s' = s.scanStep t pid rest) ∨
      s'.log = s.log ∧ s'.pc t ≠ .returned .noChild := by
  cases ht : s.pc t <;> simp only [advance, ht, Option.some.injEq, reduceCtorEq,
    ite_none_right_eq_some, map_eq_some_iff] at hs
  case scan pid rest => exact .inl ⟨pid, rest, rfl, hs.symm⟩
  case check pid rest hasChild =>
    subst hs
    refine .inr ?_
    cases rest <;> simp only [checkStep] <;> split_ifs <;> exact ⟨rfl, by simp⟩
  case unblock =>
    split at hs <;> cases hs
    · exact .inr ⟨rfl, by simp⟩
    · exact .inr ⟨rfl, by simp [ht]⟩
  case lockQueue | wake =>
    obtain ⟨wq, -, rfl⟩ := hs
    exact .inr ⟨rfl, by simp⟩
  case forking | top | lockTable | asleep =>
    obtain ⟨-, rfl⟩ := hs
    exact .inr ⟨rfl, by simp⟩
  all_goals
    subst hs
    exact .inr ⟨rfl, by simp⟩

theorem Inv.reaped (h : Inv s) (hs : s.advance t = some s') {e : T × Nat × Int32}
    (hlog : s'.log = e :: s.log) :
    e.1 = t ∧ e.2.1 ∈ s.table ∧ (s.task e.2.1).exited = true ∧ s.lastExit e.2.1 = some e.2.2 := by
  have hsame : ∀ {l : List (T × Nat × Int32)}, l = s.log → l ≠ e :: s.log := by
    rintro l rfl heq
    simpa using congrArg length heq
  rcases advance_cases hs with ⟨pid, rest, ht, rfl⟩ | ⟨hl, -⟩
  · have hrest := (h.thread t).scanning pid rest ht
    cases rest with
    | nil =>
      simp only [System.scanStep] at hlog
      split_ifs at hlog
      · exact absurd hlog (hsame rfl)
      · exact absurd hlog (hsame rfl)
    | cons c rest =>
      simp only [System.scanStep] at hlog
      split_ifs at hlog with hhit
      · obtain ⟨code, hcode⟩ := Option.ne_none_iff_exists'.1 (h.tables.exited c hhit.2)
        obtain ⟨rfl, -⟩ := cons.inj hlog
        rw [← h.tables.status c, hcode]
        exact ⟨rfl, hrest mem_cons_self, hhit.2, rfl⟩
      · exact absurd hlog (hsame rfl)
  · exact absurd hlog (hsame hl)

theorem noChild_of_advance (hs : s.advance t = some s') (ht' : s'.pc t = .returned .noChild) :
    ∃ pid rest, s.pc t = .scan pid rest ∧ ∀ c ∈ s.table, ¬ s.Matches t pid c := by
  rcases advance_cases hs with ⟨pid, rest, ht, rfl⟩ | ⟨-, hne⟩
  · refine ⟨pid, rest, ht, ?_⟩
    cases rest with
    | nil =>
      simp only [scanStep] at ht'
      split_ifs at ht' with hsome
      · simp at ht'
      · exact fun c hc hmatch => hsome ⟨c, hc, hmatch⟩
    | cons c rest =>
      simp only [scanStep] at ht'
      split_ifs at ht' <;> simp at ht'
  · exact absurd ht' hne

/-! ## Main result -/

/-- What callers can rely on. -/
structure Correct (s : System T) : Prop where
  /-- No child is returned twice, and each to its parent, with a status that it recorded. -/
  once : (s.log.map fun e => e.2.1).Nodup
  parent : ∀ e ∈ s.log, s.owner e.1 = (s.task e.2.1).ppid ∧ (e.2.1, e.2.2) ∈ s.exits
  result : ∀ t c st, s.pc t = .returned (.child c st) →
    ∃ code, st = waitStatus code ∧ (t, c, code) ∈ s.log
  /-- The child that a step returns is in the table, has exited, and the status is the last one. -/
  reaped : ∀ t s', s.advance t = some s' → ∀ e, s'.log = e :: s.log →
    e.1 = t ∧ e.2.1 ∈ s.table ∧ (s.task e.2.1).exited = true ∧ s.lastExit e.2.1 = some e.2.2
  /-- A call finds no child only if there is none. -/
  noChild : ∀ t s', s.advance t = some s' → s'.pc t = .returned .noChild →
    ∃ pid rest, s.pc t = .scan pid rest ∧ ∀ c ∈ s.table, ¬ s.Matches t pid c
  /-- Nobody sleeps whose child has exited, unless a wake is under way. -/
  asleep : ∀ t pid, s.pc t = .asleep pid →
    (∀ c ∈ s.table, s.Matches t pid c → (s.task c).exited = false) ∨
      s.wq.Waking t ∨ t ∈ s.wq.waiting ∧ s.WakeDue

theorem Inv.correct (h : Inv s) : Correct s where
  once := h.tables.logNodup
  parent e he := ⟨(h.tables.log e he).parent, (h.tables.log e he).status⟩
  result t := (h.thread t).result
  reaped t s' hs e := h.reaped hs
  noChild t s' hs := noChild_of_advance hs
  asleep t pid ht := by
    rcases h.watched t ⟨pid, ht⟩ with hwaking | ⟨hmem, hgood⟩
    · exact .inr (.inl hwaking)
    · rcases hgood pid ht with hall | hdue
      · exact .inl fun c hc => hall c hc not_mem_nil
      · exact .inr (.inr ⟨hmem, hdue⟩)

/-- fork, exit and wait4 are correct in every state that any threads can bring the system to. -/
theorem wait4_correct {kernel : T → Bool} {s : System T}
    (h : Reach step (boot kernel) s) : Correct s :=
  (h.invariant (fun _ a _ hinv _ hs => hinv.step a hs) (inv_boot kernel)).correct

/-- The kernel starts a task, whose thread 1 forks; the child's thread 2 exits with 7 while the
parent sleeps in `wait4`, which returns. -/
def childExits : List (Act (Fin 3)) :=
  [.fork 0, .next 0, .next 0, .start 1 1, .fork 1, .next 1, .next 1, .start 2 2,
    .wait4 1 (-1), .next 1, .next 1, .next 1, .next 1, .next 1, .next 1, .next 1, .next 1,
      .next 1, .next 1,
    .exit 2 7, .next 2, .next 2, .next 2, .next 2, .next 1, .next 1, .next 1, .next 1]

theorem wait4_correct_childExits : ∃ s : System (Fin 3), Reach step (boot fun t => t = 0) s ∧
    s.pc 1 = .returned (.child 2 (waitStatus 7)) ∧ s.exits = [(2, 7)] ∧ Correct s := by
  obtain ⟨s, hreach, hpc, hexits⟩ : ∃ s, Reach step (boot fun t : Fin 3 => t = 0) s ∧
      s.pc 1 = .returned (.child 2 (waitStatus 7)) ∧ s.exits = [(2, 7)] :=
      exists_reach childExits (by decide +kernel)
  exact ⟨s, hreach, hpc, hexits, wait4_correct hreach⟩

end System

end Thos.Process.Wait4
