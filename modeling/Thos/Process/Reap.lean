import Thos.Lib.LockTrace
import Thos.Lib.Run

/-!
# What runs under the scheduler lock

`reap` holds the `SCHED` lock, a spin lock, while it reclaims what exited threads leave:
for the last thread of a task it tears the address space down, which unmaps the section
views that are still there, which writes file-backed sections back, which for an ext2 file
goes through the file system to the disk driver, and that waits for the disk with the
scheduler's own calls. Dropping the corpse may drop the task with its handle table, and the
last reference to a pipe end wakes the threads blocked on the pipe.

Each call is modelled as its effect on the tasks and the trace of its uses of the lock,
through this whole call graph. What the disk does, how many threads are blocked on a pipe
and when interrupts come is up to the environment.
-/

set_option autoImplicit false

namespace Thos.Process.Reap

open Thos.Lib Thos.Lib.LockEvent Function List Option

/-! ## Calls of the scheduler -/

def current : List LockEvent := [.lock, .unlock]

def unblock : List LockEvent := [.lock, .unlock]

/-- The last line of `spawn_user` and its variants. -/
def pushReady : List LockEvent := [.lock, .unlock]

/-- `reschedule`, and `finish_switch` once the thread has been switched back to. -/
def reschedule (block : Bool) : List LockEvent :=
  (if block then [.block] else []) ++ [.lock, .unlock, .lock, .unlock]

def yieldNow : List LockEvent := reschedule false

/-- `WaitQueue::wait`, and `wait_if` with a condition that holds. -/
def waitQueue : List LockEvent := current ++ reschedule true

/-- `wake_all` of a queue with `w` blocked threads. -/
def wakeAll (w : Nat) : List LockEvent := (List.replicate w unblock).flatten

/-- `exit`, which does not return. -/
def exit : List LockEvent := [.lock, .unlock]

/-! ## The disk driver -/

/-- A pass of `recover`: the yields of `READ LOG EXT` and the submitters it wakes. -/
structure Recovery where
  (yields parked : Nat)

/-- What `wait` finds when it looks at its tag. -/
inductive Poll
  /-- Recovery has failed the tag. -/
  | tagErr
  /-- The port reports an error; `none` if another thread has the `RECOVER` lock. -/
  | fault (own : Option Recovery)
  /-- Another thread recovers the port. -/
  | recovering
  | done
  | pending

/-- More of a trace before a result. -/
def precede {α : Type} (tr : List LockEvent) (r : List LockEvent × α) : List LockEvent × α :=
  (tr ++ r.1, r.2)

def recover (r : Recovery) : List LockEvent :=
  (List.replicate r.yields yieldNow).flatten ++ wakeAll r.parked

/-- `wait`: the trace, and whether the command completed. -/
def wait (blocking : Bool) : List Poll → List LockEvent × Bool
  | [] => ([], false) -- `POLL_LIMIT` is reached
  | .tagErr :: _ => ([], false)
  | .fault (some r) :: ps => precede (recover r) (wait blocking ps)
  | .fault none :: ps => precede yieldNow (wait blocking ps)
  | .recovering :: ps => precede yieldNow (wait blocking ps)
  | .done :: _ => ([], true)
  | .pending :: ps => precede (if blocking then waitQueue else yieldNow) (wait blocking ps)

/-- One command of `transfer` or `flush`: the yields before it is issued, for a free tag and
an idle port, and what `wait` finds. -/
structure Command where
  yields : Nat
  blocking : Bool
  polls : List Poll

def Command.trace (c : Command) : List LockEvent :=
  (List.replicate c.yields yieldNow).flatten ++ (wait c.blocking c.polls).1

/-! ## Files and sections -/

/-- The files that can be positioned. -/
inductive Seekable
  | ext2
  | fat
  | dir
  deriving DecidableEq

/-- The implementations of `FileOps`. `seek` fails with `ESPIPE` on all but the last. -/
inductive FileKind
  | keyboard
  | console
  | pipeRead
  | pipeWrite
  | seekable (k : Seekable)
  deriving DecidableEq

/-- An open file. -/
structure File where
  id : Nat
  kind : FileKind
  deriving DecidableEq

/-- What the disk does during one `Ext2File::write`: the commands that `ext2::open` and
`write_path` issue, and whether the write succeeds. -/
structure DiskWrite where
  commands : List Command
  ok : Bool

/-- `write` of `len` bytes to a file that can be positioned: the trace and the result. -/
def Seekable.write (len : Nat) (d : DiskWrite) : Seekable → List LockEvent × Int
  | .ext2 => (d.commands.flatMap Command.trace, if d.ok then len else -5) -- `EIO`
  | .fat => ([], -30) -- `EROFS`
  | .dir => ([], -21) -- `EISDIR`

/-- `Section`, without its frames. -/
structure Section where
  size : Nat
  file : Option File
  deriving DecidableEq

/-- The number of frames. -/
def Section.frames (sec : Section) : Nat := max 1 ((sec.size + 4095) / 4096)

/-- The loop of `Section::flush` from frame `i` on, with `m` frames left. -/
def writeBack (k : Seekable) (disk : Nat → DiskWrite) : Nat → Nat → Nat → List LockEvent × Bool
  | _, 0, _ => ([], true)
  | i, m + 1, remaining =>
    let len := min remaining 4096
    let r := k.write len (disk i)
    if r.2 = len then precede r.1 (writeBack k disk (i + 1) m (remaining - len))
    else (r.1, false)

def Section.flush (sec : Section) (disk : Nat → DiskWrite) : List LockEvent × Bool :=
  match sec.file with
  | none => ([], true)
  | some ⟨_, .seekable k⟩ => writeBack k disk 0 sec.frames sec.size
  | some _ => ([], false)

/-- `SectionView`. -/
structure View where
  (base pages : Nat)
  sec : Section
  deriving DecidableEq

/-- `HandleObject`, as far as it refers to a file. -/
inductive Handle
  | file (f : File)
  | sec (x : Section)
  | other
  deriving DecidableEq

/-- The file that a handle keeps open. -/
def Handle.file? : Handle → Option File
  | .file f => some f
  | .sec x => x.file
  | .other => none

/-- What the environment does during a call: what the disk does with page `j` of the
`i`-th view that is written back, and how many threads are blocked on a pipe when a
reference to an end of it is dropped (none unless it was the last one). -/
structure Io where
  disk : Nat → Nat → DiskWrite
  blocked : Nat → Nat

variable (io : Io)

/-- A reference to a file is dropped: the drop of a pipe end wakes the pipe's queue. -/
def dropFile (f : File) : List LockEvent :=
  match f.kind with
  | .pipeRead | .pipeWrite => wakeAll (io.blocked f.id)
  | _ => []

def Handle.drop (h : Handle) : List LockEvent := h.file?.elim [] (dropFile io)

/-- A slot of the handle table. -/
abbrev Fd := Option Handle

/-- A handle table is cleared. -/
def dropFds (fds : List Fd) : List LockEvent := (fds.filterMap id).flatMap (Handle.drop io)

/-- `unmap_view` of the `i`-th view: the flush, and the drop of the view. -/
def View.unmap (v : View) (i : Nat) : List LockEvent :=
  (v.sec.flush (io.disk i)).1 ++ Handle.drop io (.sec v.sec)

/-- The views `teardown` unmaps. -/
def teardown (views : List View) : List LockEvent := views.zipIdx.flatMap fun v => v.1.unmap io v.2

/-! ## Tasks -/

/-- `Task`, its address space, and how many of its threads have not exited. -/
structure Task where
  /-- In `TASKS`. -/
  (listed exited : Bool)
  fds : List Fd
  views : List View
  (nextUserVa activeThreads live : Nat)
  deriving DecidableEq

/-- The tasks, and for each thread in the graveyard its task. -/
structure System where
  tasks : Nat → Task
  nextTask : Nat
  graveyard : List (Option Nat)

def userAllocBase : Nat := 0x700000000000

def seedFds : List Fd :=
  [some (.file ⟨0, .keyboard⟩), some (.file ⟨1, .console⟩), some (.file ⟨1, .console⟩)]

/-- `handle_alloc`: the lowest free slot. -/
def handleAlloc (fds : List Fd) (h : Handle) : List Fd :=
  if none ∈ fds then fds.set (fds.idxOf none) (some h) else fds ++ [some h]

def newTask (fds : List Fd) (va : Nat) : Task where
  listed := true
  exited := false
  fds := fds
  views := []
  nextUserVa := va
  activeThreads := 1
  live := 1

def System.modify (s : System) (k : Nat) (f : Task → Task) : System :=
  { s with tasks := update s.tasks k (f (s.tasks k)) }

def System.change (s : System) (k : Nat) (f : Task → Task) (graveyard : List (Option Nat)) :
    System :=
  { s.modify k f with graveyard := graveyard }

def System.addTask (s : System) (t : Task) : System :=
  { s with tasks := update s.tasks s.nextTask t, nextTask := s.nextTask + 1 }

variable (t : Task)

/-- `map_section_view` of `[offset, offset + len)`. -/
def Task.mapView (x : Section) (offset len : Nat) : Task :=
  let pages := min ((offset + len + 4095) / 4096) x.frames - offset / 4096
  { t with
    views := t.views ++ [⟨t.nextUserVa, pages, x⟩]
    nextUserVa := t.nextUserVa + pages * 4096 + 4096 }

/-- The slot that a handle names. -/
def Task.handle (h : Nat) : Option Handle := t.fds[h]?.join

def Task.addHandle (h : Handle) : Task := { t with fds := handleAlloc t.fds h }

/-- `fd_close`. -/
def Task.close (h : Nat) : Task := { t with fds := t.fds.set h none }

/-- `thread_spawned`. -/
def Task.addThread : Task := { t with activeThreads := t.activeThreads + 1, live := t.live + 1 }

/-- A thread of the task exits; `activeThreads` still counts it. -/
def Task.exitThread : Task := { t with live := t.live - 1 }

/-- `set_exit_status`, and the exit of the thread. -/
def Task.exitProcess : Task := { t.exitThread with fds := [], exited := true }

def Task.viewAt (base : Nat) : Option View := t.views.find? fun v => v.base = base

def Task.dropSlot (io : Io) (h : Nat) : List LockEvent := (t.handle h).elim [] (Handle.drop io)

/-- `execve`: the slots marked close-on-exec are cleared and the address space is new. -/
def Task.execve (cloexec : List Nat) : Task :=
  { cloexec.foldl Task.close t with views := [], nextUserVa := userAllocBase }

/-- `wait4` takes the task out of `TASKS`; its handle table goes with the last reference. -/
def Task.unlist : Task :=
  { t with listed := false, fds := if t.activeThreads = 0 then [] else t.fds }

/-- The last thread of the task, or another one, is reaped. -/
def Task.reaped (torn dropped : Prop) [Decidable torn] [Decidable dropped] : Task :=
  { t with
    activeThreads := t.activeThreads - 1
    views := if torn then [] else t.views
    fds := if dropped then [] else t.fds }

/-- What a thread reads from a file with `NtCreateSection`: a pipe may wake its writers or
put the reader to sleep. -/
inductive Read
  | woke (w : Nat)
  | slept

def Read.trace : Read → List LockEvent
  | .woke w => wakeAll w
  | .slept => waitQueue

/-- The largest section. -/
def cap : Nat := 16 * 1024 * 1024

/-- What can be read from a file until `read` returns nothing more or there is too much: a
keyboard never ends. -/
def File.Yields (f : File) (size : Nat) (reads : List Read) : Bool :=
  match f.kind with
  | .pipeRead => true
  | .seekable .ext2 | .seekable .fat => reads.isEmpty
  | .keyboard => cap < size
  | .console | .pipeWrite | .seekable .dir => size = 0 && reads.isEmpty

/-- A corpse that passes the test of `reap`, with what its task and its address space are
still referred to by besides. -/
structure Corpse where
  task : Option Nat
  (spaceShared taskShared : Bool)
  io : Io

/-! ## Calls -/

/-- What threads of a task `k`, or the kernel, can do. -/
inductive Op
  /-- `spawn_init` and its variants. -/
  | spawn
  | fork (k : Nat)
  | spawnThread (k : Nat)
  /-- `open` of a file or directory, with the disk commands it takes. -/
  | openFile (k id : Nat) (kind : Seekable) (commands : List Command)
  /-- `pipe`. -/
  | pipe (k r w : Nat)
  /-- `NtCreateSection`, anonymous or from the file that a handle names. -/
  | createSection (k : Nat) (file : Option Nat) (size : Nat) (reads : List Read)
  | mapView (k handle offset want : Nat)
  | unmapView (k base : Nat) (io : Io)
  | flushView (k base : Nat) (io : Io)
  | close (k handle : Nat) (io : Io)
  /-- `exit` or `NtTerminateProcess`, with `parents` threads blocked in `wait4`. -/
  | exitProcess (k : Nat) (io : Io) (parents : Nat)
  /-- `NtTerminateThread` of a worker, with `waiters` threads waiting for it. -/
  | exitThread (k waiters : Nat)
  /-- A kernel thread ends. -/
  | exitKernelThread
  /-- `wait4` takes an exited child out of `TASKS`. -/
  | wait4 (k child : Nat) (io : Io)
  /-- `execve`, with the slots marked close-on-exec, and whether something else refers to
  the old address space. -/
  | execve (k : Nat) (cloexec : List Nat) (shared : Bool) (io : Io)
  | reap (corpses : List Corpse)

namespace System

variable (s : System)

/-- A thread of task `k` makes a call. -/
def byTask (k : Nat) (r : System × List LockEvent) : Option (System × List LockEvent) :=
  if (s.tasks k).live = 0 then none else some r

/-- `thread_exited`, the teardown and the drop of one corpse. -/
def reapCorpse (cp : Corpse) : Option (System × List LockEvent) :=
  if cp.task ∈ s.graveyard then
    match cp.task with
    | none => some ({ s with graveyard := s.graveyard.erase none }, [])
    | some k =>
      let t := s.tasks k
      let torn := t.activeThreads = 1 ∧ cp.spaceShared = false
      let dropped := t.activeThreads = 1 ∧ t.listed = false ∧ cp.taskShared = false
      some (s.change k (·.reaped torn dropped) (s.graveyard.erase (some k)),
        (if torn then teardown cp.io t.views else []) ++
          if dropped then dropFds cp.io t.fds else [])
  else none

/-- The loop of `reap` over the corpses that pass its test. -/
def reapLoop (s : System) : List Corpse → Option (System × List LockEvent)
  | [] => some (s, [])
  | cp :: cps =>
    (s.reapCorpse cp).bind fun r => (r.1.reapLoop cps).map fun r' => (r'.1, r.2 ++ r'.2)

/-- One call: the system after it and the trace; `none` if it is not enabled. -/
def call : Op → Option (System × List LockEvent)
  | .spawn => some (s.addTask (newTask seedFds userAllocBase), pushReady)
  | .fork k =>
    s.byTask k (s.addTask (newTask (s.tasks k).fds (s.tasks k).nextUserVa),
      current ++ current ++ pushReady)
  | .spawnThread k => s.byTask k (s.modify k Task.addThread, current ++ pushReady)
  | .openFile k id kind commands =>
    s.byTask k (s.modify k (·.addHandle (.file ⟨id, .seekable kind⟩)),
      commands.flatMap Command.trace ++ current)
  | .pipe k r w =>
    s.byTask k (s.modify k fun t =>
      (t.addHandle (.file ⟨r, .pipeRead⟩)).addHandle (.file ⟨w, .pipeWrite⟩), current)
  | .createSection k none size _ =>
    if size = 0 ∨ cap < size then s.byTask k (s, [])
    else s.byTask k (s.modify k (·.addHandle (.sec ⟨size, none⟩)), current)
  | .createSection k (some h) size reads =>
    match (s.tasks k).handle h with
    | some (.file f) =>
      if f.Yields size reads = false then none
      else if cap < size then s.byTask k (s, current ++ reads.flatMap Read.trace)
      else s.byTask k (s.modify k (·.addHandle (.sec ⟨size, some f⟩)),
        current ++ reads.flatMap Read.trace ++ current)
    | _ => s.byTask k (s, current)
  | .mapView k h offset want =>
    match (s.tasks k).handle h with
    | some (.sec x) =>
      if x.size ≤ offset then s.byTask k (s, current)
      else s.byTask k (s.modify k (·.mapView x offset
        (if want = 0 then x.size - offset else min want (x.size - offset))), current ++ current)
    | _ => s.byTask k (s, current)
  | .unmapView k base io =>
    match (s.tasks k).viewAt base with
    | none => s.byTask k (s, current)
    | some v =>
      s.byTask k (s.modify k fun t => { t with views := t.views.erase v }, current ++ v.unmap io 0)
  | .flushView k base io =>
    match (s.tasks k).viewAt base with
    | none => s.byTask k (s, current)
    | some v => s.byTask k (s, current ++ (v.sec.flush (io.disk 0)).1)
  | .close k h io => s.byTask k (s.modify k (·.close h), current ++ (s.tasks k).dropSlot io h)
  | .exitProcess k io parents =>
    s.byTask k (s.change k Task.exitProcess (s.graveyard ++ [some k]),
      current ++ dropFds io (s.tasks k).fds ++ wakeAll parents ++ exit)
  | .exitThread k waiters =>
    s.byTask k (s.change k Task.exitThread (s.graveyard ++ [some k]),
      current ++ wakeAll waiters ++ exit)
  | .exitKernelThread => some ({ s with graveyard := s.graveyard ++ [none] }, exit)
  | .wait4 k child io =>
    let t := s.tasks child
    if t.listed = false ∨ t.exited = false then none
    else s.byTask k (s.modify child Task.unlist,
      current ++ if t.activeThreads = 0 then dropFds io t.fds else [])
  | .execve k cloexec shared io =>
    s.byTask k (s.modify k (·.execve cloexec),
      current ++ cloexec.flatMap ((s.tasks k).dropSlot io) ++
        if shared then [] else teardown io (s.tasks k).views)
  | .reap corpses => (s.reapLoop corpses).map fun r => (r.1, .lock :: r.2 ++ [.unlock])

/-- A call, and how many lock sections the interrupt handlers run before each of its
events: `on_tick` reschedules, and the disk interrupt wakes threads. -/
structure Act where
  op : Op
  irqs : Nat → Nat

/-- The handlers before the `i`-th event. -/
def Act.handlers (a : Act) (i : Nat) : List LockEvent := wakeAll (a.irqs i)

/-- One call; `none` if it is not enabled. -/
def step (a : Act) : Option System := (s.call a.op).map Prod.fst

/-- No task, and an empty graveyard. -/
def boot : System where
  tasks _ := ⟨false, false, [], [], 0, 0, 0⟩
  nextTask := 0
  graveyard := []

end System

/-! ## Conditions on the calls -/

/-- The view is of a section backed by an ext2 file. -/
def View.onExt2 (v : View) : Bool :=
  match v.sec.file with
  | some ⟨_, .seekable .ext2⟩ => true
  | _ => false

/-- The files that a task keeps open. -/
def Task.files : List File :=
  (t.fds.filterMap id).filterMap Handle.file? ++ t.views.filterMap fun v => v.sec.file

namespace System

variable (s : System)

/-- No interrupt is taken on a CPU that holds the lock. -/
def Masked (a : Act) : Prop :=
  ∀ r ∈ s.call a.op, ∀ i ≤ r.2.length, after false (r.2.take i) = some true → a.irqs i = 0

/-- The last thread of a task leaves no view of an ext2 file mapped. -/
def UnmapsFiles : Op → Prop
  | .exitProcess k _ _ | .exitThread k _ =>
    (s.tasks k).live = 1 → ∀ v ∈ (s.tasks k).views, v.onExt2 = false
  | _ => True

/-- No thread is blocked on a pipe of which a task that is reaped holds the last reference
to an end. -/
def NobodyBlocked : Op → Prop
  | .reap corpses => ∀ cp ∈ corpses, ∀ k ∈ cp.task, ∀ f ∈ (s.tasks k).files, cp.io.blocked f.id = 0
  | _ => True

/-- The conditions together. -/
def Behaves (a : Act) : Prop := s.Masked a ∧ s.UnmapsFiles a.op ∧ s.NobodyBlocked a.op

instance (s : System) (a : Act) : Decidable (s.Masked a) :=
  inferInstanceAs (Decidable (∀ r ∈ s.call a.op, _))

instance (s : System) : ∀ op : Op, Decidable (s.UnmapsFiles op)
  | .exitProcess _ _ _ | .exitThread _ _ => inferInstanceAs (Decidable (_ → ∀ v ∈ _, _))
  | .spawn | .fork _ | .spawnThread _ | .openFile _ _ _ _ | .pipe _ _ _ | .createSection _ _ _ _
  | .mapView _ _ _ _ | .unmapView _ _ _ | .flushView _ _ _ | .close _ _ _ | .exitKernelThread
  | .wait4 _ _ _ | .execve _ _ _ _ | .reap _ => .isTrue trivial

instance (s : System) : ∀ op : Op, Decidable (s.NobodyBlocked op)
  | .reap corpses => inferInstanceAs (Decidable (∀ cp ∈ corpses, ∀ k ∈ cp.task, _))
  | .spawn | .fork _ | .spawnThread _ | .openFile _ _ _ _ | .pipe _ _ _ | .createSection _ _ _ _
  | .mapView _ _ _ _ | .unmapView _ _ _ | .flushView _ _ _ | .close _ _ _ | .exitProcess _ _ _
  | .exitThread _ _ | .exitKernelThread | .wait4 _ _ _ | .execve _ _ _ _ => .isTrue trivial

instance (s : System) (a : Act) : Decidable (s.Behaves a) :=
  inferInstanceAs (Decidable (_ ∧ _ ∧ _))

end System

/-! ## Outside the lock everything is calm -/

theorem calm_current : Calm current := rfl

theorem calm_pushReady : Calm pushReady := rfl

theorem calm_exit : Calm exit := rfl

theorem calm_yieldNow : Calm yieldNow := rfl

theorem calm_waitQueue : Calm waitQueue := rfl

theorem calm_unblock : Calm unblock := rfl

theorem calm_wakeAll (w : Nat) : Calm (wakeAll w) := calm_replicate calm_unblock w

theorem calm_recover (r : Recovery) : Calm (recover r) :=
  (calm_replicate calm_yieldNow r.yields).append (calm_wakeAll r.parked)

theorem calm_wait (blocking : Bool) (ps : List Poll) : Calm (wait blocking ps).1 := by
  induction ps with
  | nil => exact calm_nil
  | cons p ps ih =>
    cases p with
    | tagErr => exact calm_nil
    | fault own =>
      cases own with
      | none => exact calm_yieldNow.append ih
      | some r => exact (calm_recover r).append ih
    | recovering => exact calm_yieldNow.append ih
    | done => exact calm_nil
    | pending =>
      cases blocking with
      | true => exact calm_waitQueue.append ih
      | false => exact calm_yieldNow.append ih

theorem calm_command (c : Command) : Calm c.trace :=
  (calm_replicate calm_yieldNow c.yields).append (calm_wait c.blocking c.polls)

theorem calm_write (k : Seekable) (len : Nat) (d : DiskWrite) : Calm (k.write len d).1 := by
  cases k with
  | ext2 => exact calm_flatMap fun c _ => calm_command c
  | fat => exact calm_nil
  | dir => exact calm_nil

theorem calm_writeBack (k : Seekable) (disk : Nat → DiskWrite) (i m remaining : Nat) :
    Calm (writeBack k disk i m remaining).1 := by
  induction m generalizing i remaining with
  | zero => exact calm_nil
  | succ m ih =>
    unfold writeBack
    dsimp only
    split_ifs
    · exact (calm_write k ..).append (ih ..)
    · exact calm_write k ..

theorem calm_flush (x : Section) (disk : Nat → DiskWrite) : Calm (x.flush disk).1 := by
  unfold Section.flush
  split
  · exact calm_nil
  · exact calm_writeBack ..
  · exact calm_nil

theorem calm_drop (io : Io) (h : Handle) : Calm (h.drop io) := by
  unfold Handle.drop
  cases h.file? with
  | none => exact calm_nil
  | some f =>
    change Calm (dropFile io f)
    unfold dropFile
    split
    · exact calm_wakeAll _
    · exact calm_wakeAll _
    · exact calm_nil

theorem calm_dropFds (io : Io) (fds : List Fd) : Calm (dropFds io fds) :=
  calm_flatMap fun h _ => calm_drop io h

theorem calm_dropSlot (t : Task) (io : Io) (h : Nat) : Calm (t.dropSlot io h) := by
  unfold Task.dropSlot
  cases t.handle h with
  | none => exact calm_nil
  | some x => exact calm_drop io x

theorem calm_unmap (io : Io) (v : View) (i : Nat) : Calm (v.unmap io i) :=
  (calm_flush v.sec _).append (calm_drop io _)

theorem calm_teardown (io : Io) (views : List View) : Calm (teardown io views) :=
  calm_flatMap fun v _ => calm_unmap io v.1 v.2

theorem calm_read (r : Read) : Calm r.trace := by
  cases r with
  | woke w => exact calm_wakeAll w
  | slept => exact calm_waitQueue

/-! ## What reaping does under the lock -/

theorem writeBack_silent {k : Seekable} (hk : k ≠ .ext2) (disk : Nat → DiskWrite)
    (i m remaining : Nat) : (writeBack k disk i m remaining).1 = [] := by
  have hwrite : ∀ len d, (k.write len d).1 = [] := by
    intro len d
    cases k with
    | ext2 => exact absurd rfl hk
    | fat => rfl
    | dir => rfl
  induction m generalizing i remaining with
  | zero => rfl
  | succ m ih =>
    unfold writeBack
    dsimp only
    split_ifs
    · simp [precede, hwrite, ih]
    · exact hwrite ..

theorem flush_silent {v : View} (hv : v.onExt2 = false) (disk : Nat → DiskWrite) :
    (v.sec.flush disk).1 = [] := by
  unfold Section.flush
  split
  · rfl
  · next f k hfile =>
      refine writeBack_silent ?_ disk ..
      rintro rfl
      simp [View.onExt2, hfile] at hv
  · rfl

variable {io : Io}

theorem drop_silent {h : Handle} (hh : ∀ f ∈ h.file?, io.blocked f.id = 0) : h.drop io = [] := by
  unfold Handle.drop
  cases hf : h.file? with
  | none => rfl
  | some f =>
    change dropFile io f = []
    unfold dropFile
    rw [hh f hf]
    split <;> rfl

theorem dropFds_silent {t : Task} (ht : ∀ f ∈ t.files, io.blocked f.id = 0) :
    dropFds io t.fds = [] := by
  refine flatMap_eq_nil_iff.2 fun h hh => drop_silent fun f hf => ht f ?_
  exact mem_append_left _ (mem_filterMap.2 ⟨h, hh, hf⟩)

theorem teardown_silent {t : Task} (ht : ∀ f ∈ t.files, io.blocked f.id = 0)
    (hviews : ∀ v ∈ t.views, v.onExt2 = false) : teardown io t.views = [] := by
  refine flatMap_eq_nil_iff.2 fun v hv => ?_
  have hmem : v.1 ∈ t.views := fst_mem_of_mem_zipIdx hv
  unfold View.unmap
  rw [flush_silent (hviews v.1 hmem), nil_append]
  refine drop_silent fun f hf => ht f (mem_append_right _ ?_)
  exact mem_filterMap.2 ⟨v.1, hmem, hf⟩

namespace System

/-! ## The invariant -/

/-- The counter of a task covers its live threads and its corpses, and a task without live
threads has no view of an ext2 file. -/
structure Inv (s : System) : Prop where
  fresh : ∀ k, s.nextTask ≤ k → (s.tasks k).activeThreads = 0
  count : ∀ k, (s.tasks k).activeThreads = (s.tasks k).live + s.graveyard.count (some k)
  quiet : ∀ k, (s.tasks k).live = 0 → ∀ v ∈ (s.tasks k).views, v.onExt2 = false

section Invariant

variable {s s' : System} {k : Nat}

theorem tasks_change_self (f : Task → Task) (grave : List (Option Nat)) :
    (s.change k f grave).tasks k = f (s.tasks k) :=
  update_self ..

theorem tasks_change_of_ne {j : Nat} (hj : j ≠ k) (f : Task → Task) (grave : List (Option Nat)) :
    (s.change k f grave).tasks j = s.tasks j :=
  update_of_ne hj ..

variable (h : Inv s)
include h

theorem Inv.born (hk : (s.tasks k).activeThreads ≠ 0) : k < s.nextTask := by
  by_contra hlt
  exact hk (h.fresh k (by omega))

variable {f : Task → Task}

theorem Inv.update (grave : List (Option Nat))
    (hfresh : s.nextTask ≤ k → (f (s.tasks k)).activeThreads = 0)
    (hcount : (f (s.tasks k)).activeThreads = (f (s.tasks k)).live + grave.count (some k))
    (hother : ∀ j, j ≠ k → grave.count (some j) = s.graveyard.count (some j))
    (hquiet : (f (s.tasks k)).live = 0 → ∀ v ∈ (f (s.tasks k)).views, v.onExt2 = false) :
    Inv (s.change k f grave) where
  fresh := (forall_update_iff s.tasks fun j t => s.nextTask ≤ j → t.activeThreads = 0).2
    ⟨hfresh, fun j _ => h.fresh j⟩
  count := (forall_update_iff s.tasks fun j t =>
      t.activeThreads = t.live + grave.count (some j)).2
    ⟨hcount, fun j hj => (h.count j).trans (congrArg _ (hother j hj).symm)⟩
  quiet := (forall_update_iff s.tasks fun _ t => t.live = 0 → ∀ v ∈ t.views, v.onExt2 = false).2
    ⟨hquiet, fun j _ => h.quiet j⟩

theorem Inv.modify (hlive : (s.tasks k).live ≠ 0)
    (hact : (f (s.tasks k)).activeThreads = (s.tasks k).activeThreads)
    (hsame : (f (s.tasks k)).live = (s.tasks k).live) : Inv (s.modify k f) := by
  have hcount := h.count k
  refine h.update s.graveyard (fun hk => ?_) ?_ (fun _ _ => rfl) fun h0 => ?_
  · exact absurd (h.born (k := k) (by omega)) (by omega)
  · rw [hact, hsame]
    exact hcount
  · exact absurd (hsame ▸ h0) hlive

theorem Inv.addTask {t : Task} (hact : t.activeThreads = 1) (hlive : t.live = 1) :
    Inv (s.addTask t) := by
  have hzero := h.count s.nextTask
  rw [h.fresh _ (Nat.le_refl _)] at hzero
  constructor
  · intro j hj
    have hj : s.nextTask + 1 ≤ j := hj
    rw [show (s.addTask t).tasks j = s.tasks j from update_of_ne (by omega) ..]
    exact h.fresh j (by omega)
  · refine (forall_update_iff s.tasks fun j t =>
      t.activeThreads = t.live + s.graveyard.count (some j)).2 ⟨?_, fun j _ => h.count j⟩
    omega
  · refine (forall_update_iff s.tasks fun _ t => t.live = 0 → ∀ v ∈ t.views, v.onExt2 = false).2
      ⟨fun h0 => ?_, fun j _ => h.quiet j⟩
    cases hlive.symm.trans h0

theorem Inv.exit (hlive : (s.tasks k).live ≠ 0)
    (hact : (f (s.tasks k)).activeThreads = (s.tasks k).activeThreads)
    (hless : (f (s.tasks k)).live = (s.tasks k).live - 1)
    (hviews : (f (s.tasks k)).views = (s.tasks k).views)
    (hunmaps : (s.tasks k).live = 1 → ∀ v ∈ (s.tasks k).views, v.onExt2 = false) :
    Inv (s.change k f (s.graveyard ++ [some k])) := by
  have hcount := h.count k
  refine h.update _ (fun hk => ?_) ?_ (fun j hj => ?_) fun h0 => ?_
  · exact absurd (h.born (k := k) (by omega)) (by omega)
  · rw [hact, hless, count_append, count_singleton_self]
    omega
  · rw [count_append, count_singleton]
    simp [Ne.symm hj]
  · rw [hviews]
    exact hunmaps (by omega)

/-! ## Reaping -/

omit h in
theorem files_reaped (t : Task) (torn dropped : Prop) [Decidable torn] [Decidable dropped] :
    ∀ f ∈ (t.reaped torn dropped).files, f ∈ t.files := by
  intro f hf
  unfold Task.files Task.reaped at hf
  rcases mem_append.1 hf with hf | hf
  · dsimp only at hf
    split_ifs at hf
    · cases hf
    · exact mem_append_left _ hf
  · dsimp only at hf
    split_ifs at hf
    · cases hf
    · exact mem_append_right _ hf

variable {r : System × List LockEvent}

theorem Inv.reapCorpse {cp : Corpse} (hr : s.reapCorpse cp = some r)
    (hblk : ∀ k ∈ cp.task, ∀ f ∈ (s.tasks k).files, cp.io.blocked f.id = 0) :
    Inv r.1 ∧ r.2 = [] ∧ ∀ k, ∀ f ∈ (r.1.tasks k).files, f ∈ (s.tasks k).files := by
  unfold System.reapCorpse at hr
  split_ifs at hr with hmem
  split at hr
  · cases hr
    refine ⟨⟨h.fresh, fun k => ?_, h.quiet⟩, rfl, fun _ _ hf => hf⟩
    change _ = _ + (s.graveyard.erase none).count (some k)
    rw [count_erase_of_ne (by simp)]
    exact h.count k
  · next k htask =>
      rw [htask] at hmem hblk
      cases hr
      have hcount := h.count k
      have hpos : 0 < s.graveyard.count (some k) := count_pos_iff.2 hmem
      have hfiles := hblk k rfl
      refine ⟨?_, ?_, fun j f hf => ?_⟩
      · refine h.update _ (fun hk => ?_) ?_ (fun j hj => ?_) fun h0 v hv => ?_
        · exact absurd (h.born (k := k) (by omega)) (by omega)
        · have hless : (s.tasks k).activeThreads - 1 =
              (s.tasks k).live + (s.graveyard.count (some k) - 1) := by omega
          rw [count_erase_self]
          exact hless
        · exact count_erase_of_ne (by simpa using hj)
        · have hv : v ∈ (s.tasks k).views := by
            change v ∈ (if _ then [] else (s.tasks k).views) at hv
            split_ifs at hv
            · cases hv
            · exact hv
          exact h.quiet k h0 v hv
      · -- it was the last thread, so the task has no live one
        have htorn : (s.tasks k).activeThreads = 1 → teardown cp.io (s.tasks k).views = [] := by
          intro hlast
          exact teardown_silent hfiles (h.quiet k (by omega))
        dsimp only
        split_ifs with ht hd hd
        · rw [htorn ht.1, dropFds_silent hfiles]
          rfl
        · rw [htorn ht.1]
          rfl
        · rw [dropFds_silent hfiles]
          rfl
        · rfl
      · by_cases hj : j = k
        · subst hj
          rw [tasks_change_self] at hf
          exact files_reaped _ _ _ f hf
        · rwa [tasks_change_of_ne hj] at hf

theorem Inv.reapLoop {cps : List Corpse} (hr : s.reapLoop cps = some r)
    (hblk : ∀ cp ∈ cps, ∀ k ∈ cp.task, ∀ f ∈ (s.tasks k).files, cp.io.blocked f.id = 0) :
    Inv r.1 ∧ r.2 = [] := by
  induction cps generalizing s r with
  | nil =>
    cases hr
    exact ⟨h, rfl⟩
  | cons cp cps ih =>
    obtain ⟨r₁, hr₁, hr⟩ := bind_eq_some_iff.1 hr
    obtain ⟨r₂, hr₂, rfl⟩ := map_eq_some_iff.1 hr
    obtain ⟨hinv, hsilent, hfiles⟩ := h.reapCorpse hr₁ (hblk cp (.head _))
    obtain ⟨hinv₂, hsilent₂⟩ := ih hinv hr₂ fun cp' hcp' k hk f hf =>
      hblk cp' (.tail _ hcp') k hk f (hfiles k f hf)
    refine ⟨hinv₂, ?_⟩
    rw [hsilent, hsilent₂]
    rfl

/-! ## All calls -/

omit h in
theorem byTask_eq {r' : System × List LockEvent} (h : s.byTask k r = some r') :
    (s.tasks k).live ≠ 0 ∧ r = r' := by
  unfold byTask at h
  split_ifs at h with hlive
  exact ⟨hlive, some.inj h⟩

theorem Inv.called {tr : List LockEvent} (hr : s.byTask k (s.modify k f, tr) = some r)
    (hact : (f (s.tasks k)).activeThreads = (s.tasks k).activeThreads)
    (hsame : (f (s.tasks k)).live = (s.tasks k).live) (htr : Calm tr) : Inv r.1 ∧ Calm r.2 := by
  obtain ⟨hlive, rfl⟩ := byTask_eq hr
  exact ⟨h.modify hlive hact hsame, htr⟩

theorem Inv.refused {tr : List LockEvent} (hr : s.byTask k (s, tr) = some r)
    (htr : Calm tr) : Inv r.1 ∧ Calm r.2 := by
  obtain ⟨-, rfl⟩ := byTask_eq hr
  exact ⟨h, htr⟩

omit h in
theorem counts_foldl_close (t : Task) (hs : List Nat) :
    (hs.foldl Task.close t).activeThreads = t.activeThreads ∧
      (hs.foldl Task.close t).live = t.live := by
  induction hs generalizing t with
  | nil => exact ⟨rfl, rfl⟩
  | cons h hs ih => exact ih (t.close h)

theorem Inv.call {op : Op} (hr : s.call op = some r) (hunmaps : s.UnmapsFiles op)
    (hblk : s.NobodyBlocked op) : Inv r.1 ∧ Calm r.2 := by
  cases op with
  | spawn =>
    cases hr
    exact ⟨h.addTask rfl rfl, calm_pushReady⟩
  | fork k =>
    obtain ⟨-, rfl⟩ := byTask_eq hr
    exact ⟨h.addTask rfl rfl, (calm_current.append calm_current).append calm_pushReady⟩
  | spawnThread k =>
    obtain ⟨hlive, rfl⟩ := byTask_eq hr
    have hcount := h.count k
    refine ⟨h.update s.graveyard (fun hk => ?_) ?_ (fun _ _ => rfl) fun h0 => ?_,
      calm_current.append calm_pushReady⟩
    · exact absurd (h.born (k := k) (by omega)) (by omega)
    · have hmore : (s.tasks k).activeThreads + 1 =
          (s.tasks k).live + 1 + s.graveyard.count (some k) := by omega
      exact hmore
    · exact absurd (show (s.tasks k).live + 1 = 0 from h0) (by omega)
  | openFile k id kind commands =>
    exact h.called hr rfl rfl ((calm_flatMap fun c _ => calm_command c).append calm_current)
  | pipe k r w => exact h.called hr rfl rfl calm_current
  | createSection k file size reads =>
    cases file with
    | none =>
      simp only [System.call] at hr
      split at hr
      · exact h.refused hr calm_nil
      · exact h.called hr rfl rfl calm_current
    | some hd =>
      simp only [System.call] at hr
      split at hr
      · rw [ite_none_left_eq_some] at hr
        have hreads := calm_current.append (calm_flatMap fun x (_ : x ∈ reads) => calm_read x)
        obtain ⟨-, hr⟩ := hr
        split at hr
        · exact h.refused hr hreads
        · exact h.called hr rfl rfl (hreads.append calm_current)
      · exact h.refused hr calm_current
  | mapView k hd offset want =>
    simp only [System.call] at hr
    split at hr
    · split at hr
      · exact h.refused hr calm_current
      · exact h.called hr rfl rfl (calm_current.append calm_current)
    · exact h.refused hr calm_current
  | unmapView k base io =>
    simp only [System.call] at hr
    split at hr
    · exact h.refused hr calm_current
    · exact h.called hr rfl rfl (calm_current.append (calm_unmap io _ 0))
  | flushView k base io =>
    simp only [System.call] at hr
    split at hr
    · exact h.refused hr calm_current
    · exact h.refused hr (calm_current.append (calm_flush ..))
  | close k hd io => exact h.called hr rfl rfl (calm_current.append (calm_dropSlot _ io hd))
  | exitProcess k io parents =>
    obtain ⟨hlive, rfl⟩ := byTask_eq hr
    exact ⟨h.exit hlive rfl rfl rfl hunmaps,
      ((calm_current.append (calm_dropFds io _)).append (calm_wakeAll parents)).append calm_exit⟩
  | exitThread k waiters =>
    obtain ⟨hlive, rfl⟩ := byTask_eq hr
    exact ⟨h.exit hlive rfl rfl rfl hunmaps,
      (calm_current.append (calm_wakeAll waiters)).append calm_exit⟩
  | exitKernelThread =>
    cases hr
    refine ⟨⟨h.fresh, fun k => ?_, h.quiet⟩, calm_exit⟩
    rw [count_append]
    simpa using h.count k
  | wait4 k child io =>
    simp only [System.call, ite_none_left_eq_some] at hr
    obtain ⟨-, rfl⟩ := byTask_eq hr.2
    refine ⟨h.update s.graveyard (fun hk => h.fresh child hk) (h.count child)
      (fun _ _ => rfl) (h.quiet child), calm_current.append ?_⟩
    split_ifs
    · exact calm_dropFds io _
    · exact calm_nil
  | execve k cloexec shared io =>
    obtain ⟨hact, hlive⟩ := counts_foldl_close (s.tasks k) cloexec
    refine h.called hr hact hlive ((calm_current.append
      (calm_flatMap fun hd _ => calm_dropSlot _ io hd)).append ?_)
    split_ifs
    · exact calm_nil
    · exact calm_teardown io _
  | reap corpses =>
    obtain ⟨r', hr', rfl⟩ := map_eq_some_iff.1 hr
    obtain ⟨hinv, hsilent⟩ := h.reapLoop hr' hblk
    refine ⟨hinv, ?_⟩
    rw [hsilent]
    rfl

omit h

theorem inv_boot : Inv boot where
  fresh _ _ := rfl
  count _ := rfl
  quiet _ _ v hv := by cases hv

end Invariant

/-- The scheduler lock is not re-entered: in every run in which interrupts come only where
the lock is not held, processes unmap their views of ext2 files before their last thread
exits, and nobody is blocked on a pipe whose end goes with a reaped task, no call takes the
lock or blocks while it holds it. -/
theorem lock_never_reentered {s : System} (hrun : Run step Behaves boot s) {a : Act}
    (hok : s.Behaves a) {r : System × List LockEvent} (hr : s.call a.op = some r) :
    Calm (interrupted a.handlers 0 r.2) := by
  have hinv : Inv s := by
    refine hrun.invariant (fun s a s' h hok hstep => ?_) inv_boot
    obtain ⟨r, hr, rfl⟩ := map_eq_some_iff.1 hstep
    exact (h.call hr hok.2.1 hok.2.2).1
  have hcalm := (hinv.call hr hok.2.1 hok.2.2).2
  refine (after_interrupted (fun i => calm_wakeAll _) r.2 false 0 fun j hj hheld => ?_).trans hcalm
  rw [Nat.zero_add, hok.1 r hr j hj hheld]
  rfl

/-- A disk that is never asked for anything, and no blocked threads. -/
def idleIo : Io where
  disk _ _ := ⟨[], true⟩
  blocked _ := 0

/-- A call that is not interrupted. -/
def Act.plain (op : Op) : Act := ⟨op, fun _ => 0⟩

/-- A process maps a view of an anonymous section and exits without unmapping it. -/
def mapsAnonymous : List Act :=
  [.plain .spawn, .plain (.createSection 0 none 8192 []), .plain (.mapView 0 3 0 0),
   .plain (.exitProcess 0 idleIo 0)]

def anonymousState : System :=
  (runAll (guarded step Behaves) boot mapsAnonymous).get (by decide +kernel)

/-- Its corpse is reaped without a second use of the lock. -/
theorem lock_never_reentered_anonymous :
    ((anonymousState.call (.reap [⟨some 0, false, false, idleIo⟩])).map Prod.snd).isSome ∧
      ∀ r ∈ anonymousState.call (.reap [⟨some 0, false, false, idleIo⟩]),
        Calm (interrupted (fun _ => wakeAll 0) 0 r.2) := by
  refine ⟨by decide +kernel, fun r hr => ?_⟩
  have hrun : Run step Behaves boot anonymousState :=
    run_of_guarded (reach_of_runAll (some_get _).symm)
  exact lock_never_reentered (a := .plain (.reap [⟨some 0, false, false, idleIo⟩])) hrun
    (by decide +kernel) hr

/-- A disk that is busy when it is first polled. -/
def busyIo : Io where
  disk _ _ := ⟨[⟨0, true, [.pending, .done]⟩], true⟩
  blocked _ := 0

/-- A process maps a view of a file and exits without unmapping it. -/
def mapsFile : List Act :=
  [.plain .spawn, .plain (.openFile 0 2 .ext2 []), .plain (.createSection 0 (some 3) 100 []),
   .plain (.mapView 0 4 0 0), .plain (.exitProcess 0 idleIo 0)]

def fileState : System := (runAll step boot mapsFile).get (by decide +kernel)

/-- `reap` then asks for the lock it holds: the write-back waits for the disk. -/
theorem reap_reenters : Reach step boot fileState ∧
      (fileState.call (.reap [⟨some 0, false, false, busyIo⟩])).map (fun r => after false r.2) =
        some none :=
  ⟨reach_of_runAll (some_get _).symm, by decide +kernel⟩

end System

end Thos.Process.Reap
