import Thos.Lib.Ledger
import Thos.Memory.Image

/-!
# The frames of the machine

Tasks, threads, address spaces and sections over one free list. A call of the kernel is one
step; a step that is not possible is a panic or is not enabled. `standing` is the set of the
address spaces that have not been torn down, and `lost` records the frames that nothing
refers to any more: an address space whose image was rejected is dropped and `Process` has
no destructor, and `teardown` does not walk the upper half. Neither has a part in what a
step does.

The books of the free list are one equation: what the standing spaces own, the frames of the
sections, the free list and the lost frames make up the frames the allocator began with.
-/

set_option autoImplicit false

namespace Thos.Memory

open Thos.Lib Function List Process Nat
open Multiset (card_add coe_add coe_card mem_add nodup_add)
open Finset (card_pos forall_mem_insert insert_erase mem_erase mem_insert mem_insert_of_mem
  notMem_erase)
open Option (any_eq_true ite_none_right_eq_some map_eq_some_iff)
open scoped List

/-! ## The machine -/

/-- A task: its address space, `active_threads`, and the sections its handles name. -/
structure Task where
  (space activeThreads : Nat)
  sections : List Nat

inductive Phase
  | running
  | exited
  | reaped
  deriving DecidableEq

structure Thread where
  (task cr3 : Nat)
  phase : Phase

structure System where
  free : List Frame
  spaces : Nat → Process
  nextSpace : Nat
  sections : List Section
  tasks : Nat → Task
  nextTask : Nat
  threads : Nat → Thread
  nextThread : Nat
  /-- The address spaces that have not been torn down. -/
  standing : Finset Nat
  /-- The frames that nothing refers to. -/
  lost : List Frame

inductive Act
  /-- `spawn_init`, `spawn_elevated` or `spawn_with_fds`. -/
  | spawnElf (elf : Elf)
  | spawnPe (pe : Pe)
  | spawnThread (t : Nat)
  | brk (t req : Nat)
  | mmap (t len : Nat)
  | fork (t : Nat)
  /-- `NtCreateSection` with `len` bytes that have passed its checks. -/
  | createSection (t len : Nat)
  | closeSection (t i : Nat)
  | mapView (t i offset want : Nat)
  | unmapView (t base : Nat)
  /-- `execve`; `cloexec` marks the sections whose handles are closed. -/
  | execve (t : Nat) (elf : Elf) (cloexec : Nat → Bool)
  | exit (t : Nat)
  | reap (t : Nat)
  /-- The last reference to a task without threads goes. -/
  | dropTask (k : Nat)

namespace System

variable (s : System)

def shared : List Frame := s.sections.flatMap (·.frames)

variable (t : Nat)

def spaceOf : Nat := (s.tasks (s.threads t).task).space

def isRunning : Bool := t < s.nextThread && (s.threads t).phase = .running

def setSpace (x : Nat) (p : Process) (free : List Frame) : System :=
  { s with spaces := update s.spaces x p, free := free }

def addSpace (p : Process) (free : List Frame) : System :=
  { s with
    spaces := update s.spaces s.nextSpace p
    nextSpace := s.nextSpace + 1
    standing := insert s.nextSpace s.standing
    free := free }

/-- Drop an address space, or another holder of frames, without giving the frames back. -/
def lose (frames free : List Frame) : System := { s with lost := frames ++ s.lost, free := free }

/-- `teardown`. The frames are pushed one by one. -/
def teardown (x : Nat) : System :=
  { s with
    spaces := update s.spaces x (s.spaces x).unmapViews
    free := (s.spaces x).unmapViews.freed.reverse ++ s.free
    lost := (s.spaces x).unmapViews.left ++ s.lost
    standing := s.standing.erase x }

def setTask (k : Nat) (task : Task) : System := { s with tasks := update s.tasks k task }

def setThread (thread : Thread) : System := { s with threads := update s.threads t thread }

/-- A further thread of a task. -/
def addThread (k : Nat) : System :=
  { s with
    tasks := update s.tasks k
      { s.tasks k with activeThreads := (s.tasks k).activeThreads + 1 }
    threads := update s.threads s.nextThread ⟨k, (s.tasks k).space, .running⟩
    nextThread := s.nextThread + 1 }

/-- `Task::new` for an address space. -/
def addTask (x : Nat) (handles : List Nat) : System :=
  { s with
    tasks := update s.tasks s.nextTask ⟨x, 0, handles⟩
    nextTask := s.nextTask + 1 }

/-- A new task with a new address space and one thread. -/
def launch (p : Process) (free : List Frame) (handles : List Nat) : System :=
  ((s.addSpace p free).addTask s.nextSpace handles).addThread s.nextTask

/-- A call that works on the address space of the calling thread. -/
def within (f : Process → List Frame → Option (Process × List Frame)) : Option System :=
  if s.isRunning t then
    (f (s.spaces (s.spaceOf t)) s.free).map fun r => s.setSpace (s.spaceOf t) r.1 r.2
  else none

def mapView (t i offset want : Nat) : Option System :=
  match (s.tasks (s.threads t).task).sections[i]? with
  | none => some s
  | some y =>
    match s.sections[y]? with
    | none => none
    | some sec =>
      if sec.size ≤ offset then some s
      else s.within t fun p free =>
        (ntMapViewOfSection p y sec offset want free).map fun v => (v.proc, v.free)

def createSection (t len : Nat) : Option System :=
  let k := (s.threads t).task
  (Section.new len s.free).map fun r =>
    { s with
      sections := s.sections ++ [r.1]
      free := r.2
      tasks := update s.tasks k
        { s.tasks k with sections := (s.tasks k).sections ++ [s.sections.length] } }

/-- `execve` after the image is loaded: the task and the thread go over to the new space, and
the old one is torn down. Nothing else holds a clone of it: the others are locals of calls in
progress on threads of the task, and calls are atomic here. -/
def replaceImage (p : Process) (free : List Frame) (cloexec : Nat → Bool) : System :=
  let k := (s.threads t).task
  let old := (s.tasks k).space
  let handles := (s.tasks k).sections.filter fun y => !cloexec y
  (((s.addSpace p free).setTask k
    { s.tasks k with space := s.nextSpace, sections := handles }).setThread t
    { s.threads t with cr3 := s.nextSpace }).teardown old

/-- `reap` of an exited thread; the last one takes the address space with it. -/
def reapThread : System :=
  let k := (s.threads t).task
  let s' := (s.setThread t { s.threads t with phase := .reaped }).setTask k
    { s.tasks k with activeThreads := (s.tasks k).activeThreads - 1 }
  if (s.tasks k).activeThreads = 1 then s'.teardown (s.tasks k).space else s'

/-- One call. -/
def step : Act → Option System
  | .spawnElf elf =>
    if elf.wellFormed then (elf.image s.free).map fun r => s.launch r.1 r.2 []
    else (new s.free).map fun r => s.lose r.1.own r.2
  | .spawnPe pe =>
    (pe.image s.free).map fun r =>
      if r.2 then s.launch r.1.process r.1.free []
      else s.lose (r.1.process.own ++ r.1.tls.toList) r.1.free
  | .spawnThread t =>
    if s.isRunning t then
      ((⟨s.spaces (s.spaceOf t), none, s.free⟩ : Loading).run threadPages).map fun r =>
        let s' := s.setSpace (s.spaceOf t) r.1.process r.1.free
        if r.2 then s'.addThread (s.threads t).task else s'
    else none
  | .brk t req => s.within t fun p free => p.setBrk req free
  | .mmap t len => s.within t fun p free => p.mmapAnon len free
  | .fork t =>
    if s.isRunning t then
      ((s.spaces (s.spaceOf t)).copy s.free).map fun r =>
        s.launch r.1 r.2 (s.tasks (s.threads t).task).sections
    else none
  | .createSection t len => if s.isRunning t then s.createSection t len else none
  | .closeSection t i =>
    let k := (s.threads t).task
    if s.isRunning t then
      some (s.setTask k { s.tasks k with sections := (s.tasks k).sections.eraseIdx i })
    else none
  | .mapView t i offset want => if s.isRunning t then s.mapView t i offset want else none
  | .unmapView t base => s.within t fun p free => some (p.unmapView base, free)
  | .execve t elf cloexec =>
    -- an image that is not well formed is a panic of `expect`
    if s.isRunning t ∧ elf.wellFormed then
      (elf.image s.free).map fun r => s.replaceImage t r.1 r.2 cloexec
    else none
  | .exit t =>
    if s.isRunning t then some (s.setThread t { s.threads t with phase := .exited }) else none
  | .reap t =>
    if t < s.nextThread ∧ (s.threads t).phase = .exited then some (s.reapThread t) else none
  | .dropTask k =>
    if k < s.nextTask ∧ (s.tasks k).activeThreads = 0 then
      some (s.setTask k { s.tasks k with sections := [] })
    else none

/-- Before the first process: every frame is free. -/
def boot (frames : List Frame) : System where
  free := frames
  spaces := fun _ => ⟨(⟨0, []⟩ : Node Frame (Table Frame 3)), userAllocBase, brkBase, []⟩
  nextSpace := 0
  sections := []
  tasks := fun _ => ⟨0, 0, []⟩
  nextTask := 0
  threads := fun _ => ⟨0, 0, .reaped⟩
  nextThread := 0
  standing := ∅
  lost := []

/-! ## The property -/

/-- An address space is in use: by the CR3 of a thread that has not been reaped, or as the
space of its task. -/
def Live (x : Nat) : Prop :=
  ∃ t < s.nextThread, (s.threads t).phase ≠ .reaped ∧ ((s.threads t).cr3 = x ∨ s.spaceOf t = x)

/-- No frame is on the free list twice, and none that a live address space maps or keeps a
table in, or that backs a section. -/
structure Safe (s : System) : Prop where
  once : s.free.Nodup
  space : ∀ x, s.Live x → ∀ frame ∈ Table.walk 4 (s.spaces x).table, frame ∉ s.free
  backing : ∀ sec ∈ s.sections, ∀ frame ∈ sec.frames, frame ∉ s.free

/-- Every task is reaped, and every section handle and view is gone. -/
structure Gone (s : System) : Prop where
  threads : ∀ t < s.nextThread, (s.threads t).phase = .reaped
  handles : ∀ k < s.nextTask, (s.tasks k).sections = []
  views : ∀ x ∈ s.standing, (s.spaces x).views = []

/-- `execve` is called by the only thread of its process that has not been reaped. -/
def ExecsAlone : Act → Prop
  | .execve t _ _ => (s.tasks (s.threads t).task).activeThreads = 1
  | _ => True

/-- The image is rejected, or the frames run out while it is loaded. -/
def rejects (pe : Pe) : Bool := (pe.image s.free).any fun r => !r.2

/-- The call loses no frame: no image is rejected after its address space is made, no page is
mapped in the upper half, and no section is made. -/
def LosesNone : Act → Prop
  | .spawnElf elf => elf.wellFormed = true ∧ ∀ virt ∈ elf.addresses, virt < 2 ^ 47
  | .spawnPe pe => s.rejects pe = false ∧ ∀ virt ∈ pe.addresses, virt < 2 ^ 47
  | .mmap t len => ∀ virt ∈ (s.spaces (s.spaceOf t)).mmapPages len, virt < 2 ^ 47
  | .createSection _ _ => False
  | .execve _ elf _ => ∀ virt ∈ elf.addresses, virt < 2 ^ 47
  | _ => True

/-- The condition under which the machine gets all its frames back. -/
def Conserves (a : Act) : Prop := s.ExecsAlone a ∧ s.LosesNone a

instance (s : System) (a : Act) : Decidable (s.ExecsAlone a) :=
  match a with
  | .execve t _ _ => inferInstanceAs (Decidable ((s.tasks (s.threads t).task).activeThreads = 1))
  | .spawnElf _ | .spawnPe _ | .spawnThread _ | .brk _ _ | .mmap _ _ | .fork _
  | .createSection _ _ | .closeSection _ _ | .mapView _ _ _ _ | .unmapView _ _ | .exit _
  | .reap _ | .dropTask _ => .isTrue trivial

instance (s : System) (a : Act) : Decidable (s.LosesNone a) :=
  match a with
  | .spawnElf elf =>
    inferInstanceAs (Decidable (elf.wellFormed = true ∧ ∀ virt ∈ elf.addresses, virt < 2 ^ 47))
  | .spawnPe pe =>
    inferInstanceAs (Decidable (s.rejects pe = false ∧ ∀ virt ∈ pe.addresses, virt < 2 ^ 47))
  | .mmap t len =>
    inferInstanceAs (Decidable (∀ virt ∈ (s.spaces (s.spaceOf t)).mmapPages len, virt < 2 ^ 47))
  | .execve _ elf _ => inferInstanceAs (Decidable (∀ virt ∈ elf.addresses, virt < 2 ^ 47))
  | .createSection _ _ => .isFalse id
  | .spawnThread _ | .brk _ _ | .fork _ | .closeSection _ _ | .mapView _ _ _ _
  | .unmapView _ _ | .exit _ | .reap _ | .dropTask _ => .isTrue trivial

instance (s : System) (a : Act) : Decidable (s.Conserves a) :=
  inferInstanceAs (Decidable (s.ExecsAlone a ∧ s.LosesNone a))

theorem runAll_conserves {calls : List Act} {t u : System}
    (h : runAll (guarded step Conserves) t calls = some u) :
    runAll (guarded step ExecsAlone) t calls = some u := by
  refine runAll_invariant (P := fun calls u => runAll (guarded step ExecsAlone) t calls = some u)
    (fun calls s a s' hrun hstep => ?_) h rfl
  obtain ⟨hok, hstep⟩ := Option.ite_none_right_eq_some.1 hstep
  rw [runAll_concat, hrun, Option.bind_some, guarded, if_pos hok.1, hstep]

/-! ## The books -/

/-- The frames nobody owns: those of sections, the free ones and the lost ones. -/
def loose : Multiset Frame := s.shared + (s.free + s.lost)

structure Books (frames : List Frame) (s : System) : Prop where
  ledger : Ledger (fun x => ((s.spaces x).own : Multiset Frame)) s.standing s.loose frames.toFinset
  ok : ∀ x ∈ s.standing, (s.spaces x).Ok s.shared
  made : ∀ x ∈ s.standing, x < s.nextSpace

variable {frames free : List Frame} {s : System} {i k offset t want x : Nat} {p : Process}

theorem coe_add_of_perm {l₁ l₂ l : List Frame} (h : (l₁ ++ l₂).Perm l) :
    (l₁ : Multiset Frame) + l₂ = l :=
  (coe_add ..).trans (Multiset.coe_eq_coe.2 h)

namespace Books

variable (h : Books frames s)
include h

theorem setSpace (hx : x ∈ s.standing)
    (htakes : Takes s.shared (s.spaces x) s.free p free) : Books frames (s.setSpace x p free) := by
  have hself : (s.setSpace x p free).spaces x = p := update_self ..
  have hother {y : Nat} (hy : y ≠ x) : (s.setSpace x p free).spaces y = s.spaces y :=
    update_of_ne hy ..
  refine ⟨h.ledger.transfer hx (fun y _ hy => by rw [hother hy]) ?_, fun y hy => ?_, h.made⟩
  · have hmoved : (p.own : Multiset Frame) + free = (s.spaces x).own + s.free :=
      (coe_add_of_perm htakes.moved).trans (coe_add ..).symm
    rw [hself]
    calc (p.own : Multiset Frame) + (s.shared + (free + s.lost))
        = p.own + free + (s.shared + s.lost) := by abel
      _ = (s.spaces x).own + s.free + (s.shared + s.lost) := by rw [hmoved]
      _ = (s.spaces x).own + (s.shared + (s.free + s.lost)) := by abel
  · by_cases hxy : y = x
    · rw [hxy, hself]
      exact htakes.ok
    · rw [hother hxy]
      exact h.ok y hy

theorem addSpace (hok : p.Ok s.shared)
    (hperm : (p.own ++ free).Perm s.free) : Books frames (s.addSpace p free) := by
  have hself : (s.addSpace p free).spaces s.nextSpace = p := update_self ..
  have hother {x : Nat} (hx : x ∈ s.standing) :
      x ≠ s.nextSpace ∧ (s.addSpace p free).spaces x = s.spaces x :=
    ⟨(h.made x hx).ne, update_of_ne (h.made x hx).ne ..⟩
  refine ⟨?_, fun x hx => ?_, fun x hx => ?_⟩
  · have hmoved := coe_add_of_perm hperm
    have hnew : s.nextSpace ∉ s.standing := fun hmem => (hother hmem).1 rfl
    refine Ledger.insert ?_ hnew
    have hloose : s.loose = p.own + (s.addSpace p free).loose := by
      calc s.loose = s.shared + (p.own + free + s.lost) := by rw [hmoved]; rfl
        _ = p.own + (s.shared + (free + s.lost)) := by abel
    rw [hself, ← hloose]
    exact h.ledger.congr fun x hx => by rw [(hother hx).2]
  · rcases mem_insert.1 hx with rfl | hx
    · rw [hself]
      exact hok
    · rw [(hother hx).2]
      exact h.ok x hx
  · rcases mem_insert.1 hx with rfl | hx
    · exact lt_succ_self _
    · exact lt_succ_of_lt (h.made x hx)

theorem lose {gone : List Frame} (hperm : (gone ++ free).Perm s.free) :
    Books frames (s.lose gone free) := by
  refine ⟨?_, h.ok, h.made⟩
  have hmoved := coe_add_of_perm hperm
  have hloose : (s.lose gone free).loose = s.loose := by
    calc (s.shared : Multiset Frame) + (free + (gone ++ s.lost : List Frame))
        = s.shared + (gone + free + s.lost) := by rw [← coe_add]; abel
      _ = s.loose := by rw [hmoved]; rfl
  rw [hloose]
  exact h.ledger

theorem teardown (hx : x ∈ s.standing) : Books frames (s.teardown x) := by
  have hother {y : Nat} (hy : y ∈ s.standing.erase x) : (s.teardown x).spaces y = s.spaces y :=
    update_of_ne (Finset.ne_of_mem_erase hy) ..
  refine ⟨?_, fun y hy => ?_, fun y hy => h.made y (Finset.mem_of_mem_erase hy)⟩
  · have hfreed := coe_add_of_perm (freed_left_perm (h.ok x hx))
    set p := (s.spaces x).unmapViews with hp
    have hpushed : ((p.freed.reverse ++ s.free : List Frame) : Multiset Frame) =
        p.freed + s.free := by
      rw [← coe_add, Multiset.coe_reverse]
    have hloose : (s.teardown x).loose = (s.spaces x).own + s.loose := by
      calc (s.teardown x).loose
          = s.shared + ((p.freed.reverse ++ s.free : List Frame) +
              (p.left ++ s.lost : List Frame)) := rfl
        _ = p.freed + p.left + (s.shared + (s.free + s.lost)) := by
            rw [hpushed, ← coe_add]
            abel
        _ = (s.spaces x).own + s.loose := by rw [hfreed]; rfl
    rw [hloose]
    exact (h.ledger.erase hx).congr fun y hy => by rw [hother hy]
  · rw [hother hy]
    exact h.ok y (Finset.mem_of_mem_erase hy)

theorem createSection {len : Nat} {s' : System}
    (hstep : s.createSection t len = some s') : Books frames s' := by
  obtain ⟨⟨sec, free⟩, hnew, rfl⟩ := map_eq_some_iff.1 hstep
  have hfree : sec.frames ++ free = s.free := by
    rw [Section.new, ite_none_right_eq_some] at hnew
    obtain ⟨rfl, rfl⟩ := Prod.mk.inj (Option.some.inj hnew.2)
    exact take_append_drop ..
  have hmoved := coe_add_of_perm (List.Perm.of_eq hfree)
  have hshar : (s.sections ++ [sec]).flatMap (·.frames) = s.shared ++ sec.frames := by
    rw [flatMap_append, flatMap_singleton]
    rfl
  refine ⟨?_, fun x hx => ?_, h.made⟩
  · have hloose : (((s.sections ++ [sec]).flatMap (·.frames) : List Frame) : Multiset Frame) +
        (free + s.lost) = s.loose := by
      calc (((s.sections ++ [sec]).flatMap (·.frames) : List Frame) : Multiset Frame) +
            (free + s.lost) = s.shared + (sec.frames + free + s.lost) := by
            rw [hshar, ← coe_add]
            abel
        _ = s.loose := by rw [hmoved]; rfl
    rw [loose, shared, hloose]
    exact h.ledger
  · rw [shared, hshar]
    exact ⟨(h.ok x hx).mono (subset_append_left ..), (h.ok x hx).aligned⟩

end Books

/-! ## Tasks and their threads -/

/-- The threads of a task that have not been reaped. -/
def unreaped (s : System) (k : Nat) : Finset Nat :=
  (Finset.range s.nextThread).filter fun t =>
    (s.threads t).phase ≠ .reaped ∧ (s.threads t).task = k

theorem mem_unreaped : t ∈ s.unreaped k ↔
      t < s.nextThread ∧ (s.threads t).phase ≠ .reaped ∧ (s.threads t).task = k := by
  rw [unreaped, Finset.mem_filter, Finset.mem_range]

section AddThread

theorem tasks_addThread_self : (s.addThread k).tasks k =
    { s.tasks k with activeThreads := (s.tasks k).activeThreads + 1 } :=
  update_self ..

variable {j : Nat}

theorem tasks_addThread_of_ne (hj : j ≠ k) : (s.addThread k).tasks j = s.tasks j :=
  update_of_ne hj ..

theorem threads_addThread_self :
    (s.addThread k).threads s.nextThread = ⟨k, (s.tasks k).space, .running⟩ :=
  update_self ..

theorem threads_addThread_of_lt (ht : t < s.nextThread) : (s.addThread k).threads t = s.threads t :=
  update_of_ne ht.ne ..

theorem mem_unreaped_addThread :
    t ∈ (s.addThread k).unreaped j ↔ (t = s.nextThread ∧ j = k) ∨ t ∈ s.unreaped j := by
  rw [mem_unreaped, mem_unreaped]
  rcases lt_trichotomy t s.nextThread with ht | rfl | ht
  · rw [threads_addThread_of_lt ht]
    have hlt : t < (s.addThread k).nextThread := lt_succ_of_lt ht
    simp [hlt, ht, ht.ne]
  · rw [threads_addThread_self]
    have hlt : s.nextThread < (s.addThread k).nextThread := lt_succ_self _
    simp [hlt, eq_comm]
  · have hge : ¬ t < (s.addThread k).nextThread := not_lt.2 ht
    simp [hge, ht.ne', ht.le]

theorem unreaped_addThread_of_ne (hj : j ≠ k) : (s.addThread k).unreaped j = s.unreaped j := by
  ext t
  rw [mem_unreaped_addThread]
  exact or_iff_right fun h => hj h.2

theorem card_unreaped_addThread : ((s.addThread k).unreaped k).card = (s.unreaped k).card + 1 := by
  have hinsert : (s.addThread k).unreaped k = insert s.nextThread (s.unreaped k) := by
    ext t
    rw [mem_unreaped_addThread, mem_insert]
    exact or_congr_left (and_iff_left rfl)
  rw [hinsert]
  exact Finset.card_insert_of_notMem fun hmem => (mem_unreaped.1 hmem).1.false

end AddThread

/-- The tasks that have threads. -/
def busy (s : System) : Set Nat := {k | k < s.nextTask ∧ 0 < (s.tasks k).activeThreads}

theorem mem_busy : k ∈ s.busy ↔ k < s.nextTask ∧ 0 < (s.tasks k).activeThreads := .rfl

/-- Every thread runs on the space of its task, the counter of a task counts its threads, and
the spaces of `st` are those of the tasks with threads, each of one task. -/
structure Staffed (st : Finset Nat) (s : System) : Prop where
  thread : ∀ t < s.nextThread, (s.threads t).phase ≠ .reaped →
    (s.threads t).task < s.nextTask ∧ (s.threads t).cr3 = s.spaceOf t
  count : ∀ k < s.nextTask, (s.tasks k).activeThreads = (s.unreaped k).card
  spaces : Set.BijOn (fun k => (s.tasks k).space) s.busy st

namespace Staffed

variable {st : Finset Nat} (h : Staffed st s)
include h

theorem of_thread (ht : t < s.nextThread) (hphase : (s.threads t).phase ≠ .reaped) :
    (s.threads t).task ∈ s.busy ∧ s.spaceOf t ∈ st := by
  have htask := (h.thread t ht hphase).1
  have hbusy : (s.threads t).task ∈ s.busy := by
    refine ⟨htask, ?_⟩
    rw [h.count _ htask]
    exact card_pos.2 ⟨t, mem_unreaped.2 ⟨ht, hphase, rfl⟩⟩
  exact ⟨hbusy, h.spaces.mapsTo hbusy⟩

theorem standing_of_live (hlive : s.Live x) : x ∈ st := by
  obtain ⟨t, ht, hphase, hx⟩ := hlive
  have hstands := (h.of_thread ht hphase).2
  rcases hx with hx | hx
  · rw [← hx, (h.thread t ht hphase).2]
    exact hstands
  · exact hx ▸ hstands

theorem of_same {s' : System} (hnextThread : s'.nextThread = s.nextThread)
    (hnext : s'.nextTask = s.nextTask) (hspace : ∀ k, (s'.tasks k).space = (s.tasks k).space)
    (hact : ∀ k, (s'.tasks k).activeThreads = (s.tasks k).activeThreads)
    (htask : ∀ t, (s'.threads t).task = (s.threads t).task)
    (hcr3 : ∀ t, (s'.threads t).cr3 = (s.threads t).cr3)
    (hphase : ∀ t, (s'.threads t).phase = .reaped ↔ (s.threads t).phase = .reaped) :
    Staffed st s' := by
  have hreap (k : Nat) : s'.unreaped k = s.unreaped k := by
    ext t
    rw [mem_unreaped, mem_unreaped, hnextThread, htask, ne_eq, hphase]
  refine ⟨fun t ht hreaped => ?_, fun k hk => ?_, ?_⟩
  · rw [spaceOf, htask, hcr3, hspace, hnext]
    exact h.thread t (hnextThread ▸ ht) (mt (hphase t).2 hreaped)
  · rw [hact, hreap]
    exact h.count k (hnext ▸ hk)
  · have hbusy : s'.busy = s.busy := by simp only [busy, hnext, hact]
    rw [hbusy]
    exact h.spaces.congr fun k _ => (hspace k).symm

theorem setTask {task : Task} (hspace : task.space = (s.tasks k).space)
    (hact : task.activeThreads = (s.tasks k).activeThreads) : Staffed st (s.setTask k task) := by
  have hsame : ∀ j, ((s.setTask k task).tasks j).space = (s.tasks j).space ∧
      ((s.setTask k task).tasks j).activeThreads = (s.tasks j).activeThreads :=
    (forall_update_iff s.tasks fun j new => new.space = (s.tasks j).space ∧
      new.activeThreads = (s.tasks j).activeThreads).2 ⟨⟨hspace, hact⟩, fun _ _ => ⟨rfl, rfl⟩⟩
  exact h.of_same rfl rfl (fun j => (hsame j).1) (fun j => (hsame j).2) (fun _ => rfl)
    (fun _ => rfl) fun _ => .rfl

theorem exit (hphase : (s.threads t).phase = .running) :
    Staffed st (s.setThread t { s.threads t with phase := .exited }) := by
  have hsame : ∀ u, ((s.setThread t { s.threads t with phase := .exited }).threads u).task =
      (s.threads u).task ∧ _ ∧ _ :=
    (forall_update_iff s.threads fun u new => new.task = (s.threads u).task ∧
      new.cr3 = (s.threads u).cr3 ∧ (new.phase = .reaped ↔ (s.threads u).phase = .reaped)).2
      ⟨⟨rfl, rfl, by rw [hphase]; exact ⟨nofun, nofun⟩⟩, fun _ _ => ⟨rfl, rfl, .rfl⟩⟩
  exact h.of_same rfl rfl (fun _ => rfl) (fun _ => rfl) (fun u => (hsame u).1)
    (fun u => (hsame u).2.1) fun u => (hsame u).2.2

theorem addThread (hk : k < s.nextTask)
    (hfirst : (s.tasks k).activeThreads = 0 → (s.tasks k).space ∉ st) :
    Staffed (insert (s.tasks k).space st) (s.addThread k) := by
  have hspace : ∀ j, ((s.addThread k).tasks j).space = (s.tasks j).space :=
    (forall_update_iff s.tasks fun j new => new.space = (s.tasks j).space).2 ⟨rfl, fun _ _ => rfl⟩
  refine ⟨fun t ht hphase => ?_, fun j hj => ?_, ?_⟩
  · rcases Nat.lt_succ_iff_lt_or_eq.1 ht with ht | rfl
    · rw [threads_addThread_of_lt ht] at hphase
      rw [spaceOf, threads_addThread_of_lt ht, hspace]
      exact h.thread t ht hphase
    · rw [spaceOf, threads_addThread_self, hspace]
      exact ⟨hk, rfl⟩
  · by_cases hjk : j = k
    · rw [hjk, tasks_addThread_self, card_unreaped_addThread, h.count k hk]
    · rw [tasks_addThread_of_ne hjk, unreaped_addThread_of_ne hjk]
      exact h.count j hj
  · have hbusy : (s.addThread k).busy = insert k s.busy := by
      ext j
      rw [Set.mem_insert_iff, mem_busy]
      by_cases hjk : j = k
      · rw [hjk, tasks_addThread_self]
        exact iff_of_true ⟨hk, Nat.succ_pos _⟩ (.inl rfl)
      · rw [or_iff_right hjk, tasks_addThread_of_ne hjk]
        rfl
    rw [hbusy, funext hspace, Finset.coe_insert]
    by_cases hact : k ∈ s.busy
    · rw [Set.insert_eq_of_mem hact, Set.insert_eq_of_mem (h.spaces.mapsTo hact)]
      exact h.spaces
    · exact h.spaces.insert (hfirst (Nat.eq_zero_of_not_pos fun hpos => hact ⟨hk, hpos⟩))

theorem addTask (x : Nat) (handles : List Nat) : Staffed st (s.addTask x handles) := by
  have hself : (s.addTask x handles).tasks s.nextTask = ⟨x, 0, handles⟩ := update_self ..
  have hold {k : Nat} (hk : k < s.nextTask) : (s.addTask x handles).tasks k = s.tasks k :=
    update_of_ne hk.ne ..
  refine ⟨fun t ht hphase => ?_, fun k hk => ?_, ?_⟩
  · obtain ⟨htask, hcr3⟩ := h.thread t ht hphase
    exact ⟨Nat.lt_succ_of_lt htask, hcr3.trans (congrArg Task.space (hold htask)).symm⟩
  · rcases Nat.lt_succ_iff_lt_or_eq.1 hk with hk | rfl
    · rw [hold hk]
      exact h.count k hk
    · rw [hself]
      refine (Finset.card_eq_zero.2 (Finset.eq_empty_of_forall_notMem fun t hmem => ?_)).symm
      obtain ⟨ht, hphase, htask⟩ := mem_unreaped.1 hmem
      exact (h.thread t ht hphase).1.ne htask
  · have hbusy : (s.addTask x handles).busy = s.busy := by
      ext k
      constructor
      · rintro ⟨hk, hpos⟩
        rcases Nat.lt_succ_iff_lt_or_eq.1 hk with hk | rfl
        · exact ⟨hk, hold hk ▸ hpos⟩
        · rw [hself] at hpos
          exact absurd hpos (lt_irrefl 0)
      · rintro ⟨hk, hpos⟩
        exact ⟨Nat.lt_succ_of_lt hk, (hold hk).symm ▸ hpos⟩
    rw [hbusy]
    exact h.spaces.congr fun k hk => (congrArg Task.space (hold hk.1)).symm

theorem launch (hmade : ∀ x ∈ st, x < s.nextSpace) (p : Process)
    (free : List Frame) (handles : List Nat) :
    Staffed (insert s.nextSpace st) (s.launch p free handles) := by
  have hadded : Staffed st (s.addSpace p free) := { h with }
  have hself : ((s.addSpace p free).addTask s.nextSpace handles).tasks s.nextTask =
      ⟨s.nextSpace, 0, handles⟩ := update_self ..
  have hlaunch := (hadded.addTask s.nextSpace handles).addThread (Nat.lt_succ_self s.nextTask)
  rw [hself] at hlaunch
  exact hlaunch fun _ hmem => (hmade _ hmem).false

theorem replaceImage (hmade : ∀ x ∈ st, x < s.nextSpace)
    (ht : t < s.nextThread) (hphase : (s.threads t).phase ≠ .reaped)
    (halone : (s.tasks (s.threads t).task).activeThreads = 1) (p : Process) (free : List Frame)
    (cloexec : Nat → Bool) :
    Staffed ((insert s.nextSpace st).erase (s.spaceOf t)) (s.replaceImage t p free cloexec) := by
  obtain ⟨hbusy, hstands⟩ := h.of_thread ht hphase
  rw [spaceOf] at hstands ⊢
  set k := (s.threads t).task with hkdef
  set s' := s.replaceImage t p free cloexec with hs'
  have htask : (s'.tasks k).space = s.nextSpace ∧ (s'.tasks k).activeThreads = 1 := by
    have hself : s'.tasks k = { s.tasks k with
        space := s.nextSpace
        sections := (s.tasks k).sections.filter fun y => !cloexec y } := update_self ..
    rw [hself]
    exact ⟨rfl, halone⟩
  have htask' {j : Nat} (hj : j ≠ k) : s'.tasks j = s.tasks j := update_of_ne hj ..
  have hthread : s'.threads t = { s.threads t with cr3 := s.nextSpace } := update_self ..
  have hthread' {u : Nat} (hu : u ≠ t) : s'.threads u = s.threads u := update_of_ne hu ..
  have hreap (j : Nat) : s'.unreaped j = s.unreaped j := by
    ext u
    rw [mem_unreaped, mem_unreaped]
    by_cases hu : u = t
    · rw [hu, hthread]
      rfl
    · rw [hthread' hu]
      rfl
  -- the only thread of the task is the caller
  have honly {u : Nat} (hu : u < s.nextThread) (hphase' : (s.threads u).phase ≠ .reaped)
      (htask : (s.threads u).task = k) : u = t := by
    have hcard : (s.unreaped k).card = 1 := (h.count k hbusy.1).symm.trans halone
    exact Finset.card_le_one_iff.1 hcard.le (mem_unreaped.2 ⟨hu, hphase', htask⟩)
      (mem_unreaped.2 ⟨ht, hphase, rfl⟩)
  refine ⟨fun u hu hphase' => ?_, fun j hj => ?_, ?_⟩
  · by_cases hut : u = t
    · rw [hut, spaceOf, hthread]
      exact ⟨hbusy.1, htask.1.symm⟩
    · rw [hthread' hut] at hphase'
      have hne : (s.threads u).task ≠ k := fun heq => hut (honly hu hphase' heq)
      rw [spaceOf, hthread' hut, htask' hne]
      exact h.thread u hu hphase'
  · rw [hreap]
    by_cases hjk : j = k
    · rw [hjk, htask.2, ← h.count k hbusy.1, halone]
    · rw [htask' hjk]
      exact h.count j hj
  · have hsame : s'.busy = insert k (s.busy \ {k}) := by
      ext j
      rw [Set.insert_sdiff_singleton, Set.mem_insert_iff, mem_busy]
      by_cases hjk : j = k
      · rw [hjk, htask.2]
        exact iff_of_true ⟨hbusy.1, one_pos⟩ (.inl rfl)
      · rw [or_iff_right hjk, htask' hjk]
        rfl
    -- the old space goes and the new one comes
    have hrest := (h.spaces.sdiff_singleton hbusy).congr fun j hj =>
      (congrArg Task.space (htask' hj.2)).symm
    have hnew : (s'.tasks k).space ∉ (st : Set Nat) \ {(s.tasks k).space} := by
      rw [htask.1]
      exact fun hmem => (hmade _ hmem.1).false
    have hall := hrest.insert hnew
    rwa [htask.1, Set.insert_sdiff_singleton_comm (hmade _ hstands).ne', ← hsame,
      ← Finset.coe_insert, ← Finset.coe_erase] at hall

theorem reapThread (ht : t < s.nextThread) (hphase : (s.threads t).phase = .exited) :
    Staffed (if (s.tasks (s.threads t).task).activeThreads = 1 then st.erase (s.spaceOf t) else st)
      (s.reapThread t) := by
  have hnot : (s.threads t).phase ≠ .reaped := hphase ▸ nofun
  obtain ⟨hbusy, -⟩ := h.of_thread ht hnot
  rw [spaceOf]
  set k := (s.threads t).task with hkdef
  set s' := s.reapThread t with hs'
  have hfields : s'.threads = update s.threads t { s.threads t with phase := .reaped } ∧
      s'.tasks = update s.tasks k
        { s.tasks k with activeThreads := (s.tasks k).activeThreads - 1 } ∧
      s'.nextThread = s.nextThread ∧ s'.nextTask = s.nextTask := by
    rw [hs', System.reapThread]
    split
    · exact ⟨rfl, rfl, rfl, rfl⟩
    · exact ⟨rfl, rfl, rfl, rfl⟩
  obtain ⟨hthr, htasks, hnextThread, hnext⟩ := hfields
  have htask : s'.tasks k = { s.tasks k with activeThreads := (s.tasks k).activeThreads - 1 } := by
    rw [htasks, update_self]
  have htask' {j : Nat} (hj : j ≠ k) : s'.tasks j = s.tasks j := by rw [htasks, update_of_ne hj]
  have hthread : (s'.threads t).phase = .reaped := by rw [hthr, update_self]
  have hthread' {u : Nat} (hu : u ≠ t) : s'.threads u = s.threads u := by
    rw [hthr, update_of_ne hu]
  have hspace : ∀ j, (s'.tasks j).space = (s.tasks j).space := by
    rw [htasks]
    exact (forall_update_iff s.tasks fun j new => new.space = (s.tasks j).space).2
      ⟨rfl, fun _ _ => rfl⟩
  have hmem {j u : Nat} : u ∈ s'.unreaped j ↔ u ∈ s.unreaped j ∧ u ≠ t := by
    rw [mem_unreaped, mem_unreaped, hnextThread]
    by_cases hu : u = t
    · simp [hu, hthread]
    · simp [hthread' hu, hu]
  refine ⟨fun u hu hphase' => ?_, fun j hj => ?_, ?_⟩
  · have hut : u ≠ t := fun heq => hphase' (heq ▸ hthread)
    rw [hthread' hut] at hphase'
    rw [spaceOf, hthread' hut, hspace, hnext]
    exact h.thread u (hnextThread ▸ hu) hphase'
  · by_cases hjk : j = k
    · have herase : s'.unreaped k = (s.unreaped k).erase t := by
        ext u
        rw [hmem, mem_erase, and_comm]
      rw [hjk, htask, herase, Finset.card_erase_of_mem (mem_unreaped.2 ⟨ht, hnot, rfl⟩),
        h.count k hbusy.1]
    · have hsame : s'.unreaped j = s.unreaped j := by
        ext u
        rw [hmem]
        refine and_iff_left_of_imp fun hu heq => hjk ?_
        rw [← (mem_unreaped.1 hu).2.2, heq]
      rw [htask' hjk, hsame]
      exact h.count j (hnext ▸ hj)
  · have hbusy' {j : Nat} : j ∈ s'.busy ↔
        j ∈ s.busy ∧ (j = k → (s.tasks k).activeThreads ≠ 1) := by
      rw [mem_busy, mem_busy, hnext]
      by_cases hjk : j = k
      · have hpos := hbusy.2
        simp only [hjk, htask, forall_const]
        omega
      · simp [htask' hjk, hjk]
    rw [funext hspace]
    split
    · rename_i hlast
      have herase : s'.busy = s.busy \ {k} := by
        ext j
        rw [hbusy']
        exact and_congr_right fun _ => ⟨fun hne heq => hne heq hlast, fun hne heq => absurd heq hne⟩
      rw [herase, Finset.coe_erase]
      exact h.spaces.sdiff_singleton hbusy
    · rename_i hlast
      have hsame : s'.busy = s.busy := by
        ext j
        rw [hbusy']
        exact and_iff_left fun _ => hlast
      rw [hsame]
      exact h.spaces

end Staffed

/-! ## Every step keeps the books -/

structure Inv (frames : List Frame) (s : System) : Prop where
  books : Books frames s
  staffed : Staffed s.standing s
  filled : ∀ sec ∈ s.sections, sec.Wf ∧ sec.frames ≠ []

theorem isRunning_iff : s.isRunning t ↔ t < s.nextThread ∧ (s.threads t).phase = .running := by
  rw [isRunning, Bool.and_eq_true, decide_eq_true_iff, decide_eq_true_iff]

theorem mapView_cases {s' : System}
    (hstep : s.mapView t i offset want = some s') : s' = s ∨ ∃ (y : Nat) (sec : Section),
      s.sections[y]? = some sec ∧ s.within t (fun p free =>
        (ntMapViewOfSection p y sec offset want free).map fun v => (v.proc, v.free)) = some s' := by
  unfold mapView at hstep
  split at hstep
  · exact .inl (Option.some.inj hstep).symm
  · rename_i y _
    split at hstep
    · cases hstep
    · rename_i sec hsec
      split at hstep
      · exact .inl (Option.some.inj hstep).symm
      · exact .inr ⟨y, sec, hsec, hstep⟩

namespace Inv

variable {s' : System}

section

variable (h : Inv frames s)
include h

theorem spaceOf_standing (hrun : s.isRunning t) : s.spaceOf t ∈ s.standing :=
  have ⟨ht, hphase⟩ := isRunning_iff.1 hrun
  (h.staffed.of_thread ht (hphase ▸ nofun)).2

theorem setSpace (hrun : s.isRunning t)
    (htakes : Takes s.shared (s.spaces (s.spaceOf t)) s.free p free) :
    Inv frames (s.setSpace (s.spaceOf t) p free) :=
  ⟨h.books.setSpace (h.spaceOf_standing hrun) htakes, { h.staffed with }, h.filled⟩

theorem within {f : Process → List Frame → Option (Process × List Frame)}
    (hf : ∀ {p free p' free'}, p.Ok s.shared → f p free = some (p', free') →
      Takes s.shared p free p' free') (hstep : s.within t f = some s') : Inv frames s' := by
  obtain ⟨hrun, ⟨p, free⟩, hcall, rfl⟩ := ite_map_eq_some.1 hstep
  exact h.setSpace hrun (hf (h.books.ok _ (h.spaceOf_standing hrun)) hcall)

theorem launch (hok : p.Ok s.shared) (hperm : (p.own ++ free).Perm s.free) (handles : List Nat) :
    Inv frames (s.launch p free handles) := by
  have hbooks := h.books.addSpace hok hperm
  exact ⟨{ hbooks with }, h.staffed.launch h.books.made p free handles, h.filled⟩

theorem spawnElf {elf : Elf} (hstep : s.step (.spawnElf elf) = some s') : Inv frames s' := by
  rw [step] at hstep
  split at hstep
  · obtain ⟨⟨p, free⟩, himage, rfl⟩ := map_eq_some_iff.1 hstep
    obtain ⟨hok, hperm⟩ := Elf.image_spec himage
    exact h.launch hok hperm []
  · obtain ⟨⟨p, free⟩, hnew, rfl⟩ := map_eq_some_iff.1 hstep
    have hspec : p.Ok s.shared ∧ (p.own ++ free).Perm s.free := new_spec hnew
    exact ⟨h.books.lose hspec.2, { h.staffed with }, h.filled⟩

theorem spawnPe {pe : Pe} (hstep : s.step (.spawnPe pe) = some s') : Inv frames s' := by
  obtain ⟨⟨l, ok⟩, himage, rfl⟩ := map_eq_some_iff.1 hstep
  obtain ⟨hok, hperm, hnone⟩ : l.process.Ok s.shared ∧ l.all.Perm s.free ∧
      (ok = true → l.tls = none) :=
    Pe.image_spec himage
  cases ok with
  | true =>
    rw [Loading.all, hnone rfl] at hperm
    exact h.launch hok hperm []
  | false =>
    rw [Loading.all, ← append_assoc] at hperm
    exact ⟨h.books.lose hperm, { h.staffed with }, h.filled⟩

theorem spawnThread (hstep : s.step (.spawnThread t) = some s') : Inv frames s' := by
  obtain ⟨hrun, ⟨l, ok⟩, hload, rfl⟩ := ite_map_eq_some.1 hstep
  obtain ⟨hholds, htls⟩ := Loading.run_holds (h.books.ok _ (h.spaceOf_standing hrun)) hload
  have hnone : l.tls = none := htls fun st hst => by
    obtain ⟨virt, _, rfl⟩ := mem_map.1 hst
    exact nofun
  have hall := hholds.all
  rw [Loading.all, hnone] at hall
  have hset := h.setSpace hrun ⟨hholds.ok, hall⟩
  cases ok with
  | false => exact hset
  | true =>
    obtain ⟨ht, hphase⟩ := isRunning_iff.1 hrun
    obtain ⟨hbusy, hstands⟩ := hset.staffed.of_thread ht (hphase ▸ nofun)
    have hstaff := hset.staffed.addThread hbusy.1 fun hzero => absurd hzero hbusy.2.ne'
    exact ⟨{ hset.books with }, Finset.insert_eq_of_mem hstands ▸ hstaff, hset.filled⟩

theorem nodup_free : s.free.Nodup := by
  have hrest := (nodup_add.1 h.books.ledger.nodup_loose).2.1
  exact (nodup_add.1 hrest).1

theorem createSection {len : Nat} (hstep : s.createSection t len = some s') : Inv frames s' := by
  have hbooks := h.books.createSection hstep
  obtain ⟨⟨sec, free⟩, hnew, rfl⟩ := map_eq_some_iff.1 hstep
  refine ⟨hbooks, ?_, forall_mem_append.2 ⟨h.filled,
    forall_mem_singleton.2 (Section.new_wf h.nodup_free hnew)⟩⟩
  have hstaff : Staffed s.standing (s.setTask (s.threads t).task { s.tasks (s.threads t).task with
      sections := (s.tasks (s.threads t).task).sections ++ [s.sections.length] }) :=
    h.staffed.setTask rfl rfl
  exact { hstaff with }

theorem mapView (hstep : s.mapView t i offset want = some s') : Inv frames s' := by
  obtain rfl | ⟨y, sec, hsec, hmap⟩ := mapView_cases hstep
  · exact h
  · refine h.within (fun hok hcall => ?_) hmap
    obtain ⟨v, hv, ⟨⟩⟩ := map_eq_some_iff.1 hcall
    refine ntMapViewOfSection_takes hok (fun frame hframe => ?_) hv
    exact mem_flatMap.2 ⟨sec, mem_of_getElem? hsec, hframe⟩

theorem execve {elf : Elf} {cloexec : Nat → Bool}
    (halone : (s.tasks (s.threads t).task).activeThreads = 1)
    (hstep : s.step (.execve t elf cloexec) = some s') : Inv frames s' := by
  obtain ⟨⟨hrun, _⟩, ⟨p, free⟩, himage, rfl⟩ := ite_map_eq_some.1 hstep
  obtain ⟨ht, hphase⟩ := isRunning_iff.1 hrun
  have hnot : (s.threads t).phase ≠ .reaped := hphase ▸ nofun
  obtain ⟨hok, hperm⟩ := Elf.image_spec himage
  have hadded := h.books.addSpace hok hperm
  have hold : s.spaceOf t ∈ (s.addSpace p free).standing :=
    mem_insert_of_mem (h.spaceOf_standing hrun)
  have hbooks := hadded.teardown hold
  exact ⟨{ hbooks with },
    h.staffed.replaceImage h.books.made ht hnot halone p free cloexec, h.filled⟩

theorem reap (hstep : s.step (.reap t) = some s') : Inv frames s' := by
  obtain ⟨⟨ht, hphase⟩, ⟨⟩⟩ := ite_none_right_eq_some.1 hstep
  have hstaff := h.staffed.reapThread ht hphase
  have hstands := (h.staffed.of_thread ht (hphase ▸ nofun)).2
  rw [System.reapThread] at hstaff ⊢
  split
  · rename_i hlast
    rw [if_pos hlast, if_pos hlast] at hstaff
    have hbooks := h.books.teardown hstands
    exact ⟨{ hbooks with }, hstaff, h.filled⟩
  · rename_i hlast
    rw [if_neg hlast, if_neg hlast] at hstaff
    exact ⟨{ h.books with }, hstaff, h.filled⟩

theorem setTask {task : Task} (hspace : task.space = (s.tasks k).space)
    (hact : task.activeThreads = (s.tasks k).activeThreads) : Inv frames (s.setTask k task) :=
  ⟨{ h.books with }, h.staffed.setTask hspace hact, h.filled⟩

theorem step {a : Act} (halone : s.ExecsAlone a) (hstep : s.step a = some s') : Inv frames s' := by
  cases a with
  | spawnElf elf => exact h.spawnElf hstep
  | spawnPe pe => exact h.spawnPe hstep
  | spawnThread t => exact h.spawnThread hstep
  | brk t req => exact h.within setBrk_takes hstep
  | mmap t len => exact h.within mmapAnon_takes hstep
  | fork t =>
    obtain ⟨hrun, ⟨p, free⟩, hcopy, rfl⟩ := ite_map_eq_some.1 hstep
    obtain ⟨hok, hperm⟩ := copy_spec (h.books.ok _ (h.spaceOf_standing hrun)) hcopy
    exact h.launch hok hperm _
  | createSection t len =>
    exact h.createSection (ite_none_right_eq_some.1 hstep).2
  | closeSection | dropTask =>
    obtain ⟨-, ⟨⟩⟩ := ite_none_right_eq_some.1 hstep
    exact h.setTask rfl rfl
  | mapView t i offset want =>
    exact h.mapView (ite_none_right_eq_some.1 hstep).2
  | unmapView t base =>
    rw [System.step] at hstep
    refine h.within (fun hok hcall => ?_) hstep
    cases hcall
    obtain ⟨hok', hown⟩ := unmapView_spec hok base
    exact ⟨hok', by rw [hown]⟩
  | execve t elf cloexec => exact h.execve halone hstep
  | exit t =>
    obtain ⟨hrun, ⟨⟩⟩ := ite_none_right_eq_some.1 hstep
    exact ⟨{ h.books with }, h.staffed.exit (isRunning_iff.1 hrun).2, h.filled⟩
  | reap t => exact h.reap hstep

end

theorem boot (hnodup : frames.Nodup) : Inv frames (boot frames) := by
  refine ⟨⟨?_, nofun, nofun⟩, ⟨nofun, nofun, ?_⟩, nofun⟩
  · have hloose : (System.boot frames).loose = frames := by
      calc (([] : List Frame) : Multiset Frame) + (frames + ([] : List Frame))
          = 0 + (frames + 0) := rfl
        _ = frames := by rw [zero_add, add_zero]
    rw [Ledger, hloose, toFinset_val, hnodup.dedup]
    exact zero_add _
  · have hbusy : (System.boot frames).busy = ∅ :=
      Set.eq_empty_of_forall_notMem fun k hk => Nat.not_lt_zero k hk.1
    have hstanding : ((System.boot frames).standing : Set Nat) = ∅ := Finset.coe_empty
    rw [hbusy, hstanding]
    exact Set.bijOn_empty _

theorem safe (h : Inv frames s) : s.Safe := by
  obtain ⟨_, _, hshar⟩ := nodup_add.1 h.books.ledger.nodup_loose
  have hbacking : ∀ frame ∈ s.shared, frame ∉ s.free := fun frame hframe hfree =>
    Multiset.disjoint_left.1 hshar hframe (mem_add.2 (.inl hfree))
  refine ⟨h.nodup_free, ?_, ?_⟩
  · intro x hlive frame hframe hfree
    have hstands := h.staffed.standing_of_live hlive
    rcases (h.books.ok x hstands).mem_walk hframe with howned | hshar
    · have hloose : frame ∈ s.loose := mem_add.2 (.inr (mem_add.2 (.inl hfree)))
      exact h.books.ledger.not_mem_of_loose hstands hloose howned
    · exact hbacking frame hshar hfree
  · intro sec hsec frame hframe
    exact hbacking frame (mem_flatMap.2 ⟨sec, hsec, hframe⟩)

theorem standing_eq_empty (h : Inv frames s) (hgone : s.Gone) : s.standing = ∅ := by
  refine Finset.eq_empty_of_forall_notMem fun x hx => ?_
  obtain ⟨k, ⟨hk, hpos⟩, -⟩ := h.staffed.spaces.surjOn hx
  rw [h.staffed.count k hk] at hpos
  obtain ⟨t, ht⟩ := card_pos.1 hpos
  obtain ⟨hlt, hphase, _⟩ := mem_unreaped.1 ht
  exact hphase (hgone.threads t hlt)

theorem free_length_iff (h : Inv frames s) (hnodup : frames.Nodup) (hgone : s.Gone) :
    s.free.length = frames.length ↔ s.sections = [] ∧ s.lost = [] := by
  have hledger := h.books.ledger
  rw [Ledger, h.standing_eq_empty hgone, Finset.sum_empty, zero_add, toFinset_val,
    hnodup.dedup] at hledger
  have hlen := congrArg Multiset.card hledger
  rw [loose, card_add, card_add, coe_card, coe_card, coe_card, coe_card] at hlen
  have hshar : s.shared = [] ↔ s.sections = [] := by
    rw [shared, flatMap_eq_nil_iff]
    constructor
    · intro hnil
      refine eq_nil_iff_forall_not_mem.2 fun sec hsec => ?_
      exact (h.filled sec hsec).2 (hnil sec hsec)
    · rintro hnil sec hsec
      cases hnil ▸ hsec
  rw [← hshar, ← length_eq_zero_iff, ← length_eq_zero_iff]
  omega

end Inv

/-! ## What is lost -/

/-- No section was made, no frame is lost, and none will be when the spaces are torn down. -/
structure Clean (s : System) : Prop where
  sections : s.sections = []
  lost : s.lost = []
  low : ∀ x ∈ s.standing, (s.spaces x).Low

namespace Clean

variable {s' : System}

theorem iff_fields (s : System) : s.Clean ↔
    s.sections = [] ∧ s.lost = [] ∧ ∀ x ∈ s.standing, (s.spaces x).Low :=
  ⟨fun h => ⟨h.sections, h.lost, h.low⟩, fun h => ⟨h.1, h.2.1, h.2.2⟩⟩

theorem iff_of_same (hsections : s'.sections = s.sections) (hlost : s'.lost = s.lost)
    (hstand : s'.standing = s.standing) (hspcs : s'.spaces = s.spaces) : s'.Clean ↔ s.Clean := by
  rw [iff_fields, iff_fields, hsections, hlost, hstand, hspcs]

theorem low_update_iff {standing : Finset Nat} (hx : x ∉ standing) (p : Process) :
    (∀ y ∈ standing, (update s.spaces x p y).Low) ↔ ∀ y ∈ standing, (s.spaces y).Low :=
  forall₂_congr fun y hy => by rw [update_of_ne (ne_of_mem_of_not_mem hy hx)]

theorem setSpace_iff {C : Prop} (hx : x ∈ s.standing)
    (hlow : p.Low ↔ C ∧ (s.spaces x).Low) : (s.setSpace x p free).Clean ↔ C ∧ s.Clean := by
  have hspcs : (∀ y ∈ s.standing, (update s.spaces x p y).Low) ↔
      C ∧ ∀ y ∈ s.standing, (s.spaces y).Low := by
    rw [← insert_erase hx, forall_mem_insert, forall_mem_insert, update_self,
      hlow, low_update_iff (notMem_erase x _), and_assoc]
  rw [iff_fields, iff_fields]
  exact (and_congr_right' (and_congr_right' hspcs)).trans (by tauto)

theorem addSpace_iff (hmade : ∀ x ∈ s.standing, x < s.nextSpace) :
    (s.addSpace p free).Clean ↔ p.Low ∧ s.Clean := by
  have hspcs : (∀ x ∈ insert s.nextSpace s.standing, (update s.spaces s.nextSpace p x).Low) ↔
      p.Low ∧ ∀ x ∈ s.standing, (s.spaces x).Low := by
    rw [forall_mem_insert, update_self, low_update_iff fun h => (hmade _ h).false]
  rw [iff_fields, iff_fields]
  exact (and_congr_right' (and_congr_right' hspcs)).trans (by tauto)

theorem not_lose {gone : List Frame} (hgone : gone ≠ []) : ¬ (s.lose gone free).Clean :=
  fun h => hgone (append_eq_nil_iff.1 h.lost).1

theorem teardown_iff (hx : x ∈ s.standing) : (s.teardown x).Clean ↔ s.Clean := by
  have hleft : (s.spaces x).unmapViews.left = [] ↔ (s.spaces x).Low :=
    left_eq_nil_iff.trans unmapViews_low_iff
  have hlost : (s.teardown x).lost = [] ↔ (s.spaces x).Low ∧ s.lost = [] := by
    rw [← hleft]
    exact append_eq_nil_iff
  have hspcs : (∀ y ∈ s.standing, (s.spaces y).Low) ↔
      (s.spaces x).Low ∧ ∀ y ∈ s.standing.erase x, (s.spaces y).Low := by
    nth_rewrite 1 [← insert_erase hx]
    exact forall_mem_insert ..
  rw [iff_fields, iff_fields, hlost, hspcs, ← low_update_iff (notMem_erase x _)]
  exact and_congr_right' (by tauto)

end Clean

open Clean

namespace Inv

variable {s' : System}

section

variable (h : Inv frames s)
include h

theorem within_clean_iff {f : Process → List Frame → Option (Process × List Frame)} {C : Prop}
    (hf : ∀ {p' free'}, f (s.spaces (s.spaceOf t)) s.free = some (p', free') →
      (p'.Low ↔ C ∧ (s.spaces (s.spaceOf t)).Low)) (hstep : s.within t f = some s') :
    s'.Clean ↔ C ∧ s.Clean := by
  obtain ⟨hrun, ⟨p, free⟩, hcall, rfl⟩ := ite_map_eq_some.1 hstep
  exact setSpace_iff (h.spaceOf_standing hrun) (hf hcall)

theorem launch_clean_iff
    {handles : List Nat} : (s.launch p free handles).Clean ↔ p.Low ∧ s.Clean := by
  have hsame : (s.launch p free handles).Clean ↔ (s.addSpace p free).Clean :=
    iff_of_same rfl rfl rfl rfl
  rw [hsame, addSpace_iff h.books.made]

omit h in
theorem mapView_clean_iff (hstep : s.mapView t i offset want = some s') : s'.Clean ↔ s.Clean := by
  obtain rfl | ⟨y, sec, hsec, hmap⟩ := mapView_cases hstep
  · exact .rfl
  · -- there is a section, before and after
    obtain ⟨_, ⟨p, free⟩, _, rfl⟩ := ite_map_eq_some.1 hmap
    have hne : s.sections ≠ [] := ne_nil_of_mem (mem_of_getElem? hsec)
    exact ⟨fun hclean => absurd hclean.sections hne, fun hclean => absurd hclean.sections hne⟩

theorem execve_clean_iff {elf : Elf} {cloexec : Nat → Bool}
    (hstep : s.step (.execve t elf cloexec) = some s') :
    s'.Clean ↔ (∀ virt ∈ elf.addresses, virt < 2 ^ 47) ∧ s.Clean := by
  obtain ⟨⟨hrun, _⟩, ⟨p, free⟩, himage, rfl⟩ := ite_map_eq_some.1 hstep
  have hold : s.spaceOf t ∈ (s.addSpace p free).standing :=
    mem_insert_of_mem (h.spaceOf_standing hrun)
  have hsame : (s.replaceImage t p free cloexec).Clean ↔
      ((s.addSpace p free).teardown (s.spaceOf t)).Clean :=
    iff_of_same rfl rfl rfl rfl
  rw [hsame, teardown_iff hold, addSpace_iff h.books.made, Elf.image_low_iff himage]

theorem reap_clean_iff (hstep : s.step (.reap t) = some s') : s'.Clean ↔ s.Clean := by
  obtain ⟨⟨ht, hphase⟩, ⟨⟩⟩ := ite_none_right_eq_some.1 hstep
  have hstands := (h.staffed.of_thread ht (hphase ▸ nofun)).2
  rw [System.reapThread]
  split
  · rw [← teardown_iff hstands]
    exact iff_of_same rfl rfl rfl rfl
  · exact iff_of_same rfl rfl rfl rfl

theorem clean_iff {a : Act} (hstep : s.step a = some s') : s'.Clean ↔ s.LosesNone a ∧ s.Clean := by
  have htrue {P : Prop} : P ↔ True ∧ P := (and_iff_right trivial).symm
  cases a with
  | spawnElf elf =>
    rw [System.step] at hstep
    split at hstep
    · rename_i hwell
      obtain ⟨⟨p, free⟩, himage, rfl⟩ := map_eq_some_iff.1 hstep
      rw [h.launch_clean_iff, Elf.image_low_iff himage]
      exact and_congr_left fun _ => (and_iff_right hwell).symm
    · rename_i hwell
      obtain ⟨⟨p, free⟩, _, rfl⟩ := map_eq_some_iff.1 hstep
      exact ⟨fun hclean => absurd hclean (not_lose p.own_ne_nil),
        fun hkeeps => absurd hkeeps.1.1 hwell⟩
  | spawnPe pe =>
    obtain ⟨⟨l, ok⟩, himage, rfl⟩ := map_eq_some_iff.1 hstep
    have hrejects : s.rejects pe = !ok := by rw [rejects, himage]; rfl
    cases ok with
    | true =>
      rw [LosesNone, hrejects]
      exact h.launch_clean_iff.trans (and_congr_left fun _ =>
        (Pe.image_low_iff himage).trans (and_iff_right rfl).symm)
    | false =>
      have hne : l.process.own ++ l.tls.toList ≠ [] :=
        append_ne_nil_of_left_ne_nil l.process.own_ne_nil _
      rw [LosesNone, hrejects]
      exact ⟨fun hclean => absurd hclean (not_lose hne), fun hkeeps => nomatch hkeeps.1.1⟩
  | spawnThread t =>
    obtain ⟨hrun, ⟨l, ok⟩, hload, rfl⟩ := ite_map_eq_some.1 hstep
    have hpages : ∀ virt ∈ threadPages.filterMap PeStep.address, virt < 2 ^ 47 := by decide
    have hlow := Loading.run_low_of_low hpages hload
    have hset : (s.setSpace (s.spaceOf t) l.process l.free).Clean ↔ True ∧ s.Clean :=
      setSpace_iff (h.spaceOf_standing hrun) (hlow.trans htrue)
    cases ok with
    | true =>
      refine Iff.trans ?_ hset
      exact iff_of_same rfl rfl rfl rfl
    | false => exact hset
  | brk t req =>
    rw [System.step] at hstep
    exact h.within_clean_iff (fun hcall => (setBrk_low_iff hcall).trans htrue) hstep
  | mmap t len =>
    rw [System.step] at hstep
    exact h.within_clean_iff mmapAnon_low_iff hstep
  | fork t =>
    obtain ⟨hrun, ⟨p, free⟩, hcopy, rfl⟩ := ite_map_eq_some.1 hstep
    have hord := (h.books.ok _ (h.spaceOf_standing hrun)).ordered
    rw [h.launch_clean_iff]
    exact and_congr_left fun _ => iff_true_intro (copy_low hord hcopy)
  | createSection t len =>
    rw [System.step, ite_none_right_eq_some] at hstep
    obtain ⟨⟨sec, free⟩, _, rfl⟩ := map_eq_some_iff.1 hstep.2
    refine ⟨fun hclean => ?_, fun hkeeps => hkeeps.1.elim⟩
    exact absurd hclean.sections (append_ne_nil_of_right_ne_nil _ (cons_ne_nil _ _))
  | closeSection | exit | dropTask =>
    obtain ⟨-, ⟨⟩⟩ := ite_none_right_eq_some.1 hstep
    exact htrue.trans (and_congr_right fun _ => iff_of_same rfl rfl rfl rfl)
  | mapView t i offset want =>
    exact (mapView_clean_iff (ite_none_right_eq_some.1 hstep).2).trans htrue
  | unmapView t base =>
    rw [System.step] at hstep
    refine h.within_clean_iff (fun hcall => ?_) hstep
    cases hcall
    exact (unmapView_low_iff base).trans htrue
  | execve t elf cloexec => exact h.execve_clean_iff hstep
  | reap t => exact (h.reap_clean_iff hstep).trans htrue

end

theorem clean_iff_calls (hnodup : frames.Nodup) {calls : List Act}
    (h : runAll (guarded System.step ExecsAlone) (System.boot frames) calls = some s) :
    Inv frames s ∧
      (s.Clean ↔ runAll (guarded System.step Conserves) (System.boot frames) calls = some s) := by
  induction calls using reverseRecOn generalizing s with
  | nil =>
    cases h
    exact ⟨Inv.boot hnodup, iff_of_true ⟨rfl, rfl, nofun⟩ rfl⟩
  | append_singleton calls a ih =>
    rw [runAll_concat] at h
    obtain ⟨t, ht, hguard⟩ := Option.bind_eq_some_iff.1 h
    obtain ⟨halone, hstep⟩ := ite_none_right_eq_some.1 hguard
    obtain ⟨hinv, hcalls⟩ := ih ht
    refine ⟨hinv.step halone hstep, ?_⟩
    rw [hinv.clean_iff hstep, hcalls, runAll_concat]
    constructor
    · rintro ⟨hloses, hrun⟩
      rw [hrun, Option.bind_some, guarded, if_pos ⟨halone, hloses⟩, hstep]
    · intro hrun
      obtain ⟨u, hu, hlast⟩ := Option.bind_eq_some_iff.1 hrun
      obtain rfl : u = t := Option.some_inj.1 ((runAll_conserves hu).symm.trans ht)
      exact ⟨(ite_none_right_eq_some.1 hlast).1.2, hu⟩

end Inv

/-- When every call of `execve` comes from the only thread of its process, no frame is on the
free list twice or while it is in use. When everything is gone, all frames are free again just
if no call of the run made a section, rejected an image after making its address space, or mapped
a page in the upper half. -/
theorem frames_conserved {frames : List Frame} (hnodup : frames.Nodup) {calls : List Act}
    {s : System} (hrun : runAll (guarded step ExecsAlone) (boot frames) calls = some s) :
    s.Safe ∧ (s.Gone → (s.free.length = frames.length ↔
      runAll (guarded step Conserves) (boot frames) calls = some s)) := by
  obtain ⟨hinv, hcalls⟩ := Inv.clean_iff_calls hnodup hrun
  refine ⟨hinv.safe, fun hgone => ?_⟩
  rw [hinv.free_length_iff hnodup hgone, ← hcalls]
  constructor
  · rintro ⟨hsections, hlost⟩
    refine ⟨hsections, hlost, fun x hx => ?_⟩
    rw [hinv.standing_eq_empty hgone] at hx
    cases hx
  · intro hclean
    exact ⟨hclean.sections, hclean.lost⟩

/-- Decided state by state in the runs below. -/
def isGone (s : System) : Bool :=
  (List.range s.nextThread).all (fun t => (s.threads t).phase = .reaped) &&
    (List.range s.nextTask).all (fun k => (s.tasks k).sections.isEmpty) &&
    (List.range s.nextSpace).all fun x => x ∉ s.standing

theorem gone_of_isGone (hinv : Inv frames s) (h : s.isGone) : s.Gone := by
  rw [isGone, Bool.and_eq_true, Bool.and_eq_true, all_eq_true, all_eq_true, all_eq_true] at h
  obtain ⟨⟨hthr, hhandles⟩, hspcs⟩ := h
  refine ⟨fun t ht => ?_, fun k hk => ?_, fun x hx => ?_⟩
  · exact of_decide_eq_true (hthr t (mem_range.2 ht))
  · exact isEmpty_iff.1 (hhandles k (mem_range.2 hk))
  · exact absurd hx (of_decide_eq_true (hspcs x (mem_range.2 (hinv.books.made x hx))))

/-- A program of one page. -/
def smallElf : Elf := ⟨true, [⟨0x400000, 0x1000⟩]⟩

/-- A process allocates, forks, and the child replaces its image; then both end. -/
def wholeLife : List Act :=
  [.spawnElf smallElf, .brk 0 (brkBase + 0x1800), .mmap 0 0x1000, .fork 0,
    .execve 1 smallElf fun _ => false, .exit 0, .reap 0, .exit 1, .reap 1, .dropTask 0, .dropTask 1]

theorem frames_conserved_wholeLife : ∃ s,
    runAll (guarded step ExecsAlone) (boot (List.range 100)) wholeLife = some s ∧ s.Safe ∧
      s.Gone ∧ s.free.length = (List.range 100).length := by
  have hend : (runAll (guarded step Conserves) (boot (List.range 100)) wholeLife).any isGone := by
    decide +kernel
  obtain ⟨s, hs, hgone⟩ := (any_eq_true _ _).1 hend
  have hrun := runAll_conserves hs
  have hgone := gone_of_isGone (Inv.clean_iff_calls nodup_range hrun).1 hgone
  obtain ⟨hsafe, hfree⟩ := frames_conserved nodup_range hrun
  exact ⟨s, hrun, hsafe, hgone, (hfree hgone).2 hs⟩

/-- A program of two pages, and the pages every PE process gets. -/
def smallPe : Pe where
  staging := [.page 0x140000000, .page 0x140001000] ++
    [0x4000, 0x5000, 0xE000, 0x11000, 0x12000, 0x13000, 0xF000, 0x10000, 0x9000, 0xA000, 0xB000,
      0xD000].map fun offset => .page (0x7FF000000000 + offset)
  pages := [0x1000, 0x2000, 0x3000, 0x6000].map fun offset => some (0x7FF000000000 + offset)

/-- A section of two pages is made and closed before the process ends. -/
def sectionLife : List Act :=
  [.spawnPe smallPe, .createSection 0 0x1800, .closeSection 0 0, .exit 0, .reap 0, .dropTask 0]

/-- One of two threads calls `execve`. -/
def sharedExec : List Act :=
  [.spawnPe smallPe, .spawnThread 0, .execve 0 smallElf fun _ => false]

theorem sectionLife_end : (runAll (guarded step ExecsAlone) (boot (List.range 100)) sectionLife).any
      fun s => s.isGone && s.free.length = 98 := by
  decide +kernel

/-- Another thread runs on the space that `execve` has torn down. -/
def leftBehind (s : System) : Bool :=
  1 < s.nextThread && (s.threads 1).phase = .running && (s.threads 1).cr3 = 0 &&
    0 ∈ Table.walk 4 (s.spaces 0).table && 0 ∈ s.free

theorem sharedExec_end : (runAll step (boot (List.range 100)) sharedExec).any leftBehind := by
  decide +kernel

theorem not_safe_of_leftBehind (h : s.leftBehind) : ¬ s.Safe := by
  simp only [leftBehind, Bool.and_eq_true, decide_eq_true_iff] at h
  obtain ⟨⟨⟨⟨ht, hphase⟩, hcr3⟩, hwalk⟩, hfree⟩ := h
  have hlive : s.Live 0 := ⟨1, ht, by rw [hphase]; exact nofun, .inl hcr3⟩
  exact fun hsafe => hsafe.space 0 hlive 0 hwalk hfree

/-- The two frames of a section never come back, and a thread that another thread's `execve`
leaves behind runs on a PML4 that is on the free list. -/
theorem section_lost_and_exec_unsafe :
    (∃ s, Reach step (boot (List.range 100)) s ∧ s.Gone ∧ s.free.length = 98) ∧
      ∃ s, Reach step (boot (List.range 100)) s ∧ ¬ s.Safe := by
  constructor
  · obtain ⟨s, hs, hboth⟩ := (any_eq_true _ _).1 sectionLife_end
    rw [Bool.and_eq_true, decide_eq_true_iff] at hboth
    have hinv := (Inv.clean_iff_calls nodup_range hs).1
    exact ⟨s, (run_of_guarded (reach_of_runAll hs)).reach, gone_of_isGone hinv hboth.1, hboth.2⟩
  · obtain ⟨s, hs, hleft⟩ := (any_eq_true _ _).1 sharedExec_end
    exact ⟨s, reach_of_runAll hs, not_safe_of_leftBehind hleft⟩

end System

end Thos.Memory
