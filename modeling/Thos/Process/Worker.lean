import Thos.Lib.Run

/-!
# Exit of a worker thread

`NtCreateThreadEx` makes a worker runnable (`spawn_user_pe`) and only then registers the event
that stands for its exit (`register_thread_exit`). `NtTerminateThread` looks the event up: a
worker that finds one signals it and dies, a thread that finds none takes the process down.

Any number of threads create workers and terminate, and the steps of different threads come in
any order. The race is between the registration and the first thing that the worker does: see
`worker_before_registration` for the run that loses it. In every run in which no worker calls
`NtTerminateThread` before it is registered, the event is signalled exactly when the worker
terminates, no worker takes the process down, and no entry is left behind (`worker_exit`).

Memory of the worker (stack, TEB) is left out. The last three fields of the state are not in the
source: the event made for each worker, the handles that were returned, and the threads that set
an exit status.
-/

set_option autoImplicit false

namespace Thos.Process.Worker

open Thos.Lib Function Option

/-! ## State -/

/-- What a handle names; only the events of workers matter here. -/
inductive Object
  | event (ev : Nat)
  | other
  deriving DecidableEq

/-- A `Task`: its handle table, exit status and `exited`. -/
structure Task where
  fds : List (Option Object)
  exitStatus : Option Int32
  exited : Bool
  deriving DecidableEq

/-- `handle_alloc`: the lowest free slot, or a new one. -/
def Task.handleAlloc (k : Task) (obj : Object) : Nat × Task :=
  match k.fds.findIdx? (· = none) with
  | some i => (i, { k with fds := k.fds.set i (some obj) })
  | none => (k.fds.length, { k with fds := k.fds ++ [some obj] })

/-- The step that a thread takes next. -/
inductive Pc
  | absent
  /-- In ring 3, or ready to run there. -/
  | user
  /-- In `NtCreateThreadEx`, before `spawn_user_pe`. -/
  | spawn
  /-- Before `register_thread_exit`. -/
  | register (tid ev : Nat)
  /-- Before `current_alloc_event`. -/
  | handle (tid ev : Nat)
  /-- In `NtTerminateThread`, before the look in `THREAD_EXITS`. -/
  | take (status : Int32)
  /-- Before `ev.signal()`. -/
  | signal (ev : Nat)
  /-- `set_exit_status`, one field after the other. -/
  | setStatus (status : Int32)
  | clearFds
  | setExited
  /-- Before `sched::exit`. -/
  | exit
  | gone
  deriving DecidableEq

/-- `NEXT_TID`, `THREAD_EXITS`, the events, the tasks, and the task and the place of each
thread. -/
structure System where
  (nextTid nextEvent : Nat)
  exits : Nat → Option Nat
  signaled : Nat → Bool
  tasks : Nat → Task
  task : Nat → Nat
  pc : Nat → Pc
  made : Nat → Option Nat
  returned : List (Nat × Nat × Nat)
  ended : List Nat

namespace System

/-- `n` original threads with their tasks. -/
def new (n : Nat) (task : Nat → Nat) (tasks : Nat → Task) : System where
  nextTid := n
  nextEvent := 0
  exits _ := none
  signaled _ := false
  tasks := tasks
  task := task
  pc t := if t < n then .user else .absent
  made _ := none
  returned := []
  ended := []

variable (s : System)

def goto (t : Nat) (p : Pc) : System := { s with pc := update s.pc t p }

def setTask (t : Nat) (k : Task) : System := { s with tasks := update s.tasks (s.task t) k }

/-! ## Steps -/

/-- `spawn_user_pe` by `t`: a thread of the same task becomes runnable. -/
def spawnUserPe (t : Nat) : System :=
  ({ s with
      nextTid := s.nextTid + 1
      nextEvent := s.nextEvent + 1
      task := update s.task s.nextTid (s.task t)
      made := update s.made s.nextTid (some s.nextEvent) }.goto s.nextTid .user).goto t
    (.register s.nextTid s.nextEvent)

/-- `current_alloc_event` and the return of `NtCreateThreadEx`. -/
def allocEvent (t tid ev : Nat) : System :=
  let r := (s.tasks (s.task t)).handleAlloc (.event ev)
  ({ s with returned := s.returned ++ [(tid, r.1, ev)] }.setTask t r.2).goto t .user

/-- The next step of a thread that is in a call. -/
def advance (t : Nat) : Option System :=
  match s.pc t with
  | .absent | .user | .gone => none
  | .spawn => some (s.spawnUserPe t)
  | .register tid ev =>
    some ({ s with exits := update s.exits tid (some ev) }.goto t (.handle tid ev))
  | .handle tid ev => some (s.allocEvent t tid ev)
  | .take status =>
    match s.exits t with
    | some ev => some ({ s with exits := update s.exits t none }.goto t (.signal ev))
    | none => some (s.goto t (.setStatus status))
  | .signal ev => some ({ s with signaled := update s.signaled ev true }.goto t .exit)
  | .setStatus status =>
    some (({ s with ended := t :: s.ended }.setTask t
      { s.tasks (s.task t) with exitStatus := some status }).goto t .clearFds)
  | .clearFds => some ((s.setTask t { s.tasks (s.task t) with fds := [] }).goto t .setExited)
  | .setExited => some ((s.setTask t { s.tasks (s.task t) with exited := true }).goto t .exit)
  | .exit => some (s.goto t .gone)

/-- What can happen. -/
inductive Act
  /-- `NtCreateThreadEx` with this start routine; `0` is refused. -/
  | createThread (t : Nat) (start : UInt64)
  | terminateThread (t : Nat) (status : Int32)
  /-- A thread that is in a call takes its next step. -/
  | next (t : Nat)

def step : Act → Option System
  | .createThread t start =>
    if s.pc t = .user then some (s.goto t (if start = 0 then .user else .spawn)) else none
  | .terminateThread t status => if s.pc t = .user then some (s.goto t (.take status)) else none
  | .next t => s.advance t

end System

namespace Pc

/-- The worker that the thread has made runnable and not registered yet. -/
def registers : Pc → Option (Nat × Nat)
  | .register tid ev => some (tid, ev)
  | _ => none

/-- Alive, and not in `NtTerminateThread`. -/
def Live : Pc → Prop
  | .user | .spawn | .register _ _ | .handle _ _ => True
  | _ => False

/-- Past `ev.signal()` or `set_exit_status`. -/
def Ended : Pc → Prop
  | .exit | .gone => True
  | _ => False

/-- In `set_exit_status`. -/
def Ending : Pc → Prop
  | .setStatus _ | .clearFds | .setExited => True
  | _ => False

theorem Live.not_ending {p : Pc} (h : p.Live) : ¬ p.Ending := by
  cases p <;> first | exact id | exact h.elim

theorem Ending.registers_eq {p : Pc} (h : p.Ending) : p.registers = none := by
  cases p <;> first | rfl | exact h.elim

end Pc

namespace System

/-- The thread that creates `t` has made it runnable and not registered it yet. -/
def Unregistered (s : System) (t : Nat) : Prop :=
  ∃ c < s.nextTid, ((s.pc c).registers.map Prod.fst) = some t

instance (s : System) (t : Nat) : Decidable (s.Unregistered t) :=
  inferInstanceAs (Decidable (∃ c < s.nextTid, _))

/-- `NtTerminateThread` is not called by a worker that is still to be registered. -/
def RegisteredFirst (s : System) : Act → Prop
  | .terminateThread t _ => ¬ s.Unregistered t
  | _ => True

instance (s : System) : ∀ a, Decidable (s.RegisteredFirst a)
  | .terminateThread t _ => inferInstanceAs (Decidable (¬ s.Unregistered t))
  | .createThread _ _ | .next _ => isTrue trivial

/-! ## The life of a worker -/

/-- How far a worker with the event `ev` is. -/
inductive Stage (s : System) (t ev : Nat) : Prop
  | runnable (c : Nat) : (s.pc c).registers = some (t, ev) → (s.pc t).Live → s.exits t = none →
      s.signaled ev = false → Stage s t ev
  | registered : ((s.pc t).Live ∨ ∃ status, s.pc t = .take status) → s.exits t = some ev →
      s.signaled ev = false → Stage s t ev
  | taken : s.pc t = .signal ev → s.exits t = none → s.signaled ev = false → Stage s t ev
  | ended : (s.pc t).Ended → s.exits t = none → s.signaled ev = true → Stage s t ev

/-- Workers are in one of the stages, each with an event of its own, and only original threads
are in `set_exit_status`. -/
structure Inv (s : System) : Prop where
  absent : ∀ t, s.nextTid ≤ t → s.pc t = .absent ∧ s.exits t = none ∧ s.made t = none
  unmade : ∀ ev, s.nextEvent ≤ ev → s.signaled ev = false
  bound : ∀ t ev, s.made t = some ev → ev < s.nextEvent
  own : ∀ t t' ev, s.made t = some ev → s.made t' = some ev → t = t'
  stage : ∀ t ev, s.made t = some ev → Stage s t ev
  original : ∀ t, s.made t = none → s.exits t = none
  creator : ∀ c t ev, (s.pc c).registers = some (t, ev) →
    s.made t = some ev ∧ s.exits t = none ∧ (s.pc t).Live
  once : ∀ c c' t ev ev', (s.pc c).registers = some (t, ev) → (s.pc c').registers = some (t, ev') →
    c = c'
  handles : ∀ c t ev, s.pc c = .handle t ev → s.made t = some ev
  signals : ∀ t ev, s.pc t = .signal ev → s.made t = some ev
  ending : ∀ t, (s.pc t).Ending → s.made t = none
  returned : ∀ r ∈ s.returned, s.made r.1 = some r.2.2
  downs : ∀ t ∈ s.ended, s.made t = none ∧ t < s.nextTid

variable {s s' : System} {t u ev : Nat} {p : Pc}

theorem Stage.frame (h : Stage s u ev) (hpc : s'.pc u = s.pc u ∨ (s.pc u).Live ∧ (s'.pc u).Live)
    (hexits : s'.exits u = s.exits u) (hsignaled : s'.signaled ev = s.signaled ev)
    (hreg : ∀ c, (s.pc c).registers = some (u, ev) → ∃ c', (s'.pc c').registers = some (u, ev)) :
    Stage s' u ev := by
  have hlive : (s.pc u).Live → (s'.pc u).Live := by
    intro hlive
    rcases hpc with hpc | ⟨-, hpc⟩
    · rwa [hpc]
    · exact hpc
  cases h with
  | runnable c hc hpcu hexu hsigu =>
    obtain ⟨c', hc'⟩ := hreg c hc
    exact .runnable c' hc' (hlive hpcu) (hexits.trans hexu) (hsignaled.trans hsigu)
  | registered hpcu hexu hsigu =>
    refine .registered ?_ (hexits.trans hexu) (hsignaled.trans hsigu)
    rcases hpcu with hpcu | ⟨status, hpcu⟩
    · exact .inl (hlive hpcu)
    · rcases hpc with hpc | ⟨-, hpc⟩
      · exact .inr ⟨status, hpc.trans hpcu⟩
      · exact .inl hpc
  | taken hpcu hexu hsigu =>
    rcases hpc with hpc | ⟨hpc, -⟩
    · exact .taken (hpc.trans hpcu) (hexits.trans hexu) (hsignaled.trans hsigu)
    · rw [hpcu] at hpc
      exact hpc.elim
  | ended hpcu hexu hsigu =>
    rcases hpc with hpc | ⟨hpc, -⟩
    · exact .ended (hpc ▸ hpcu) (hexits.trans hexu) (hsignaled.trans hsigu)
    · cases hp : s.pc u <;> simp_all [Pc.Live, Pc.Ended]

theorem goto_self (s : System) (t : Nat) (p : Pc) : (s.goto t p).pc t = p := update_self ..

theorem goto_of_ne (s : System) (p : Pc) (hu : u ≠ t) : (s.goto t p).pc u = s.pc u :=
  update_of_ne hu ..

theorem registers_of_goto (hto : p.registers = none) {c : Nat} {x : Nat × Nat}
    (hc : ((s.goto t p).pc c).registers = some x) : c ≠ t ∧ (s.pc c).registers = some x := by
  have hct : c ≠ t := by
    rintro rfl
    simp [goto_self, hto] at hc
  rw [goto_of_ne s p hct] at hc
  exact ⟨hct, hc⟩

theorem Inv.lt_nextTid (h : Inv s) (ht : s.pc t ≠ .absent) : t < s.nextTid := by
  by_contra hlt
  exact ht (h.absent t (by omega)).1

/-! ## Steps keep the invariant -/

section

variable (h : Inv s)
include h

theorem Inv.change {w : Nat} {exits : Nat → Option Nat} {signaled : Nat → Bool}
    (ht : s.pc t ≠ .absent) (hfrom : ∀ u ev, (s.pc t).registers = some (u, ev) → u = w)
    (hto : p.registers = none) (hlive : ∀ c ev, (s.pc c).registers = some (t, ev) → p.Live)
    (hexits : ∀ u ≠ w, exits u = s.exits u)
    (hdrop : s.made w = none ∨ (∃ c ≠ t, ∃ ev, (s.pc c).registers = some (w, ev)) →
      s.exits w = none → exits w = none)
    (hsignaled : ∀ ev, s.made w ≠ some ev → signaled ev = s.signaled ev)
    (hstage : ∀ ev, s.made w = some ev → Stage ({ s with exits, signaled }.goto t p) w ev)
    (hstay : t = w ∨ (s.pc t).Live ∧ p.Live)
    (hhan : ∀ tid ev, p = .handle tid ev → s.made tid = some ev)
    (hsignal : ∀ ev, p = .signal ev → s.made t = some ev) (hending : p.Ending → s.made t = none) :
    Inv ({ s with exits, signaled }.goto t p) := by
  have hlt := h.lt_nextTid ht
  have hself : ({ s with exits, signaled }.goto t p).pc t = p := goto_self ..
  have hother : ∀ u ≠ t, ({ s with exits, signaled }.goto t p).pc u = s.pc u :=
    fun u hu => goto_of_ne _ p hu
  have hnone : ∀ u, s.made u = none ∨ (∃ c ≠ t, ∃ ev, (s.pc c).registers = some (u, ev)) →
      s.exits u = none → exits u = none := by
    intro u hw hu
    by_cases huw : u = w
    · subst huw
      exact hdrop hw hu
    · rwa [hexits u huw]
  refine { h with
    absent := fun u hu => ?_, unmade := fun ev hev => ?_, stage := fun u ev hu => ?_,
    original := fun u hu => hnone u (.inl hu) (h.original u hu), creator := fun c u ev hc => ?_,
    once := fun c c' u ev ev' hc hc' => ?_, handles := fun c u ev hc => ?_,
    signals := fun u ev hu => ?_, ending := fun u hu => ?_ }
  · have hut : u ≠ t := fun hut => absurd (hut ▸ hu) (not_le.2 hlt)
    obtain ⟨hpcu, hexu, hmadeu⟩ := h.absent u hu
    exact ⟨(hother u hut).trans hpcu, hnone u (.inl hmadeu) hexu, hmadeu⟩
  · have hev' : s.made w ≠ some ev := fun hmade =>
      absurd (h.bound w ev hmade) (not_lt.2 hev)
    exact (hsignaled ev hev').trans (h.unmade ev hev)
  · by_cases huw : u = w
    · subst huw
      exact hstage ev hu
    · have hev' : s.made w ≠ some ev := fun hmade => huw (h.own u w ev hu hmade)
      refine (h.stage u ev hu).frame ?_ (hexits u huw) (hsignaled ev hev') fun c hc => ⟨c, ?_⟩
      · by_cases hut : u = t
        · subst hut
          rw [hself]
          exact .inr (hstay.resolve_left huw)
        · exact .inl (hother u hut)
      · have hct : c ≠ t := by
          rintro rfl
          exact huw (hfrom u ev hc)
        rwa [hother c hct]
  · obtain ⟨hct, hc'⟩ := registers_of_goto hto hc
    obtain ⟨hmadeu, hexu, hliveu⟩ := h.creator c u ev hc'
    refine ⟨hmadeu, hnone u (.inr ⟨c, hct, ev, hc'⟩) hexu, ?_⟩
    by_cases hut : u = t
    · subst hut
      rw [hself]
      exact hlive c ev hc'
    · rwa [hother u hut]
  · exact h.once c c' u ev ev' (registers_of_goto hto hc).2 (registers_of_goto hto hc').2
  · by_cases hct : c = t
    · subst hct
      exact hhan u ev (hself.symm.trans hc)
    · exact h.handles c u ev ((hother c hct).symm.trans hc)
  · by_cases hut : u = t
    · subst hut
      exact hsignal ev (hself.symm.trans hu)
    · exact h.signals u ev ((hother u hut).symm.trans hu)
  · by_cases hut : u = t
    · subst hut
      exact hending (hself ▸ hu)
    · exact h.ending u (hother u hut ▸ hu)

theorem Inv.goto_live (hfrom : (s.pc t).registers = none) (hto : p.registers = none)
    (hlive : (s.pc t).Live) (hlive' : p.Live) (hhan : ∀ tid ev, p ≠ .handle tid ev) :
    Inv (s.goto t p) := by
  refine h.change ?_ (by simp [hfrom]) hto (fun _ _ _ => hlive') (fun _ _ => rfl) (fun _ => id)
    (fun _ _ => rfl) (fun ev hev => ?_) (.inl rfl) (fun a b hp => absurd hp (hhan a b)) ?_ ?_
  · rintro habsent
    exact (habsent ▸ hlive : Pc.Live .absent)
  · refine (h.stage t ev hev).frame (.inr ⟨hlive, ?_⟩) rfl rfl fun c hc => ⟨c, ?_⟩
    · rwa [goto_self]
    · rwa [goto_of_ne]
      rintro rfl
      simp [hfrom] at hc
  · rintro ev rfl
    exact hlive'.elim
  · intro hending
    exact absurd hending hlive'.not_ending

theorem Inv.goto_original (hmade : s.made t = none) (ht : s.pc t ≠ .absent)
    (hfrom : (s.pc t).registers = none) (hto : p.registers = none)
    (hhan : ∀ tid ev, p ≠ .handle tid ev) (hsignal : ∀ ev, p ≠ .signal ev) : Inv (s.goto t p) :=
  h.change ht (by simp [hfrom]) hto
    (fun c ev hc => by simpa [hmade] using (h.creator c t ev hc).1)
    (fun _ _ => rfl) (fun _ => id) (fun _ _ => rfl) (fun ev hev => by simp [hmade] at hev)
    (.inl rfl) (fun a b hp => absurd hp (hhan a b)) (fun ev hp => absurd hp (hsignal ev))
    fun _ => hmade

theorem Inv.terminate (hpc : s.pc t = .user) (hreg : ¬ s.Unregistered t)
    (status : Int32) : Inv (s.goto t (.take status)) := by
  -- a creator that is still to register it
  have hnobody : ∀ c ev, (s.pc c).registers ≠ some (t, ev) := by
    intro c ev hc
    refine hreg ⟨c, h.lt_nextTid fun habsent => ?_, ?_⟩
    · simp [habsent, Pc.registers] at hc
    · rw [hc]
      rfl
  refine h.change (by simp [hpc]) (by simp [hpc, Pc.registers]) rfl
    (fun c ev hc => absurd hc (hnobody c ev)) (fun _ _ => rfl) (fun _ => id) (fun _ _ => rfl)
    (fun ev hev => ?_) (.inl rfl) nofun nofun nofun
  cases h.stage t ev hev with
  | runnable c hc => exact absurd hc (hnobody c ev)
  | registered hlive hexits hsignaled =>
    exact .registered (.inr ⟨status, goto_self ..⟩) hexits hsignaled
  | taken hpc' => simp [hpc] at hpc'
  | ended hpc' => simp [hpc, Pc.Ended] at hpc'

theorem Inv.made_of_exits (hexits : s.exits t = some ev) : s.made t = some ev := by
  cases hmade : s.made t with
  | none => simp [h.original t hmade] at hexits
  | some ev' =>
    cases h.stage t ev' hmade with
    | registered _ hexits' => rw [← hexits, ← hexits']
    | runnable _ _ _ hexits' | taken _ hexits' | ended _ hexits' => simp [hexits] at hexits'

theorem Inv.not_registers (hpc : ¬ (s.pc t).Live) (c ev : Nat) :
    (s.pc c).registers ≠ some (t, ev) :=
  fun hc => hpc (h.creator c t ev hc).2.2

theorem Inv.take {status : Int32} (hpc : s.pc t = .take status) (hexits : s.exits t = some ev) :
    Inv ({ s with exits := update s.exits t none }.goto t (.signal ev)) := by
  have hmade := h.made_of_exits hexits
  refine h.change (by simp [hpc]) (by simp [hpc, Pc.registers]) rfl
    (fun c ev hc => absurd hc (h.not_registers (by simp [hpc, Pc.Live]) c ev))
    (fun u hu => update_of_ne hu ..) (fun _ _ => update_self ..) (fun _ _ => rfl)
    (fun ev' hev => ?_) (.inl rfl) nofun (fun ev' hp => Pc.signal.inj hp ▸ hmade) nofun
  obtain rfl : ev = ev' := some.inj (hmade.symm.trans hev)
  cases h.stage t ev hev with
  | registered _ _ hsignaled => exact .taken (goto_self ..) (update_self ..) hsignaled
  | runnable _ _ _ hexits' | taken _ hexits' | ended _ hexits' => simp [hexits] at hexits'

theorem Inv.signal (hpc : s.pc t = .signal ev) :
    Inv ({ s with signaled := update s.signaled ev true }.goto t .exit) := by
  have hmade := h.signals t ev hpc
  refine h.change (by simp [hpc]) (by simp [hpc, Pc.registers]) rfl
    (fun c ev hc => absurd hc (h.not_registers (by simp [hpc, Pc.Live]) c ev)) (fun _ _ => rfl)
    (fun _ => id) (fun ev' hev => update_of_ne ?_ ..) (fun ev' hev => ?_) (.inl rfl)
    nofun nofun nofun
  · rintro rfl
    exact hev hmade
  · obtain rfl : ev = ev' := some.inj (hmade.symm.trans hev)
    cases h.stage t ev hev with
    | taken _ hexits => exact .ended (by rw [goto_self]; trivial) hexits (update_self ..)
    | runnable _ _ hlive | registered hlive => simp [hpc, Pc.Live] at hlive
    | ended hended => simp [hpc, Pc.Ended] at hended

theorem Inv.exit (hpc : s.pc t = .exit) : Inv (s.goto t .gone) := by
  refine h.change (by simp [hpc]) (by simp [hpc, Pc.registers]) rfl
    (fun c ev hc => absurd hc (h.not_registers (by simp [hpc, Pc.Live]) c ev)) (fun _ _ => rfl)
    (fun _ => id) (fun _ _ => rfl) (fun ev hev => ?_) (.inl rfl) nofun nofun nofun
  cases h.stage t ev hev with
  | ended _ hexits hsignaled => exact .ended (by rw [goto_self]; trivial) hexits hsignaled
  | runnable _ _ hlive | registered hlive => simp [hpc, Pc.Live] at hlive
  | taken hpc' => simp [hpc] at hpc'

theorem Inv.goto_ending (hpc : (s.pc t).Ending) (hto : p.registers = none)
    (hhan : ∀ tid ev, p ≠ .handle tid ev) (hsignal : ∀ ev, p ≠ .signal ev) : Inv (s.goto t p) := by
  refine h.goto_original (h.ending t hpc) ?_ hpc.registers_eq hto hhan hsignal
  intro habsent
  exact (habsent ▸ hpc : Pc.Ending .absent)

theorem Inv.register {tid : Nat} (hpc : s.pc t = .register tid ev) :
    Inv ({ s with exits := update s.exits tid (some ev) }.goto t (.handle tid ev)) := by
  have hregisters : (s.pc t).registers = some (tid, ev) := by rw [hpc]; rfl
  obtain ⟨hmade, -, hlivetid⟩ := h.creator t tid ev hregisters
  refine h.change (w := tid) (by simp [hpc]) (fun u ev' hu => ?_) rfl (fun _ _ _ => trivial)
    (fun u hu => update_of_ne hu ..) (fun hw => ?_) (fun _ _ => rfl) (fun ev' hev => ?_)
    (.inr ⟨by rw [hpc]; trivial, trivial⟩) (fun tid' ev' hp => ?_) nofun nofun
  · exact congrArg Prod.fst (some.inj (hu.symm.trans hregisters))
  · rcases hw with hnone | ⟨c, hct, ev', hc⟩
    · simp [hmade] at hnone
    · -- nobody else registers the same worker
      exact absurd (h.once c t tid ev' ev hc hregisters) hct
  · obtain rfl : ev = ev' := some.inj (hmade.symm.trans hev)
    refine .registered (.inl ?_) (update_self ..) ?_
    · by_cases hut : tid = t
      · rw [hut, goto_self]
        trivial
      · rwa [goto_of_ne _ _ hut]
    · cases h.stage tid ev hev with
      | runnable _ _ _ _ hsignaled | registered _ _ hsignaled | taken _ _ hsignaled =>
        exact hsignaled
      | ended hended => cases hp : s.pc tid <;> simp_all [Pc.Live, Pc.Ended]
  · cases hp
    exact hmade

theorem Inv.spawn (hpc : s.pc t = .spawn) : Inv (s.spawnUserPe t) := by
  obtain ⟨hnew, hexits, hmade⟩ := h.absent s.nextTid le_rfl
  have hlt := h.lt_nextTid (t := t) (by simp [hpc])
  have hlivet : (s.pc t).Live := by rw [hpc]; trivial
  have hself : (s.spawnUserPe t).pc t = .register s.nextTid s.nextEvent := update_self ..
  have hwork : (s.spawnUserPe t).pc s.nextTid = .user :=
    (update_of_ne hlt.ne' ..).trans (update_self ..)
  have hcases : ∀ u, u = t ∨ u = s.nextTid ∨ (s.spawnUserPe t).pc u = s.pc u := by
    intro u
    by_cases hut : u = t
    · exact .inl hut
    · exact .inr (or_iff_not_imp_left.2 fun hun =>
        (update_of_ne hut ..).trans (update_of_ne hun ..))
  have hmadeof : ∀ u, (s.spawnUserPe t).made u = if u = s.nextTid then some s.nextEvent
      else s.made u := fun u => update_apply ..
  have hkept : ∀ u ev, (s.spawnUserPe t).made u = some ev ↔
      u = s.nextTid ∧ s.nextEvent = ev ∨ s.made u = some ev := by
    intro u ev
    rw [hmadeof]
    split_ifs with hun <;> simp [hun, hmade]
  have hlive : ∀ u, (s.pc u).Live → ((s.spawnUserPe t).pc u).Live := by
    intro u hu
    rcases hcases u with rfl | rfl | heq
    · rw [hself]
      trivial
    · rw [hwork]
      trivial
    · rwa [heq]
  -- the new registration, or one that was under way
  have hregisters : ∀ c u ev, ((s.spawnUserPe t).pc c).registers = some (u, ev) ↔
      c = t ∧ s.nextTid = u ∧ s.nextEvent = ev ∨ (s.pc c).registers = some (u, ev) := by
    intro c u ev
    rcases hcases c with rfl | rfl | heq
    · simp [hself, hpc, Pc.registers]
    · simp [hwork, hnew, hlt.ne', Pc.registers]
    · rw [heq, or_iff_right]
      rintro ⟨rfl, -⟩
      cases hpc.symm.trans (heq.symm.trans hself)
  have hfresh : ∀ c ev, (s.pc c).registers ≠ some (s.nextTid, ev) := fun c ev hc => by
    simpa [hmade] using (h.creator c _ ev hc).1
  refine ⟨fun u hu => ?_, fun ev hev => ?_, fun u ev hu => ?_, fun u u' ev hu hu' => ?_,
    fun u ev hu => ?_, fun u hu => ?_, fun c u ev hc => ?_, fun c c' u ev ev' hc hc' => ?_,
    fun c u ev hc => ?_, fun u ev hu => ?_, fun u hu => ?_, fun r hr => ?_, fun u hu => ?_⟩
  · have hu : s.nextTid < u := hu
    obtain ⟨hpcu, hexu, hmadeu⟩ := h.absent u hu.le
    rcases hcases u with rfl | rfl | heq
    · omega
    · omega
    · exact ⟨heq.trans hpcu, hexu, by rw [hmadeof, if_neg hu.ne', hmadeu]⟩
  · exact h.unmade ev (Nat.le_of_succ_le hev)
  · rcases (hkept u ev).1 hu with ⟨-, rfl⟩ | hu
    · exact Nat.lt_succ_self _
    · exact (h.bound u ev hu).trans (Nat.lt_succ_self _)
  · -- an event below the counter is not the new one
    rcases (hkept u ev).1 hu with ⟨rfl, rfl⟩ | hu <;>
      rcases (hkept u' _).1 hu' with ⟨rfl, hev⟩ | hu'
    · rfl
    · exact absurd (h.bound u' _ hu') (lt_irrefl _)
    · exact absurd (h.bound u _ hu) (hev ▸ lt_irrefl _)
    · exact h.own u u' ev hu hu'
  · rcases (hkept u ev).1 hu with ⟨rfl, rfl⟩ | hu
    · exact .runnable t (by rw [hself]; rfl) (by rw [hwork]; trivial) hexits (h.unmade _ le_rfl)
    · refine (h.stage u ev hu).frame ?_ rfl rfl fun c hc => ⟨c, (hregisters c u ev).2 (.inr hc)⟩
      rcases hcases u with rfl | rfl | heq
      · exact .inr ⟨hlivet, hlive u hlivet⟩
      · simp [hmade] at hu
      · exact .inl heq
  · rw [hmadeof] at hu
    split_ifs at hu
    exact h.original u hu
  · rcases (hregisters c u ev).1 hc with ⟨-, rfl, rfl⟩ | hc'
    · exact ⟨(hkept _ _).2 (.inl ⟨rfl, rfl⟩), hexits, by rw [hwork]; trivial⟩
    · obtain ⟨hmadeu, hexu, hliveu⟩ := h.creator c u ev hc'
      exact ⟨(hkept u ev).2 (.inr hmadeu), hexu, hlive u hliveu⟩
  · rcases (hregisters c u ev).1 hc with ⟨rfl, rfl, -⟩ | hold <;>
      rcases (hregisters c' _ ev').1 hc' with ⟨rfl, hu, -⟩ | hold'
    · rfl
    · exact absurd hold' (hfresh c' ev')
    · exact absurd (hu ▸ hold) (hfresh c ev)
    · exact h.once c c' u ev ev' hold hold'
  · rcases hcases c with rfl | rfl | heq
    · cases hself.symm.trans hc
    · cases hwork.symm.trans hc
    · exact (hkept u ev).2 (.inr (h.handles c u ev (heq.symm.trans hc)))
  · rcases hcases u with rfl | rfl | heq
    · cases hself.symm.trans hu
    · cases hwork.symm.trans hu
    · exact (hkept u ev).2 (.inr (h.signals u ev (heq.symm.trans hu)))
  · rcases hcases u with rfl | rfl | heq
    · rw [hself] at hu
      exact hu.elim
    · rw [hwork] at hu
      exact hu.elim
    · rw [heq] at hu
      rw [hmadeof, if_neg, h.ending u hu]
      rintro rfl
      rwa [hnew] at hu
  · exact (hkept _ _).2 (.inr (h.returned r hr))
  · obtain ⟨hmadeu, hltu⟩ := h.downs u hu
    exact ⟨by rw [hmadeof, if_neg hltu.ne, hmadeu], hltu.trans (Nat.lt_succ_self _)⟩

theorem Inv.record (tasks : Nat → Task) {returned : List (Nat × Nat × Nat)}
    {ended : List Nat} (hret : ∀ r ∈ returned, s.made r.1 = some r.2.2)
    (hended : ∀ t ∈ ended, s.made t = none ∧ t < s.nextTid) :
    Inv { s with tasks, returned, ended } :=
  { h with
    stage := fun t ev ht => (h.stage t ev ht).frame (.inl rfl) rfl rfl fun c hc => ⟨c, hc⟩
    returned := hret
    downs := hended }

end

theorem inv_new (n : Nat) (task : Nat → Nat) (tasks : Nat → Task) : Inv (new n task tasks) := by
  have hpc : ∀ t, (new n task tasks).pc t = .user ∨ (new n task tasks).pc t = .absent := by
    intro t
    by_cases ht : t < n
    · exact .inl (if_pos ht)
    · exact .inr (if_neg ht)
  refine ⟨fun t ht => ⟨if_neg (not_lt.2 ht), rfl, rfl⟩, fun _ _ => rfl, nofun, nofun, nofun,
    fun _ _ => rfl, fun c t ev hc => ?_, fun c c' t ev ev' hc _ => ?_, fun c t ev hc => ?_,
    fun t ev ht => ?_, fun t ht => ?_, nofun, nofun⟩
  · rcases hpc c with h | h <;> simp [h, Pc.registers] at hc
  · rcases hpc c with h | h <;> simp [h, Pc.registers] at hc
  · rcases hpc c with h | h <;> simp [h] at hc
  · rcases hpc t with h | h <;> simp [h] at ht
  · rcases hpc t with h | h
    · exact (h ▸ ht : Pc.Ending .user).elim
    · exact (h ▸ ht : Pc.Ending .absent).elim

theorem advance_inv (h : Inv s) (hs : s.advance t = some s') : Inv s' := by
  unfold advance at hs
  split at hs
  case h_1 => cases hs
  case h_2 => cases hs
  case h_3 => cases hs
  case h_4 hpc =>
    cases hs
    exact h.spawn hpc
  case h_5 tid ev hpc =>
    cases hs
    exact h.register hpc
  case h_6 tid ev hpc =>
    cases hs
    have hret : ∀ r ∈ s.returned ++ [(tid,
        ((s.tasks (s.task t)).handleAlloc (.event ev)).1, ev)], s.made r.1 = some r.2.2 :=
      List.forall_mem_append.2
        ⟨h.returned, List.forall_mem_singleton.2 (h.handles t tid ev hpc)⟩
    exact (h.record _ hret h.downs).goto_live (show (s.pc t).registers = none by rw [hpc]; rfl)
      rfl (show (s.pc t).Live by rw [hpc]; trivial) trivial nofun
  case h_7 status hpc =>
    split at hs
    · rename_i ev hexits
      cases hs
      exact h.take hpc hexits
    · rename_i hexits
      cases hs
      -- a worker would have found its entry
      have hmade : s.made t = none := by
        cases hmade : s.made t with
        | none => rfl
        | some ev =>
          cases h.stage t ev hmade with
          | registered _ hexits' => simp [hexits] at hexits'
          | runnable _ _ hlive => simp [hpc, Pc.Live] at hlive
          | taken hpc' => simp [hpc] at hpc'
          | ended hended => simp [hpc, Pc.Ended] at hended
      exact h.goto_original hmade (by simp [hpc]) (by simp [hpc, Pc.registers]) rfl nofun nofun
  case h_8 ev hpc =>
    cases hs
    exact h.signal hpc
  case h_9 status hpc =>
    cases hs
    have hending : (s.pc t).Ending := by rw [hpc]; trivial
    have hended : ∀ u ∈ t :: s.ended, s.made u = none ∧ u < s.nextTid :=
      List.forall_mem_cons.2 ⟨⟨h.ending t hending, h.lt_nextTid (by simp [hpc])⟩, h.downs⟩
    exact (h.record _ h.returned hended).goto_ending hending rfl nofun nofun
  case h_10 hpc | h_11 hpc =>
    cases hs
    exact (h.record _ h.returned h.downs).goto_ending (show (s.pc t).Ending by rw [hpc]; trivial)
      rfl nofun nofun
  case h_12 hpc =>
    cases hs
    exact h.exit hpc

theorem step_inv {a : Act} (h : Inv s) (hok : s.RegisteredFirst a) (hs : s.step a = some s') :
    Inv s' := by
  cases a with
  | createThread t start =>
    obtain ⟨hpc, ⟨⟩⟩ := ite_none_right_eq_some.1 hs
    have hfrom : (s.pc t).registers = none := by rw [hpc]; rfl
    have hlive : (s.pc t).Live := by rw [hpc]; trivial
    split
    · exact h.goto_live hfrom rfl hlive trivial nofun
    · exact h.goto_live hfrom rfl hlive trivial nofun
  | terminateThread t status =>
    obtain ⟨hpc, ⟨⟩⟩ := ite_none_right_eq_some.1 hs
    exact h.terminate hpc hok status
  | next t => exact advance_inv h hs

/-! ## What follows for a worker -/

/-- The event is signalled exactly when the worker has terminated, no entry is left then, the
worker did not set an exit status, and every handle returned for it names that event. -/
structure ExitsAlone (s : System) (t ev : Nat) : Prop where
  signaled : s.signaled ev = true ↔ (s.pc t).Ended
  entry : (s.pc t).Ended → s.exits t = none
  alone : t ∉ s.ended ∧ ¬ (s.pc t).Ending
  handle : ∀ h ev', (t, h, ev') ∈ s.returned → ev' = ev

/-- In every run in which no worker calls `NtTerminateThread` before it is registered, every
worker terminates as its creator expects. -/
theorem worker_exit (n : Nat) (task : Nat → Nat) (tasks : Nat → Task)
    (h : Run step RegisteredFirst (new n task tasks) s) (t ev : Nat) (hmade : s.made t = some ev) :
    ExitsAlone s t ev := by
  have hinv : Inv s :=
    h.invariant (fun _ _ _ hi hok hs => step_inv hi hok hs) (inv_new n task tasks)
  have hnotEnded : ∀ {p : Pc}, p.Live → ¬ p.Ended := by
    intro p hlive hended
    cases p <;> simp_all [Pc.Live, Pc.Ended]
  refine ⟨?_, fun hended => ?_, ⟨fun hmem => ?_, fun hending => ?_⟩, fun h ev' hr => ?_⟩
  · cases hinv.stage t ev hmade with
    | runnable _ _ hlive _ hsignaled => simp [hsignaled, hnotEnded hlive]
    | registered hpc _ hsignaled =>
      rcases hpc with hlive | ⟨status, hpc⟩
      · simp [hsignaled, hnotEnded hlive]
      · simp [hsignaled, hpc, Pc.Ended]
    | taken hpc _ hsignaled => simp [hsignaled, hpc, Pc.Ended]
    | ended hended _ hsignaled => simp [hsignaled, hended]
  · cases hinv.stage t ev hmade with
    | runnable _ _ _ hexits | taken _ hexits | ended _ hexits => exact hexits
    | registered hpc =>
      rcases hpc with hlive | ⟨status, hpc⟩
      · exact absurd hended (hnotEnded hlive)
      · simp [hpc, Pc.Ended] at hended
  · exact absurd (hinv.downs t hmem).1 (by simp [hmade])
  · exact absurd (hinv.ending t hending) (by simp [hmade])
  · exact some.inj ((hinv.returned _ hr).symm.trans hmade)

/-! ### Two runs -/

/-- One process with its original thread. -/
def oneProcess : System := new 1 (fun _ => 0) fun _ => ⟨[], none, false⟩

/-- The worker terminates after its creator has returned. -/
def registeredFirst : List Act :=
  [.createThread 0 0x1000, .next 0, .next 0, .next 0, .terminateThread 1 0, .next 1, .next 1,
    .next 1]

theorem worker_exit_registered :
    ∃ s, Run step RegisteredFirst oneProcess s ∧ s.made 1 = some 0 ∧ s.pc 1 = .gone ∧
      ExitsAlone s 1 0 := by
  obtain ⟨s, hreach, hmade, hgone⟩ : ∃ s, Run step RegisteredFirst oneProcess s ∧
      s.made 1 = some 0 ∧ s.pc 1 = .gone := exists_run registeredFirst (by decide +kernel)
  exact ⟨s, hreach, hmade, hgone, worker_exit 1 _ _ hreach 1 0 hmade⟩

/-- The worker terminates on another CPU before its creator comes to the registration. -/
def terminatedFirst : List Act :=
  [.createThread 0 0x1000, .next 0, .terminateThread 1 7, .next 1, .next 1, .next 1, .next 1,
    .next 1, .next 0, .next 0]

/-- The worker finds no event: it sets the exit status of the process and closes its handles. Its
event is never signalled, and its entry is registered after it is gone. -/
theorem worker_before_registration :
    ∃ s, Reach step oneProcess s ∧ s.made 1 = some 0 ∧ s.pc 1 = .gone ∧ s.signaled 0 = false ∧
      s.exits 1 = some 0 ∧ 1 ∈ s.ended ∧ (s.tasks 0).exitStatus = some 7 ∧ ¬ ExitsAlone s 1 0 := by
  obtain ⟨s, hreach, hmade, hgone, hsignaled, hexits, hended, hstatus⟩ :
      ∃ s, Reach step oneProcess s ∧ s.made 1 = some 0 ∧ s.pc 1 = .gone ∧ s.signaled 0 = false ∧
          s.exits 1 = some 0 ∧ 1 ∈ s.ended ∧ (s.tasks 0).exitStatus = some 7 :=
          exists_reach terminatedFirst (by decide +kernel)
  exact ⟨s, hreach, hmade, hgone, hsignaled, hexits, hended, hstatus,
    fun halone => halone.alone.1 hended⟩

end System

end Thos.Process.Worker
