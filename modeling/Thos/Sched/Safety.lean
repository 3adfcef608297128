import Thos.Sched.Places

/-!
# Safety of the scheduler

What holds in every state the CPUs can reach, whatever the order of their steps. Each
property is read off the places: a thread that is current on a CPU is in the place
`on`, and it is in one place only.

A wakeup is not lost: from the end of an `unblock` that started after the thread's
last `mark_blocking`, the thread is not parked, and it stays so until it marks itself
blocking again.
-/

set_option autoImplicit false

namespace Thos.Sched

open Thos.Lib Place Option
open Function (update update_apply update_of_ne)

variable {n : Nat}

/-! ## Start -/

/-- After `init_bsp`: the boot thread runs on CPU 0, whose idle thread is made; the
other CPUs have not entered the scheduler. -/
def boot (n : Nat) : Inner (n + 1) where
  threads t := if t = .user 0 then ⟨.running, true, false⟩ else ⟨.ready, false, false⟩
  ready := []
  cpus c := if c = 0 then ⟨some (.user 0), none, .run⟩ else ⟨none, none, .off⟩
  graveyard := []
  nextTid := 1
  phantomsDropped := 0
  waking := []
  freed := []

/-- Places at the start. -/
def bootPlace (n : Nat) : Tid (n + 1) → Place (n + 1)
  | .user 0 => .on 0
  | .user _ => .unborn
  | .idle c => if c = 0 then .parked else .unborn

theorem placed_boot (n : Nat) : Placed (boot n) (bootPlace n) where
  current c t := by
    by_cases hc : c = 0
    · subst hc
      rcases t with d | _ | id <;> simp [boot, bootPlace]
      split_ifs <;> simp
    · rcases t with d | _ | id <;> simp [boot, bootPlace, hc] <;> grind
  handoff c t b := by
    by_cases hc : c = 0 <;> rcases t with d | _ | id <;> simp [boot, bootPlace, hc] <;>
      split_ifs <;> simp
  ready t := by
    rcases t with d | _ | id <;> simp [boot, bootPlace]
    split_ifs <;> simp
  nodup := List.nodup_nil
  state id st hst := by
    cases id with
    | zero => simpa [boot, bootPlace, state] using hst
    | succ id => simp [bootPlace, state] at hst
  running t := by
    rcases t with d | _ | id <;> simp [boot, bootPlace, running]
    split_ifs <;> rfl
  idle c := by
    by_cases hc : c = 0 <;> simp [bootPlace, hc]
  unborn id := by
    cases id <;> simp [boot, bootPlace]
  slot c := by
    by_cases hc : c = 0 <;> simp [boot, hc, CpuSlot.Ok]
  graveyard t ht := by simp [boot] at ht
  freed t ht := by simp [boot] at ht
  waking t ht := by simp [boot] at ht
  noPhantom := rfl

theorem exists_placed {s : Inner (n + 1)} (h : Reach step (boot n) s) : ∃ P, Placed s P := by
  have hkeep : ∀ (s : Inner (n + 1)) (a : Act (n + 1)) (s' : Inner (n + 1)), (∃ P, Placed s P) →
      True → step s a = some s' → ∃ P, Placed s' P := by
    rintro s a s' ⟨P, hP⟩ - hstep
    obtain ⟨P', hP', -⟩ := hP.step hstep
    exact ⟨P', hP'⟩
  exact h.invariant hkeep ⟨bootPlace n, placed_boot n⟩

/-! ## Safe states -/

/-- The safety of one state. -/
structure Safe (s : Inner n) : Prop where
  /-- A thread is current on at most one CPU. -/
  oneCpu : ∀ t c d, (s.cpus c).current = some t → (s.cpus d).current = some t → c = d
  /-- Two CPUs are never on one stack. -/
  oneStack : ∀ t c d, s.onStack c = some t → s.onStack d = some t → c = d
  /-- A CPU that is about to resume a thread finds no CPU on its stack. -/
  resumeAlone : ∀ c d prev next, (s.cpus c).phase = .claimed prev next → s.onStack d ≠ some next
  readyNodup : s.ready.Nodup
  /-- The queue holds ready threads that no CPU runs. -/
  readyOk : ∀ t ∈ s.ready, (s.threads t).state = .ready ∧ (s.threads t).running = false ∧
    ∀ c, (s.cpus c).current ≠ some t
  /-- `pick_next` has discarded nothing. -/
  noPhantom : s.phantomsDropped = 0
  /-- An exited thread is not current, so no CPU is about to resume it. -/
  exitedOff : ∀ id, (s.threads (.user id)).state = .exited → ∀ c,
    (s.cpus c).current ≠ some (.user id)
  /-- A freed stack belongs to an exited thread whose `running` is clear, and no CPU is
  on it. -/
  freedOff : ∀ t ∈ s.freed, (s.threads t).running = false ∧ (∀ id, t = .user id →
    (s.threads t).state = .exited) ∧ ∀ c, s.onStack c ≠ some t

variable {s : Inner n} {P : Tid n → Place n}

theorem Placed.onStack (h : Placed s P) {c : Fin n} {t : Tid n} (ht : s.onStack c = some t) :
    (P t = .on c ∧ ((s.cpus c).phase = .run ∨ (s.cpus c).phase = .landed)) ∨
      ∃ w, P t = .handed c w := by
  have hslot := h.slot c
  have hcur := h.current c t
  unfold Inner.onStack at ht
  unfold CpuSlot.Ok at hslot
  split at ht
  · cases ht
  · exact .inl ⟨hcur.1 ht, .inl ‹_›⟩
  · exact .inl ⟨hcur.1 ht, .inr ‹_›⟩
  all_goals
    rename_i prev next hphase
    cases ht
    rw [hphase] at hslot
    obtain ⟨⟨u, b⟩, hb, rfl⟩ := map_eq_some_iff.1 hslot.2
    obtain ⟨w, hw, -⟩ := (h.handoff c u b).1 hb
    exact .inr ⟨w, hw⟩

theorem Placed.safe (h : Placed s P) : Safe s where
  __ := h
  oneCpu t c d hc hd := by
    rw [h.current] at hc hd
    cases hc ▸ hd
    rfl
  oneStack t c d hc hd := by
    rcases h.onStack hc with ⟨hc, -⟩ | ⟨w, hc⟩ <;> rcases h.onStack hd with ⟨hd, -⟩ | ⟨w', hd⟩ <;>
      rw [hc] at hd <;> cases hd <;> rfl
  resumeAlone c d prev next hphase hd := by
    have hslot := h.slot c
    rw [CpuSlot.Ok, hphase] at hslot
    have hnext : P next = .on c := (h.current c next).1 hslot.1
    rcases h.onStack hd with ⟨hd, hrun⟩ | ⟨w, hd⟩
    · cases hnext ▸ hd
      rw [hphase] at hrun
      rcases hrun with hrun | hrun <;> cases hrun
    · cases hnext ▸ hd
  readyNodup := h.nodup
  readyOk t ht := by
    have hstale := h.not_stale ((h.ready t).1 ht)
    have hrun := h.running t
    rw [(h.ready t).1 ht] at hrun
    refine ⟨?_, hrun, fun c hc => ?_⟩
    · cases t with
      | idle c =>
        rcases h.idle c with hi | hi | hi | hi <;> rw [(h.ready _).1 ht] at hi <;> cases hi
      | user id => exact h.state id .ready (by rw [(h.ready _).1 ht]; rfl)
    · rw [h.current, (h.ready t).1 ht] at hc
      cases hc
  exitedOff id hexit c hc := by
    have hrunning := h.state id .running (by rw [(h.current c _).1 hc]; rfl)
    cases hexit ▸ hrunning
  freedOff t ht := by
    have hdead := h.freed t ht
    refine ⟨by rw [h.running, hdead]; rfl, ?_, fun c hc => ?_⟩
    · rintro id rfl
      exact h.state id .exited (by rw [hdead]; rfl)
    · rcases h.onStack hc with ⟨hc, -⟩ | ⟨w, hc⟩ <;> rw [hdead] at hc <;> cases hc

/-! ## Threads that have exited -/

variable {id : Nat}

theorem Placed.state_eq (h : Placed s P) (hid : id < s.nextTid) :
    (P (.user id)).state = some (s.threads (.user id)).state := by
  have hborn : P (.user id) ≠ .unborn := fun hu => absurd ((h.unborn id).1 hu) (by omega)
  obtain ⟨st, hst⟩ : ∃ st, (P (.user id)).state = some st := by
    cases hp : P (.user id) with
    | unborn => exact absurd hp hborn
    | handed c w => cases w <;> exact ⟨_, rfl⟩
    | _ => exact ⟨_, rfl⟩
  rw [hst, h.state id st hst]

theorem Place.state_eq_exited {p : Place n} :
    p.state = some .exited ↔ p = .dead ∨ ∃ c, p = .handed c .exited := by
  cases p with
  | handed c w => cases w <;> simp [state]
  | _ => simp [state]

theorem Place.state_eq_blocked {p : Place n} :
    p.state = some .blocked ↔ p = .parked ∨ ∃ c, p = .handed c .blocked := by
  cases p with
  | handed c w => cases w <;> simp [state]
  | _ => simp [state]

theorem Placed.exited_iff (h : Placed s P) (hid : id < s.nextTid) :
    (s.threads (.user id)).state = .exited ↔
      P (.user id) = .dead ∨ ∃ c, P (.user id) = .handed c .exited := by
  rw [← state_eq_exited, h.state_eq hid, some.injEq]

variable {s' : Inner n} {a : Act n}

theorem Placed.nextTid_le {P' : Tid n → Place n} (h : Placed s P) (h' : Placed s' P')
    (hmoves : Moves s a P P') : s.nextTid ≤ s'.nextTid := by
  by_contra hlt
  -- the newest thread would be unborn again
  have hback := (h'.unborn s'.nextTid).2 le_rfl
  have hborn : P (.user s'.nextTid) ≠ .unborn := fun hu =>
    absurd ((h.unborn _).1 hu) (by omega)
  rcases hmoves s'.nextTid with heq | hmove
  · exact hborn (heq.symm.trans hback)
  · exact hmove.ne_unborn hback

theorem exited_stays (h : Placed s P) (hid : id < s.nextTid)
    (hexit : (s.threads (.user id)).state = .exited) (hrun : Reach step s s') :
    (s'.threads (.user id)).state = .exited := by
  have hkeep : ∀ (s : Inner n) (a : Act n) (s' : Inner n),
      (∃ P, Placed s P ∧ id < s.nextTid ∧ (s.threads (.user id)).state = .exited) → True →
      step s a = some s' →
      ∃ P, Placed s' P ∧ id < s'.nextTid ∧ (s'.threads (.user id)).state = .exited := by
    rintro s a s' ⟨P, hP, hid, hexit⟩ - hstep
    obtain ⟨P', hP', hmoves⟩ := hP.step hstep
    have hid' : id < s'.nextTid := lt_of_lt_of_le hid (hP.nextTid_le hP' hmoves)
    refine ⟨P', hP', hid', (hP'.exited_iff hid').2 ?_⟩
    have hplace := (hP.exited_iff hid).1 hexit
    rcases hmoves id with heq | hmove
    · rwa [heq]
    · exact .inl (hmove.dead_of_exited hplace)
  obtain ⟨-, -, -, hfinal⟩ := hrun.invariant hkeep ⟨P, h, hid, hexit⟩
  exact hfinal

/-! ## Wakeups -/

/-- The step is `mark_blocking` of thread `t`. -/
def Marks (s : Inner n) (a : Act n) (t : Tid n) : Prop :=
  ∃ c, a = .markBlocking c ∧ userOn s c = some t

/-- The thread runs, is queued, or is handed off with a wake pending. -/
def Awake (s : Inner n) (t : Tid n) : Prop :=
  (s.threads t).state = .running ∨ (s.threads t).state = .ready ∨
    ∃ c b, (s.cpus c).handoff = some (t, b) ∧ (s.threads t).wakePending = true

theorem wakePending_unblockLocked (s : Inner n) (t u : Tid n) :
    ((unblockLocked s t).threads u).wakePending = (s.threads u).wakePending := by
  have hset : ((s.setState t .ready).threads u).wakePending = (s.threads u).wakePending := by
    by_cases hu : u = t
    · rw [hu]
      simp [Inner.setState]
    · simp [Inner.setState, update_of_ne hu]
  unfold unblockLocked
  split_ifs
  · rfl
  · dsimp only
    split_ifs <;> exact hset

section

variable (h : Placed s P)
include h

theorem Placed.wakePending_step (hstep : Sched.step s a = some s')
    (hid : id < s.nextTid) (hmark : ¬ Marks s a (.user id)) (hstore : a ≠ .unblockStore (.user id))
    : (s'.threads (.user id)).wakePending = (s.threads (.user id)).wakePending := by
  cases h.did hstep with
  | entered _ => simp [Inner.setCpu]
  | spawned =>
    have hne : (Tid.user id : Tid n) ≠ .user s.nextTid := by
      simp only [ne_eq, Tid.user.injEq]
      omega
    simp [Sched.spawn, update_of_ne hne]
  | @marked c t ht =>
    have hne : Tid.user id ≠ t := by
      rintro rfl
      exact hmark ⟨c, rfl, ht⟩
    simp [Inner.setWake, update_of_ne hne]
  | stayed => rfl
  | switched _ _ _ _ _ _ hsw => rw [hsw.wake]
  | @stored i _ =>
    have hne : (Tid.user id : Tid n) ≠ .user i := fun heq => hstore (by rw [heq])
    simp [Inner.setWake, update_of_ne hne]
  | unblocked _ => exact wakePending_unblockLocked s _ _
  | claimed _ =>
    simp only [Inner.setCpu, Inner.setRunning, update_apply]
    split_ifs with hu
    · rw [← hu]
    · rfl
  | landed _ => rfl
  | @released c prev w _ _ hprev hrel =>
    by_cases hu : Tid.user id = prev
    · rw [hu, hrel.wake]
    · rw [hrel.threads _ hu]
  | reaped => rfl

theorem Placed.wakePending_stays (hstep : Sched.step s a = some s') (hid : id < s.nextTid)
    (hmark : ¬ Marks s a (.user id)) (hw : (s.threads (.user id)).wakePending = true) :
    (s'.threads (.user id)).wakePending = true := by
  by_cases hstore : a = .unblockStore (.user id)
  · subst hstore
    obtain ⟨-, ⟨⟩⟩ := ite_none_right_eq_some.1 hstep
    simp [Inner.setWake]
  · rw [h.wakePending_step hstep hid hmark hstore, hw]

theorem awake_stays (hid : id < s.nextTid) (hw : (s.threads (.user id)).wakePending = true)
    (hp : P (.user id) ≠ .parked) (hrun : Run step (fun s a => ¬ Marks s a (.user id)) s s') :
    ∃ P', Placed s' P' ∧ id < s'.nextTid ∧ (s'.threads (.user id)).wakePending = true ∧
      P' (.user id) ≠ .parked := by
  refine hrun.invariant (P := fun s => ∃ P, Placed s P ∧ id < s.nextTid ∧
    (s.threads (.user id)).wakePending = true ∧ P (.user id) ≠ .parked) ?_ ⟨P, h, hid, hw, hp⟩
  rintro s a s' ⟨P, hP, hid, hw, hp⟩ hmark hstep
  obtain ⟨P', hP', hmoves⟩ := hP.step hstep
  refine ⟨P', hP', lt_of_lt_of_le hid (hP.nextTid_le hP' hmoves),
    hP.wakePending_stays hstep hid hmark hw, ?_⟩
  rcases hmoves id with heq | hmove
  · rwa [heq]
  · rw [hw] at hmove
    exact hmove.ne_parked

theorem Placed.awake (hid : id < s.nextTid)
    (hw : (s.threads (.user id)).wakePending = true) (hp : P (.user id) ≠ .parked) :
    Awake s (.user id) ∨ (s.threads (.user id)).state = .exited := by
  have hstate := h.state_eq hid
  cases hpl : P (.user id) with
  | handed c w => exact .inl (.inr (.inr ⟨c, w.flag, (h.handoff c _ _).2 ⟨w, hpl, rfl⟩, hw⟩))
  | parked => exact absurd hpl hp
  | _ =>
    rw [hpl] at hstate
    simp_all [Place.state, Awake]

/-- From the store of an `unblock` on, as long as the thread does not mark itself
blocking again, the end of an `unblock` finds it awake or exited and leaves it so. -/
theorem Placed.no_lost_wakeup {s₁ s₂ s₃ s₄ : Inner n}
    (hstore : Sched.step s (.unblockStore (.user id)) = some s₁)
    (hrun : Run Sched.step (fun s a => ¬ Marks s a (.user id)) s₁ s₂)
    (hlock : Sched.step s₂ (.unblockLock (.user id)) = some s₃)
    (hrun' : Run Sched.step (fun s a => ¬ Marks s a (.user id)) s₃ s₄) :
    Awake s₄ (.user id) ∨ (s₄.threads (.user id)).state = .exited := by
  -- the store sets `wake_pending`, which stays set
  have hset : id < s₁.nextTid ∧ (s₁.threads (.user id)).wakePending = true := by
    obtain ⟨⟨hid, -⟩, ⟨⟩⟩ := ite_none_right_eq_some.1 hstore
    exact ⟨hid, by simp [Inner.setWake]⟩
  obtain ⟨P₁, hP₁, -⟩ := h.step hstore
  obtain ⟨P₂, hP₂, hid₂, hw₂⟩ := hrun.invariant (P := fun s => ∃ P, Placed s P ∧
      id < s.nextTid ∧ (s.threads (.user id)).wakePending = true)
    (by
      rintro s a s' ⟨P, hP, hid, hw⟩ hmark hstep
      obtain ⟨P', hP', hmoves⟩ := hP.step hstep
      exact ⟨P', hP', lt_of_lt_of_le hid (hP.nextTid_le hP' hmoves),
        hP.wakePending_stays hstep hid hmark hw⟩)
    ⟨P₁, hP₁, hset⟩
  -- the lock section queues the thread if it is parked
  have hplaced := hP₂.wake hid₂
  obtain ⟨-, ⟨⟩⟩ := ite_none_right_eq_some.1 hlock
  have hpark : (if P₂ (.user id) = .parked then update P₂ (.user id) .queued else P₂)
      (.user id) ≠ .parked := by
    split_ifs with hp
    · simp
    · exact hp
  have hw₃ := (wakePending_unblockLocked s₂ (.user id) (.user id)).trans hw₂
  obtain ⟨P₄, hP₄, hid₄, hw₄, hp₄⟩ := awake_stays hplaced
    (by rw [nextTid_unblockLocked]; exact hid₂) hw₃ hpark hrun'
  exact hP₄.awake hid₄ hw₄ hp₄

/-! ## What a wait relies on -/

variable {c : Fin n}

theorem Placed.blocked_iff (hid : id < s.nextTid) : (s.threads (.user id)).state = .blocked ↔
      P (.user id) = .parked ∨ ∃ c, P (.user id) = .handed c .blocked := by
  rw [← state_eq_blocked, h.state_eq hid, some.injEq]

theorem Placed.blocked_stays {a : Act n} (hstep : Sched.step s a = some s')
    (hid : id < s.nextTid) (hblk : (s.threads (.user id)).state = .blocked)
    (hw : (s.threads (.user id)).wakePending = false) (ha : a.unblocks (.user id) = false) :
    (s'.threads (.user id)).state = .blocked := by
  obtain ⟨P', hP', hmoves⟩ := h.step hstep
  have hid' := lt_of_lt_of_le hid (h.nextTid_le hP' hmoves)
  have hplace := (h.blocked_iff hid).1 hblk
  refine (hP'.blocked_iff hid').2 ?_
  rcases hmoves id with heq | hmove
  · rwa [heq]
  · rw [hw, ha] at hmove
    exact .inl (hmove.parked_of_blocked hplace)

theorem Placed.block_blocks (ht : userOn s c = some (.user id))
    (hw : (s.threads (.user id)).wakePending = false)
    (hstep : Sched.step s (.blockCurrent c) = some s') :
    (s'.threads (.user id)).state = .blocked := by
  simp only [Sched.step, ht, map_some, some.injEq] at hstep
  subst hstep
  have hno : (Tid.user id : Tid n).isIdle = true → true = false := fun h => by cases h
  rcases h.rescheduleLocked (h.runningOn (userOn_eq ht).1).2
    hno with ⟨-, hi | ⟨-, hwake⟩⟩ | ⟨-, hsw⟩
  · cases hi
  · cases hw ▸ hwake
  · exact hsw.statePrev .blocked rfl rfl

theorem Placed.running_of_runningOn (ht : Sched.runningOn s c = some (.user id)) :
    (s.threads (.user id)).state = .running :=
  h.state id .running (by rw [(h.runningOn ht).2]; rfl)

theorem Placed.born_of_runningOn (ht : Sched.runningOn s c = some (.user id)) : id < s.nextTid := by
  by_contra hlt
  have hunborn := (h.unborn id).2 (by omega)
  rw [(h.runningOn ht).2] at hunborn
  cases hunborn

theorem Placed.mem_waking_step {a : Act n} (hstep : Sched.step s a = some s')
    {t : Tid n} (ht : t ∈ s'.waking) : t ∈ s.waking ∨ a = .unblockStore t := by
  cases h.did hstep with
  | switched _ _ _ _ _ _ hsw => exact .inl (hsw.waking ▸ ht)
  | stored _ => exact (List.mem_append.1 ht).imp_right fun ht => by rw [List.mem_singleton.1 ht]
  | unblocked _ => exact .inl (List.mem_of_mem_erase ht)
  | released _ _ hrel => exact .inl (hrel.waking ▸ ht)
  | _ => exact .inl ht

end

/-! ## All reachable states -/

/-- In every reachable state the scheduler is safe; a thread that has exited stays so;
and from the end of an `unblock` issued after the thread's last `mark_blocking`, until
the next one, the thread runs, is queued, is handed off with the wake pending, or has
exited. -/
theorem scheduler_safe {s : Inner (n + 1)} (h : Reach step (boot n) s) : Safe s ∧
    (∀ id s', id < s.nextTid → (s.threads (.user id)).state = .exited → Reach step s s' →
      (s'.threads (.user id)).state = .exited) ∧
    ∀ id s₁ s₂ s₃ s₄, step s (.unblockStore (.user id)) = some s₁ →
      Run step (fun s a => ¬ Marks s a (.user id)) s₁ s₂ →
      step s₂ (.unblockLock (.user id)) = some s₃ →
      Run step (fun s a => ¬ Marks s a (.user id)) s₃ s₄ →
      Awake s₄ (.user id) ∨ (s₄.threads (.user id)).state = .exited := by
  obtain ⟨P, hP⟩ := exists_placed h
  refine ⟨hP.safe, fun id s' hid hexit hrun => exited_stays hP hid hexit hrun, ?_⟩
  intro id s₁ s₂ s₃ s₄ hstore hrun hlock hrun'
  exact hP.no_lost_wakeup hstore hrun hlock hrun'

/-- A second CPU takes a thread that the first one has just made. -/
def handOver : List (Act 2) :=
  [.spawn, .cpuEnter 1, .yieldNow 1, .claim 1, .ctxSwitch 1, .finishSwitch 1]

theorem scheduler_safe_handOver : Safe ((runAll step (boot 1) handOver).get (by decide)) :=
  (scheduler_safe (reach_of_runAll (some_get _).symm)).1

/-- A wake that is still under way when its thread, which it kept from blocking, has
gone on to exit. -/
def lateWake : List (Act 1) :=
  [.markBlocking 0, .unblockStore (.user 0), .blockCurrent 0, .exit 0, .claim 0, .ctxSwitch 0,
   .finishSwitch 0, .unblockLock (.user 0)]

/-- The state it ends in. -/
def lateState : Inner 1 := (runAll step (boot 0) lateWake).get (by decide)

/-- The end of that `unblock` finds the thread neither running nor ready nor handed
off. -/
theorem late_wake_finds_exited : runAll step (boot 0) lateWake = some lateState ∧
      (lateState.threads (.user 0)).state = .exited ∧ ¬ Awake lateState (.user 0) := by
  have hstate : (lateState.threads (.user 0)).state = .exited := by decide
  have hhand : (lateState.cpus 0).handoff = none := by decide
  refine ⟨(some_get _).symm, hstate, ?_⟩
  rintro (h | h | ⟨c, b, h, -⟩)
  · cases hstate ▸ h
  · cases hstate ▸ h
  · rw [Fin.fin_one_eq_zero c, hhand] at h
    cases h

end Thos.Sched
