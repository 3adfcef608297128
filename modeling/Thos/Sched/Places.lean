import Thos.Sched.Model

/-!
# Where a thread is

The abstract view of the scheduler: every thread is in exactly one place. It waits in
the ready queue, is current on one CPU, has been handed off by one CPU that is still
unwinding off its stack, is parked, or is dead. `Placed s P` says that the state `s`
shows the places `P`: the CPU slots, the queue and the flags of every thread are
determined by them.

One lemma per step says how it moves the places, and `Move` lists the moves a thread
can make. The safety properties are read off the places afterwards.
-/

set_option autoImplicit false

namespace Thos.Sched

open Thos.Lib List Sched Sched.Inner Tid
open Function (update update_apply update_of_ne update_self)

variable {n : Nat} {c : Fin n}

/-! ## Places -/

/-- Why a CPU switched away from a thread. -/
inductive Why
  | yielded
  | blocked
  | exited
  deriving DecidableEq

/-- The flag a thread is handed off with. -/
def Why.flag : Why → Bool
  | .yielded => false
  | .blocked | .exited => true

/-- The one place of a thread. -/
inductive Place (n : Nat)
  | unborn
  | queued
  | on (c : Fin n)
  | handed (c : Fin n) (why : Why)
  | parked
  | dead
  deriving DecidableEq

open Place

/-- The state a thread shows in a place. -/
def Place.state : Place n → Option ThreadState
  | .unborn => none
  | .queued | .handed _ .yielded => some .ready
  | .on _ => some .running
  | .parked | .handed _ .blocked => some .blocked
  | .dead | .handed _ .exited => some .exited

/-- The `running` flag a thread shows in a place: set from the claim until the CPU is
off the stack. -/
def Place.running (cpus : Fin n → CpuSlot n) : Place n → Bool
  | .on c => match (cpus c).phase with
    | .spin _ _ => false
    | _ => true
  | .handed _ _ => true
  | _ => false

/-- What the phase of a CPU says about its slot. -/
def CpuSlot.Ok (slot : CpuSlot n) : Prop :=
  match slot.phase with
  | .off => slot.current = none ∧ slot.handoff = none
  | .run => slot.current.isSome ∧ slot.handoff = none
  | .spin prev next | .claimed prev next =>
    slot.current = some next ∧ slot.handoff.map Prod.fst = some prev
  | .landed => slot.current.isSome ∧ slot.handoff.isSome

/-- The state shows the places `P`. -/
structure Placed (s : Inner n) (P : Tid n → Place n) : Prop where
  current : ∀ c t, (s.cpus c).current = some t ↔ P t = .on c
  handoff : ∀ c t b, (s.cpus c).handoff = some (t, b) ↔ ∃ w, P t = .handed c w ∧ b = w.flag
  ready : ∀ t, t ∈ s.ready ↔ P t = .queued
  nodup : s.ready.Nodup
  state : ∀ id st, (P (.user id)).state = some st → (s.threads (.user id)).state = st
  running : ∀ t, (s.threads t).running = (P t).running s.cpus
  idle : ∀ c, P (.idle c) = .unborn ∨ P (.idle c) = .parked ∨ P (.idle c) = .on c ∨
    P (.idle c) = .handed c .yielded
  unborn : ∀ id, P (.user id) = .unborn ↔ s.nextTid ≤ id
  slot : ∀ c, (s.cpus c).Ok
  graveyard : ∀ t ∈ s.graveyard, P t = .dead ∨ ∃ c, P t = .handed c .exited
  freed : ∀ t ∈ s.freed, P t = .dead
  waking : ∀ t ∈ s.waking, ∃ id, t = .user id ∧ id < s.nextTid
  noPhantom : s.phantomsDropped = 0

/-- The moves a thread can make, given its `wake_pending` and whether the step is the
lock section of an `unblock` of it. A thread that blocked is queued again only for a
pending wake, and a parked one only by an `unblock`. -/
inductive Move (wake unblocked : Bool) : Place n → Place n → Prop
  | born : Move wake unblocked .unborn .queued
  | dispatched (c : Fin n) : Move wake unblocked .queued (.on c)
  | switchedOut (c : Fin n) (w : Why) : Move wake unblocked (.on c) (.handed c w)
  | requeued (c : Fin n) : Move wake unblocked (.handed c .yielded) .queued
  | aborted (c : Fin n) : wake = true → Move wake unblocked (.handed c .blocked) .queued
  | parked (c : Fin n) : wake = false → Move wake unblocked (.handed c .blocked) .parked
  | died (c : Fin n) : Move wake unblocked (.handed c .exited) .dead
  | woken : unblocked = true → Move wake unblocked .parked .queued

section Move

variable {wake unblocked : Bool} {p q : Place n}

theorem Move.ne_unborn (h : Move wake unblocked p q) : q ≠ .unborn := by
  cases h <;> simp

theorem Move.dead_of_exited (h : Move wake unblocked p q)
    (hp : p = .dead ∨ ∃ c, p = .handed c .exited) : q = .dead := by
  cases h <;> simp_all

theorem Move.ne_parked (h : Move true unblocked p q) : q ≠ .parked := by
  cases h <;> simp_all

theorem Move.parked_of_blocked (h : Move false false p q)
    (hp : p = .parked ∨ ∃ c, p = .handed c .blocked) : q = .parked := by
  cases h <;> simp_all

end Move

theorem Place.running_congr {cpus cpus' : Fin n → CpuSlot n} {p : Place n}
    (h : ∀ c, p = .on c → (cpus c).phase = (cpus' c).phase) : p.running cpus = p.running cpus' := by
  cases p with
  | on c => simp only [running, h c rfl]
  | _ => rfl

theorem Place.running_update {cpus : Fin n → CpuSlot n} {p : Place n}
    {slot : CpuSlot n} (h : ∀ prev next, (cpus c).phase ≠ .spin prev next ∧
      slot.phase ≠ .spin prev next) : p.running cpus = p.running (update cpus c slot) := by
  cases p with
  | on d =>
    by_cases hdc : d = c
    · subst hdc
      simp only [running, update_self]
      grind
    · simp only [running, update_of_ne hdc]
  | _ => rfl

variable {s s' : Inner n} {P : Tid n → Place n} (h : Placed s P) {prev : Tid n}
include h

/-! ## The queue -/

theorem Placed.not_stale {t : Tid n} (ht : P t = .queued) : stale s t = false := by
  have hrun : (s.threads t).running = false := by rw [h.running, ht]; rfl
  have hcur : isCurrent s.cpus t = false := by
    simp only [isCurrent, any_eq_false, decide_eq_true_eq]
    intro c _ hc
    rw [h.current, ht] at hc
    cases hc
  have hstate : (s.threads t).state = .ready := by
    cases t with
    | idle c => rcases h.idle c with hi | hi | hi | hi <;> rw [ht] at hi <;> cases hi
    | user id => exact h.state id .ready (by rw [ht]; rfl)
  simp [stale, hrun, hcur, hstate]

omit h in
theorem pickNext_eq (c : Fin n) (h : ∀ t ∈ s.ready, stale s t = false) :
    pickNext s c = (s.ready.head?.getD (.idle c), { s with ready := s.ready.tail }) := by
  unfold pickNext
  cases hq : s.ready with
  | nil => simp [pickLoop]
  | cons t q =>
    have ht : stale s t = false := h t (hq ▸ mem_cons_self)
    simp [pickLoop, ht]

/-! ## The CPU slots -/

theorem Placed.handoff_of_run (hc : (s.cpus c).phase = .run) : (s.cpus c).handoff = none := by
  have hslot := h.slot c
  rw [CpuSlot.Ok, hc] at hslot
  exact hslot.2

theorem Placed.not_handed (hc : (s.cpus c).handoff = none) (t : Tid n) (w : Why) :
    P t ≠ .handed c w := by
  intro ht
  have hsome := (h.handoff c t w.flag).2 ⟨w, ht, rfl⟩
  cases hc ▸ hsome

theorem Placed.idle_rests (hc : (s.cpus c).phase = .run) {t : Tid n}
    (ht : P t = .on c) (hne : t ≠ .idle c) : P (.idle c) = .unborn ∨ P (.idle c) = .parked := by
  rcases h.idle c with hi | hi | hi | hi
  · exact .inl hi
  · exact .inr hi
  · have heq := ((h.current c t).2 ht).symm.trans ((h.current c (.idle c)).2 hi)
    exact absurd (Option.some.inj heq) hne
  · exact absurd hi (h.not_handed (h.handoff_of_run hc) _ _)

/-! ## Switching away from a thread -/

theorem Placed.next (hc : (s.cpus c).phase = .run) (hprev : P prev = .on c)
    (hne : prev ≠ s.ready.head?.getD (.idle c)) : (P (s.ready.head?.getD (.idle c)) = .queued ∨
      s.ready.head?.getD (.idle c) = .idle c ∧ (P (.idle c) = .unborn ∨ P (.idle c) = .parked)) ∧
    ∀ t, t ∈ s.ready.tail ↔ P t = .queued ∧ t ≠ s.ready.head?.getD (.idle c) := by
  cases hq : s.ready with
  | nil =>
    rw [hq] at hne
    refine ⟨.inr ⟨rfl, h.idle_rests hc hprev hne⟩, fun t => ?_⟩
    have ht := h.ready t
    rw [hq] at ht
    simp [← ht]
  | cons x q =>
    have hnodup := h.nodup
    rw [hq, nodup_cons] at hnodup
    refine ⟨.inl ((h.ready x).1 (hq ▸ mem_cons_self)), fun t => ?_⟩
    rw [← h.ready t, hq]
    constructor
    · intro ht
      refine ⟨mem_cons_of_mem _ ht, ?_⟩
      rintro rfl
      exact hnodup.1 ht
    · rintro ⟨ht, hne⟩
      exact (mem_cons.1 ht).resolve_left hne

/-- What a switch on CPU `c` from `prev` to `next` changes. -/
structure Switched (s s' : Inner n) (c : Fin n) (prev next : Tid n) (w : Why) : Prop where
  cpus : s'.cpus = update s.cpus c ⟨some next, some (prev, w.flag), .spin prev next⟩
  running : ∀ t, (s'.threads t).running = (s.threads t).running
  wake : ∀ t, (s'.threads t).wakePending = (s.threads t).wakePending
  state : ∀ t, t ≠ prev → t ≠ next → (s'.threads t).state = (s.threads t).state
  stateNext : (s'.threads next).state = .running
  statePrev : ∀ st, prev.isIdle = false → (handed c w).state = some st →
    (s'.threads prev).state = st
  ready : s'.ready = s.ready.tail
  graveyard : ∀ t ∈ s'.graveyard, t ∈ s.graveyard ∨ t = prev ∧ w = .exited
  freed : s'.freed = s.freed
  waking : s'.waking = s.waking
  nextTid : s'.nextTid = s.nextTid
  noPhantom : s'.phantomsDropped = s.phantomsDropped

theorem Placed.switch (hc : (s.cpus c).phase = .run) (hprev : P prev = .on c)
    (hne : prev ≠ s.ready.head?.getD (.idle c)) {w : Why} (hw : prev.isIdle = true → w = .yielded)
    (hs : Switched s s' c prev (s.ready.head?.getD (.idle c)) w) :
    Placed s' (update (update P prev (.handed c w)) (s.ready.head?.getD (.idle c)) (.on c)) := by
  obtain ⟨hnext, hrest⟩ := h.next hc hprev hne
  generalize s.ready.head?.getD (.idle c) = next at *
  have hhand := h.handoff_of_run hc
  have hcur : (s.cpus c).current = some prev := (h.current c prev).2 hprev
  have hnextne : ∀ d, P next ≠ .on d ∧ ∀ w, P next ≠ .handed d w := by
    rcases hnext with hq | ⟨rfl, hq | hq⟩ <;> rw [hq] <;> simp
  have hprevidle : ∀ d, prev = .idle d → d = c := by
    rintro d rfl
    rcases h.idle d with hi | hi | hi | hi <;> rw [hprev] at hi <;> simp at hi
    exact hi.symm
  have hcpus : ∀ d, s'.cpus d = if d = c then ⟨some next, some (prev, w.flag), .spin prev next⟩
      else s.cpus d := fun d => by rw [hs.cpus, update_apply]
  have hP : ∀ t, update (update P prev (.handed c w)) next (.on c) t =
      if t = next then .on c else if t = prev then .handed c w else P t := fun t => by
    rw [update_apply, update_apply]
  generalize update (update P prev (.handed c w)) next (.on c) = P' at hP
  constructor
  case current => grind [h.current]
  case handoff => grind [h.handoff]
  case ready => grind [hs.ready]
  case nodup => rw [hs.ready]; exact h.nodup.tail
  case state => grind [h.state, hs.stateNext, hs.statePrev, hs.state, Place.state, isIdle]
  case running =>
    intro t
    rw [hs.running, h.running, hP]
    split_ifs with htn htp
    · -- not claimed yet
      subst htn
      rcases hnext with hq | ⟨rfl, hq | hq⟩ <;> simp [hq, Place.running, hcpus]
    · subst htp
      simp [hprev, Place.running, hc]
    · refine Place.running_congr fun d hd => ?_
      have := (h.current d t).2 hd
      grind
  case idle => grind [h.idle, isIdle]
  case unborn => grind [h.unborn, hs.nextTid]
  case slot => grind [h.slot, CpuSlot.Ok]
  case graveyard => grind [h.graveyard, hs.graveyard]
  case freed => grind [h.freed, hs.freed]
  case waking => rw [hs.waking, hs.nextTid]; exact h.waking
  case noPhantom => rw [hs.noPhantom]; exact h.noPhantom

theorem Placed.idle_of_next (hprev : P prev = .on c)
    (heq : prev = s.ready.head?.getD (.idle c)) : s.ready = [] ∧ prev = .idle c := by
  cases hq : s.ready with
  | nil => exact ⟨rfl, by rw [heq, hq]; rfl⟩
  | cons t q =>
    have ht := (h.ready t).1 (hq ▸ mem_cons_self)
    rw [hq, head?_cons, Option.getD_some] at heq
    rw [← heq, hprev] at ht
    cases ht

theorem Placed.rescheduleLocked (hprev : P prev = .on c) {block : Bool}
    (hidle : prev.isIdle = true → block = false) : (Sched.rescheduleLocked s c prev block = s ∧
      (prev.isIdle = true ∨ block = true ∧ (s.threads prev).wakePending = true)) ∨
      prev ≠ s.ready.head?.getD (.idle c) ∧
      Switched s (Sched.rescheduleLocked s c prev block) c prev (s.ready.head?.getD (.idle c))
        (if block then .blocked else .yielded) := by
  have hpick := pickNext_eq c fun t ht => h.not_stale ((h.ready t).1 ht)
  by_cases habort : (block && (s.threads prev).wakePending) = true
  · left
    rw [Sched.rescheduleLocked, if_pos habort]
    exact ⟨rfl, .inr (by simpa using habort)⟩
  · rw [Sched.rescheduleLocked, if_neg habort, hpick]
    dsimp only
    by_cases hsame : prev = s.ready.head?.getD (.idle c)
    · left
      rw [if_pos hsame]
      obtain ⟨hq, hi⟩ := h.idle_of_next hprev hsame
      refine ⟨?_, .inl (by rw [hi]; rfl)⟩
      cases s
      simp_all
    · right
      rw [if_neg hsame]
      refine ⟨hsame, ?_⟩
      generalize s.ready.head?.getD (.idle c) = next at *
      cases block with
      | true =>
        constructor <;> simp [setState, setCpu, Why.flag, Place.state, update_apply]
        all_goals grind
      | false =>
        cases hi : prev.isIdle <;> constructor <;>
          simp [setState, setCpu, Why.flag, Place.state, update_apply]
        all_goals grind

theorem Placed.exitLocked (hprev : P prev = .on c) (hidle : prev.isIdle = false) :
    prev ≠ s.ready.head?.getD (.idle c) ∧
      Switched s (Sched.exitLocked s c prev) c prev (s.ready.head?.getD (.idle c)) .exited := by
  have hne : prev ≠ s.ready.head?.getD (.idle c) := by
    intro heq
    rw [(h.idle_of_next hprev heq).2] at hidle
    cases hidle
  -- taking `current` and marking `prev` exited makes no queued thread stale
  have hfresh : ∀ t ∈ s.ready,
      stale ((s.setCpu c { s.cpus c with current := none }).setState prev .exited) t = false := by
    intro t ht
    have hq := (h.ready t).1 ht
    have htp : t ≠ prev := by
      rintro rfl
      cases hprev ▸ hq
    have hold := h.not_stale hq
    simp only [stale, isCurrent, Bool.or_eq_false_iff, any_eq_false, decide_eq_true_eq,
      decide_eq_false_iff_not] at hold ⊢
    simp only [setState, setCpu, update_of_ne htp]
    refine ⟨hold.1, fun d hd => ?_⟩
    by_cases hdc : d = c
    · subst hdc
      simp
    · rw [update_of_ne hdc]
      exact hold.2 d hd
  refine ⟨hne, ?_⟩
  have hpick := pickNext_eq (s := (s.setCpu c { s.cpus c with current := none }).setState prev
    .exited) c hfresh
  simp only [Sched.exitLocked, hpick]
  have hready : ((s.setCpu c { s.cpus c with current := none }).setState prev .exited).ready =
    s.ready := rfl
  rw [hready]
  generalize s.ready.head?.getD (.idle c) = next at *
  constructor <;> simp [setState, setCpu, Why.flag, Place.state, update_apply]
  all_goals grind

/-! ## Releasing a thread -/

/-- The place `finish_switch` releases a thread to. -/
def releasedTo (s : Inner n) (prev : Tid n) : Why → Place n
  | .yielded => if prev.isIdle then .parked else .queued
  | .blocked => if (s.threads prev).wakePending then .queued else .parked
  | .exited => .dead

/-- What `finish_switch` on CPU `c` changes when it releases `prev` to `p`. -/
structure Released (s s' : Inner n) (c : Fin n) (prev : Tid n) (p : Place n) : Prop where
  cpus : s'.cpus = update s.cpus c { s.cpus c with handoff := none, phase := .run }
  threads : ∀ t, t ≠ prev → s'.threads t = s.threads t
  running : (s'.threads prev).running = false
  wake : (s'.threads prev).wakePending = (s.threads prev).wakePending
  state : ∀ st, prev.isIdle = false → p.state = some st → (s'.threads prev).state = st
  ready : s'.ready = if p = .queued then s.ready ++ [prev] else s.ready
  graveyard : s'.graveyard = s.graveyard
  freed : s'.freed = s.freed
  waking : s'.waking = s.waking
  nextTid : s'.nextTid = s.nextTid
  noPhantom : s'.phantomsDropped = s.phantomsDropped

theorem Placed.handed_user {w : Why}
    (hprev : P prev = .handed c w) (hw : w ≠ .yielded) : prev.isIdle = false := by
  cases prev with
  | user id => rfl
  | idle d =>
    rcases h.idle d with hi | hi | hi | hi <;> rw [hprev] at hi <;> cases hi
    exact absurd rfl hw

theorem Placed.finishSwitch {w : Why} (hprev : P prev = .handed c w) :
    Released s (Sched.finishSwitch s c) c prev (releasedTo s prev w) := by
  have hhand : (s.cpus c).handoff = some (prev, w.flag) :=
    (h.handoff c prev w.flag).2 ⟨w, hprev, rfl⟩
  have hnotin : prev ∉ s.ready := by
    rw [h.ready, hprev]
    simp
  have hidle := h.handed_user hprev
  have hst : ∀ st, prev.isIdle = false → (Place.handed c w).state = some st →
      (s.threads prev).state = st := by
    intro st hi hst
    cases prev with
    | idle d => cases hi
    | user id => exact h.state id st (hprev ▸ hst)
  simp only [Sched.finishSwitch, hhand]
  cases w with
  | yielded =>
    cases hi : prev.isIdle with
    | true =>
      constructor <;> simp [setCpu, setRunning, releasedTo, hi, update_apply]
      all_goals grind
    | false =>
      have hready := hst .ready hi rfl
      constructor <;> simp [setCpu, setState, setRunning, releasedTo, hi,
        hready, hnotin, Why.flag, Place.state, update_apply]
      all_goals grind
  | blocked =>
    have hi := hidle (by simp)
    have hblk := hst .blocked hi rfl
    cases hwake : (s.threads prev).wakePending <;>
      constructor <;> simp [setCpu, setState, setRunning, releasedTo, hi,
          hblk, hnotin, hwake, Why.flag, Place.state, update_apply]
    all_goals grind
  | exited =>
    have hi := hidle (by simp)
    have hexd := hst .exited hi rfl
    constructor <;> simp [setCpu, setRunning, releasedTo, hi, hexd, Place.state, update_apply]
    all_goals grind

theorem Placed.released (hc : (s.cpus c).phase = .landed) {w : Why} (hprev : P prev = .handed c w)
    (hs : Released s s' c prev (releasedTo s prev w)) :
    Placed s' (update P prev (releasedTo s prev w)) := by
  have hhand : (s.cpus c).handoff = some (prev, w.flag) :=
    (h.handoff c prev w.flag).2 ⟨w, hprev, rfl⟩
  have hidle := h.handed_user hprev
  have hp : releasedTo s prev w = .queued ∧ prev.isIdle = false ∧ w ≠ .exited ∨
      releasedTo s prev w = .parked ∧ w ≠ .exited ∨ releasedTo s prev w = .dead ∧ w = .exited := by
    cases w with
    | yielded => cases hi : prev.isIdle <;> simp [releasedTo, hi]
    | blocked => cases hk : (s.threads prev).wakePending <;> simp [releasedTo, hk, hidle]
    | exited => simp [releasedTo]
  generalize releasedTo s prev w = p at *
  have hslot := h.slot c
  rw [CpuSlot.Ok, hc] at hslot
  have hcpus : ∀ d, s'.cpus d = if d = c then { s.cpus c with handoff := none, phase := .run }
      else s.cpus d := fun d => by rw [hs.cpus, update_apply]
  have hP : ∀ t, update P prev p t = if t = prev then p else P t := fun t =>
    update_apply ..
  generalize update P prev p = P' at hP
  constructor
  case current => grind [h.current]
  case handoff => grind [h.handoff]
  case ready => grind [h.ready, hs.ready]
  case nodup =>
    have hnotin : prev ∉ s.ready := by
      rw [h.ready, hprev]
      simp
    rw [hs.ready]
    split_ifs
    · exact nodup_append.2 ⟨h.nodup, by simp, by grind⟩
    · exact h.nodup
  case state => grind [h.state, hs.state, hs.threads, isIdle]
  case running =>
    intro t
    rw [hP]
    split_ifs with htp
    · subst htp
      rw [hs.running]
      rcases hp with ⟨hq, -⟩ | ⟨hq, -⟩ | ⟨hq, -⟩ <;> rw [hq] <;> rfl
    · rw [hs.threads t htp, h.running, hs.cpus]
      exact running_update (by simp [hc])
  case idle => grind [h.idle, isIdle]
  case unborn => grind [h.unborn, hs.nextTid]
  case slot => grind [h.slot, CpuSlot.Ok]
  case graveyard => grind [h.graveyard, hs.graveyard]
  case freed => grind [h.freed, hs.freed]
  case waking => rw [hs.waking, hs.nextTid]; exact h.waking
  case noPhantom => rw [hs.noPhantom]; exact h.noPhantom

/-! ## The other steps -/

theorem Placed.congr (hstate : ∀ t, (s'.threads t).state = (s.threads t).state)
    (hrunning : ∀ t, (s'.threads t).running = (s.threads t).running) (hcpus : s'.cpus = s.cpus)
    (hready : s'.ready = s.ready) (hgrave : ∀ t ∈ s'.graveyard, t ∈ s.graveyard)
    (hfreed : ∀ t ∈ s'.freed, P t = .dead)
    (hwaking : ∀ t ∈ s'.waking, ∃ id, t = .user id ∧ id < s.nextTid)
    (hnext : s'.nextTid = s.nextTid) (hphantom : s'.phantomsDropped = s.phantomsDropped) :
    Placed s' P where
  __ := h
  current := by rw [hcpus]; exact h.current
  handoff := by rw [hcpus]; exact h.handoff
  ready := by rw [hready]; exact h.ready
  nodup := by rw [hready]; exact h.nodup
  state id st hst := by rw [hstate]; exact h.state id st hst
  running t := by rw [hrunning, hcpus]; exact h.running t
  unborn := by rw [hnext]; exact h.unborn
  slot := by rw [hcpus]; exact h.slot
  graveyard t ht := h.graveyard t (hgrave t ht)
  freed := hfreed
  waking := by rw [hnext]; exact hwaking
  noPhantom := by rw [hphantom]; exact h.noPhantom

theorem Placed.setWake (t : Tid n) (b : Bool) : Placed (s.setWake t b) P := by
  refine h.congr (fun u => ?_) (fun u => ?_) rfl rfl (fun _ hu => hu) h.freed h.waking rfl rfl
  all_goals
    simp only [Inner.setWake, update_apply]
    split_ifs with hu
    · rw [hu]
    · rfl

theorem Placed.reap (ext : Tid n → Nat) : Placed (reap s ext) P := by
  refine h.congr (fun _ => rfl) (fun _ => rfl) rfl rfl
    (fun t ht => mem_of_mem_filter ht) (fun t ht => ?_) h.waking rfl rfl
  rcases mem_append.1 ht with ht | ht
  · exact h.freed t ht
  · obtain ⟨hmem, hdead⟩ := mem_filter.1 ht
    -- a corpse whose `running` is clear is no longer handed off
    rcases h.graveyard t hmem with hp | ⟨c, hp⟩
    · exact hp
    · have hrun := h.running t
      rw [hp] at hrun
      simp [isDead, hrun, Place.running] at hdead

theorem Placed.enqueue {id : Nat} (hid : P (.user id) = .unborn ∨ P (.user id) = .parked)
    (hcpus : s'.cpus = s.cpus) (hready : s'.ready = s.ready ++ [.user id])
    (hthr : ∀ t, t ≠ .user id → s'.threads t = s.threads t)
    (hstate : (s'.threads (.user id)).state = .ready)
    (hrun : (s'.threads (.user id)).running = false) (hgrave : s'.graveyard = s.graveyard)
    (hfreed : s'.freed = s.freed) (hwaking : s'.waking = s.waking)
    (hnext : ∀ i, s'.nextTid ≤ i ↔ s.nextTid ≤ i ∧ i ≠ id)
    (hphantom : s'.phantomsDropped = s.phantomsDropped) :
    Placed s' (update P (.user id) .queued) := by
  have hnotin : user id ∉ s.ready := by
    rw [h.ready]
    grind
  have hP : ∀ t, update P (.user id) .queued t =
      if t = .user id then .queued else P t := fun t => update_apply ..
  generalize update P (.user id) .queued = P' at hP
  constructor
  case current => rw [hcpus]; grind [h.current]
  case handoff => rw [hcpus]; grind [h.handoff]
  case ready => grind [h.ready]
  case nodup => exact hready ▸ nodup_append.2 ⟨h.nodup, by simp, by grind⟩
  case state => grind [h.state, Place.state]
  case running =>
    intro t
    rw [hP, hcpus]
    split_ifs with ht
    · rw [ht, hrun]
      rfl
    · rw [hthr t ht, h.running]
  case idle => grind [h.idle]
  case unborn => grind [h.unborn]
  case slot => exact hcpus ▸ h.slot
  case graveyard => grind [h.graveyard]
  case freed => grind [h.freed]
  case waking =>
    intro t ht
    obtain ⟨i, rfl, hi⟩ := h.waking t (hwaking ▸ ht)
    exact ⟨i, rfl, by have := hnext i; omega⟩
  case noPhantom => exact hphantom.trans h.noPhantom

theorem Placed.spawn : Placed (Sched.spawn s) (update P (.user s.nextTid) .queued) := by
  refine h.enqueue (.inl ((h.unborn _).2 le_rfl)) rfl rfl (fun t ht => update_of_ne ht ..)
    ?_ ?_ rfl rfl rfl (fun i => ?_) rfl
  · simp [Sched.spawn]
  · simp [Sched.spawn]
  · show s.nextTid + 1 ≤ i ↔ _
    omega

theorem Placed.cpuEnter (hc : (s.cpus c).phase = .off) :
    Placed ({ s with threads := update s.threads (.idle c) ⟨.running, true, false⟩ }.setCpu
      c ⟨some (.idle c), none, .run⟩) (update P (.idle c) (.on c)) := by
  have hslot := h.slot c
  rw [CpuSlot.Ok, hc] at hslot
  have hrest : P (.idle c) = .unborn ∨ P (.idle c) = .parked := by
    have := h.idle c
    have := h.current c (.idle c)
    have := h.not_handed hslot.2 (.idle c) .yielded
    grind
  have hcpus : ∀ d, update s.cpus c ⟨some (.idle c), none, .run⟩ d =
      if d = c then ⟨some (.idle c), none, .run⟩ else s.cpus d := fun d => update_apply ..
  have hP : ∀ t, update P (.idle c) (.on c) t = if t = .idle c then .on c else P t :=
    fun t => update_apply ..
  generalize update P (.idle c) (.on c) = P' at hP
  simp only [setCpu]
  generalize update s.cpus c ⟨some (.idle c), none, .run⟩ = cpus at hcpus
  constructor
  case current => grind [h.current]
  case handoff => grind [h.handoff]
  case ready => grind [h.ready]
  case nodup => exact h.nodup
  case state => grind [h.state, update_apply]
  case running =>
    intro t
    rw [hP]
    split_ifs with ht
    · subst ht
      simp [Place.running, hcpus]
    · simp only [update_of_ne ht, h.running]
      refine Place.running_congr fun d hd => ?_
      have := (h.current d t).2 hd
      grind
  case idle => grind [h.idle]
  case unborn => grind [h.unborn]
  case slot => grind [h.slot, CpuSlot.Ok]
  case graveyard => grind [h.graveyard]
  case freed => grind [h.freed]
  case waking => exact h.waking
  case noPhantom => exact h.noPhantom

theorem Placed.unblockLocked {id : Nat} (hid : id < s.nextTid) :
    Placed (Sched.unblockLocked s (.user id))
      (if P (.user id) = .parked then update P (.user id) .queued else P) := by
  have hborn : P (.user id) ≠ .unborn := fun hu => absurd ((h.unborn id).1 hu) (by omega)
  have hstate := h.state id
  have hrun := h.running (.user id)
  by_cases hp : P (.user id) = .parked
  · have hblk : (s.threads (.user id)).state = .blocked := hstate .blocked (by rw [hp]; rfl)
    have hclear : (s.threads (.user id)).running = false := by rw [hrun, hp]; rfl
    have hnotin : user id ∉ s.ready := by
      rw [h.ready, hp]
      simp
    have heq : Sched.unblockLocked s (.user id) =
        { s.setState (.user id) .ready with ready := s.ready ++ [.user id] } := by
      simp [Sched.unblockLocked, hblk, hclear, setState, hnotin]
    rw [if_pos hp, heq]
    refine h.enqueue (.inr hp) rfl rfl (fun t ht => update_of_ne ht ..) ?_ ?_ rfl rfl rfl
      (fun i => ?_) rfl
    · simp [setState]
    · simpa [setState] using hclear
    · show s.nextTid ≤ i ↔ _
      omega
  · have hskip : (decide ((s.threads (.user id)).state ≠ .blocked) ||
        (s.threads (.user id)).running) = true := by
      cases hpl : P (.user id) with
      | handed c w => simp [hrun, hpl, Place.running]
      | parked => exact absurd hpl hp
      | unborn => exact absurd hpl hborn
      | queued => simp [hstate .ready (by rw [hpl]; rfl)]
      | on c => simp [hstate .running (by rw [hpl]; rfl)]
      | dead => simp [hstate .exited (by rw [hpl]; rfl)]
    rw [if_neg hp, Sched.unblockLocked, if_pos hskip]
    exact h

omit h in
theorem nextTid_unblockLocked (t : Tid n) : (unblockLocked s t).nextTid = s.nextTid := by
  unfold unblockLocked
  split_ifs
  · rfl
  · dsimp only
    split_ifs <;> rfl

theorem Placed.setPhase {ph : Phase n} {threads : Tid n → Thread}
    (hok : CpuSlot.Ok { s.cpus c with phase := ph })
    (hstate : ∀ t, (threads t).state = (s.threads t).state) (hrun : ∀ t, (threads t).running =
      (P t).running (update s.cpus c { s.cpus c with phase := ph })) :
    Placed ({ s with threads }.setCpu c { s.cpus c with phase := ph }) P := by
  have hcur : ∀ d, (update s.cpus c { s.cpus c with phase := ph } d).current =
      (s.cpus d).current ∧ (update s.cpus c { s.cpus c with phase := ph } d).handoff =
      (s.cpus d).handoff := by
    intro d
    by_cases hd : d = c
    · subst hd
      simp
    · simp [update_of_ne hd]
  refine { h with
    current := fun d t => (hcur d).1 ▸ h.current d t
    handoff := fun d t b => (hcur d).2 ▸ h.handoff d t b
    state := fun id st hst => (hstate _).trans (h.state id st hst)
    running := hrun
    slot := fun d => ?_ }
  by_cases hd : d = c
  · subst hd
    simpa [setCpu] using hok
  · simpa [setCpu, update_of_ne hd] using h.slot d

theorem Placed.claim {next : Tid n} (hc : (s.cpus c).phase = .spin prev next) :
    Placed ((s.setRunning next true).setCpu c { s.cpus c with phase := .claimed prev next }) P := by
  have hslot := h.slot c
  rw [CpuSlot.Ok, hc] at hslot
  have hnext : P next = .on c := (h.current c next).1 hslot.1
  refine h.setPhase hslot (fun t => ?_) fun t => ?_ <;> by_cases ht : t = next
  · simp [ht]
  · simp [update_of_ne ht]
  · simp [ht, hnext, Place.running]
  · rw [update_of_ne ht, h.running]
    refine Place.running_congr fun d hd => ?_
    have := (h.current d t).2 hd
    grind [update_apply]

theorem Placed.ctxSwitch {next : Tid n} (hc : (s.cpus c).phase = .claimed prev next) :
    Placed (s.setCpu c { s.cpus c with phase := .landed }) P := by
  have hslot := h.slot c
  rw [CpuSlot.Ok, hc] at hslot
  obtain ⟨hcur, hhand⟩ := hslot
  refine h.setPhase ⟨by simp [hcur], ?_⟩ (fun _ => rfl) fun t => ?_
  · cases hh : (s.cpus c).handoff <;> simp_all
  · rw [h.running]
    exact running_update (by simp [hc])

/-! ## Every step -/

section Step

variable {t : Tid n}

theorem Placed.runningOn (ht : Sched.runningOn s c = some t) :
    (s.cpus c).phase = .run ∧ P t = .on c := by
  unfold Sched.runningOn at ht
  split_ifs at ht with hc
  exact ⟨hc, (h.current c t).1 ht⟩

omit h in
theorem userOn_eq (ht : userOn s c = some t) : runningOn s c = some t ∧ t.isIdle = false := by
  simpa [userOn, Option.filter_eq_some_iff] using ht

/-- The step is the lock section of an `unblock` of `t`. -/
def Act.unblocks (t : Tid n) : Act n → Bool
  | .unblockLock u => u = t
  | _ => false

/-- The places of the user threads follow `Move`. -/
def Moves (s : Inner n) (a : Act n) (P P' : Tid n → Place n) : Prop :=
  ∀ id, P' (.user id) = P (.user id) ∨
    Move (s.threads (.user id)).wakePending (a.unblocks (.user id)) (P (.user id)) (P' (.user id))

omit h in
theorem Moves.refl (s : Inner n) (a : Act n) (P : Tid n → Place n) : Moves s a P P :=
  fun _ => .inl rfl

theorem Placed.moves_switch (hc : (s.cpus c).phase = .run)
    (hprev : P prev = .on c) (hne : prev ≠ s.ready.head?.getD (.idle c)) (w : Why) (a : Act n) :
    Moves s a P (update (update P prev (.handed c w)) (s.ready.head?.getD (.idle c)) (.on c)) := by
  obtain ⟨hnext, -⟩ := h.next hc hprev hne
  generalize s.ready.head?.getD (.idle c) = next at *
  intro id
  by_cases hn : user id = next
  · subst hn
    rcases hnext with hq | ⟨hi, -⟩
    · right
      rw [update_self, hq]
      exact .dispatched c
    · cases hi
  · rw [update_of_ne hn]
    by_cases hp : user id = prev
    · subst hp
      right
      rw [update_self, hprev]
      exact .switchedOut c w
    · exact .inl (update_of_ne hp ..)

variable {a : Act n}

omit h in
theorem moves_update {p : Place n}
    (hmove : ∀ id, t = .user id → Move (s.threads t).wakePending (a.unblocks t) (P t) p) :
    Moves s a P (update P t p) := by
  intro id
  by_cases ht : user id = t
  · subst ht
    right
    rw [update_self]
    exact hmove id rfl
  · exact .inl (update_of_ne ht ..)

/-- The CPU on which a step may switch threads. -/
def Act.switchesOn : Act n → Option (Fin n)
  | .yieldNow c | .blockCurrent c | .exit c => some c
  | _ => none

/-- What a step does to a state with places `P`. -/
inductive Did (s : Inner n) (P : Tid n → Place n) : Act n → Inner n → Prop
  | entered {c : Fin n} : (s.cpus c).phase = .off → Did s P (.cpuEnter c)
      ({ s with threads := update s.threads (.idle c) ⟨.running, true, false⟩ }.setCpu
        c ⟨some (.idle c), none, .run⟩)
  | spawned : Did s P .spawn (spawn s)
  | marked {c : Fin n} {t : Tid n} : userOn s c = some t →
      Did s P (.markBlocking c) (s.setWake t false)
  /-- A `reschedule` that finds a pending wake or nothing to run. -/
  | stayed {a : Act n} : Did s P a s
  | switched {a : Act n} {c : Fin n} {prev : Tid n} {w : Why} {s' : Inner n} :
      a.switchesOn = some c → (w = .exited → a = .exit c ∧ userOn s c = some prev) →
      (s.cpus c).phase = .run → P prev = .on c → (prev.isIdle = true → w = .yielded) →
      prev ≠ s.ready.head?.getD (.idle c) →
      Switched s s' c prev (s.ready.head?.getD (.idle c)) w → Did s P a s'
  | stored {id : Nat} : id < s.nextTid → Did s P (.unblockStore (.user id))
      { s.setWake (.user id) true with waking := s.waking ++ [.user id] }
  | unblocked {id : Nat} : id < s.nextTid → Did s P (.unblockLock (.user id))
      { unblockLocked s (.user id) with waking := s.waking.erase (.user id) }
  | claimed {c : Fin n} {prev next : Tid n} : (s.cpus c).phase = .spin prev next →
      Did s P (.claim c)
        ((s.setRunning next true).setCpu c { s.cpus c with phase := .claimed prev next })
  | landed {c : Fin n} {prev next : Tid n} : (s.cpus c).phase = .claimed prev next →
      Did s P (.ctxSwitch c) (s.setCpu c { s.cpus c with phase := .landed })
  | released {c : Fin n} {prev : Tid n} {w : Why} {s' : Inner n} : (s.cpus c).phase = .landed →
      P prev = .handed c w → Released s s' c prev (releasedTo s prev w) →
      Did s P (.finishSwitch c) s'
  | reaped {ext : Tid n → Nat} : Did s P (.reap ext) (reap s ext)

theorem Placed.did (hstep : step s a = some s') : Did s P a s' := by
  cases a with
  | cpuEnter c =>
    obtain ⟨hc, ⟨⟩⟩ := Option.ite_none_right_eq_some.1 hstep
    exact .entered hc
  | spawn =>
    cases hstep
    exact .spawned
  | markBlocking c =>
    obtain ⟨t, ht, rfl⟩ := Option.map_eq_some_iff.1 hstep
    exact .marked ht
  | yieldNow c =>
    obtain ⟨t, ht, rfl⟩ := Option.map_eq_some_iff.1 hstep
    obtain ⟨hc, hp⟩ := h.runningOn ht
    have hno : t.isIdle = true → false = false := fun _ => rfl
    rcases h.rescheduleLocked hp hno with ⟨heq, -⟩ | ⟨hne, hsw⟩
    · exact heq.symm ▸ .stayed
    · exact .switched (w := .yielded) rfl nofun hc hp (fun _ => rfl) hne hsw
  | blockCurrent c =>
    obtain ⟨t, ht, rfl⟩ := Option.map_eq_some_iff.1 hstep
    obtain ⟨ht, hi⟩ := userOn_eq ht
    obtain ⟨hc, hp⟩ := h.runningOn ht
    have hno : t.isIdle = true → true = false := by simp [hi]
    rcases h.rescheduleLocked hp hno with ⟨heq, -⟩ | ⟨hne, hsw⟩
    · exact heq.symm ▸ .stayed
    · exact .switched (w := .blocked) rfl nofun hc hp (by simp [hi]) hne hsw
  | exit c =>
    obtain ⟨t, hon, rfl⟩ := Option.map_eq_some_iff.1 hstep
    obtain ⟨ht, hi⟩ := userOn_eq hon
    obtain ⟨hc, hp⟩ := h.runningOn ht
    obtain ⟨hne, hsw⟩ := h.exitLocked hp hi
    exact .switched rfl (fun _ => ⟨rfl, hon⟩) hc hp (by simp [hi]) hne hsw
  | unblockStore t =>
    cases t with
    | idle c => cases hstep
    | user id =>
      obtain ⟨hid, ⟨⟩⟩ := Option.ite_none_right_eq_some.1 hstep
      exact .stored hid.1
  | unblockLock t =>
    obtain ⟨hmem, ⟨⟩⟩ := Option.ite_none_right_eq_some.1 hstep
    obtain ⟨id, rfl, hid⟩ := h.waking t hmem
    exact .unblocked hid
  | claim c =>
    simp only [step] at hstep
    split at hstep
    · next hc =>
        split_ifs at hstep
        cases hstep
        exact .claimed hc
    · cases hstep
  | ctxSwitch c =>
    simp only [step] at hstep
    split at hstep
    · next hc =>
        cases hstep
        exact .landed hc
    · cases hstep
  | finishSwitch c =>
    obtain ⟨hc, ⟨⟩⟩ := Option.ite_none_right_eq_some.1 hstep
    have hslot := h.slot c
    rw [CpuSlot.Ok, hc] at hslot
    obtain ⟨⟨prev, b⟩, hb⟩ := Option.isSome_iff_exists.1 hslot.2
    obtain ⟨w, hprev, -⟩ := (h.handoff c prev b).1 hb
    exact .released hc hprev (h.finishSwitch hprev)
  | reap ext =>
    cases hstep
    exact .reaped

theorem Placed.wake {id : Nat} (hid : id < s.nextTid) :
    Placed { Sched.unblockLocked s (.user id) with waking := s.waking.erase (.user id) }
      (if P (.user id) = .parked then update P (.user id) .queued else P) := by
  have hplaced := h.unblockLocked hid
  refine hplaced.congr (fun _ => rfl) (fun _ => rfl) rfl rfl (fun _ hu => hu) hplaced.freed
    (fun t ht => ?_) rfl rfl
  obtain ⟨id', rfl, hid'⟩ := h.waking t (mem_of_mem_erase ht)
  exact ⟨id', rfl, by rwa [nextTid_unblockLocked]⟩

/-- A step keeps the state in line with the places, and moves each thread at most once
along `Move`. -/
theorem Placed.step (hstep : Sched.step s a = some s') : ∃ P', Placed s' P' ∧ Moves s a P P' := by
  cases h.did hstep with
  | entered hc => exact ⟨_, h.cpuEnter hc, moves_update fun id hid => by cases hid⟩
  | spawned =>
    refine ⟨_, h.spawn, moves_update fun id _ => ?_⟩
    rw [(h.unborn _).2 le_rfl]
    exact .born
  | marked _ => exact ⟨P, h.setWake _ false, .refl s _ P⟩
  | stayed => exact ⟨P, h, .refl s _ P⟩
  | switched _ _ hc hp hidle hne hsw =>
    exact ⟨_, h.switch hc hp hne hidle hsw, h.moves_switch hc hp hne _ _⟩
  | @stored id hid =>
    exact ⟨P, (h.setWake (.user id) true).congr (fun _ => rfl) (fun _ => rfl) rfl rfl
      (fun _ hu => hu) h.freed (forall_mem_append.2 ⟨h.waking, forall_mem_singleton.2
        ⟨id, rfl, hid⟩⟩) rfl rfl, .refl s _ P⟩
  | unblocked hid =>
    refine ⟨_, h.wake hid, ?_⟩
    split_ifs with hp
    · refine moves_update fun _ _ => ?_
      rw [hp]
      exact .woken (by simp [Act.unblocks])
    · exact .refl s _ P
  | claimed hc => exact ⟨P, h.claim hc, .refl s _ P⟩
  | landed hc => exact ⟨P, h.ctxSwitch hc, .refl s _ P⟩
  | @released c prev w _ hc hprev hrel =>
    refine ⟨_, h.released hc hprev hrel, moves_update fun id hid => ?_⟩
    subst hid
    rw [hprev]
    cases w with
    | yielded => exact .requeued c
    | blocked =>
      simp only [releasedTo]
      split_ifs with hwake
      · exact .aborted c hwake
      · exact .parked c (by simpa using hwake)
    | exited => exact .died c
  | reaped => exact ⟨P, h.reap _, .refl s _ P⟩

end Step

end Thos.Sched
