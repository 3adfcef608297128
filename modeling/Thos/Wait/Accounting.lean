import Thos.Wait.Multiple

/-!
# What a wait for several objects takes

Two invariants. A thread inside a call has taken just what its place in the call says,
and a WaitAll that has looked at an object still finds it signalled. For each auto-reset
event, every signal is accounted for, and the threads on its queue and those a signal
has popped are where they belong.
-/

set_option autoImplicit false

namespace Thos.Wait.Multiple

open Thos.Lib Function List Multiple.Sys Option

variable {τ ο : Type}

/-! ## The auto-reset events -/

/-- The thread may be on the event's queue. -/
def Pc.QueuedOn (o : ο) : Pc ο → Prop
  | .parked c => o ∈ c.objs
  | .remove c i => o ∈ c.objs.drop i
  | .single o' _ .parked | .single o' _ .remove => o' = o
  | _ => False

/-- The thread waits for this one event, so that a signal can have popped it. -/
def Pc.AsleepOn (o : ο) : Pc ο → Prop
  | .single o' _ .parked | .single o' _ .remove | .single o' _ .clock => o' = o
  | _ => False

/-- The thread waits for this one event and has been woken. -/
def Pc.WokenOn (o : ο) (wake : Bool) : Pc ο → Prop
  | .single o' _ .parked => o' = o ∧ wake = true
  | .single o' _ .remove | .single o' _ .clock => o' = o
  | _ => False

def Pc.deadline : Pc ο → Option Nat
  | .single _ d _ => d
  | _ => none

/-- The thread is on no queue, and no signal has it under way. -/
def Pc.quiet : Pc ο → Bool
  | .parked _ | .remove _ _ | .single _ _ .parked | .single _ _ .remove | .single _ _ .clock =>
    false
  | _ => true

variable {p q : Pc ο}

theorem Pc.not_queuedOn (h : p.quiet = true) (o : ο) : ¬ p.QueuedOn o := by
  unfold Pc.quiet at h
  split at h <;> simp_all [Pc.QueuedOn]

theorem Pc.not_asleepOn (h : p.quiet = true) (o : ο) : ¬ p.AsleepOn o := by
  unfold Pc.quiet at h
  split at h <;> simp_all [Pc.AsleepOn]

theorem Pc.not_wokenOn (h : p.quiet = true) (o : ο) (wake : Bool) : ¬ p.WokenOn o wake := by
  unfold Pc.quiet at h
  split at h <;> simp_all [Pc.WokenOn]

/-- How a thread stands to an auto-reset event: it is on the queue only while it waits
there; a signal pops it off the queue; and in a wait for this one event only the signal
or the deadline wakes it. -/
structure Fits (s : Sys τ ο) (o : ο) (t : τ) : Prop where
  queue : t ∈ s.queue o → (s.pc t).QueuedOn o
  popped : t ∈ s.popped o → (s.pc t).AsleepOn o ∧ t ∉ s.queue o
  due : (s.pc t).WokenOn o (s.wakePending t) → t ∈ s.popped o ∨ ∃ d ∈ (s.pc t).deadline, d ≤ s.now

variable {s s' : Sys τ ο} {o : ο} {t : τ}

theorem Fits.congr (h : Fits s o t) (hpc : s'.pc t = s.pc t)
    (hqueue : t ∈ s'.queue o ↔ t ∈ s.queue o) (hpopped : t ∈ s'.popped o ↔ t ∈ s.popped o)
    (hwake : s'.wakePending t = s.wakePending t) (hnow : s.now ≤ s'.now) : Fits s' o t where
  queue hq := hpc ▸ h.queue (hqueue.1 hq)
  popped hp := by
    rw [hpc, hqueue]
    exact h.popped (hpopped.1 hp)
  due hw := by
    rw [hpc, hwake] at hw
    rw [hpopped, hpc]
    exact (h.due hw).imp_right fun ⟨d, hd, hle⟩ => ⟨d, hd, Nat.le_trans hle hnow⟩

theorem Fits.of_quiet (hq : t ∉ s.queue o) (hp : t ∉ s.popped o) (hquiet : (s.pc t).quiet = true) :
    Fits s o t where
  queue h := absurd h hq
  popped h := absurd h hp
  due h := absurd h (Pc.not_wokenOn hquiet o _)

theorem Fits.not_mem_queue (h : Fits s o t) (hquiet : (s.pc t).quiet = true) : t ∉ s.queue o :=
  fun hq => Pc.not_queuedOn hquiet o (h.queue hq)

theorem Fits.not_mem_popped (h : Fits s o t) (hquiet : (s.pc t).quiet = true) : t ∉ s.popped o :=
  fun hp => Pc.not_asleepOn hquiet o (h.popped hp).1

variable [DecidableEq τ]

/-! ## The calls -/

/-- What a call has taken at each of its places, and what it counts on. -/
def PcOk (obj : ο → Waitable τ) (t : τ) : Pc ο → Prop
  | .outside | .single _ _ _ => True
  | .scan c _ => c.waitAll = false ∧ c.taken = []
  | .check c i => Plain c ∧ c.waitAll = true ∧ ∀ o ∈ c.objs.take i, (obj o).isSignaled t = true
  | .take c i =>
    c.waitAll = true ∧ (c.objs.filter fun o => (obj o).kind.isCounted).Nodup ∧
      i ≤ c.objs.length ∧ c.taken = List.range i ∧ ∀ o ∈ c.objs.drop i, (obj o).isSignaled t = true
  | .clock c | .locked c _ | .parked c | .remove c _ | .woken c => Plain c
  | .returned c r => c.Accounted r
where
  /-- Nothing is taken yet, and a WaitAll lists no counted object twice. -/
  Plain (c : Call ο) : Prop :=
    c.taken = [] ∧ (c.waitAll = true → (c.objs.filter fun o => (obj o).kind.isCounted).Nodup)

theorem PcOk.congr {obj obj' : ο → Waitable τ} (h : PcOk obj t p)
    (hkind : ∀ o, (obj' o).kind = (obj o).kind)
    (hsig : ∀ o ∈ p.reserved, (obj o).isSignaled t = true → (obj' o).isSignaled t = true) :
    PcOk obj' t p := by
  cases p with
  | outside => trivial
  | single o d p => trivial
  | scan c i => exact h
  | check c i =>
    obtain ⟨hplain, hall, hlook⟩ := h
    refine ⟨?_, hall, fun o ho => hsig o ho (hlook o ho)⟩
    simpa only [PcOk.Plain, hkind] using hplain
  | take c i =>
    obtain ⟨hall, hnd, hi, htaken, hlook⟩ := h
    refine ⟨hall, ?_, hi, htaken, fun o ho => hsig o ho (hlook o ho)⟩
    simpa only [hkind] using hnd
  | clock c | locked c i | parked c | remove c i | woken c =>
    simpa only [PcOk, PcOk.Plain, hkind] using h
  | returned c r => exact h

variable {c : Call ο}

theorem PcOk.start {obj : ο → Waitable τ} (h : PcOk.Plain obj c) : PcOk obj t c.start := by
  unfold Call.start
  split_ifs with hall
  · exact ⟨h, hall, by simp⟩
  · exact ⟨by simpa using hall, h.1⟩

/-! ## The invariant -/

structure AutoOk (s : Sys τ ο) (o : ο) : Prop where
  fits : ∀ t, Fits s o t
  queueNodup : (s.queue o).Nodup
  poppedNodup : (s.popped o).Nodup
  conserved : Conserved s o

/-- What a run of safe steps keeps. -/
structure Inv (s : Sys τ ο) : Prop where
  calls : ∀ t, PcOk s.obj t (s.pc t)
  autos : ∀ o, (s.obj o).kind = .auto → AutoOk s o
  wakes : ∀ w ∈ s.wakes, (s.obj w.target).kind ≠ .auto

/-! ## Kinds of steps -/

theorem filter_ne_of_not_mem {l : List τ} (h : t ∉ l) : l.filter (· ≠ t) = l :=
  filter_eq_self.2 fun _ hu => decide_eq_true fun heq => h (heq ▸ hu)

variable (h : Inv s)
include h

theorem Inv.at_pc (hpc : s.pc t = p) : PcOk s.obj t p := hpc ▸ h.calls t

theorem Inv.calls_setPc (hcall : PcOk s.obj t p) : ∀ u, PcOk s.obj u ((s.setPc t p).pc u) :=
  (forall_update_iff s.pc (PcOk s.obj)).2 ⟨hcall, fun u _ => h.calls u⟩

theorem Inv.setPc (hcall : PcOk s.obj t p)
    (hfit : ∀ o, (s.obj o).kind = .auto → Fits (s.setPc t p) o t) : Inv (s.setPc t p) where
  __ := h
  calls := h.calls_setPc hcall
  autos o ho := by
    have hok := h.autos o ho
    refine ⟨fun u => ?_, hok.queueNodup, hok.poppedNodup, hok.conserved⟩
    by_cases hut : u = t
    · exact hut ▸ hfit o ho
    · exact (hok.fits u).congr (update_of_ne hut ..) Iff.rfl Iff.rfl rfl (le_rfl)

theorem Inv.move (hpc : s.pc t = q) (hquiet : q.quiet = true) (hp : p.quiet = true)
    (hcall : PcOk s.obj t p) : Inv (s.setPc t p) := by
  subst hpc
  refine h.setPc hcall fun o ho => ?_
  have hfit := (h.autos o ho).fits t
  exact .of_quiet (hfit.not_mem_queue hquiet) (hfit.not_mem_popped hquiet) (by simpa [Sys.setPc])

theorem Inv.congr (hobj : s'.obj = s.obj) (hpc : s'.pc = s.pc)
    (hwake : s'.wakePending = s.wakePending) (hnow : s'.now = s.now) (hwakes : s'.wakes = s.wakes)
    (hauto : ∀ o, (s.obj o).kind = .auto → s'.queue o = s.queue o ∧ s'.popped o = s.popped o ∧
      s'.signals o = s.signals o ∧ s'.consumed o = s.consumed o ∧
        s'.absorbed o = s.absorbed o) : Inv s' where
  calls t := by
    rw [hobj, hpc]
    exact h.calls t
  autos o ho := by
    rw [hobj] at ho
    obtain ⟨hq, hp, hs, hc, ha⟩ := hauto o ho
    have hok := h.autos o ho
    refine ⟨fun t => ?_, hq ▸ hok.queueNodup, hp ▸ hok.poppedNodup, ?_⟩
    · exact (hok.fits t).congr (by rw [hpc]) (by rw [hq]) (by rw [hp]) (by rw [hwake])
        (le_of_eq hnow.symm)
    · rw [Conserved, hobj, hs, hc, ha, hp]
      exact hok.conserved
  wakes := by
    rw [hobj, hwakes]
    exact h.wakes

omit h in
theorem Inv.settle (h : Inv (s.setPc t p)) (hp : ∀ o, (s.obj o).kind = .auto → t ∉ s.popped o) :
    Inv (s.settle t p) :=
  h.congr rfl rfl rfl rfl rfl fun o ho => ⟨rfl, filter_ne_of_not_mem (hp o ho), rfl, rfl, rfl⟩

theorem Inv.not_popped (hpc : s.pc t = q) (hquiet : q.quiet = true)
    (ho : (s.obj o).kind = .auto) : t ∉ s.popped o :=
  ((h.autos o ho).fits t).not_mem_popped (hpc ▸ hquiet)

theorem Inv.move_settle (hpc : s.pc t = q) (hquiet : q.quiet = true)
    (hp : p.quiet = true) (hcall : PcOk s.obj t p) : Inv (s.settle t p) :=
  (h.move hpc hquiet hp hcall).settle fun _ ho => h.not_popped hpc hquiet ho

omit h in
theorem Call.quiet_start (c : Call ο) : c.start.quiet = true := by
  unfold Call.start
  split_ifs <;> rfl

variable {i : Nat}

omit h in
theorem not_mem_drop_of_counted {l : List ο} {p : ο → Bool} (hnd : (l.filter p).Nodup)
    (hget : l[i]? = some o) (hp : p o = true) : o ∉ l.drop (i + 1) := by
  intro hmem
  obtain ⟨hi, rfl⟩ := List.getElem?_eq_some_iff.1 hget
  have hsub : ([l[i]] ++ l.drop (i + 1)).Sublist l := by
    rw [singleton_append, ← drop_eq_getElem_cons hi]
    exact drop_sublist i l
  have := hnd.sublist (hsub.filter p)
  rw [filter_append, nodup_append] at this
  exact this.2.2 l[i] (by simp [hp]) l[i] (mem_filter.2 ⟨hmem, hp⟩) rfl

theorem Inv.setLock (l : ο → Option τ) : Inv { s with lock := l } :=
  h.congr rfl rfl rfl rfl rfl fun _ _ => ⟨rfl, rfl, rfl, rfl, rfl⟩

variable {o' : ο} {d : Option Nat}

omit h in
theorem Pc.QueuedOn.eq_of_single {p : SinglePc} (h : (Pc.single o d p).QueuedOn o') : o = o' := by
  cases p <;> first | exact h | exact h.elim

omit h in
theorem Pc.AsleepOn.eq_of_single {p : SinglePc} (h : (Pc.single o d p).AsleepOn o') : o = o' := by
  cases p <;> first | exact h | exact h.elim

theorem Inv.single_apart {p : SinglePc} (hpc : s.pc t = .single o d p)
    (ho : (s.obj o').kind = .auto) (hne : o ≠ o') : t ∉ s.queue o' ∧ t ∉ s.popped o' := by
  have hfit := (h.autos o' ho).fits t
  refine ⟨fun hq => ?_, fun hp => ?_⟩
  · have hqueued := hfit.queue hq
    rw [hpc] at hqueued
    exact hne hqueued.eq_of_single
  · have hslp := (hfit.popped hp).1
    rw [hpc] at hslp
    exact hne hslp.eq_of_single

omit h in
theorem length_filter_ne {l : List τ} (hnd : l.Nodup) (hmem : t ∈ l) :
    (l.filter (· ≠ t)).length + 1 = l.length := by
  have hpos := length_pos_of_mem hmem
  have herase : l.erase t = l.filter (· ≠ t) := by
    rw [hnd.erase_eq_filter]
    exact filter_congr fun u _ => by simp [bne, Bool.beq_eq_decide_eq]
  rw [← herase, length_erase_of_mem hmem]
  omega

/-- The call that a thread waiting for several objects is in. -/
def Pc.call : Pc ο → Option (Call ο)
  | .scan c _ | .check c _ | .take c _ | .clock c | .locked c _ | .parked c | .remove c _
  | .woken c | .returned c _ => some c
  | .outside | .single _ _ _ => none

/-- A step in a call for several objects touches no object, or takes one unit of a listed
one and records its place. -/
def Charged (s s' : Sys τ ο) (t : τ) : Prop :=
  ∀ c, (s.pc t).call = some c →
    (s'.obj = s.obj ∧ ∀ c', (s'.pc t).call = some c' → c'.taken = c.taken) ∨
      ∃ i o, c.objs[i]? = some o ∧ Consumes t (s.obj o) (s'.obj o) ∧
        (∀ o', o' ≠ o → s'.obj o' = s.obj o') ∧
          ∃ c', (s'.pc t).call = some c' ∧ c'.taken = c.taken ++ [i]

omit h in
theorem Call.call_start (c : Call ο) : c.start.call = some c := by
  unfold Call.start
  split_ifs <;> rfl

omit h in
theorem Charged.of_same (hpc : s.pc t = q) (hq : q.call = some c) (hobj : s'.obj = s.obj)
    (hpc' : s'.pc = update s.pc t p) (hcall : p.call = some c ∨ p.call = none) :
    Charged s s' t := by
  intro c₀ hc₀
  rw [hpc, hq] at hc₀
  cases hc₀
  refine .inl ⟨hobj, fun c' hc' => ?_⟩
  rw [hpc', update_self] at hc'
  rcases hcall with hcall | hcall
  · rw [some.inj (hc'.symm.trans hcall)]
  · cases hc'.symm.trans hcall

variable [DecidableEq ο] {ws : List (Wake ο)}

omit h in
@[simp]
theorem kind_tryTake (s : Sys τ ο) (t : τ) (o o' : ο) :
    ((s.tryTake t o).obj o').kind = (s.obj o').kind := by
  by_cases ho : o' = o
  · simp [tryTake, ho]
  · simp [tryTake, update_of_ne ho]

omit h in
theorem Undisturbed.keeps (h : Undisturbed s t o) {u : τ} (hut : u ≠ t)
    (hres : o' ∈ (s.pc u).reserved) (hsig : (s.obj o').isSignaled u = true) :
    ((s.tryTake t o).obj o').isSignaled u = true := by
  by_cases ho : o' = o
  · subst ho
    rcases h with hman | hfree
    · -- a take leaves a manual-reset event as it is
      cases hw : s.obj o' with
      | manual signaled => simpa [tryTake, hw, Waitable.tryTake] using hsig
      | auto signaled | semaphore count limit | mutant owner recursion =>
        simp [hw, Waitable.kind] at hman
    · exact absurd hres (hfree u hut)
  · simpa [tryTake, update_of_ne ho] using hsig

omit h in
theorem Conserved.tryTake (h : Conserved s o) (t : τ) (o' : ο) (ho : (s.obj o).kind = .auto) :
    Conserved (s.tryTake t o') o := by
  by_cases hoo : o = o'
  · subst hoo
    cases hw : s.obj o with
    | auto signaled =>
      have hc := h
      cases signaled <;> simp [Conserved, Sys.tryTake, hw, Waitable.tryTake, Waitable.isSignaled,
          Waitable.latched] at hc ⊢ <;> omega
    | manual signaled | semaphore count limit | mutant owner recursion =>
      simp [hw, Waitable.kind] at ho
  · have hcons : (s.tryTake t o').consumed o = s.consumed o := by
      simp only [Sys.tryTake]
      split_ifs
      · exact update_of_ne hoo ..
      · rfl
    have hobj : (s.tryTake t o').obj o = s.obj o := update_of_ne hoo ..
    rw [Conserved, hcons, hobj]
    exact h

theorem Inv.take (hund : Undisturbed s t o) (hpc : s.pc t = q)
    (hquiet : q.quiet = true) (hp : p.quiet = true) (hcall : PcOk (s.tryTake t o).obj t p) :
    Inv ((s.tryTake t o).setPc t p) where
  calls := (forall_update_iff s.pc (PcOk (s.tryTake t o).obj)).2 ⟨hcall, fun u hut =>
    (h.calls u).congr (kind_tryTake s t o) fun o' hres hsig => hund.keeps hut hres hsig⟩
  autos o' ho' := by
    have ho : (s.obj o').kind = .auto := by rwa [← kind_tryTake s t o o']
    have hok := h.autos o' ho
    refine ⟨fun u => ?_, hok.queueNodup, hok.poppedNodup, hok.conserved.tryTake t o ho⟩
    by_cases hut : u = t
    · subst hut hpc
      exact .of_quiet ((hok.fits u).not_mem_queue hquiet) ((hok.fits u).not_mem_popped hquiet)
        (by simpa [Sys.setPc])
    · exact (hok.fits u).congr (update_of_ne hut ..) Iff.rfl Iff.rfl rfl (le_rfl)
  wakes w hw heq := h.wakes w hw ((kind_tryTake s t o _).symm.trans heq)

theorem Inv.park {objs : List ο} (hpc : s.pc t = q) (hquiet : q.quiet = true)
    (hqueued : ∀ o ∈ objs, p.QueuedOn o) (hwoken : ∀ o, ¬ p.WokenOn o false)
    (hcall : PcOk s.obj t p) : Inv ((s.enqueue t objs).setPc t p) where
  __ := h
  calls := h.calls_setPc hcall
  autos o ho := by
    have hok := h.autos o ho
    have hnq := (hok.fits t).not_mem_queue (hpc ▸ hquiet)
    have hnp := h.not_popped hpc hquiet ho
    refine ⟨fun u => ?_, ?_, hok.poppedNodup, hok.conserved⟩
    · by_cases hut : u = t
      · subst hut
        refine ⟨fun hq => ?_, fun hp => absurd hp hnp, fun hw => ?_⟩
        · have hmem : o ∈ objs := by
            by_contra hno
            exact hnq (by simpa [Sys.setPc, Sys.enqueue, hno] using hq)
          simpa [Sys.setPc] using hqueued o hmem
        · simp [Sys.setPc, Sys.enqueue, hwoken] at hw
      · refine (hok.fits u).congr (update_of_ne hut ..) ?_ Iff.rfl
          (update_of_ne hut ..) (le_rfl)
        by_cases hmem : o ∈ objs <;> simp [Sys.setPc, Sys.enqueue, hmem, hut]
    · by_cases hmem : o ∈ objs
      · have hnd : (s.queue o ++ [t]).Nodup :=
          nodup_append_comm.2 (nodup_cons.2 ⟨hnq, hok.queueNodup⟩)
        simpa [Sys.setPc, Sys.enqueue, hmem] using hnd
      · simpa [Sys.setPc, Sys.enqueue, hmem] using hok.queueNodup

theorem Inv.dequeue (hcall : PcOk s.obj t p)
    (hqueued : ∀ o', o' ≠ o → (s.pc t).QueuedOn o' → p.QueuedOn o')
    (hslp : ∀ o', (s.pc t).AsleepOn o' → p.AsleepOn o')
    (hwoken : ∀ o' wake, p.WokenOn o' wake → (s.pc t).WokenOn o' wake)
    (hdeadline : p.deadline = (s.pc t).deadline) : Inv { s.setPc t p with
      queue := update s.queue o ((s.queue o).filter (· ≠ t)) } where
  __ := h
  calls := h.calls_setPc hcall
  autos o' ho := by
    have hok := h.autos o' ho
    have hsub : (update s.queue o ((s.queue o).filter (· ≠ t)) o').Sublist (s.queue o') := by
      by_cases hoo : o' = o
      · subst hoo
        simp
      · rw [update_of_ne hoo]
    refine ⟨fun u => ?_, hok.queueNodup.sublist hsub, hok.poppedNodup, hok.conserved⟩
    by_cases hut : u = t
    · subst hut
      have hfit := hok.fits u
      refine ⟨fun hq => ?_, fun hp => ?_, fun hw => ?_⟩
      · have hoo : o' ≠ o := by
          rintro rfl
          simp at hq
        simpa [Sys.setPc] using hqueued o' hoo (hfit.queue (hsub.subset hq))
      · obtain ⟨ha, hnq⟩ := hfit.popped hp
        exact ⟨by simpa [Sys.setPc] using hslp o' ha, fun hq => hnq (hsub.subset hq)⟩
      · have := hfit.due (hwoken o' _ (by simpa [Sys.setPc] using hw))
        simpa [Sys.setPc, hdeadline] using this
    · refine (hok.fits u).congr (update_of_ne hut ..) ?_ Iff.rfl rfl (le_rfl)
      by_cases hoo : o' = o
      · subst hoo
        simp [hut]
      · simp [update_of_ne hoo]

/-! ## The steps of a call -/

theorem Inv.take_settle (hund : Undisturbed s t o) (hpc : s.pc t = q) (hquiet : q.quiet = true)
    (hp : p.quiet = true) (hcall : PcOk (s.tryTake t o).obj t p) :
    Inv ((s.tryTake t o).settle t p) :=
  (h.take hund hpc hquiet hp hcall).settle fun o' ho => h.not_popped hpc hquiet (by simpa using ho)

section Advance

variable (hstep : advance s t = some s')
include hstep

theorem Inv.scan (hpc : s.pc t = .scan c i) (hsafe : ∀ o ∈ c.objs[i]?, Undisturbed s t o) :
    Inv s' := by
  obtain ⟨hany, htaken⟩ := h.at_pc hpc
  simp only [advance, hpc] at hstep
  cases hget : c.objs[i]? with
  | none =>
    cases hget ▸ hstep
    exact h.move hpc rfl rfl ⟨htaken, by simp [hany]⟩
  | some o =>
    rw [hget] at hstep
    have hi : i < c.objs.length := (List.getElem?_eq_some_iff.1 hget).1
    dsimp only at hstep
    split_ifs at hstep with hsig
    · cases hstep
      exact h.take_settle (hsafe o hget) hpc rfl rfl ⟨hany, hi, by simp [htaken]⟩
    · cases hstep
      exact h.take (hsafe o hget) hpc rfl rfl ⟨hany, htaken⟩

theorem Inv.check (hpc : s.pc t = .check c i) : Inv s' := by
  obtain ⟨hplain, hall, hlook⟩ := h.at_pc hpc
  simp only [advance, hpc] at hstep
  cases hget : c.objs[i]? with
  | none =>
    -- all have been looked at, and all are still signalled
    cases hget ▸ hstep
    rw [take_of_length_le (getElem?_eq_none_iff.1 hget)] at hlook
    exact h.move hpc rfl rfl ⟨hall, hplain.2 hall, Nat.zero_le _, hplain.1, hlook⟩
  | some o =>
    rw [hget] at hstep
    dsimp only at hstep
    split_ifs at hstep with hsig
    · cases hstep
      refine h.move hpc rfl rfl ⟨hplain, hall, fun o' ho' => ?_⟩
      rw [take_add_one, hget, mem_append] at ho'
      rcases ho' with ho' | ho'
      · exact hlook o' ho'
      · obtain rfl : o' = o := by simpa using ho'
        exact hsig
    · cases hstep
      exact h.move hpc rfl rfl hplain

theorem Inv.takeAll (hpc : s.pc t = .take c i) (hsafe : ∀ o ∈ c.objs[i]?, Undisturbed s t o) :
    Inv s' := by
  obtain ⟨hall, hnd, hi, htaken, hlook⟩ := h.at_pc hpc
  simp only [advance, hpc] at hstep
  cases hget : c.objs[i]? with
  | none =>
    cases hget ▸ hstep
    have hlen : i = c.objs.length := Nat.le_antisymm hi (List.getElem?_eq_none_iff.1 hget)
    exact h.move_settle hpc rfl rfl ⟨hall, hlen ▸ htaken⟩
  | some o =>
    cases hget ▸ hstep
    obtain ⟨hlt, rfl⟩ := List.getElem?_eq_some_iff.1 hget
    have hdrop := drop_eq_getElem_cons hlt
    have hsig : (s.obj c.objs[i]).isSignaled t = true := hlook _ (hdrop ▸ mem_cons_self)
    refine h.take (hsafe _ hget) hpc rfl rfl ⟨hall, by simpa using hnd, hlt, ?_, fun o' ho' => ?_⟩
    · simp [hsig, htaken, range_succ]
    · have hsig' := hlook o' (hdrop ▸ mem_cons_of_mem _ ho')
      by_cases hoo : o' = c.objs[i]
      · -- met again, so it is of a kind that stays signalled for the taker
        subst hoo
        have hc : (s.obj c.objs[i]).kind.isCounted = false := by
          by_contra hc
          exact not_mem_drop_of_counted hnd hget (by simpa using hc) ho'
        simpa [tryTake] using Waitable.isSignaled_tryTake hc hsig
      · simpa [tryTake, update_of_ne hoo] using hsig'

omit hstep in
theorem Inv.parkMulti (hpc : s.pc t = q) (hquiet : q.quiet = true) (hplain : PcOk.Plain s.obj c) :
    Inv (((s.enqueue t c.objs).unlock c.objs).settle t (.parked c)) := by
  have hpark : Inv ((s.enqueue t c.objs).setPc t (.parked c)) :=
    h.park hpc hquiet (fun _ ho => ho) (fun _ hw => hw) hplain
  exact Inv.settle (hpark.setLock _) fun _ ho => h.not_popped hpc hquiet ho

theorem Inv.clock (hpc : s.pc t = .clock c) : Inv s' := by
  have hplain : PcOk.Plain s.obj c := h.at_pc hpc
  simp only [advance, hpc] at hstep
  split_ifs at hstep with hstop hfree
  · cases hstep
    exact h.move_settle hpc rfl rfl hplain.1
  · cases hstep
    exact (h.move hpc rfl rfl hplain : Inv (s.setPc t (.locked c 0))).setLock _

theorem Inv.locked (hpc : s.pc t = .locked c i) : Inv s' := by
  have hplain : PcOk.Plain s.obj c := h.at_pc hpc
  have hstart : Inv ((s.unlock c.objs).setPc t c.start) :=
    (h.move hpc rfl c.quiet_start (.start hplain)).setLock _
  simp only [advance, hpc] at hstep
  split at hstep <;> split_ifs at hstep <;> cases hstep
  · exact hstart
  · exact h.parkMulti hpc rfl hplain
  · exact h.move hpc rfl rfl hplain
  · exact h.parkMulti hpc rfl hplain
  · exact hstart

theorem Inv.parked (hpc : s.pc t = .parked c) : Inv s' := by
  have hplain : PcOk.Plain s.obj c := h.at_pc hpc
  simp only [advance, hpc, ite_none_right_eq_some] at hstep
  obtain ⟨-, ⟨⟩⟩ := hstep
  refine h.setPc hplain fun o ho => ?_
  have hfit := (h.autos o ho).fits t
  refine ⟨fun hq => ?_, fun hp => ?_, fun hw => ?_⟩
  · simpa [Sys.setPc, hpc, Pc.QueuedOn] using hfit.queue hq
  · simpa [hpc, Pc.AsleepOn] using (hfit.popped hp).1
  · simp [Sys.setPc, Pc.WokenOn] at hw

theorem Inv.remove (hpc : s.pc t = .remove c i) : Inv s' := by
  have hplain : PcOk.Plain s.obj c := h.at_pc hpc
  simp only [advance, hpc] at hstep
  cases hget : c.objs[i]? with
  | none =>
    cases hget ▸ hstep
    refine h.setPc hplain fun o ho => ?_
    have hfit := (h.autos o ho).fits t
    refine .of_quiet (fun hq => ?_) (fun hp => ?_) (by simp [Sys.setPc, Pc.quiet])
    · -- no place is left to be on the queue of
      have hmem := hfit.queue hq
      rw [hpc, Pc.QueuedOn, drop_of_length_le (List.getElem?_eq_none_iff.1 hget)] at hmem
      exact absurd hmem not_mem_nil
    · simpa [hpc, Pc.AsleepOn] using (hfit.popped hp).1
  | some o =>
    rw [hget] at hstep
    dsimp only at hstep
    split_ifs at hstep
    cases hstep
    obtain ⟨hlt, rfl⟩ := List.getElem?_eq_some_iff.1 hget
    refine h.dequeue hplain ?_ ?_ ?_ ?_
    · intro o' hne hq
      rw [hpc, Pc.QueuedOn, drop_eq_getElem_cons hlt] at hq
      exact (mem_cons.1 hq).resolve_left hne
    · simp [hpc, Pc.AsleepOn]
    · simp [Pc.WokenOn]
    · simp [hpc, Pc.deadline]

theorem Inv.woken (hpc : s.pc t = .woken c) : Inv s' := by
  have hplain : PcOk.Plain s.obj c := h.at_pc hpc
  simp only [advance, hpc] at hstep
  split_ifs at hstep <;> cases hstep
  · exact h.move_settle hpc rfl rfl hplain.1
  · exact h.move hpc rfl c.quiet_start (.start hplain)

end Advance

/-! ## The steps of a wait for one object -/

theorem Inv.wokenUp {p : SinglePc} (hpc : s.pc t = .single o d p)
    (hpop : (s.obj o).kind = .auto → t ∈ s.popped o) : Inv (singleStep.wokenUp t o d s) := by
  rw [singleStep.wokenUp]
  by_cases hauto : (s.obj o).kind = .auto
  · have hmem := hpop hauto
    simp only [hauto, hmem, if_true]
    refine ⟨h.calls_setPc trivial, fun o' ho => ?_, h.wakes⟩
    have hok := h.autos o' ho
    have hnq : t ∉ s.queue o' := by
      by_cases hoo : o = o'
      · exact ((hok.fits t).popped (hoo ▸ hmem)).2
      · exact (h.single_apart hpc ho hoo).1
    refine ⟨fun u => ?_, hok.queueNodup, hok.poppedNodup.filter _, ?_⟩
    · by_cases hut : u = t
      · subst hut
        exact .of_quiet hnq (by simp [Sys.settle]) (by simp [Sys.settle, Sys.setPc, Pc.quiet])
      · exact (hok.fits u).congr (update_of_ne hut ..) Iff.rfl (by simp [Sys.settle, hut])
          rfl (le_rfl)
    · -- the signal that popped the thread is consumed now
      have hcons := hok.conserved
      rw [Conserved] at hcons ⊢
      dsimp only [Sys.settle, Sys.setPc]
      by_cases hoo : o' = o
      · subst hoo
        have hlen := length_filter_ne hok.poppedNodup hmem
        rw [update_self]
        omega
      · have hfilter := filter_ne_of_not_mem (h.single_apart hpc ho (Ne.symm hoo)).2
        rw [update_of_ne hoo, hfilter]
        exact hcons
  · rw [if_neg hauto]
    refine h.setPc (by trivial) fun o' ho => ?_
    have hoo : o ≠ o' := fun hoo => hauto (hoo ▸ ho)
    obtain ⟨hq, hp⟩ := h.single_apart hpc ho hoo
    exact .of_quiet hq hp (by simp [Sys.setPc, Pc.quiet])

theorem Inv.single {p : SinglePc} (hpc : s.pc t = .single o d p)
    (hsafe : (Act.advance t).Safe s) (hstep : singleStep s t o d p = some s') : Inv s' := by
  simp only [Act.Safe, hpc, SafeAt] at hsafe
  cases p with
  | «try» =>
    simp only [singleStep] at hstep
    split_ifs at hstep <;> cases hstep
    · exact h.take_settle hsafe hpc rfl rfl (by trivial)
    · exact h.take hsafe hpc rfl rfl (by trivial)
  | lock =>
    simp only [singleStep] at hstep
    split_ifs at hstep <;> cases hstep
    · have hpark : Inv ((s.enqueue t [o]).setPc t (.single o d .parked)) :=
        h.park hpc rfl (fun o' ho => (mem_singleton.1 ho).symm)
          (fun o' hw => by cases hw.2) (by trivial)
      exact hpark.settle fun _ ho => h.not_popped hpc rfl ho
    · exact h.take_settle hsafe hpc rfl rfl (by trivial)
    · exact h.move hpc rfl rfl (by trivial)
  | parked =>
    simp only [singleStep] at hstep
    split_ifs at hstep with hwake hd <;> cases hstep
    · refine h.setPc (by trivial) fun o' ho => ?_
      have hfit := (h.autos o' ho).fits t
      refine ⟨fun hq => ?_, fun hp => ?_, fun hw => ?_⟩
      · simpa [Sys.setPc, hpc, Pc.QueuedOn] using hfit.queue hq
      · simpa [Sys.setPc, hpc, Pc.AsleepOn] using hfit.popped hp
      · have hoo : o = o' := by simpa [Sys.setPc, Pc.WokenOn] using hw
        have hwoken : (s.pc t).WokenOn o' (s.wakePending t) := by
          simpa [hpc, Pc.WokenOn, hoo] using hwake
        simpa [Sys.setPc, hpc, Pc.deadline] using hfit.due hwoken
    · -- without a deadline only a signal wakes the thread
      refine h.wokenUp hpc fun hauto => ?_
      have hwoken : (s.pc t).WokenOn o (s.wakePending t) := by simpa [hpc, Pc.WokenOn] using hwake
      refine (((h.autos o hauto).fits t).due hwoken).resolve_right ?_
      rintro ⟨d', hd', -⟩
      rw [hpc, Pc.deadline] at hd'
      simp [mem_def.1 hd'] at hd
  | remove =>
    simp only [singleStep] at hstep
    split_ifs at hstep
    cases hstep
    refine h.dequeue (by trivial) ?_ ?_ ?_ ?_
    · intro o' hne hq
      rw [hpc] at hq
      exact absurd hq.eq_of_single.symm hne
    · simp [hpc, Pc.AsleepOn]
    · simp [hpc, Pc.WokenOn]
    · simp [hpc, Pc.deadline]
  | clock =>
    simp only [singleStep] at hstep
    split_ifs at hstep with hexp <;> cases hstep
    · obtain ⟨d', hd', hle⟩ := hexp
      have hnp : ∀ o', (s.obj o').kind = .auto → t ∉ s.popped o' := fun o' ho hp => by
        have hslp := (((h.autos o' ho).fits t).popped hp).1
        rw [hpc] at hslp
        obtain rfl := hslp.eq_of_single
        have := hsafe hp d' hd'
        omega
      refine Inv.settle (h.setPc (by trivial) fun o' ho => ?_) hnp
      refine .of_quiet (fun hq => ?_) (hnp o' ho) (by simp [Sys.setPc, Pc.quiet])
      simpa [hpc, Pc.QueuedOn] using ((h.autos o' ho).fits t).queue hq
    · refine h.wokenUp hpc fun hauto => ?_
      have hwoken : (s.pc t).WokenOn o (s.wakePending t) := by simp [hpc, Pc.WokenOn]
      refine (((h.autos o hauto).fits t).due hwoken).resolve_right fun hd => hexp ?_
      simpa [hpc, Pc.deadline] using hd
  | returned b =>
    simp only [singleStep] at hstep
    cases hstep
    exact h.move hpc rfl rfl (by trivial)

theorem Inv.advance (hsafe : (Act.advance t).Safe s)
    (hstep : Multiple.advance s t = some s') : Inv s' := by
  cases hpc : s.pc t with
  | outside => simp [Multiple.advance, hpc] at hstep
  | scan c i =>
    simp only [Act.Safe, hpc, SafeAt] at hsafe
    exact h.scan hstep hpc hsafe
  | check c i => exact h.check hstep hpc
  | take c i =>
    simp only [Act.Safe, hpc, SafeAt] at hsafe
    exact h.takeAll hstep hpc hsafe
  | clock c => exact h.clock hstep hpc
  | locked c i => exact h.locked hstep hpc
  | parked c => exact h.parked hstep hpc
  | remove c i => exact h.remove hstep hpc
  | woken c => exact h.woken hstep hpc
  | returned c r =>
    simp only [Multiple.advance, hpc] at hstep
    cases hstep
    exact h.move hpc rfl rfl (by trivial)
  | single o d p =>
    simp only [Multiple.advance, hpc] at hstep
    exact h.single hpc hsafe hstep

/-! ## The steps of the others -/

theorem Inv.setObj {w : Waitable τ} {signals absorbed : ο → Nat} (hkind : w.kind = (s.obj o).kind)
    (hsig : ∀ u, o ∈ (s.pc u).reserved → (s.obj o).isSignaled u = true → w.isSignaled u = true)
    (hws : ∀ v ∈ ws, v ∈ s.wakes ∨ v.target = o ∧ w.kind ≠ .auto)
    (hother : ∀ o', o' ≠ o → signals o' = s.signals o' ∧ absorbed o' = s.absorbed o')
    (hself : w.kind = .auto →
      signals o + (s.obj o).latched + s.absorbed o = s.signals o + w.latched + absorbed o) :
    Inv { s with obj := update s.obj o w, wakes := ws, signals, absorbed } := by
  have hk : ∀ o', (update s.obj o w o').kind = (s.obj o').kind :=
    (forall_update_iff s.obj fun o' w => w.kind = (s.obj o').kind).2 ⟨hkind, fun _ _ => rfl⟩
  refine ⟨fun u => (h.calls u).congr hk fun o' hres hs => ?_, fun o' ho => ?_, fun v hv => ?_⟩
  · by_cases ho : o' = o
    · subst ho
      simpa using hsig u hres hs
    · simpa [update_of_ne ho] using hs
  · have hok := h.autos o' (hk o' ▸ ho)
    refine ⟨fun u => (hok.fits u).congr rfl Iff.rfl Iff.rfl rfl (le_rfl), hok.queueNodup,
      hok.poppedNodup, ?_⟩
    have hcons := hok.conserved
    rw [Conserved] at hcons ⊢
    dsimp only
    by_cases hoo : o' = o
    · subst hoo
      rw [update_self]
      have hcount := hself (by simpa using ho)
      omega
    · rwa [update_of_ne hoo, (hother o' hoo).1, (hother o' hoo).2]
  · dsimp only
    rw [hk]
    rcases hws v hv with hv | ⟨hv, hauto⟩
    · exact h.wakes v hv
    · rw [hv, ← hkind]
      exact hauto

theorem Inv.setPlain {w w₀ : Waitable τ} (hobj : s.obj o = w₀)
    (hkind : w.kind = w₀.kind) (hauto : w.kind ≠ .auto)
    (hsig : ∀ u, o ∈ (s.pc u).reserved → (s.obj o).isSignaled u = true → w.isSignaled u = true)
    (hws : ∀ v ∈ ws, v ∈ s.wakes ∨ v.target = o) :
    Inv { s with obj := update s.obj o w, wakes := ws } :=
  h.setObj (hobj ▸ hkind) hsig (fun v hv => (hws v hv).imp_right fun hv => ⟨hv, hauto⟩)
    (fun _ _ => ⟨rfl, rfl⟩) fun h => absurd h hauto

omit h in
omit [DecidableEq τ] [DecidableEq ο] in
theorem mem_wakes_concat {v w : Wake ο} (hv : v ∈ ws ++ [w]) : v ∈ ws ∨ v.target = w.target :=
  (mem_append.1 hv).imp_right fun hv => congrArg Wake.target (mem_singleton.1 hv)

theorem Inv.signal (hsafe : (Act.signal o : Act τ ο).Safe s)
    (hstep : Multiple.signal s o = some s') : Inv s' := by
  cases hobj : s.obj o with
  | manual b =>
    simp only [Multiple.signal, hobj] at hstep
    cases hstep
    exact h.setPlain hobj rfl nofun (fun _ _ _ => rfl) fun v hv => mem_wakes_concat hv
  | auto b =>
    have hauto : (s.obj o).kind = .auto := by simp [hobj, Waitable.kind]
    simp only [Multiple.signal, hobj, ite_none_left_eq_some] at hstep
    obtain ⟨-, hstep⟩ := hstep
    cases hq : s.queue o with
    | nil =>
      cases hq ▸ hstep
      refine h.setObj hauto.symm (fun _ _ _ => rfl) (fun _ => .inl) (fun o' ho => ?_) fun _ => ?_
      · cases b <;> simp [update_of_ne ho]
      · cases b <;> simp [hobj, Waitable.latched_auto]
        omega
    | cons t q =>
      cases hq ▸ hstep
      -- the head is a thread that waits for this event alone
      have hok := h.autos o hauto
      have hfit := hok.fits t
      have hmem : t ∈ s.queue o := by simp [hq]
      have hnp : t ∉ s.popped o := fun hp => (hfit.popped hp).2 hmem
      have hslp : (s.pc t).AsleepOn o := by
        have hqueued := hfit.queue hmem
        have hsingle := hsafe hauto t (by simp [hq])
        cases hpc : s.pc t <;> simp [hpc, Pc.isSingle] at hsingle
        rename_i o' d p
        rw [hpc] at hqueued
        cases p <;> simp_all [Pc.QueuedOn, Pc.AsleepOn]
      have hnd : t ∉ q ∧ q.Nodup := nodup_cons.1 (hq ▸ hok.queueNodup)
      refine ⟨h.calls, fun o' ho => ?_, h.wakes⟩
      by_cases hoo : o' = o
      · subst hoo
        refine ⟨fun u => ?_, by simpa using hnd.2, ?_, ?_⟩
        · by_cases hut : u = t
          · subst hut
            refine ⟨fun hu => absurd hu (by simpa using hnd.1), fun _ => ?_, fun _ => ?_⟩
            · simpa using ⟨hslp, hnd.1⟩
            · simp
          · refine (hok.fits u).congr rfl ?_ ?_ rfl (le_rfl)
            · simp [hq, hut]
            · simp [hut]
        · simpa [nodup_append, hok.poppedNodup] using fun u hu (heq : u = t) => hnp (heq ▸ hu)
        · have hcons := hok.conserved
          simp only [Conserved, update_self, length_append, length_singleton] at hcons ⊢
          omega
      · have hok' := h.autos o' ho
        refine ⟨fun u => (hok'.fits u).congr rfl ?_ ?_ rfl (le_rfl), ?_, ?_, ?_⟩
        · simp [update_of_ne hoo]
        · simp [update_of_ne hoo]
        · simpa [update_of_ne hoo] using hok'.queueNodup
        · simpa [update_of_ne hoo] using hok'.poppedNodup
        · simpa [Conserved, update_of_ne hoo] using hok'.conserved
  | semaphore c l | mutant w r => simp [Multiple.signal, hobj] at hstep

theorem Inv.reset (hsafe : (Act.reset o : Act τ ο).Safe s)
    (hstep : Multiple.reset s o = some s') : Inv s' := by
  cases hobj : s.obj o with
  | manual b =>
    simp only [Multiple.reset, hobj] at hstep
    cases hstep
    exact h.setPlain hobj rfl nofun (fun u hres => absurd hres (hsafe u)) fun v hv => .inl hv
  | auto b =>
    simp only [Multiple.reset, hobj] at hstep
    cases hstep
    refine h.setObj (by simp [hobj, Waitable.kind]) (fun u hres => absurd hres (hsafe u))
      (fun _ => .inl) (fun o' ho => ?_) fun _ => ?_
    · cases b <;> simp [update_of_ne ho]
    · cases b <;> simp [hobj, Waitable.latched_auto]
      omega
  | semaphore c l | mutant w r => simp [Multiple.reset, hobj] at hstep

theorem Inv.release {k : Int} (hstep : Multiple.release s o k = some s') : Inv s' := by
  cases hobj : s.obj o with
  | semaphore count limit =>
    simp only [Multiple.release, hobj] at hstep
    split_ifs at hstep with hbad <;> cases hstep
    · exact h
    · refine h.setPlain hobj rfl nofun
        (fun u _ hsig => ?_) fun v hv => mem_wakes_concat hv
      have hpos : 0 < count := by simpa [hobj, Waitable.isSignaled] using hsig
      simp only [Waitable.isSignaled, decide_eq_true_eq]
      omega
  | manual b | auto b | mutant w r => simp [Multiple.release, hobj] at hstep

theorem Inv.releaseMutant (hstep : Multiple.releaseMutant s t o = some s') : Inv s' := by
  cases hobj : s.obj o with
  | mutant owner recursion =>
    simp only [Multiple.releaseMutant, hobj] at hstep
    split_ifs at hstep <;> cases hstep
    · exact h
    · exact h.setPlain hobj rfl (by rintro ⟨⟩)
        (fun _ _ _ => by simp [Waitable.isSignaled]) fun v hv => mem_wakes_concat hv
    · refine h.setPlain hobj rfl (by rintro ⟨⟩)
        (fun u _ hsig => ?_) fun v hv => .inl hv
      rwa [hobj] at hsig
  | manual b | auto b | semaphore c l => simp [Multiple.releaseMutant, hobj] at hstep

theorem Inv.setQueue (ho : (s.obj o).kind ≠ .auto) (q : List τ)
    (hws : ∀ v ∈ ws, v ∈ s.wakes ∨ v.target = o) :
    Inv { s with queue := update s.queue o q, wakes := ws } := by
  refine ⟨h.calls, fun o' ho' => ?_, fun v hv => ?_⟩
  · have hoo : o' ≠ o := fun hoo => ho (hoo ▸ ho')
    have hok := h.autos o' ho'
    have hq : update s.queue o q o' = s.queue o' := update_of_ne hoo ..
    exact ⟨fun u => (hok.fits u).congr rfl (by dsimp only; rw [hq]) Iff.rfl rfl (le_rfl),
      by dsimp only; rw [hq]; exact hok.queueNodup, hok.poppedNodup, hok.conserved⟩
  · rcases hws v hv with hv | rfl
    · exact h.wakes v hv
    · exact ho

theorem Inv.wake {w : Wake ο} (hw : w ∈ s.wakes)
    (hstep : Multiple.wake s w = some s') : Inv s' := by
  have hkind := h.wakes w hw
  cases w with
  | one o n =>
    simp only [Multiple.wake, ite_none_left_eq_some] at hstep
    obtain ⟨-, hstep⟩ := hstep
    split at hstep <;> cases hstep
    · have hws : ∀ v ∈ s.wakes.erase (.one o n), v ∈ s.wakes ∨ v.target = o := fun v hv =>
        .inl (mem_of_mem_erase hv)
      have hkeep := h.setQueue (o := o) hkind (s.queue o) hws
      rwa [update_eq_self] at hkeep
    · refine h.setQueue hkind _ fun v hv => ?_
      rcases mem_append.1 hv with hv | hv
      · exact .inl (mem_of_mem_erase hv)
      · split_ifs at hv
        · exact .inr (by rw [mem_singleton.1 hv]; rfl)
        · cases hv
  | all o =>
    simp only [Multiple.wake, ite_none_left_eq_some, some.injEq] at hstep
    obtain ⟨-, rfl⟩ := hstep
    exact h.setQueue hkind _ fun v hv => .inl (mem_of_mem_erase hv)

omit [DecidableEq ο] in
theorem Inv.unblock (hsafe : (Act.unblock t : Act τ ο).Safe s) :
    Inv { s with wakePending := update s.wakePending t true } := by
  refine ⟨h.calls, fun o ho => ?_, h.wakes⟩
  have hok := h.autos o ho
  refine ⟨fun u => ?_, hok.queueNodup, hok.poppedNodup, hok.conserved⟩
  by_cases hut : u = t
  · subst hut
    have hfit := hok.fits u
    refine ⟨hfit.queue, hfit.popped, fun hw => ?_⟩
    dsimp only at hw ⊢
    cases hpc : s.pc u <;> simp only [hpc, Pc.WokenOn] at hw
    rename_i o' d p
    cases p <;> simp only at hw
    · -- asleep: this is the wake that the condition speaks of
      obtain ⟨rfl, -⟩ := hw
      simp only [Act.Safe, hpc, WakesAt] at hsafe
      exact hsafe ho
    · simpa [hpc] using hfit.due (by simpa [hpc, Pc.WokenOn] using hw)
    · simpa [hpc] using hfit.due (by simpa [hpc, Pc.WokenOn] using hw)
  · exact (hok.fits u).congr rfl Iff.rfl Iff.rfl (update_of_ne hut ..) (le_rfl)

omit [DecidableEq ο] in
theorem Inv.tick : Inv { s with now := s.now + 1 } := by
  refine ⟨h.calls, fun o ho => ?_, h.wakes⟩
  have hok := h.autos o ho
  exact ⟨fun u => (hok.fits u).congr rfl Iff.rfl Iff.rfl rfl (Nat.le_succ _), hok.queueNodup,
    hok.poppedNodup, hok.conserved⟩

/-! ## Runs -/

theorem Inv.step {a : Act τ ο} (hsafe : a.Safe s)
    (hstep : Multiple.step s a = some s') : Inv s' := by
  cases a with
  | beginMulti t objs waitAll timeout =>
    simp only [Multiple.step] at hstep
    split at hstep
    case h_2 => cases hstep
    case h_1 hpc =>
      split_ifs at hstep <;> cases hstep
      · exact h
      · exact h.move hpc rfl (Call.quiet_start _) (.start ⟨rfl, hsafe⟩)
  | beginSingle t o deadline =>
    simp only [Multiple.step] at hstep
    split at hstep
    case h_2 => cases hstep
    case h_1 hpc =>
      split_ifs at hstep <;> cases hstep <;> exact h.move hpc rfl rfl (by trivial)
  | pollOne t o =>
    simp only [Multiple.step] at hstep
    split at hstep
    case h_2 => cases hstep
    case h_1 hpc =>
      cases hstep
      have htake : Inv ((s.tryTake t o).setPc t .outside) := h.take hsafe hpc rfl rfl (by trivial)
      have hself : (s.tryTake t o).setPc t .outside = s.tryTake t o := by
        rw [Sys.setPc, ← hpc]
        exact congrArg (fun pc => { s.tryTake t o with pc }) (update_eq_self t s.pc)
      rwa [hself] at htake
  | advance t => exact h.advance hsafe hstep
  | signal o => exact h.signal hsafe hstep
  | reset o => exact h.reset hsafe hstep
  | release o n => exact h.release hstep
  | releaseMutant t o =>
    simp only [Multiple.step] at hstep
    split at hstep
    · exact h.releaseMutant hstep
    · cases hstep
  | wake w =>
    simp only [Multiple.step, ite_none_right_eq_some] at hstep
    exact h.wake hstep.1 hstep.2
  | unblock t =>
    cases hstep
    exact h.unblock hsafe
  | tick =>
    cases hstep
    exact h.tick

omit h

omit [DecidableEq ο] in
theorem Start.inv (h : Start s) : Inv s where
  calls t := by
    rw [h.pc t]
    trivial
  autos o _ := by
    refine ⟨fun t => .of_quiet ?_ ?_ (by simp [h.pc t, Pc.quiet]), ?_, ?_, ?_⟩
    · simp [h.queue o]
    · simp [h.popped o]
    · simp [h.queue o]
    · simp [h.popped o]
    · simp [Conserved, h.signals o, h.consumed o, h.absorbed o, h.popped o]
  wakes := by simp [h.wakes]

/-! ## What the steps of a call take -/

theorem obj_tryTake_of_not_signaled (h : (s.obj o).isSignaled t = false) :
    (s.tryTake t o).obj = s.obj := by
  rw [tryTake, Waitable.tryTake_snd h, update_eq_self]

theorem Charged.of_taken {c' : Call ο} (hpc : s.pc t = q) (hq : q.call = some c)
    (hget : c.objs[i]? = some o) (hsig : (s.obj o).isSignaled t = true)
    (hobj : s'.obj = (s.tryTake t o).obj) (hpc' : s'.pc = update s.pc t p)
    (hcall : p.call = some c') (htaken : c'.taken = c.taken ++ [i]) : Charged s s' t := by
  intro c₀ hc₀
  rw [hpc, hq] at hc₀
  cases hc₀
  refine .inr ⟨i, o, hget, ?_, fun o' ho => ?_, c', by rwa [hpc', update_self], htaken⟩
  · rw [hobj]
    simpa [tryTake] using Waitable.consumes_tryTake hsig
  · rw [hobj]
    exact update_of_ne ho ..

theorem advance_charged (hstep : advance s t = some s') : Charged s s' t := by
  cases hpc : s.pc t <;> simp only [advance, hpc] at hstep
  case outside => cases hstep
  case scan c i =>
    split at hstep
    case h_1 =>
      cases hstep
      exact .of_same hpc rfl rfl rfl (.inl rfl)
    case h_2 o hget =>
      split_ifs at hstep with hsig <;> cases hstep
      · exact .of_taken hpc rfl hget hsig rfl rfl rfl rfl
      · exact .of_same hpc rfl (obj_tryTake_of_not_signaled (by simpa using hsig))
          rfl (.inl rfl)
  case check c i =>
    split at hstep
    · cases hstep
      exact .of_same hpc rfl rfl rfl (.inl rfl)
    · split_ifs at hstep <;> cases hstep <;> exact .of_same hpc rfl rfl rfl (.inl rfl)
  case take c i =>
    split at hstep
    case h_1 =>
      cases hstep
      exact .of_same hpc rfl rfl rfl (.inl rfl)
    case h_2 o hget =>
      cases hstep
      by_cases hsig : (s.obj o).isSignaled t = true
      · exact .of_taken hpc rfl hget hsig rfl rfl rfl (if_pos hsig)
      · exact .of_same hpc rfl (obj_tryTake_of_not_signaled (by simpa using hsig))
          rfl (.inl (by simp [Pc.call, hsig]))
  case clock c =>
    split_ifs at hstep <;> cases hstep <;> exact .of_same hpc rfl rfl rfl (.inl rfl)
  case locked c i =>
    split at hstep <;> split_ifs at hstep <;> cases hstep <;> first
      | exact .of_same hpc rfl rfl rfl (.inl rfl)
      | exact .of_same hpc rfl rfl rfl (.inl c.call_start)
  case parked c =>
    obtain ⟨-, ⟨⟩⟩ := ite_none_right_eq_some.1 hstep
    exact .of_same hpc rfl rfl rfl (.inl rfl)
  case remove c i =>
    split at hstep
    · cases hstep
      exact .of_same hpc rfl rfl rfl (.inl rfl)
    · split_ifs at hstep
      cases hstep
      exact .of_same hpc rfl rfl rfl (.inl rfl)
  case woken c =>
    split_ifs at hstep <;> cases hstep
    · exact .of_same hpc rfl rfl rfl (.inl rfl)
    · exact .of_same hpc rfl rfl rfl (.inl c.call_start)
  case returned c r =>
    cases hstep
    exact .of_same hpc rfl rfl rfl (.inr rfl)
  case single o d p =>
    intro c hc
    simp [hpc, Pc.call] at hc

/-! ## The result -/

/-- Every run of safe steps from a state where nobody waits: a call for several objects
has taken what its outcome says, each of its steps takes at most one unit and records it;
and no signal to an auto-reset event is lost, those under way being with threads that wait
for this event alone. -/
theorem wait_multiple_accounted {s₀ s : Sys τ ο} (h₀ : Start s₀)
    (hrun : Run step (fun s a => a.Safe s) s₀ s) :
    (∀ t c r, s.pc t = .returned c r → c.Accounted r) ∧
      (∀ t s', step s (.advance t) = some s' → Charged s s' t) ∧ ∀ o, (s.obj o).kind = .auto →
          Conserved s o ∧ ∀ t ∈ s.popped o, (s.pc t).AsleepOn o := by
  have hinv : Inv s := hrun.invariant (fun _ _ _ h hsafe hstep => h.step hsafe hstep) h₀.inv
  refine ⟨fun t c r hpc => ?_, fun t s' hstep => advance_charged hstep, fun o ho => ?_⟩
  · exact hinv.at_pc hpc
  · have hok := hinv.autos o ho
    exact ⟨hok.conserved, fun t ht => ((hok.fits t).popped ht).1⟩

/-- Two threads and the given objects, with nobody waiting. -/
def atRest (obj : Fin 2 → Waitable (Fin 2)) : Sys (Fin 2) (Fin 2) where
  obj := obj
  queue := fun _ => []
  lock := fun _ => none
  wakes := []
  now := 0
  pc := fun _ => .outside
  wakePending := fun _ => false
  popped := fun _ => []
  signals := fun o => (obj o).latched
  consumed := fun _ => 0
  absorbed := fun _ => 0

theorem start_atRest (obj : Fin 2 → Waitable (Fin 2)) : Start (atRest obj) where
  pc _ := rfl
  queue _ := rfl
  wakes := rfl
  popped _ := rfl
  signals _ := rfl
  consumed _ := rfl
  absorbed _ := rfl

/-- An auto-reset event and an empty semaphore. -/
def eventAndSemaphore : Fin 2 → Waitable (Fin 2)
  | 0 => .auto false
  | 1 => .semaphore 0 5

/-- Thread 1 waits for the event and thread 0 for either object; the signal goes to
thread 1, and the unit released to the semaphore to thread 0. -/
def bothServed : List (Act (Fin 2) (Fin 2)) :=
  [.beginSingle 1 0 none, .advance 1, .beginMulti 0 [0, 1] false .forever] ++
    List.replicate 7 (.advance 0) ++ [.signal 0, .unblock 1, .advance 1, .release 1 1,
      .wake (.one 1 1), .unblock 0] ++ List.replicate 7 (.advance 0)

/-- A call that has returned, and its outcome. -/
def Pc.result : Pc ο → Option (Call ο × Outcome)
  | .returned c r => some (c, r)
  | _ => none

omit [DecidableEq ο] in
theorem Pc.eq_of_result {r : Outcome} (h : p.result = some (c, r)) : p = .returned c r := by
  cases p <;> simp [Pc.result] at h
  rw [h.1, h.2]

theorem wait_multiple_accounted_bothServed :
    ∃ s, runAll (guarded step fun s a => a.Safe s) (atRest eventAndSemaphore) bothServed =
        some s ∧ s.pc 0 = .returned ⟨[0, 1], false, .forever, [1]⟩ (.index 1) ∧ s.consumed 0 = 1 ∧
      ∀ o, (s.obj o).kind = .auto → Conserved s o := by
  have hrun : (runAll (guarded step fun s a => a.Safe s) (atRest eventAndSemaphore)
      bothServed).map (fun s => ((s.pc 0).result, s.consumed 0)) =
        some (some (⟨[0, 1], false, .forever, [1]⟩, .index 1), 1) := by decide
  obtain ⟨s, hs, heq⟩ := map_eq_some_iff.1 hrun
  obtain ⟨hout, hcons⟩ := Prod.mk.inj heq
  have hok := wait_multiple_accounted (start_atRest _) (run_of_guarded (reach_of_runAll hs))
  exact ⟨s, hs, Pc.eq_of_result hout, hcons, fun o ho => (hok.2.2 o ho).1⟩

/-- A signal releases a WaitAny, which looks at the event, finds it clear and goes to
sleep again. -/
def signalLost : List (Act (Fin 2) (Fin 2)) :=
  .beginMulti 0 [0] false .forever :: List.replicate 5 (.advance 0) ++
    [.signal 0, .unblock 0] ++ List.replicate 9 (.advance 0)

def latchedEvent : Fin 2 → Waitable (Fin 2)
  | 0 => .auto true
  | 1 => .semaphore 0 5

/-- A WaitAll that lists the event twice. -/
def listedTwice : List (Act (Fin 2) (Fin 2)) :=
  .beginMulti 0 [0, 0] true .forever :: List.replicate 6 (.advance 0)

/-- In the first run the signal is neither consumed nor latched nor under way; in the
second the WaitAll reports success and has taken one unit for its two places. -/
theorem wait_multiple_not_accounted :
    (∃ s, Reach step (atRest eventAndSemaphore) s ∧ (s.obj 0).kind = .auto ∧
        s.signals 0 = 1 ∧ ¬ Conserved s 0) ∧
      ∃ s c, Reach step (atRest latchedEvent) s ∧ s.pc 0 = .returned c .all ∧
        ¬ c.Accounted .all := by
  have hlost : (runAll step (atRest eventAndSemaphore) signalLost).map
      (fun s => ((s.obj 0).kind, s.signals 0, decide (Conserved s 0))) =
        some (.auto, 1, false) := by decide
  have htwice : (runAll step (atRest latchedEvent) listedTwice).map
      (fun s => (s.pc 0).result) = some (some (⟨[0, 0], true, .forever, [0]⟩, .all)) := by decide
  refine ⟨?_, ?_⟩
  · obtain ⟨s, hs, heq⟩ := map_eq_some_iff.1 hlost
    simp only [Prod.mk.injEq, decide_eq_false_iff_not] at heq
    exact ⟨s, reach_of_runAll hs, heq.1, heq.2.1, heq.2.2⟩
  · obtain ⟨s, hs, hres⟩ := map_eq_some_iff.1 htwice
    exact ⟨s, _, reach_of_runAll hs, Pc.eq_of_result hres, by decide⟩

end Thos.Wait.Multiple
