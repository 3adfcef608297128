import Thos.Wait.Event

/-!
# An auto-reset event conserves its signals

A thread inside a wait is woken by its signal or by its deadline, and by nothing else,
as long as no `unblock` that is left from another wait reaches it. This is the
invariant: whoever has been woken is due. A run of safe steps keeps it, so a success
without a deadline is always paid for by the signal that popped the waiter.
-/

set_option autoImplicit false

namespace Thos.Wait

open Thos.Lib Thos.Sched List Sys
open Option (bind_eq_some_iff ite_none_right_eq_some map_eq_some_iff)
open Function (update update_of_ne update_self)

variable {n : Nat}

/-! ## The invariant -/

/-- A signal has popped the thread and started its `unblock`, or its deadline has
passed. -/
def Due (s : Sys n) (t : Tid n) : Prop :=
  (t ∈ s.popped ∧ t ∉ s.toUnblock) ∨ ∃ d ∈ (s.pc t).deadline, d ≤ s.now

/-- The thread has come back from `block_current`. -/
@[simp]
def Pc.isBack : Pc → Bool
  | .resumed _ | .removed _ | .disarmed _ => true
  | _ => false

/-- A thread inside a wait has been woken only if it is due. -/
structure ThreadOk (s : Sys n) (t : Tid n) : Prop where
  user : ∃ id, t = .user id ∧ id < s.sched.nextTid
  wake : (s.sched.threads t).wakePending = true → Due s t
  waking : t ∈ s.sched.waking → Due s t
  asleep : ∀ d, s.pc t = .sleeping d → Due s t ∨ (s.sched.threads t).state = .blocked
  back : (s.pc t).isBack = true → Due s t

/-- What a run of safe steps keeps. -/
structure Inv (s : Sys n) : Prop where
  placed : ∃ P, Placed s.sched P
  thread : ∀ t, s.pc t ≠ .outside → ThreadOk s t
  queue : ∀ t, t ∈ s.queue ↔ (s.pc t).onQueue = true ∧ t ∉ s.popped
  queueNodup : s.queue.Nodup
  popped : ∀ t ∈ s.popped, s.pc t ≠ .outside
  poppedNodup : s.popped.Nodup
  toUnblock : ∀ t ∈ s.toUnblock, t ∈ s.popped
  toUnblockNodup : s.toUnblock.Nodup
  wheel : ∀ d t, (d, t) ∈ s.wheel → (s.pc t).onWheel = true ∧ (s.pc t).deadline = some d
  wheelNodup : (s.wheel.map Prod.snd).Nodup
  count : s.successes + (if s.signaled then 1 else 0) + s.popped.length ≤ s.signals
  lost : s.lost = 0

variable {s s' : Sys n} {t : Tid n} {a : Sched.Act n}

theorem ThreadOk.congr (h : ThreadOk s t) (hsched : s'.sched = s.sched) (hdue : Due s t → Due s' t)
    (hsleep : ∀ d, s'.pc t = .sleeping d → s.pc t = .sleeping d)
    (hback : (s'.pc t).isBack = true → (s.pc t).isBack = true) : ThreadOk s' t where
  user := hsched ▸ h.user
  wake hw := hdue (h.wake (hsched ▸ hw))
  waking hw := hdue (h.waking (hsched ▸ hw))
  asleep d hd := by
    rw [hsched]
    exact (h.asleep d (hsleep d hd)).imp_left hdue
  back hb := hdue (h.back (hback hb))

theorem ThreadOk.sched (h : ThreadOk s t) {P : Tid n → Place n} (hP : Placed s.sched P)
    (hsched : Sched.step s.sched a = some s'.sched) (hpc : s'.pc t = s.pc t)
    (hdue : Due s t → Due s' t) (hmark : ¬ Marks s.sched a t)
    (hstore : a = .unblockStore t → Due s' t) : ThreadOk s' t := by
  obtain ⟨id, rfl, hid⟩ := h.user
  obtain ⟨P', hP', hmoves⟩ := hP.step hsched
  by_cases hst : a = .unblockStore (.user id)
  · have hd := hstore hst
    exact ⟨⟨id, rfl, lt_of_lt_of_le hid (hP.nextTid_le hP' hmoves)⟩, fun _ => hd, fun _ => hd,
      fun _ _ => .inl hd, fun _ => hd⟩
  · have hwake := hP.wakePending_step hsched hid hmark hst
    refine ⟨⟨id, rfl, lt_of_lt_of_le hid (hP.nextTid_le hP' hmoves)⟩, fun hw => ?_, fun hw => ?_,
      fun d hd => ?_, fun hb => hdue (h.back (hpc ▸ hb))⟩
    · exact hdue (h.wake (hwake ▸ hw))
    · exact hdue (h.waking ((hP.mem_waking_step hsched hw).resolve_right hst))
    · by_cases hd' : Due s (.user id)
      · exact .inl (hdue hd')
      · -- not due, so neither is a wake pending nor is this step its `unblock`
        right
        refine hP.blocked_stays hsched hid ((h.asleep d (hpc ▸ hd)).resolve_left hd') ?_ ?_
        · by_contra hw
          exact hd' (h.wake (by simpa using hw))
        · by_contra hunb
          cases a <;> simp only [Act.unblocks, Bool.not_eq_false, decide_eq_true_eq,
            not_true_eq_false] at hunb
          subst hunb
          simp only [Sched.step, ite_none_right_eq_some] at hsched
          exact hd' (h.waking hsched.1)

theorem Inv.thread_sched (h : Inv s) (hsched : Sched.step s.sched a = some s'.sched)
    (hin : s.pc t ≠ .outside) (hpc : s'.pc t = s.pc t) (hdue : Due s t → Due s' t)
    (hmark : ¬ Marks s.sched a t) (hstore : a = .unblockStore t → Due s' t) : ThreadOk s' t :=
  have ⟨_, hP⟩ := h.placed
  (h.thread t hin).sched hP hsched hpc hdue hmark hstore

theorem Inv.placed_step (h : Inv s) {sched : Inner n}
    (hsched : Sched.step s.sched a = some sched) : ∃ P, Placed sched P :=
  have ⟨_, hP⟩ := h.placed
  have ⟨P', hP', _⟩ := hP.step hsched
  ⟨P', hP'⟩

theorem Due.congr (h : Due s t) (hpop : t ∈ s.popped → t ∈ s'.popped)
    (hun : t ∈ s'.toUnblock → t ∈ s.toUnblock) (hpc : (s'.pc t).deadline = (s.pc t).deadline)
    (hnow : s.now ≤ s'.now) : Due s' t := by
  rcases h with ⟨hp, hu⟩ | ⟨d, hd, hle⟩
  · exact .inl ⟨hpop hp, fun hmem => hu (hun hmem)⟩
  · exact .inr ⟨d, hpc ▸ hd, hle.trans hnow⟩

variable {p : Pc}

theorem apply_update_of_eq {β : Type} (f : Pc → β) {pc : Tid n → Pc} (h : f p = f (pc t))
    (u : Tid n) : f (update pc t p u) = f (pc u) := by
  by_cases hut : u = t
  · rw [hut, update_self, h]
  · rw [update_of_ne hut]

theorem setPc_pc_of_ne {u : Tid n} (hut : u ≠ t) : (s.setPc t p).pc u = s.pc u :=
  update_of_ne hut ..

/-! ## Each step -/

theorem Inv.sched (h : Inv s) (hsafe : (Act.sched a).Safe s)
    (hstep : step s (.sched a) = some s') : Inv s' := by
  simp only [step] at hstep
  split_ifs at hstep with hactor
  obtain ⟨sched, hsched, rfl⟩ := map_eq_some_iff.1 hstep
  refine { h with placed := h.placed_step hsched, thread := fun t ht => ?_ }
  -- a thread inside a wait neither marks itself here nor is unblocked from elsewhere
  refine h.thread_sched hsched ht rfl id ?_ ?_
  · rintro ⟨c, rfl, hc⟩
    exact ht (hactor t (by simpa [actor] using (userOn_eq hc).1))
  · rintro rfl
    exact absurd hsafe ht

theorem Inv.signal (h : Inv s) (hstep : step s .signal = some s') : Inv s' := by
  simp only [step] at hstep
  cases hq : s.queue with
  | nil =>
    cases hq ▸ hstep
    refine { h with
      thread := fun t ht => { h.thread t ht with }
      queue := hq ▸ h.queue
      queueNodup := nodup_nil
      count := ?_ }
    have := h.count
    dsimp only
    split_ifs at * <;> omega
  | cons t q =>
    cases hq ▸ hstep
    have hqueue := h.queue
    have hnd := h.queueNodup
    have hun := h.toUnblock
    rw [hq] at hqueue hnd
    obtain ⟨hon, hfresh⟩ := (hqueue t).1 mem_cons_self
    have hin : s.pc t ≠ .outside := by
      intro hout
      simp [hout] at hon
    refine { h with thread := fun u hu => ?_, queue := ?_, queueNodup := hnd.of_cons,
                    popped := ?_, poppedNodup := ?_, toUnblock := ?_, toUnblockNodup := ?_,
                    count := ?_ }
    · refine (h.thread u hu).congr rfl (fun hd => ?_) (fun _ => id) id
      rcases hd with ⟨hp, hnu⟩ | hd
      · refine .inl ⟨mem_append_left _ hp, ?_⟩
        simp only [mem_append, mem_singleton, not_or]
        exact ⟨hnu, fun heq => hfresh (heq ▸ hp)⟩
      · exact .inr hd
    · grind
    · have := h.popped
      grind
    · exact nodup_append.2 ⟨h.poppedNodup, by simp, by grind⟩
    · grind
    · exact nodup_append.2 ⟨h.toUnblockNodup, by simp, by grind⟩
    · have := h.count
      simp only [length_append, length_singleton]
      omega

theorem Inv.signalUnblock (h : Inv s) (hstep : step s (.signalUnblock t) = some s') : Inv s' := by
  obtain ⟨hmem, hstep⟩ := ite_none_right_eq_some.1 hstep
  obtain ⟨sched, hsched, rfl⟩ := map_eq_some_iff.1 hstep
  refine { h with placed := h.placed_step hsched, thread := fun u hu => ?_, toUnblock := ?_,
                  toUnblockNodup := h.toUnblockNodup.erase t }
  · refine h.thread_sched hsched hu rfl (fun hd => ?_) ?_ ?_
    · exact hd.congr (fun hp => hp) (fun hm => mem_of_mem_erase hm) rfl le_rfl
    · rintro ⟨c, hc, -⟩
      cases hc
    · rintro ⟨⟩
      exact .inl ⟨h.toUnblock t hmem, h.toUnblockNodup.not_mem_erase⟩
  · exact fun u hu => h.toUnblock u (mem_of_mem_erase hu)

theorem Inv.tryTake (h : Inv s) (hstep : step s .tryTake = some s') : Inv s' := by
  cases hstep
  refine { h with
    thread := fun t ht => { h.thread t ht with }
    count := ?_ }
  have := h.count
  dsimp only
  split_ifs at * <;> omega

variable {c : Fin n}

theorem Inv.user_of_userOn (h : Inv s) (ht : userOn s.sched c = some t) :
    ∃ id, t = .user id ∧ id < s.sched.nextTid := by
  obtain ⟨P, hP⟩ := h.placed
  obtain ⟨hrun, hi⟩ := userOn_eq ht
  cases t with
  | idle c => cases hi
  | user id => exact ⟨id, rfl, hP.born_of_runningOn hrun⟩

theorem ThreadOk.other {u : Tid n} (h : ThreadOk s u) (hut : u ≠ t) (hsched : s'.sched = s.sched)
    (hpc : s'.pc = update s.pc t p) (hpop : u ∈ s.popped → u ∈ s'.popped)
    (hun : s'.toUnblock = s.toUnblock) (hnow : s'.now = s.now) : ThreadOk s' u := by
  have hpc : s'.pc u = s.pc u := by rw [hpc, update_of_ne hut]
  exact h.congr hsched (fun hd => hd.congr hpop (hun ▸ fun hm => hm) (by rw [hpc]) hnow.ge)
    (fun _ hd => hpc ▸ hd) (fun hb => hpc ▸ hb)

section

variable (h : Inv s)
include h

theorem Inv.move {q : List (Tid n)} {w : List (Nat × Tid n)} (hin : s.pc t ≠ .outside)
    (hout : p ≠ .outside) (hdl : p.deadline = (s.pc t).deadline) (hsleep : ∀ d, p ≠ .sleeping d)
    (hback : p.isBack = true → Due s t)
    (hq : ∀ u, u ∈ q ↔ (update s.pc t p u).onQueue = true ∧ u ∉ s.popped) (hqn : q.Nodup)
    (hw : ∀ d u, (d, u) ∈ w → (update s.pc t p u).onWheel = true ∧
      (update s.pc t p u).deadline = some d) (hwn : (w.map Prod.snd).Nodup) :
    Inv { s.setPc t p with queue := q, wheel := w } where
  __ := h
  thread u hu := by
    by_cases hut : u = t
    · subst hut
      have hdue : Due s u → Due { s.setPc u p with queue := q, wheel := w } u := fun hd =>
        hd.congr id id (apply_update_of_eq Pc.deadline hdl u) le_rfl
      have hok := h.thread u hin
      refine ⟨hok.user, fun hwake => hdue (hok.wake hwake), fun hm => hdue (hok.waking hm), ?_, ?_⟩
      · simp [setPc, hsleep]
      · intro hb
        exact hdue (hback (by simpa [setPc] using hb))
    · have hpc : s.pc u ≠ .outside := setPc_pc_of_ne hut ▸ hu
      exact (h.thread u hpc).other hut rfl rfl id rfl rfl
  queue := hq
  queueNodup := hqn
  popped u hu := by
    by_cases hut : u = t
    · simpa [setPc, hut] using hout
    · exact (setPc_pc_of_ne hut).symm ▸ h.popped u hu
  wheel := hw
  wheelNodup := hwn

theorem Inv.arm (hstep : step s (.arm c) = some s') : Inv s' := by
  obtain ⟨t, -, hstep⟩ := bind_eq_some_iff.1 hstep
  split at hstep
  case h_1 d hpc =>
    split_ifs at hstep
    cases hstep
    have hnone : ∀ d', (d', t) ∉ s.wheel := fun d' hd => by simpa [hpc] using (h.wheel d' t hd).1
    refine h.move (by simp [hpc]) (by simp) (by simp [hpc]) (by simp)
      (by simp) (fun u => ?_) h.queueNodup ?_ ?_
    · rw [apply_update_of_eq Pc.onQueue (by simp [hpc])]
      exact h.queue u
    · intro d' u hm
      rcases mem_append.1 hm with hm | hm
      · have hut : u ≠ t := fun hut => hnone d' (hut ▸ hm)
        simpa [update_of_ne hut] using h.wheel d' u hm
      · obtain ⟨rfl, rfl⟩ := Prod.mk.inj (mem_singleton.1 hm)
        simp
    · rw [map_append, nodup_append_comm]
      refine nodup_cons.2 ⟨fun ht => ?_, h.wheelNodup⟩
      obtain ⟨⟨d', u⟩, he, rfl⟩ := mem_map.1 ht
      exact hnone d' he
  case h_2 => cases hstep

theorem Inv.remove (hstep : step s (.remove c) = some s') : Inv s' := by
  obtain ⟨t, -, hstep⟩ := bind_eq_some_iff.1 hstep
  split at hstep
  case h_1 d hpc =>
    cases hstep
    refine h.move (by simp [hpc]) (by simp) (by simp [hpc]) (by simp)
      (fun _ => (h.thread t (by simp [hpc])).back (by simp [hpc])) (fun u => ?_)
      (h.queueNodup.filter _) (fun d' u hm => ?_) h.wheelNodup
    · by_cases hut : u = t
      · simp [hut]
      · simp [hut, h.queue u]
    · rw [apply_update_of_eq Pc.onWheel (by simp [hpc]),
        apply_update_of_eq Pc.deadline (by simp [hpc])]
      exact h.wheel d' u hm
  case h_2 => cases hstep

theorem Inv.disarm (hstep : step s (.disarm c) = some s') : Inv s' := by
  obtain ⟨t, -, hstep⟩ := bind_eq_some_iff.1 hstep
  split at hstep
  case h_1 d hpc =>
    split_ifs at hstep
    cases hstep
    have hsub := eraseP_sublist (p := fun e : Nat × Tid n => decide (e.2 = t)) (l := s.wheel)
    -- a thread has one entry, so none is left after the first match is gone
    have hgone : ∀ d', (d', t) ∉ s.wheel.eraseP fun e => e.2 = t := by
      have hnd := h.wheelNodup
      generalize s.wheel = w at hnd
      induction w with
      | nil => simp
      | cons e w ih =>
        intro d'
        rw [map_cons, nodup_cons] at hnd
        by_cases he : e.2 = t
        · rw [eraseP_cons_of_pos (by simpa using he)]
          exact fun hm => hnd.1 (mem_map.2 ⟨(d', t), hm, he.symm⟩)
        · rw [eraseP_cons_of_neg (by simpa using he), mem_cons, not_or]
          exact ⟨fun heq => he (heq ▸ rfl), ih hnd.2 d'⟩
    refine h.move (by simp [hpc]) (by simp) (by simp [hpc]) (by simp)
      (fun _ => (h.thread t (by simp [hpc])).back (by simp [hpc])) (fun u => ?_)
      h.queueNodup ?_ (h.wheelNodup.sublist (hsub.map _))
    · rw [apply_update_of_eq Pc.onQueue (by simp [hpc])]
      exact h.queue u
    · intro d' u hm
      have hut : u ≠ t := fun hut => hgone d' (hut ▸ hm)
      simpa [update_of_ne hut] using h.wheel d' u (hsub.subset hm)
  case h_2 => cases hstep

theorem Inv.leave {k l : Nat} (hq : t ∉ s.queue) (hw : ∀ d, (d, t) ∉ s.wheel)
    (hun : t ∉ s.toUnblock)
    (hcount : k + (if s.signaled then 1 else 0) + (s.popped.erase t).length ≤ s.signals)
    (hlost : l = 0) :
    Inv { s.setPc t .outside with popped := s.popped.erase t, successes := k, lost := l } := by
  have hmem : ∀ u, u ∈ s.popped.erase t ↔ u ≠ t ∧ u ∈ s.popped := fun u =>
    h.poppedNodup.mem_erase_iff
  refine { h with
    thread := fun u hu => ?_, queue := fun u => ?_, popped := fun u hu => ?_,
    poppedNodup := h.poppedNodup.erase t, toUnblock := fun u hu => ?_, wheel := fun d u hu => ?_,
    count := hcount, lost := hlost }
  · have hut : u ≠ t := fun hut => hu (by simp [setPc, hut])
    have hpc : s.pc u ≠ .outside := setPc_pc_of_ne hut ▸ hu
    exact (h.thread u hpc).other hut rfl rfl (fun hp => (hmem u).2 ⟨hut, hp⟩) rfl rfl
  · rw [hmem]
    by_cases hut : u = t
    · simpa [setPc, hut] using hq
    · simp [setPc, hut, h.queue u]
  · obtain ⟨hut, hp⟩ := (hmem u).1 hu
    exact (setPc_pc_of_ne hut).symm ▸ h.popped u hp
  · exact (hmem u).2 ⟨fun hut => hun (hut ▸ hu), h.toUnblock u hu⟩
  · have hut : u ≠ t := fun hut => hw d (hut ▸ hu)
    exact (setPc_pc_of_ne hut).symm ▸ h.wheel d u hu

theorem Inv.succeed (hq : t ∉ s.queue) (hw : ∀ d, (d, t) ∉ s.wheel)
    (hpop : t ∈ s.popped) (hun : t ∉ s.toUnblock) : Inv (s.succeed t) := by
  refine h.leave hq hw hun ?_ h.lost
  have hlen := length_erase_of_mem hpop
  have hpos := length_pos_of_mem hpop
  have hcount := h.count
  omega

theorem Inv.resume (hstep : step s (.resume c) = some s') : Inv s' := by
  obtain ⟨t, ht, hstep⟩ := bind_eq_some_iff.1 hstep
  -- it runs, so it is not blocked, so it is due
  have hdue : ∀ d, s.pc t = .sleeping d → Due s t := by
    intro d hd
    obtain ⟨id, rfl, -⟩ := h.user_of_userOn ht
    obtain ⟨P, hP⟩ := h.placed
    refine ((h.thread _ (by simp [hd])).asleep d hd).resolve_right fun hb => ?_
    rw [hP.running_of_runningOn (userOn_eq ht).1] at hb
    cases hb
  split at hstep
  case h_1 hpc =>
    cases hstep
    -- without a deadline only a signal makes a thread due
    rcases hdue none hpc with ⟨hpop, hun⟩ | ⟨d, hd, -⟩
    · refine h.succeed (fun hq => ((h.queue t).1 hq).2 hpop) (fun d hd => ?_) hpop hun
      simpa [hpc] using (h.wheel d t hd).2
    · simp [hpc] at hd
  case h_2 d hpc =>
    cases hstep
    refine h.move (by simp [hpc]) (by simp) (by simp [hpc]) (by simp)
      (fun _ => hdue _ hpc) (fun u => ?_) h.queueNodup (fun d' u hm => ?_) h.wheelNodup
    · rw [apply_update_of_eq Pc.onQueue (by simp [hpc])]
      exact h.queue u
    · rw [apply_update_of_eq Pc.onWheel (by simp [hpc]),
        apply_update_of_eq Pc.deadline (by simp [hpc])]
      exact h.wheel d' u hm
  case h_3 => cases hstep

theorem Inv.finish (hsafe : (Act.finish c).Safe s)
    (hstep : step s (.finish c) = some s') : Inv s' := by
  obtain ⟨t, ht, hstep⟩ := bind_eq_some_iff.1 hstep
  split at hstep
  case h_1 d hpc =>
    cases hstep
    have hq : t ∉ s.queue := by simp [h.queue t, hpc]
    have hw : ∀ d', (d', t) ∉ s.wheel := fun d' hd => by simpa [hpc] using (h.wheel d' t hd).1
    split_ifs with hle
    · have hfresh : t ∉ s.popped := fun hp => by
        have := hsafe t ht hp d (by simp [hpc])
        omega
      refine h.leave hq hw (fun hu => hfresh (h.toUnblock t hu)) ?_ ?_
      · rw [erase_of_not_mem hfresh]
        exact h.count
      · rw [if_neg hfresh, h.lost]
    · rcases (h.thread t (by simp [hpc])).back (by simp [hpc]) with ⟨hpop, hun⟩ | hd
      · exact h.succeed hq hw hpop hun
      · simp [hpc, hle] at hd
  case h_2 => cases hstep

theorem Inv.beginWait {deadline : Option Nat} (hsafe : (Act.beginWait c deadline).Safe s)
    (hstep : step s (.beginWait c deadline) = some s') : Inv s' := by
  obtain ⟨t, ht, hstep⟩ := bind_eq_some_iff.1 hstep
  split_ifs at hstep with hout hsig
  · -- the latched signal pays for the success
    cases hstep
    refine { h with
      thread := fun t ht => { h.thread t ht with }
      count := ?_ }
    have := h.count
    simp only [hsig, if_true] at this
    simp only [Bool.false_eq_true, if_false]
    omega
  · obtain ⟨sched, hsched, rfl⟩ := map_eq_some_iff.1 hstep
    rw [not_not] at hout
    have hfresh : t ∉ s.popped := fun hp => h.popped t hp hout
    have hnq : t ∉ s.queue := by simp [h.queue t, hout]
    have hwheel : ∀ d, (d, t) ∉ s.wheel := fun d hd => by simpa [hout] using (h.wheel d t hd).1
    refine { h with placed := h.placed_step hsched, thread := fun u hu => ?_, queue := fun u => ?_,
                    queueNodup := ?_, popped := fun u hu => ?_, wheel := fun d u hu => ?_ }
    · by_cases hut : u = t
      · -- the mark clears the wake, and no `unblock` of the thread is under way
        subst hut
        simp only [Sched.step, ht, Option.map_some, Option.some.injEq] at hsched
        subst hsched
        obtain ⟨id, hid, hlt⟩ := h.user_of_userOn ht
        refine ⟨⟨id, hid, hlt⟩, fun hw => ?_, fun hw => ?_, fun d hd => ?_, fun hb => ?_⟩
        · simp [Inner.setWake] at hw
        · exact absurd hw (hsafe u ht (by simpa using hsig))
        · simp [setPc] at hd
        · simp [setPc] at hb
      · have hpc : s.pc u ≠ .outside := setPc_pc_of_ne hut ▸ hu
        have heq : update s.pc t (.enqueued deadline) u = s.pc u := update_of_ne hut ..
        refine h.thread_sched hsched hpc heq (fun hd => ?_) ?_ (by rintro ⟨⟩)
        · exact hd.congr id id (congrArg Pc.deadline heq) le_rfl
        · rintro ⟨c', ha, hu⟩
          obtain rfl := Act.markBlocking.inj ha
          exact hut (Option.some.inj (hu.symm.trans ht))
    · by_cases hut : u = t
      · simp [setPc, hut, hfresh]
      · simp [setPc, hut, h.queue u]
    · exact nodup_append_comm.2 (nodup_cons.2 ⟨hnq, h.queueNodup⟩)
    · have hut : u ≠ t := fun hut => hfresh (hut ▸ hu)
      exact (setPc_pc_of_ne hut).symm ▸ h.popped u hu
    · have hut : u ≠ t := fun hut => hwheel d (hut ▸ hu)
      exact (setPc_pc_of_ne hut).symm ▸ h.wheel d u hu

theorem Inv.sleep {sched : Inner n} {d : Option Nat} (ht : userOn s.sched c = some t)
    (hin : s.pc t ≠ .outside) (hd : (s.pc t).deadline = d) (hq : (s.pc t).onQueue = true)
    (hsched : Sched.step s.sched (.blockCurrent c) = some sched) :
    Inv { s.setPc t (.sleeping d) with sched } := by
  obtain ⟨P, hP⟩ := h.placed
  obtain ⟨P', hP', hmoves⟩ := hP.step hsched
  have hmark : ∀ u, ¬ Marks s.sched (.blockCurrent c) u := fun u hm => by
    obtain ⟨c', hc, -⟩ := hm
    cases hc
  refine { h with placed := ⟨P', hP'⟩, thread := fun u hu => ?_, queue := fun u => ?_,
                  popped := fun u hu => ?_, wheel := fun d' u hu => ?_ }
  · by_cases hut : u = t
    · subst hut
      have hdue : Due s u → Due { s.setPc u (.sleeping d) with sched } u := fun hdue =>
        hdue.congr id id
          (apply_update_of_eq (p := .sleeping d) Pc.deadline hd.symm u) le_rfl
      have hok := h.thread u hin
      obtain ⟨id, rfl, hid⟩ := hok.user
      have hwake := hP.wakePending_step hsched hid (hmark _) (by simp)
      refine ⟨⟨id, rfl, lt_of_lt_of_le hid (hP.nextTid_le hP' hmoves)⟩,
        fun hw => hdue (hok.wake (hwake ▸ hw)), fun hm => ?_, fun d' _ => ?_, fun hb => ?_⟩
      · exact hdue (hok.waking ((hP.mem_waking_step hsched hm).resolve_right (by simp)))
      · by_cases hp : (s.sched.threads (.user id)).wakePending = true
        · exact .inl (hdue (hok.wake hp))
        · exact .inr (hP.block_blocks ht (by simpa using hp) hsched)
      · simp [setPc] at hb
    · have hpc : s.pc u ≠ .outside := setPc_pc_of_ne hut ▸ hu
      have heq : update s.pc t (.sleeping d) u = s.pc u := update_of_ne hut ..
      refine h.thread_sched hsched hpc heq (fun hdue => ?_) (hmark u) nofun
      exact hdue.congr id id (congrArg Pc.deadline heq) le_rfl
  · dsimp only [setPc]
    rw [apply_update_of_eq Pc.onQueue (by rw [hq]; rfl)]
    exact h.queue u
  · by_cases hut : u = t
    · simp [setPc, hut]
    · exact (setPc_pc_of_ne hut).symm ▸ h.popped u hu
  · have hwh := h.wheel d' u hu
    dsimp only [setPc]
    rw [apply_update_of_eq Pc.deadline (by rw [hd]; rfl)]
    refine ⟨?_, hwh.2⟩
    by_cases hut : u = t
    · simp [hut]
    · rw [update_of_ne hut]
      exact hwh.1

theorem Inv.block (hstep : step s (.block c) = some s') : Inv s' := by
  obtain ⟨t, ht, hstep⟩ := bind_eq_some_iff.1 hstep
  split at hstep
  case h_1 hpc | h_2 d hpc =>
    obtain ⟨sched, hsched, rfl⟩ := map_eq_some_iff.1 hstep
    exact h.sleep ht (by simp [hpc]) (by simp [hpc]) (by simp [hpc]) hsched
  case h_3 => cases hstep

theorem Inv.tick (hstep : step s .tick = some s') : Inv s' := by
  obtain ⟨-, ⟨⟩⟩ := ite_none_right_eq_some.1 hstep
  refine { h with thread := fun t ht => ?_ }
  refine (h.thread t ht).congr rfl (fun hd => ?_) (fun _ => id) id
  exact hd.congr id id rfl (Nat.le_succ _)

theorem Inv.setTick (p : TickPhase n) : Inv { s with tick := p } :=
  { h with thread := fun t ht => { h.thread t ht with } }

theorem Inv.tickExpire {d : Nat} (hstep : step s (.tickExpire d t) = some s') : Inv s' := by
  obtain ⟨⟨-, hmem, hle⟩, hstep⟩ := ite_none_right_eq_some.1 hstep
  obtain ⟨sched, hsched, rfl⟩ := map_eq_some_iff.1 hstep
  refine { h with placed := h.placed_step hsched, thread := fun u hu => ?_,
                  wheel := fun d' u hm => h.wheel d' u (mem_of_mem_erase hm),
                  wheelNodup := h.wheelNodup.sublist (erase_sublist.map _) }
  refine h.thread_sched hsched hu rfl id ?_ ?_
  · rintro ⟨c, hc, -⟩
    cases hc
  · -- the entry's deadline is the waiter's own, and it has passed
    rintro ⟨⟩
    exact .inr ⟨d, (h.wheel d t hmem).2, hle⟩

theorem Inv.tickUnblock (hstep : step s .tickUnblock = some s') : Inv s' := by
  simp only [step] at hstep
  split at hstep
  case h_1 t _ =>
    obtain ⟨sched, hsched, rfl⟩ := map_eq_some_iff.1 hstep
    refine { h with placed := h.placed_step hsched, thread := fun u hu => ?_ }
    refine h.thread_sched hsched hu rfl id ?_ nofun
    rintro ⟨c, hc, -⟩
    cases hc
  case h_2 => cases hstep

end

/-! ## Runs -/

theorem Inv.step (h : Inv s) {a : Act n} (hsafe : a.Safe s) (hstep : Wait.step s a = some s') :
    Inv s' := by
  cases a with
  | sched a => exact h.sched hsafe hstep
  | signal => exact h.signal hstep
  | signalUnblock t => exact h.signalUnblock hstep
  | tryTake => exact h.tryTake hstep
  | beginWait c deadline => exact h.beginWait hsafe hstep
  | arm c => exact h.arm hstep
  | block c => exact h.block hstep
  | resume c => exact h.resume hstep
  | remove c => exact h.remove hstep
  | disarm c => exact h.disarm hstep
  | finish c => exact h.finish hsafe hstep
  | tick => exact h.tick hstep
  | tickLock =>
    obtain ⟨-, ⟨⟩⟩ := ite_none_right_eq_some.1 hstep
    exact h.setTick .walking
  | tickExpire d t => exact h.tickExpire hstep
  | tickUnblock => exact h.tickUnblock hstep
  | tickEnd =>
    obtain ⟨-, ⟨⟩⟩ := ite_none_right_eq_some.1 hstep
    exact h.setTick .idle

theorem Start.inv {s : Sys (n + 1)} (h : Start s) : Inv s where
  __ := h
  placed := exists_placed h.sched
  thread t ht := absurd (h.pc t) ht
  queue t := by simp [h.queue, h.pc t]
  queueNodup := by simp [h.queue]
  popped := by simp [h.popped]
  poppedNodup := by simp [h.popped]
  toUnblock := by simp [h.toUnblock]
  toUnblockNodup := by simp [h.toUnblock]
  wheel := by simp [h.wheel]
  wheelNodup := by simp [h.wheel]
  count := by simp [h.successes, h.signaled, h.popped]

/-- Every run of safe steps from an unused event conserves its signals in every state
it reaches. -/
theorem event_conserved {s₀ s : Sys (n + 1)} (h₀ : Start s₀)
    (hrun : Run step (fun s a => a.Safe s) s₀ s) : Conserved s := by
  have hinv : Inv s := hrun.invariant (fun _ _ _ h hsafe hstep => h.step hsafe hstep) h₀.inv
  exact ⟨hinv.count, hinv.lost⟩

/-- The only CPU leaves the thread that blocked on it and halts. -/
def switchAway : List (Act 1) :=
  [.sched (.claim 0), .sched (.ctxSwitch 0), .sched (.finishSwitch 0)]

/-- The timer preempts the halt and the CPU takes up the thread it finds queued. -/
def switchBack : List (Act 1) := .sched (.yieldNow 0) :: switchAway

/-- A timed wait blocks, and a signal pops the waiter and unblocks it. -/
def waitAndSignal (deadline : Nat) : List (Act 1) :=
  [.beginWait 0 (some deadline), .arm 0, .block 0] ++ switchAway ++
    [.signal, .signalUnblock (.user 0), .sched (.unblockLock (.user 0))]

/-- The waiter runs again and returns. -/
def comeBack : List (Act 1) := switchBack ++ [.resume 0, .remove 0, .disarm 0, .finish 0]

/-- The waiter returns before its deadline. -/
theorem event_conserved_wait :
    ∃ s, runAll (guarded step fun s a => a.Safe s) (fresh 0) (waitAndSignal 5 ++ comeBack) =
      some s ∧ s.successes = 1 ∧ Conserved s := by
  have hrun : (runAll (guarded step fun s a => a.Safe s) (fresh 0)
      (waitAndSignal 5 ++ comeBack)).map successes = some 1 := by decide
  obtain ⟨s, hs, hsucc⟩ := map_eq_some_iff.1 hrun
  exact ⟨s, hs, hsucc, event_conserved (start_fresh 0) (run_of_guarded (reach_of_runAll hs))⟩

/-- The clock passes the deadline after the signal popped the waiter. -/
def lateReader : List (Act 1) := waitAndSignal 1 ++ [.tick] ++ comeBack

/-- An `unblock` that is left from a wait on another object ends after the thread has
blocked on the event. -/
def staleWake : List (Act 1) :=
  [.sched (.markBlocking 0), .sched (.unblockStore (.user 0)), .sched (.blockCurrent 0),
   .beginWait 0 none, .block 0] ++ switchAway ++ [.sched (.unblockLock (.user 0))] ++ switchBack ++
    [.resume 0]

/-- In the first run a popped waiter reports a timeout; in the second a wait reports
success without a signal. -/
theorem event_not_conserved : (∃ s, Reach step (fresh 0) s ∧ s.signals = 1 ∧ s.lost = 1) ∧
      ∃ s, Reach step (fresh 0) s ∧ s.signals = 0 ∧ s.successes = 1 := by
  exact ⟨exists_reach lateReader (by decide), exists_reach staleWake (by decide)⟩

end Thos.Wait
