import Thos.Sched.Places

/-!
# What a step does to the CPU slots

The view of a step that a layer above the scheduler needs: which slot changes and from
which phase to which, that no stack is freed outside `reap`, and that `exit` alone ends
a thread.
-/

set_option autoImplicit false

namespace Thos.Sched

open Sched.Inner

open Function (update update_of_ne)

variable {n : Nat}

/-- How a step changes the slots of the CPUs. -/
inductive SlotMove (s s' : Inner n) (a : Act n) : Prop
  | quiet : s'.cpus = s.cpus → SlotMove s s' a
  | entered (c : Fin n) : (s.cpus c).phase = .off →
      s'.cpus = update s.cpus c ⟨some (.idle c), none, .run⟩ → SlotMove s s' a
  | claimed (c : Fin n) (prev next : Tid n) : a = .claim c → (s.cpus c).phase = .spin prev next →
      s'.cpus = update s.cpus c { s.cpus c with phase := .claimed prev next } → SlotMove s s' a
  | landed (c : Fin n) (prev next : Tid n) : (s.cpus c).phase = .claimed prev next →
      s'.cpus = update s.cpus c { s.cpus c with phase := .landed } → SlotMove s s' a
  | finished (c : Fin n) : (s.cpus c).phase = .landed →
      s'.cpus = update s.cpus c { s.cpus c with handoff := none, phase := .run } → SlotMove s s' a
  | switched (c : Fin n) (prev next : Tid n) (b : Bool) : a.switchesOn = some c →
      (s.cpus c).phase = .run → (s.cpus c).current = some prev →
      s'.cpus = update s.cpus c ⟨some next, some (prev, b), .spin prev next⟩ → SlotMove s s' a

/-- What a step other than `reap` does. -/
structure Effect (s s' : Inner n) (a : Act n) : Prop where
  slots : SlotMove s s' a
  freed : s'.freed = s.freed
  exited : ∀ id, id < s.nextTid → (s'.threads (.user id)).state = .exited →
    (s.threads (.user id)).state = .exited ∨ ∃ c, a = .exit c ∧ userOn s c = some (.user id)
  graveyard : ∀ t ∈ s'.graveyard, t ∈ s.graveyard ∨ ∃ c, a = .exit c ∧ userOn s c = some t

variable {s s' : Inner n} {P : Tid n → Place n} {a : Act n}

theorem Effect.of_quiet (hcpus : s'.cpus = s.cpus) (hfreed : s'.freed = s.freed)
    (hgrave : s'.graveyard = s.graveyard)
    (hstate : ∀ id, id < s.nextTid → (s'.threads (.user id)).state = .exited →
      (s.threads (.user id)).state = .exited) : Effect s s' a where
  slots := .quiet hcpus
  freed := hfreed
  exited id hid hex := .inl (hstate id hid hex)
  graveyard _ ht := .inl (hgrave ▸ ht)

theorem Switched.effect {c : Fin n} {prev next : Tid n} {w : Why}
    (hsw : Switched s s' c prev next w) (hw : w = .exited → a = .exit c ∧ userOn s c = some prev)
    (ha : a.switchesOn = some c) (hrun : (s.cpus c).phase = .run)
    (hcur : (s.cpus c).current = some prev) : Effect s s' a where
  __ := hsw
  slots := .switched c prev next w.flag ha hrun hcur hsw.cpus
  exited id _ hex := by
    by_cases hn : Tid.user id = next
    · rw [hn, hsw.stateNext] at hex
      cases hex
    by_cases hp : Tid.user id = prev
    · subst hp
      cases w with
      | exited => exact .inr ⟨c, hw rfl⟩
      | yielded => rw [hsw.statePrev .ready rfl rfl] at hex; cases hex
      | blocked => rw [hsw.statePrev .blocked rfl rfl] at hex; cases hex
    · exact .inl (by rwa [hsw.state _ hp hn] at hex)
  graveyard t ht := (hsw.graveyard t ht).imp_right fun ⟨heq, hex⟩ => ⟨c, heq ▸ hw hex⟩

theorem Released.effect {c : Fin n} {prev : Tid n} {w : Why} (h : Placed s P)
    (hprev : P prev = .handed c w) (hrel : Released s s' c prev (releasedTo s prev w))
    (hc : (s.cpus c).phase = .landed) : Effect s s' a where
  __ := hrel
  slots := .finished c hc hrel.cpus
  exited id _ hex := by
    left
    by_cases hp : Tid.user id = prev
    · subst hp
      cases w with
      | exited => exact h.state id .exited (by rw [hprev]; rfl)
      | yielded => rw [hrel.state .ready rfl rfl] at hex; cases hex
      | blocked =>
        have hplace := hrel.state
        simp only [releasedTo] at hplace
        split_ifs at hplace
        · rw [hplace .ready rfl rfl] at hex; cases hex
        · rw [hplace .blocked rfl rfl] at hex; cases hex
    · rwa [hrel.threads _ hp] at hex
  graveyard t ht := .inl (hrel.graveyard ▸ ht)

theorem state_unblockLocked (t u : Tid n) (hex : ((unblockLocked s t).threads u).state = .exited) :
    (s.threads u).state = .exited := by
  have hset : ((s.setState t .ready).threads u).state = .exited →
      (s.threads u).state = .exited := by
    intro h
    by_cases hu : u = t
    · subst hu
      simp [setState] at h
    · simpa [setState, update_of_ne hu] using h
  unfold unblockLocked at hex
  split_ifs at hex
  · exact hex
  · dsimp only at hex
    split_ifs at hex <;> exact hset hex

theorem unblockLocked_keeps (t : Tid n) : (unblockLocked s t).cpus = s.cpus ∧
    (unblockLocked s t).freed = s.freed ∧ (unblockLocked s t).graveyard = s.graveyard := by
  unfold unblockLocked
  split_ifs
  · exact ⟨rfl, rfl, rfl⟩
  · dsimp only
    split_ifs <;> exact ⟨rfl, rfl, rfl⟩

theorem state_setWake (t u : Tid n) (b : Bool) :
    ((s.setWake t b).threads u).state = (s.threads u).state := by
  by_cases hu : u = t
  · subst hu
    simp [setWake]
  · simp [setWake, update_of_ne hu]

theorem state_setRunning (t u : Tid n) (b : Bool) :
    ((s.setRunning t b).threads u).state = (s.threads u).state := by
  by_cases hu : u = t
  · subst hu
    simp [setRunning]
  · simp [setRunning, update_of_ne hu]

theorem Placed.effect (h : Placed s P) (hstep : Sched.step s a = some s')
    (hreap : ∀ ext, a ≠ .reap ext) : Effect s s' a := by
  cases h.did hstep with
  | @entered c hc =>
    refine ⟨.entered c hc rfl, rfl, fun id _ hex => .inl ?_, fun _ ht => .inl ht⟩
    simpa [setCpu] using hex
  | spawned =>
    refine .of_quiet rfl rfl rfl fun id hid hex => ?_
    have hne : Tid.user (n := n) id ≠ .user s.nextTid := fun heq => by cases heq; omega
    simpa [Sched.spawn, update_of_ne hne] using hex
  | marked _ => exact .of_quiet rfl rfl rfl fun id _ hex => by rwa [state_setWake] at hex
  | stayed => exact .of_quiet rfl rfl rfl fun _ _ hex => hex
  | @switched _ c prev _ _ ha hw hc hp _ _ hsw =>
    exact hsw.effect hw ha hc ((h.current c prev).2 hp)
  | @stored id _ =>
    exact .of_quiet rfl rfl rfl fun id' _ hex => by rwa [← state_setWake (.user id) _ true]
  | @unblocked id _ =>
    obtain ⟨hcpus, hfreed, hgrave⟩ := unblockLocked_keeps (s := s) (.user id)
    exact .of_quiet hcpus hfreed hgrave fun _ _ hex => state_unblockLocked _ _ hex
  | @claimed c prev next hc =>
    refine ⟨.claimed c prev next rfl hc rfl, rfl, fun id _ hex => .inl ?_, fun _ ht => .inl ht⟩
    rwa [← state_setRunning next _ true]
  | @landed c prev next hc =>
    exact ⟨.landed c prev next hc rfl, rfl, fun id _ hex => .inl hex, fun _ ht => .inl ht⟩
  | released hc hprev hrel => exact hrel.effect h hprev hc
  | reaped => exact absurd rfl (hreap _)

theorem phase_of_switchesOn (hstep : Sched.step s a = some s') {c : Fin n}
    (ha : a.switchesOn = some c) : (s.cpus c).phase = .run := by
  have hon : ∀ t, runningOn s c = some t → (s.cpus c).phase = .run := by
    intro t ht
    unfold runningOn at ht
    split_ifs at ht with hc
    exact hc
  cases a <;> cases ha
  · obtain ⟨t, ht, -⟩ := Option.map_eq_some_iff.1 hstep
    exact hon t ht
  all_goals
    obtain ⟨t, ht, -⟩ := Option.map_eq_some_iff.1 hstep
    exact hon t (userOn_eq ht).1

end Thos.Sched
