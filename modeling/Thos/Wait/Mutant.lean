import Thos.Lib.Run

/-!
# A mutant

`Mutant` of `wait.rs`: a recursive lock whose owner and recursion count are two atomics.
Every access to an atomic and every section under the queue lock is one step; the scheduler
and the clock are arbitrary, so a parked thread may run again at any time and a timed one
may read any time off the clock.

The counters at the end of the state are not in the source. An acquire counts from the
`compare_exchange` or `fetch_add` that decides it, a release from the store that gives the
level up; neither call can return success before that.
-/

set_option autoImplicit false

namespace Thos.Wait.Mutant

open Thos.Lib Function Option

/-- A thread is the id it passes. -/
abbrev Tid : Type := { t : UInt64 // t ≠ 0 }

/-- Which call a thread is in when it tries to acquire. -/
inductive Call
  | tryAcquire
  | acquire
  | acquireUntil
  deriving DecidableEq

/-- What a call returned. -/
inductive Ret
  | acquired
  | missed
  /-- `Ok` of the count before the release. -/
  | released (prev : UInt32)
  /-- `Err` of a release. -/
  | refused
  deriving DecidableEq

/-- The step that a thread takes next. -/
inductive Pc
  | outside
  /-- `owner.load` of `try_acquire`. -/
  | loading (k : Call)
  /-- `recursion.fetch_add`. -/
  | adding
  /-- `owner.compare_exchange`. -/
  | claiming (k : Call)
  /-- `recursion.store(1)`. -/
  | settling
  /-- The check of `wait_if` under the queue lock. -/
  | checking (k : Call)
  /-- `block_current`. -/
  | parked (k : Call)
  /-- `remove` of `wait_if_until`. -/
  | leaving
  /-- The clock of `wait_if_until`. -/
  | timing
  /-- `owner.load` of `release`. -/
  | releasing
  /-- `recursion.load`. -/
  | reading
  /-- `recursion.store(0)`. -/
  | clearing (prev : UInt32)
  /-- `owner.store(0)`. -/
  | freeing (prev : UInt32)
  /-- `wake_one`. -/
  | waking (prev : UInt32)
  /-- `recursion.store(prev - 1)`. -/
  | lowering (prev : UInt32)
  deriving DecidableEq

/-- The mutant and the threads. -/
structure State where
  owner : UInt64
  recursion : UInt32
  queue : List Tid
  pc : Tid → Pc
  /-- What the thread's last call returned. -/
  last : Tid → Option Ret
  /-- Successful acquires. -/
  acquired : Tid → Nat
  /-- Successful releases. -/
  released : Tid → Nat

namespace State

variable (s : State)

/-- The thread goes on to another step. -/
def goto (t : Tid) (p : Pc) : State := { s with pc := update s.pc t p }

/-- The thread's call returns. -/
def ret (t : Tid) (r : Ret) : State :=
  { s with pc := update s.pc t .outside, last := update s.last t (some r) }

/-- The thread has gained a level. -/
def gain (t : Tid) : State := { s with acquired := update s.acquired t (s.acquired t + 1) }

/-- The thread has given a level up. -/
def lose (t : Tid) : State := { s with released := update s.released t (s.released t + 1) }

end State

open State

/-- `Mutant::new`. The level that a mutant is created with is its owner's first. -/
def new (initialOwner : UInt64) : State where
  owner := initialOwner
  recursion := if initialOwner ≠ 0 then 1 else 0
  queue := []
  pc _ := .outside
  last _ := none
  acquired t := if t.1 = initialOwner then 1 else 0
  released _ := 0

/-- The next step of the call that thread `t` is in; `late` is whether the clock has reached
the deadline. -/
def advance (s : State) (t : Tid) (late : Bool) : Option State :=
  match s.pc t with
  | .outside => none
  | .loading k => some (s.goto t (if s.owner = t.1 then .adding else .claiming k))
  | .adding => some ({ s with recursion := s.recursion + 1 }.gain t |>.ret t .acquired)
  | .claiming k =>
    if s.owner = 0 then some ({ s with owner := t.1 }.gain t |>.goto t .settling)
    else
      match k with
      | .tryAcquire => some (s.ret t .missed)
      | k => some (s.goto t (.checking k))
  | .settling => some ({ s with recursion := 1 }.ret t .acquired)
  | .checking k =>
    if s.owner ≠ 0 then some ({ s with queue := s.queue ++ [t] }.goto t (.parked k))
    else
      some (s.goto t (.loading k))
  | .parked .acquireUntil => some (s.goto t .leaving)
  | .parked k => some (s.goto t (.loading k))
  | .leaving => some ({ s with queue := s.queue.filter (· ≠ t) }.goto t .timing)
  | .timing => some (if late then s.ret t .missed else s.goto t (.loading .acquireUntil))
  | .releasing => some (if s.owner ≠ t.1 then s.ret t .refused else s.goto t .reading)
  | .reading =>
    some (s.goto t (if s.recursion ≤ 1 then .clearing s.recursion else .lowering s.recursion))
  | .clearing prev => some ({ s with recursion := 0 }.goto t (.freeing prev))
  | .freeing prev => some ({ s with owner := 0 }.lose t |>.goto t (.waking prev))
  | .waking prev => some ({ s with queue := s.queue.tail }.ret t (.released prev))
  | .lowering prev => some ({ s with recursion := prev - 1 }.lose t |>.ret t (.released prev))

/-- What can happen. -/
inductive Act
  /-- A thread calls `try_acquire`, `acquire` or `acquire_until`. -/
  | call (t : Tid) (k : Call)
  /-- A thread calls `release`. -/
  | release (t : Tid)
  /-- A thread that is in a call takes its next step. -/
  | next (t : Tid) (late : Bool)

def step (s : State) : Act → Option State
  | .call t k => if s.pc t = .outside then some (s.goto t (.loading k)) else none
  | .release t => if s.pc t = .outside then some (s.goto t .releasing) else none
  | .next t late => advance s t late

/-- The condition on the steps of a run: no thread comes to 2^32 outstanding acquires. -/
def Act.Bounded (s : State) : Act → Prop
  | .next t _ => s.pc t = .adding → s.acquired t + 1 < s.released t + 2 ^ 32
  | _ => True

instance (s : State) : ∀ a : Act, Decidable (a.Bounded s)
  | .next t _ =>
    inferInstanceAs (Decidable (s.pc t = .adding → s.acquired t + 1 < s.released t + 2 ^ 32))
  | .call _ _ | .release _ => inferInstanceAs (Decidable True)

/-! ## One thread's view -/

/-- Steps that only the owner takes. -/
def Pc.owns : Pc → Bool
  | .adding | .settling | .reading | .clearing _ | .freeing _ | .lowering _ => true
  | _ => false

/-- How many levels the owner has, by the step it takes next: between the two updates of an
acquire or a release the count does not say it. -/
def Level (recursion : UInt32) (outstanding : Nat) : Pc → Prop
  | .settling | .clearing _ | .freeing _ => outstanding = 1
  | .lowering prev => prev.toNat = outstanding ∧ 1 < prev
  | _ => recursion.toNat = outstanding

/-- A thread that owns the mutant has outstanding acquires, as many as the count says; one
that does not has none, and takes no step of an owner. -/
structure Good (s : State) (t : Tid) : Prop where
  held : s.owner = t.1 → s.released t < s.acquired t ∧
    Level s.recursion (s.acquired t - s.released t) (s.pc t)
  free : s.owner ≠ t.1 → s.acquired t = s.released t
  owns : (s.pc t).owns = true → s.owner = t.1

theorem good_new (o : UInt64) (t : Tid) : Good (new o) t := by
  refine ⟨fun h => ?_, fun h => ?_, fun h => absurd h (by simp [new, Pc.owns])⟩
  · have ho : o = t.1 := h
    simp [new, Level, ho, t.2]
  · have ho : ¬ t.1 = o := fun h' => h h'.symm
    simp [new, ho]

/-- What a step of `t` may do to the parts of the state that other threads look at. -/
structure Keeps (s s' : State) (t : Tid) : Prop where
  pc : ∀ u, u ≠ t → s'.pc u = s.pc u
  acquired : ∀ u, u ≠ t → s'.acquired u = s.acquired u
  released : ∀ u, u ≠ t → s'.released u = s.released u
  owner : ∀ u : Tid, u ≠ t → (s'.owner = u.1 ↔ s.owner = u.1)
  recursion : ∀ u : Tid, u ≠ t → s.owner = u.1 → s'.recursion = s.recursion

variable {s s' : State}

theorem Good.other {t u : Tid} (h : Good s u) (hk : Keeps s s' t) (hne : u ≠ t) : Good s' u := by
  refine ⟨fun ho => ?_, fun ho => ?_, fun hp => ?_⟩
  · have ho := (hk.owner u hne).1 ho
    rw [hk.acquired u hne, hk.released u hne, hk.pc u hne, hk.recursion u hne ho]
    exact h.held ho
  · rw [hk.acquired u hne, hk.released u hne]
    exact h.free fun ho' => ho ((hk.owner u hne).2 ho')
  · rw [hk.pc u hne] at hp
    exact (hk.owner u hne).2 (h.owns hp)

section Moves

variable {s'' : State} {t : Tid}

theorem Keeps.trans (h : Keeps s s' t) (h' : Keeps s' s'' t) : Keeps s s'' t where
  pc u hne := (h'.pc u hne).trans (h.pc u hne)
  acquired u hne := (h'.acquired u hne).trans (h.acquired u hne)
  released u hne := (h'.released u hne).trans (h.released u hne)
  owner u hne := (h'.owner u hne).trans (h.owner u hne)
  recursion u hne ho := (h'.recursion u hne ((h.owner u hne).2 ho)).trans (h.recursion u hne ho)

section

variable (s : State)

theorem keeps_goto (t : Tid) (p : Pc) : Keeps s (s.goto t p) t := by
  constructor <;> intro u hne <;> simp [goto, hne]

theorem keeps_ret (t : Tid) (r : Ret) : Keeps s (s.ret t r) t := by
  constructor <;> intro u hne <;> simp [ret, hne]

theorem keeps_gain (t : Tid) : Keeps s (s.gain t) t := by
  constructor <;> intro u hne <;> simp [gain, hne]

theorem keeps_lose (t : Tid) : Keeps s (s.lose t) t := by
  constructor <;> intro u hne <;> simp [lose, hne]

theorem keeps_queue (t : Tid) (q : List Tid) : Keeps s { s with queue := q } t := by
  constructor <;> intro u hne <;> simp

end

theorem keeps_recursion (ho : s.owner = t.1) (r : UInt32) :
    Keeps s { s with recursion := r } t where
  pc _ _ := rfl
  acquired _ _ := rfl
  released _ _ := rfl
  owner _ _ := .rfl
  recursion _ hne hu := absurd (Subtype.ext (hu.symm.trans ho)) hne

theorem keeps_owner (ho : s.owner = 0 ∨ s.owner = t.1) {o : UInt64} (ho' : o = 0 ∨ o = t.1) :
    Keeps s { s with owner := o } t where
  pc _ _ := rfl
  acquired _ _ := rfl
  released _ _ := rfl
  owner u hne := by
    have hut : t.1 ≠ u.1 := fun h => hne (Subtype.ext h.symm)
    have hu : (0 : UInt64) ≠ u.1 := fun h => u.2 h.symm
    rcases ho with ho | ho <;> rcases ho' with ho' | ho' <;> simp [ho, ho', hut, hu]
  recursion _ _ _ := rfl

/-- The owner has outstanding acquires; another thread has none. -/
def Counted (s : State) (t : Tid) : Prop :=
  (s.owner = t.1 → s.released t < s.acquired t) ∧ (s.owner ≠ t.1 → s.acquired t = s.released t)

theorem Good.counted (h : Good s t) : Counted s t := ⟨fun ho => (h.held ho).1, h.free⟩

theorem Good.of_goto {p : Pc} (h : Counted s t) (hp : p.owns = true → s.owner = t.1)
    (hlevel : s.owner = t.1 → Level s.recursion (s.acquired t - s.released t) p) :
    Good (s.goto t p) t := by
  refine ⟨fun ho => ⟨h.1 ho, ?_⟩, h.2, fun howns => hp ?_⟩
  · simpa [goto] using hlevel ho
  · simpa [goto] using howns

theorem Good.of_ret (h : Counted s t) (r : Ret)
    (hlevel : s.owner = t.1 → s.recursion.toNat = s.acquired t - s.released t) :
    Good (s.ret t r) t := by
  refine ⟨fun ho => ⟨h.1 ho, ?_⟩, h.2, fun howns => ?_⟩
  · simpa [ret, Level] using hlevel ho
  · simp [ret, Pc.owns] at howns

end Moves

theorem advance_good {t : Tid} {late : Bool} (h : Good s t)
    (hb : s.pc t = .adding → s.acquired t + 1 < s.released t + 2 ^ 32)
    (hs : advance s t late = some s') : Keeps s s' t ∧ Good s' t := by
  have hcntd := h.counted
  have howns : (s.pc t).owns = true → s.owner = t.1 := h.owns
  have hlevel : s.owner = t.1 → Level s.recursion (s.acquired t - s.released t) (s.pc t) :=
    fun ho => (h.held ho).2
  cases hp : s.pc t <;> simp only [advance, hp, some.injEq, reduceCtorEq] at hs <;>
    rw [hp] at hlevel howns
  case loading k =>
    subst hs
    refine ⟨keeps_goto .., .of_goto hcntd (fun hown => ?_) fun ho => ?_⟩
    · by_contra ho
      simp [ho, Pc.owns] at hown
    · rw [if_pos ho]
      exact hlevel ho
  case adding =>
    subst hs
    have ho := howns rfl
    have hlt := hcntd.1 ho
    have hnat : s.recursion.toNat = s.acquired t - s.released t := hlevel ho
    have hbound := hb hp
    refine ⟨(keeps_recursion ho _).trans ((keeps_gain ..).trans (keeps_ret ..)),
      .of_ret ?_ _ fun _ => ?_⟩
    · refine ⟨fun _ => ?_, fun hne => absurd ho hne⟩
      simp only [gain, update_self]
      omega
    · simp only [gain, update_self, UInt32.toNat_add, hnat, UInt32.toNat_one]
      omega
  case claiming k =>
    split_ifs at hs with h0
    · -- the mutant is free: this thread has no level yet
      cases hs
      have heq := h.free fun ho => t.2 (ho.symm.trans h0)
      refine ⟨(keeps_owner (.inl h0) (.inr rfl)).trans ((keeps_gain ..).trans (keeps_goto ..)),
        .of_goto ?_ (fun _ => rfl) fun _ => ?_⟩
      · refine ⟨fun _ => ?_, fun hne => absurd rfl hne⟩
        simp only [gain, update_self]
        omega
      · simp only [gain, update_self, Level]
        omega
    · cases k with
      | tryAcquire =>
        cases hs
        exact ⟨keeps_ret .., .of_ret hcntd _ hlevel⟩
      | acquire | acquireUntil =>
        cases hs
        exact ⟨keeps_goto .., .of_goto hcntd nofun hlevel⟩
  case settling =>
    subst hs
    have ho := howns rfl
    refine ⟨(keeps_recursion ho _).trans (keeps_ret ..), .of_ret ?_ _ fun _ => ?_⟩
    · exact hcntd
    · exact (hlevel ho).symm
  case checking k =>
    split_ifs at hs <;> cases hs
    · exact ⟨(keeps_queue ..).trans (keeps_goto ..), .of_goto hcntd nofun hlevel⟩
    · exact ⟨keeps_goto .., .of_goto hcntd nofun hlevel⟩
  case parked k =>
    have hgoto : ∀ p : Pc, p = .leaving ∨ p = .loading k → Keeps s (s.goto t p) t ∧
      Good (s.goto t p) t := by
      rintro p (rfl | rfl) <;> exact ⟨keeps_goto _ _ _, .of_goto hcntd nofun hlevel⟩
    cases k with
    | acquireUntil => exact some.inj hs ▸ hgoto _ (.inl rfl)
    | _ => exact some.inj hs ▸ hgoto _ (.inr rfl)
  case leaving =>
    subst hs
    exact ⟨(keeps_queue ..).trans (keeps_goto ..), .of_goto hcntd nofun hlevel⟩
  case timing =>
    subst hs
    cases late with
    | true => exact ⟨keeps_ret _ _ _, .of_ret hcntd _ hlevel⟩
    | false => exact ⟨keeps_goto _ _ _, .of_goto hcntd nofun hlevel⟩
  case releasing =>
    subst hs
    split_ifs with ho
    · exact ⟨keeps_ret .., .of_ret hcntd _ hlevel⟩
    · exact ⟨keeps_goto .., .of_goto hcntd (fun _ => not_not.1 ho) hlevel⟩
  case reading =>
    subst hs
    have ho := howns rfl
    have hlt := hcntd.1 ho
    have hnat : s.recursion.toNat = s.acquired t - s.released t := hlevel ho
    refine ⟨keeps_goto .., .of_goto hcntd (fun _ => ho) fun _ => ?_⟩
    -- the last level is the one where the count is 1
    by_cases h1 : s.recursion ≤ 1
    · rw [if_pos h1]
      have hle := UInt32.le_iff_toNat_le.1 h1
      rw [UInt32.toNat_one] at hle
      show s.acquired t - s.released t = 1
      omega
    · rw [if_neg h1]
      exact ⟨hnat, UInt32.not_le.1 h1⟩
  case clearing prev =>
    subst hs
    have ho := howns rfl
    exact ⟨(keeps_recursion ho _).trans (keeps_goto ..), .of_goto hcntd (fun _ => ho) hlevel⟩
  case freeing prev =>
    subst hs
    have ho := howns rfl
    have hone : s.acquired t - s.released t = 1 := hlevel ho
    refine ⟨(keeps_owner (.inr ho) (.inl rfl)).trans ((keeps_lose ..).trans (keeps_goto ..)),
      .of_goto ?_ nofun fun h0 => absurd h0.symm t.2⟩
    refine ⟨fun h0 => absurd h0.symm t.2, fun _ => ?_⟩
    simp only [lose, update_self]
    omega
  case waking prev =>
    subst hs
    refine ⟨(keeps_queue ..).trans (keeps_ret ..), .of_ret ?_ _ ?_⟩
    · exact hcntd
    · exact hlevel
  case lowering prev =>
    subst hs
    have ho := howns rfl
    obtain ⟨hprev, hgt⟩ := hlevel ho
    have hgt := UInt32.lt_iff_toNat_lt.1 hgt
    rw [UInt32.toNat_one] at hgt
    refine ⟨(keeps_recursion ho _).trans ((keeps_lose ..).trans (keeps_ret ..)),
      .of_ret ?_ _ fun _ => ?_⟩
    · refine ⟨fun _ => ?_, fun hne => absurd ho hne⟩
      simp only [lose, update_self]
      omega
    · have hsub : (prev - 1).toNat = prev.toNat - 1 :=
        UInt32.toNat_sub_of_le _ _ (UInt32.le_iff_toNat_le.2 (by rw [UInt32.toNat_one]; omega))
      simp only [lose, update_self, hsub]
      omega

theorem step_good {a : Act} (h : ∀ t, Good s t) (hb : a.Bounded s)
    (hs : step s a = some s') : ∀ t, Good s' t := by
  have hcall : ∀ t p, (∀ r n, Level r n p ↔ r.toNat = n) → p.owns = false → s.pc t = .outside →
      ∀ u, Good (s.goto t p) u := by
    intro t p hlevel howns hp u
    by_cases hu : u = t
    · subst hu
      refine .of_goto (h u).counted (by simp [howns]) fun ho => (hlevel ..).2 ?_
      have := ((h u).held ho).2
      rwa [hp] at this
    · exact (h u).other (keeps_goto ..) hu
  cases a with
  | call t k | release t =>
    obtain ⟨hp, ⟨⟩⟩ := ite_none_right_eq_some.1 hs
    exact hcall t _ (fun _ _ => .rfl) rfl hp
  | next t late =>
    obtain ⟨hkeeps, hgood⟩ := advance_good (h t) hb hs
    intro u
    by_cases hu : u = t
    · exact hu ▸ hgood
    · exact (h u).other hkeeps hu

theorem run_good {o : UInt64} (h : Run step Act.Bounded (new o) s) (t : Tid) : Good s t :=
  h.invariant (P := fun s => ∀ t, Good s t) (fun _ _ _ hg hb hs => step_good hg hb hs)
    (good_new o) t

theorem step_owner {a : Act} (hs : step s a = some s') :
    s'.owner = s.owner ∨ s.owner = 0 ∨ ∃ t prev, s.pc t = .freeing prev ∧ s'.owner = 0 := by
  cases a with
  | call t k | release t =>
    simp only [step, ite_none_right_eq_some, some.injEq] at hs
    exact .inl (hs.2 ▸ rfl)
  | next t late =>
    simp only [step] at hs
    cases hp : s.pc t with
    | claiming k =>
      by_cases h0 : s.owner = 0
      · exact .inr (.inl h0)
      · simp only [advance, hp, if_neg h0] at hs
        cases k <;> exact .inl (some.inj hs ▸ rfl)
    | freeing prev =>
      simp only [advance, hp, some.injEq] at hs
      exact .inr (.inr ⟨t, prev, hp, hs ▸ rfl⟩)
    | parked k =>
      cases k <;> simp only [advance, hp] at hs <;> exact .inl (some.inj hs ▸ rfl)
    | checking _ | timing | releasing =>
      simp only [advance, hp] at hs
      split_ifs at hs <;> exact .inl (some.inj hs ▸ rfl)
    | outside => simp [advance, hp] at hs
    | loading _ | adding | settling | leaving | reading | clearing _ | waking _ | lowering _ =>
      simp only [advance, hp] at hs
      exact .inl (some.inj hs ▸ rfl)

/-! ## Exclusion -/

/-- As long as no thread comes to 2^32 outstanding acquires: one thread at most has any; outside
a call the recursion count is their number; a release by another thread is refused and changes
nothing; and a step frees the mutant exactly if it releases the last of them. -/
theorem mutant_excludes {o : UInt64} {s : State} (h : Run step Act.Bounded (new o) s) :
    (∀ t u, s.released t < s.acquired t → s.released u < s.acquired u → t = u) ∧
    (∀ t, s.pc t = .outside → s.released t < s.acquired t →
      s.recursion.toNat = s.acquired t - s.released t) ∧
    (∀ t late, s.pc t = .releasing → s.acquired t = s.released t →
      step s (.next t late) = some (s.ret t .refused)) ∧
    ∀ a s', a.Bounded s → step s a = some s' → (s.owner ≠ 0 ∧ s'.owner = 0 ↔
        ∃ t, s.acquired t = s.released t + 1 ∧ s'.acquired t = s'.released t) := by
  have hgood := run_good h
  have howner : ∀ t, s.released t < s.acquired t → s.owner = t.1 := fun t hlt => by
    by_contra ho
    have := (hgood t).free ho
    omega
  refine ⟨fun t u ht hu => ?_, fun t hp hlt => ?_, fun t late hp heq => ?_, fun a s' hb hs => ?_⟩
  · exact Subtype.ext ((howner t ht).symm.trans (howner u hu))
  · have hlevel := ((hgood t).held (howner t hlt)).2
    rwa [hp] at hlevel
  · have ho : s.owner ≠ t.1 := fun ho => by
      have := ((hgood t).held ho).1
      omega
    simp only [step, advance, hp]
    rw [if_pos ho]
  · have hgood' := step_good hgood hb hs
    constructor
    · rintro ⟨h0, h0'⟩
      rcases step_owner hs with hsame | hzero | ⟨t, prev, hp, -⟩
      · exact absurd (hsame ▸ h0') h0
      · exact absurd hzero h0
      · have ho := (hgood t).owns (by rw [hp]; rfl)
        obtain ⟨hlt, hlevel⟩ := (hgood t).held ho
        rw [hp] at hlevel
        have hone : s.acquired t - s.released t = 1 := hlevel
        exact ⟨t, by omega, (hgood' t).free fun ho' => t.2 (ho'.symm.trans h0')⟩
    · rintro ⟨t, hone, hzero⟩
      have ho := howner t (by omega)
      have ho' : s'.owner ≠ t.1 := fun ho' => by
        have := ((hgood' t).held ho').1
        omega
      refine ⟨fun h0 => t.2 (ho.symm.trans h0), ?_⟩
      rcases step_owner hs with hsame | hzero | ⟨_, _, _, h0⟩
      · exact absurd (hsame.trans ho) ho'
      · exact absurd (ho.symm.trans hzero) t.2
      · exact h0

def one : Tid := ⟨1, by decide⟩

def two : Tid := ⟨2, by decide⟩

/-- The owner that a mutant was created with acquires it a second time. -/
theorem mutant_excludes_twice : ∃ s, Run step Act.Bounded (new 1) s ∧ s.acquired one = 2 ∧
    s.recursion.toNat = s.acquired one - s.released one := by
  obtain ⟨s, hreach, hacquired, hreleased, hpc⟩ : ∃ s, Run step Act.Bounded (new 1) s ∧
      s.acquired one = 2 ∧ s.released one = 0 ∧ s.pc one = .outside :=
      exists_run [.call one .tryAcquire, .next one false, .next one false] (by decide)
  exact ⟨s, hreach, hacquired, (mutant_excludes hreach).2.1 one hpc (by omega)⟩

/-! ## Too many acquires -/

/-- Thread 1 holds `k` levels, thread 2 none, and neither is in a call. -/
structure Holds (s : State) (k : Nat) : Prop where
  owner : s.owner = 1
  recursion : s.recursion = UInt32.ofNat k
  outside : s.pc one = .outside ∧ s.pc two = .outside
  acquired : s.acquired one = k ∧ s.acquired two = 0
  released : s.released one = 0 ∧ s.released two = 0

theorem Holds.again {k : Nat} (h : Holds s k) : ∃ s', Reach step s s' ∧ Holds s' (k + 1) := by
  have hne : two ≠ one := by decide
  obtain ⟨s₁, hs₁⟩ : ∃ s₁, s₁ = s.goto one (.loading .tryAcquire) := ⟨_, rfl⟩
  obtain ⟨s₂, hs₂⟩ : ∃ s₂, s₂ = s₁.goto one .adding := ⟨_, rfl⟩
  have h₁ : step s (.call one .tryAcquire) = some s₁ := by simp [step, h.outside, hs₁]
  have h₂ : step s₁ (.next one false) = some s₂ := by
    simp [step, advance, hs₂, hs₁, goto, h.owner, one]
  have h₃ : step s₂ (.next one false) =
      some (({ s₂ with recursion := s₂.recursion + 1 }.gain one).ret one .acquired) := by
    simp [step, advance, hs₂, goto]
  refine ⟨_, .tail _ (.tail _ (.tail _ (.refl s) trivial h₁) trivial h₂) trivial h₃, ?_,
    ?_, ?_, ?_, ?_⟩
  · simpa [gain, ret, goto, hs₁, hs₂] using h.owner
  · simp [gain, ret, goto, hs₁, hs₂, h.recursion]
  · simp [gain, ret, goto, hs₁, hs₂, hne, h.outside]
  · simp [gain, ret, goto, hs₁, hs₂, hne, h.acquired]
  · simp [gain, ret, goto, hs₁, hs₂, h.released]

theorem holds_all (k : Nat) : ∃ s, Reach step (new 1) s ∧ Holds s (k + 1) := by
  induction k with
  | zero => exact ⟨new 1, .refl _, rfl, by decide, ⟨rfl, rfl⟩, by decide, ⟨rfl, rfl⟩⟩
  | succ k ih =>
    obtain ⟨s, hs, hk⟩ := ih
    obtain ⟨s', hs', hk'⟩ := hk.again
    exact ⟨s', hs.trans hs', hk'⟩

/-- One release by the owner when the count has wrapped to 0, and an acquire by thread 2. -/
def handOver : List Act :=
  [.release one, .next one false, .next one false, .next one false, .next one false,
    .call two .tryAcquire, .next two false, .next two false]

/-- After 2^32 acquires the count is 0 again: one release frees the mutant, and a second thread
acquires it while the first has 2^32 - 1 acquires left. -/
theorem mutant_wraps : ∃ s, Reach step (new 1) s ∧
    s.released one < s.acquired one ∧ s.released two < s.acquired two := by
  obtain ⟨s, hs, hk⟩ := holds_all (2 ^ 32 - 1)
  have hne : two ≠ one := by decide
  have hrec : s.recursion = 0 := hk.recursion
  have hrun : (runAll step s handOver).map
      (fun s => (s.released one, s.acquired one, s.released two, s.acquired two)) =
        some (1, 2 ^ 32, 0, 1) := by
    have ho : s.owner = one.1 := hk.owner
    have h0 : (0 : UInt64) ≠ two.1 := by decide
    simp [runAll, handOver, step, advance, goto, lose, gain, hk.outside, ho, hrec, h0,
      hk.acquired, hk.released, hne, hne.symm]
  obtain ⟨s', hs', heq⟩ := map_eq_some_iff.1 hrun
  simp only [Prod.mk.injEq] at heq
  exact ⟨s', hs.trans (reach_of_runAll hs'), by omega, by omega⟩

end Thos.Wait.Mutant
