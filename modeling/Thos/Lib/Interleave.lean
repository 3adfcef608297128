import Thos.Lib.Prog

/-!
# Two programs at once

Two programs over one state, each taking its atomic reads and writes in turns that a
schedule gives. A schedule that lets one program run only while the other has not begun or
is at its end amounts to running one after the other.
-/

set_option autoImplicit false

namespace Thos.Lib

variable {σ ρ ε α β : Type} {a : α}

namespace Prog

theorem bind_assoc {γ : Type} (p : Prog σ ρ ε α) (f : α → Prog σ ρ ε β) (g : β → Prog σ ρ ε γ) :
    (p >>= f) >>= g = p >>= fun a => f a >>= g := by
  change (p.andThen f).andThen g = p.andThen fun a => (f a).andThen g
  induction p with
  | ret a => rfl
  | stop e => rfl
  | look h k ih => exact congrArg (Prog.look h) (funext ih)
  | poke h k ih => exact congrArg (Prog.poke h) ih

/-- One atomic read or write; a program at its end stays there. -/
def step : Prog σ ρ ε α → σ → Prog σ ρ ε α × σ
  | .ret a, s => (.ret a, s)
  | .stop e, s => (.stop e, s)
  | .look f k, s => (k (f s), s)
  | .poke f k, s => (k, f s)

/-- The program is at its end. -/
def Done : Prog σ ρ ε α → Prop
  | .ret _ => True
  | .stop _ => True
  | .look _ _ => False
  | .poke _ _ => False

theorem Done.step_eq {p : Prog σ ρ ε α} (h : p.Done) (s : σ) : p.step s = (p, s) := by
  cases p with
  | ret a => rfl
  | stop e => rfl
  | look f k => exact h.elim
  | poke f k => exact h.elim

/-- From `s` the program `p`, run alone, comes to be `p'` in the state `s'`. -/
inductive Reaches : Prog σ ρ ε α → σ → Prog σ ρ ε α → σ → Prop
  | refl (p : Prog σ ρ ε α) (s : σ) : Reaches p s p s
  | look {f : σ → ρ} {k : ρ → Prog σ ρ ε α} {s s' : σ} {p' : Prog σ ρ ε α}
      (h : Reaches (k (f s)) s p' s') :
      Reaches (.look f k) s p' s'
  | poke {f : σ → σ} {k : Prog σ ρ ε α} {s s' : σ} {p' : Prog σ ρ ε α} (h : Reaches k (f s) p' s') :
      Reaches (.poke f k) s p' s'

variable {p p' p'' : Prog σ ρ ε α} {s s' s'' : σ}

section

variable (h : Reaches p s p' s')
include h

theorem Reaches.trans (h' : Reaches p' s' p'' s'') : Reaches p s p'' s'' := by
  induction h with
  | refl => exact h'
  | look _ ih => exact .look (ih h')
  | poke _ ih => exact .poke (ih h')

theorem Reaches.step : Reaches p s (p'.step s').1 (p'.step s').2 := by
  refine h.trans ?_
  cases p' with
  | ret a => exact .refl _ _
  | stop e => exact .refl _ _
  | look f k => exact .look (.refl _ _)
  | poke f k => exact .poke (.refl _ _)

theorem Reaches.bind (f : α → Prog σ ρ ε β) : Reaches (p >>= f) s (p' >>= f) s' := by
  induction h with
  | refl => exact .refl _ _
  | look _ ih => exact .look ih
  | poke _ ih => exact .poke ih

theorem Reaches.run : (p.run s).out = (p'.run s').out ∧ (p.run s).state = (p'.run s').state := by
  induction h with
  | refl => exact ⟨rfl, rfl⟩
  | look _ ih => exact ih
  | poke _ ih => exact ih

end

theorem reaches_of_run (h : (p.run s).out = .ok a) : Reaches p s (.ret a) (p.run s).state := by
  induction p generalizing s with
  | ret b =>
    cases h
    exact .refl ..
  | stop e => cases h
  | look f k ih => exact .look (ih (f s) h)
  | poke f k ih => exact .poke (ih h)

theorem Reaches.bind_of_run (h : (p.run s).out = .ok a) (f : α → Prog σ ρ ε β) :
    Reaches (p >>= f) s (f a) (p.run s).state :=
  (reaches_of_run h).bind f

theorem Reaches.bind_of_read (h : p.run s = ⟨.ok a, s, []⟩) (f : α → Prog σ ρ ε β) :
    Reaches (p >>= f) s (f a) s := by
  have hreach := Reaches.bind_of_run (congrArg Result.out h) f
  rwa [h] at hreach

end Prog

/-- Whose turn it is. -/
inductive Side
  | left
  | right
  deriving DecidableEq

/-- What is left of the two programs, and the state, after the turns of a schedule. -/
def interleave : List Side → Prog σ ρ ε α → Prog σ ρ ε β → σ → Prog σ ρ ε α × Prog σ ρ ε β × σ
  | [], p, q, s => (p, q, s)
  | .left :: sch, p, q, s => interleave sch (p.step s).1 q (p.step s).2
  | .right :: sch, p, q, s => interleave sch p (q.step s).1 (q.step s).2

variable {p p' : Prog σ ρ ε α} {q q' : Prog σ ρ ε β} {s s' : σ}

theorem interleave_append (sch sch' : List Side) (p : Prog σ ρ ε α) (q : Prog σ ρ ε β) (s : σ) :
    interleave (sch ++ sch') p q s =
      interleave sch' (interleave sch p q s).1 (interleave sch p q s).2.1
        (interleave sch p q s).2.2 := by
  induction sch generalizing p q s with
  | nil => rfl
  | cons side sch ih => cases side <;> exact ih _ _ _

theorem Prog.Reaches.exists_left (h : p.Reaches s p' s') (q : Prog σ ρ ε β) :
    ∃ n, interleave (List.replicate n .left) p q s = (p', q, s') := by
  induction h with
  | refl => exact ⟨0, rfl⟩
  | look _ ih | poke _ ih =>
    obtain ⟨n, hn⟩ := ih
    exact ⟨n + 1, hn⟩

theorem Prog.Reaches.exists_right (h : q.Reaches s q' s') (p : Prog σ ρ ε α) :
    ∃ n, interleave (List.replicate n .right) p q s = (p, q', s') := by
  induction h with
  | refl => exact ⟨0, rfl⟩
  | look _ ih | poke _ ih =>
    obtain ⟨n, hn⟩ := ih
    exact ⟨n + 1, hn⟩

theorem exists_overtaken {b : β} (hp : p.Reaches s p' s') (hq : (q.run s').out = .ok b)
    (hp' : (p'.run (q.run s').state).out = .ok a) :
    ∃ sch, interleave sch p q s = (.ret a, .ret b, (p'.run (q.run s').state).state) := by
  obtain ⟨n₁, h₁⟩ := hp.exists_left q
  obtain ⟨n₂, h₂⟩ := (Prog.reaches_of_run hq).exists_right p'
  obtain ⟨n₃, h₃⟩ := (Prog.reaches_of_run hp').exists_left (.ret b : Prog σ ρ ε β)
  refine ⟨List.replicate n₁ .left ++ (List.replicate n₂ .right ++ List.replicate n₃ .left), ?_⟩
  rw [interleave_append, h₁, interleave_append, h₂, h₃]

/-! ## Schedules without overlap -/

/-- In each turn the other program has not begun or is at its end, or the turn is void. The
flags say which of the two have begun. -/
def Serial : Bool → Bool → List Side → Prog σ ρ ε α → Prog σ ρ ε β → σ → Prop
  | _, _, [], _, _, _ => True
  | _, right, .left :: sch, p, q, s =>
    (p.Done ∨ q.Done ∨ right = false) ∧ Serial true right sch (p.step s).1 q (p.step s).2
  | left, _, .right :: sch, p, q, s =>
    (q.Done ∨ p.Done ∨ left = false) ∧ Serial left true sch p (q.step s).1 (q.step s).2

/-- Where two programs can be that have not overlapped: one has run and the other has not
begun, or one has come to its end and then the other has run. -/
inductive OneByOne (p₀ : Prog σ ρ ε α) (q₀ : Prog σ ρ ε β) (s₀ : σ) :
    Bool → Bool → Prog σ ρ ε α → Prog σ ρ ε β → σ → Prop
  | start : OneByOne p₀ q₀ s₀ false false p₀ q₀ s₀
  | left {p : Prog σ ρ ε α} {s : σ} (h : p₀.Reaches s₀ p s) : OneByOne p₀ q₀ s₀ true false p q₀ s
  | right {q : Prog σ ρ ε β} {s : σ} (h : q₀.Reaches s₀ q s) : OneByOne p₀ q₀ s₀ false true p₀ q s
  | leftThenRight {p : Prog σ ρ ε α} {q : Prog σ ρ ε β} {s s' : σ} (hp : p₀.Reaches s₀ p s)
      (hdone : p.Done)
      (hq : q₀.Reaches s q s') : OneByOne p₀ q₀ s₀ true true p q s'
  | rightThenLeft {p : Prog σ ρ ε α} {q : Prog σ ρ ε β} {s s' : σ} (hq : q₀.Reaches s₀ q s)
      (hdone : q.Done)
      (hp : p₀.Reaches s p s') : OneByOne p₀ q₀ s₀ true true p q s'

variable {p₀ : Prog σ ρ ε α} {q₀ : Prog σ ρ ε β} {s₀ : σ} {left right : Bool}

section

variable (h : OneByOne p₀ q₀ s₀ left right p q s)
include h

theorem OneByOne.stepLeft (hturn : p.Done ∨ q.Done ∨ right = false) :
    OneByOne p₀ q₀ s₀ true right (p.step s).1 q (p.step s).2 := by
  cases h with
  | start => exact .left (.step (.refl _ _))
  | left h => exact .left h.step
  | right h =>
    rcases hturn with hp | hq | hfalse
    · rw [hp.step_eq]
      exact .leftThenRight (.refl ..) hp h
    · exact .rightThenLeft h hq (.step (.refl ..))
    · cases hfalse
  | leftThenRight hp hdone hq =>
    rw [hdone.step_eq]
    exact .leftThenRight hp hdone hq
  | rightThenLeft hq hdone hp => exact .rightThenLeft hq hdone hp.step

theorem OneByOne.swap : OneByOne q₀ p₀ s₀ right left q p s := by
  cases h with
  | start => exact .start
  | left h => exact .right h
  | right h => exact .left h
  | leftThenRight hp hdone hq => exact .rightThenLeft hp hdone hq
  | rightThenLeft hq hdone hp => exact .leftThenRight hq hdone hp

theorem OneByOne.stepRight (hturn : q.Done ∨ p.Done ∨ left = false) :
    OneByOne p₀ q₀ s₀ left true p (q.step s).1 (q.step s).2 :=
  (h.swap.stepLeft hturn).swap

theorem OneByOne.interleave {sch : List Side} (hser : Serial left right sch p q s) :
    ∃ left' right', OneByOne p₀ q₀ s₀ left' right' (interleave sch p q s).1
    (interleave sch p q s).2.1 (interleave sch p q s).2.2 := by
  induction sch generalizing left right p q s with
  | nil => exact ⟨left, right, h⟩
  | cons side sch ih =>
    cases side with
    | left => exact ih (h.stepLeft hser.1) hser.2
    | right => exact ih (h.stepRight hser.1) hser.2

end

/-- A schedule without overlap that brings both programs to their end runs one after the
other. -/
theorem serial_run {b : β} {sch : List Side} (hser : Serial false false sch p₀ q₀ s₀)
    (hend : Lib.interleave sch p₀ q₀ s₀ = (.ret a, .ret b, s')) :
    ((p₀.run s₀).out = .ok a ∧ (q₀.run (p₀.run s₀).state).out = .ok b ∧
        (q₀.run (p₀.run s₀).state).state = s') ∨
      ((q₀.run s₀).out = .ok b ∧ (p₀.run (q₀.run s₀).state).out = .ok a ∧
        (p₀.run (q₀.run s₀).state).state = s') := by
  obtain ⟨left', right', h⟩ := OneByOne.start.interleave hser
  rw [hend] at h
  -- one program has run from the start, and the other from where that one ended
  have hrun : ∃ s, (p₀.Reaches s₀ (.ret a) s ∧ q₀.Reaches s (.ret b) s') ∨
      (q₀.Reaches s₀ (.ret b) s ∧ p₀.Reaches s (.ret a) s') := by
    cases h with
    | start => exact ⟨s', .inl ⟨.refl _ _, .refl _ _⟩⟩
    | left hp => exact ⟨s', .inl ⟨hp, .refl _ _⟩⟩
    | right hq => exact ⟨s', .inr ⟨hq, .refl _ _⟩⟩
    | leftThenRight hp _ hq => exact ⟨_, .inl ⟨hp, hq⟩⟩
    | rightThenLeft hq _ hp => exact ⟨_, .inr ⟨hq, hp⟩⟩
  rcases hrun with ⟨s, ⟨hp, hq⟩ | ⟨hq, hp⟩⟩
  · obtain ⟨hpo, hps⟩ := hp.run
    obtain ⟨hqo, hqs⟩ := hq.run
    rw [show s = (p₀.run s₀).state from hps.symm] at hqo hqs
    exact .inl ⟨hpo, hqo, hqs⟩
  · obtain ⟨hqo, hqs⟩ := hq.run
    obtain ⟨hpo, hps⟩ := hp.run
    rw [show s = (q₀.run s₀).state from hqs.symm] at hpo hps
    exact .inr ⟨hqo, hpo, hps⟩

theorem serial_rights (hp : p.Done) (n : Nat) (left right : Bool) (q : Prog σ ρ ε β) (s : σ) :
    Serial left right (List.replicate n .right) p q s := by
  induction n generalizing right q s with
  | zero => trivial
  | succ n ih => exact ⟨.inr (.inl hp), ih _ _ _⟩

theorem serial_lefts_rights {n : Nat}
    (hdone : (Lib.interleave (List.replicate n .left) p q s).1.Done) (m : Nat)
    (left : Bool) : Serial left false
    (List.replicate n .left ++ List.replicate m .right) p q s := by
  induction n generalizing p s left with
  | zero => exact serial_rights hdone m left false q s
  | succ n ih => exact ⟨.inr (.inr rfl), ih hdone true⟩

theorem exists_serial {b : β} (hp : (p₀.run s₀).out = .ok a)
    (hq : (q₀.run (p₀.run s₀).state).out = .ok b) : ∃ sch, Serial false false sch p₀ q₀ s₀ ∧
      Lib.interleave sch p₀ q₀ s₀ = (.ret a, .ret b, (q₀.run (p₀.run s₀).state).state) := by
  obtain ⟨n, hn⟩ := (Prog.reaches_of_run hp).exists_left q₀
  obtain ⟨m, hm⟩ := (Prog.reaches_of_run hq).exists_right (.ret a : Prog σ ρ ε α)
  refine ⟨List.replicate n .left ++ List.replicate m .right, serial_lefts_rights ?_ m false, ?_⟩
  · rw [hn]
    trivial
  · rw [interleave_append, hn, hm]

end Thos.Lib
