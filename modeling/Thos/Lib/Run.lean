import Mathlib.Tactic

/-!
# Runs of a step function

A system is a partial step function over actions; `none` means that the action is
not enabled. `Run step ok` relates the states joined by a run all of whose actions
meet `ok` in the state before them.
-/

set_option autoImplicit false

namespace Thos.Lib

universe u v

-- named, so that numerals of `Fin` have one proof in all modules
instance neZeroOne : NeZero 1 := ⟨nofun⟩
instance neZeroTwo : NeZero 2 := ⟨nofun⟩
instance neZeroThree : NeZero 3 := ⟨nofun⟩

variable {σ : Type u} {α : Type v} {step : σ → α → Option σ} {ok : σ → α → Prop} {s s' : σ}
  {P : σ → Prop}

theorem ite_map_eq_some {c : Prop} [Decidable c] {o : Option σ} {f : σ → α} {x : α} :
    (if c then o.map f else none) = some x ↔ c ∧ ∃ y, o = some y ∧ f y = x := by
  rw [Option.ite_none_right_eq_some, Option.map_eq_some_iff]

/-- A run whose actions all meet `ok`. -/
inductive Run (step : σ → α → Option σ) (ok : σ → α → Prop) : σ → σ → Prop
  | refl (s : σ) : Run step ok s s
  | tail {s s' s'' : σ} (a : α) : Run step ok s s' → ok s' a → step s' a = some s'' →
      Run step ok s s''

/-- A run without a condition on its actions. -/
abbrev Reach (step : σ → α → Option σ) : σ → σ → Prop := Run step fun _ _ => True

theorem Run.single (a : α) (hok : ok s a) (h : step s a = some s') : Run step ok s s' :=
  .tail a (.refl s) hok h

theorem Run.mono {ok' : σ → α → Prop} (himp : ∀ s a, ok s a → ok' s a)
    (h : Run step ok s s') : Run step ok' s s' := by
  induction h with
  | refl => exact .refl s
  | tail a _ hok hstep ih => exact .tail a ih (himp _ a hok) hstep

theorem Run.reach (h : Run step ok s s') : Reach step s s' := h.mono fun _ _ _ => trivial

theorem Run.trans {s'' : σ} (h : Run step ok s s') (h' : Run step ok s' s'') :
    Run step ok s s'' := by
  induction h' with
  | refl => exact h
  | tail a _ hok hstep ih => exact .tail a ih hok hstep

theorem Run.invariant {P : σ → Prop} (hP : ∀ s a s', P s → ok s a → step s a = some s' → P s')
    {s s' : σ} (h : Run step ok s s') (hs : P s) : P s' := by
  induction h with
  | refl => exact hs
  | tail a _ hok hstep ih => exact hP _ a _ ih hok hstep

def runAll (step : σ → α → Option σ) (s : σ) (as : List α) : Option σ := as.foldlM step s

theorem reach_of_runAll {as : List α} (h : runAll step s as = some s') : Reach step s s' := by
  induction as generalizing s with
  | nil =>
    cases h
    exact .refl _
  | cons a as ih =>
    rw [runAll, List.foldlM_cons] at h
    cases hstep : step s a with
    | none => simp [hstep] at h
    | some t =>
      rw [hstep] at h
      exact (Run.single a trivial hstep).trans (ih h)

theorem runAll_concat (as : List α) (a : α) :
    runAll step s (as ++ [a]) = (runAll step s as).bind (step · a) := by
  rw [runAll, List.foldlM_append]
  exact congrArg _ (funext fun t => bind_pure (step t a))

theorem runAll_invariant {P : List α → σ → Prop}
    (hP : ∀ as s a s', P as s → step s a = some s' → P (as ++ [a]) s') {as : List α} {s s' : σ}
    (h : runAll step s as = some s') (hs : P [] s) : P as s' := by
  induction as using List.reverseRecOn generalizing s' with
  | nil =>
    cases h
    exact hs
  | append_singleton as a ih =>
    rw [runAll_concat] at h
    obtain ⟨t, ht, hstep⟩ := Option.bind_eq_some_iff.1 h
    exact hP as t a s' (ih ht) hstep

theorem exists_reach [DecidablePred P] (as : List α)
    (h : (runAll step s as).any fun s' => P s') : ∃ s', Reach step s s' ∧ P s' :=
  have ⟨s', hs, hP⟩ := (Option.any_eq_true ..).1 h
  ⟨s', reach_of_runAll hs, of_decide_eq_true hP⟩

/-- The step function that also asks for the condition on the actions. -/
def guarded (step : σ → α → Option σ) (ok : σ → α → Prop) [∀ s a, Decidable (ok s a)] (s : σ)
    (a : α) : Option σ :=
  if ok s a then step s a else none

theorem run_of_guarded [∀ s a, Decidable (ok s a)]
    (h : Reach (guarded step ok) s s') : Run step ok s s' := by
  induction h with
  | refl => exact .refl s
  | tail a _ _ hstep ih =>
    rw [guarded, Option.ite_none_right_eq_some] at hstep
    exact .tail a ih hstep.1 hstep.2

theorem exists_run [∀ s a, Decidable (ok s a)] [DecidablePred P] (as : List α)
    (h : (runAll (guarded step ok) s as).any fun s' => P s') : ∃ s', Run step ok s s' ∧ P s' :=
  have ⟨s', hs, hP⟩ := exists_reach as h
  ⟨s', run_of_guarded hs, hP⟩

/-! ## One thread takes a step -/

theorem once_of_step {T P K : Type} {pc pc' : T → P} {R : P → K → Prop} {t : T}
    (h : ∀ u v k, R (pc u) k → R (pc v) k → u = v) (hpc : ∀ u ≠ t, pc' u = pc u)
    (hnew : ∀ k, R (pc' t) k → ∀ u ≠ t, ¬ R (pc u) k) (u v : T) (k : K) (hu : R (pc' u) k)
    (hv : R (pc' v) k) : u = v := by
  by_cases hut : u = t <;> by_cases hvt : v = t
  · exact hut.trans hvt.symm
  · exact absurd (hpc v hvt ▸ hv) (hnew k (hut ▸ hu) v hvt)
  · exact absurd (hpc u hut ▸ hu) (hnew k (hvt ▸ hv) u hut)
  · exact h u v k (hpc u hut ▸ hu) (hpc v hvt ▸ hv)

end Thos.Lib
