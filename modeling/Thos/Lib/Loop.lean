import Mathlib.Tactic

/-!
# Loops and scans

`iter body n s` is a loop that runs `body` until it breaks, with `n` rounds of fuel; a measure that
every round lowers says that `n` rounds are enough. `firstMin key l` is the scan that keeps the
first element of least key; elements without a key are passed over. `forall_or_first` says where a
scan for a property stops.
-/

set_option autoImplicit false

namespace Thos.Lib

open List

universe u v

variable {σ : Type u} {τ : Type v}

/-! ## Loops -/

/-- Run `body` until it breaks. -/
def iter (body : σ → Option σ) : Nat → σ → σ
  | 0, s => s
  | n + 1, s =>
    match body s with
    | none => s
    | some s' => iter body n s'

section

variable {body : σ → Option σ} {body' : τ → Option τ} {s s' : σ} {t : τ}

theorem iter_of_none (h : body s = none) (n : Nat) : iter body n s = s := by
  cases n with
  | zero => rfl
  | succ n => rw [iter, h]

theorem iter_of_some (h : body s = some s') (n : Nat) : iter body (n + 1) s = iter body n s' := by
  rw [iter, h]

theorem reaches_iter (body : σ → Option σ) (n : Nat) (s : σ) :
    Relation.ReflTransGen (fun s s' => body s = some s') s (iter body n s) := by
  induction n generalizing s with
  | zero => exact .refl
  | succ n ih =>
    cases h : body s with
    | none => rw [iter_of_none h]
    | some s' =>
      rw [iter_of_some h]
      exact .head h (ih s')

theorem iter_eq_of_reaches (μ : σ → Nat) (hμ : ∀ s s', body s = some s' → μ s' < μ s)
    (h : Relation.ReflTransGen (fun s s' => body s = some s') s s') (hend : body s' = none)
    {n : Nat} (hn : μ s ≤ n) : iter body n s = s' := by
  induction h using Relation.ReflTransGen.head_induction_on generalizing n with
  | refl => exact iter_of_none hend n
  | head hstep _ ih =>
    have hlt := hμ _ _ hstep
    obtain ⟨m, rfl⟩ : ∃ m, n = m + 1 := ⟨n - 1, by omega⟩
    rw [iter_of_some hstep]
    exact ih (by omega)

theorem iter_ends (μ : σ → Nat) (hμ : ∀ s s', body s = some s' → μ s' < μ s) {n : Nat}
    (hn : μ s ≤ n) : body (iter body n s) = none := by
  induction n generalizing s with
  | zero =>
    cases h : body s with
    | none => exact h
    | some s' => exact absurd (hμ s s' h) (by omega)
  | succ n ih =>
    cases h : body s with
    | none => rwa [iter_of_none h]
    | some s' =>
      have hlt := hμ s s' h
      rw [iter_of_some h]
      exact ih (by omega)

theorem iter_rel {R : σ → τ → Prop} (hR : ∀ s t, R s t → Option.Rel R (body s) (body' t))
    (h : R s t) (n : Nat) : R (iter body n s) (iter body' n t) := by
  induction n generalizing s t with
  | zero => exact h
  | succ n ih =>
    have hbody := hR s t h
    cases hs : body s with
    | none =>
      rw [hs] at hbody
      cases ht : body' t with
      | none => rwa [iter_of_none hs, iter_of_none ht]
      | some t' => simp [ht] at hbody
    | some s' =>
      rw [hs] at hbody
      cases ht : body' t with
      | none => simp [ht] at hbody
      | some t' =>
        rw [ht] at hbody
        rw [iter_of_some hs, iter_of_some ht]
        exact ih (Option.rel_some_some.1 hbody)

end

/-! ## The first least element -/

/-- One round of the scan. -/
def minRound (key : σ → Option Nat) (best : Option (Nat × σ)) (i : σ) : Option (Nat × σ) :=
  match key i with
  | some r => if best.all (fun b => decide (r < b.1)) then some (r, i) else best
  | none => best

/-- The first element of least key, with its key. -/
def firstMin (key : σ → Option Nat) (l : List σ) : Option (Nat × σ) := l.foldl (minRound key) none

section

variable {key : σ → Option Nat} {l : List σ} {r : Nat} {i : σ}

theorem firstMin_concat (key : σ → Option Nat) (l : List σ) (i : σ) :
    firstMin key (l ++ [i]) = minRound key (firstMin key l) i :=
  foldl_append

theorem firstMin_congr {key' : σ → Option Nat} (h : ∀ i ∈ l, key i = key' i) :
    firstMin key l = firstMin key' l := by
  refine foldl_rel (r := Eq) rfl ?_
  rintro i hi best _ rfl
  rw [minRound, minRound, h i hi]

theorem mem_of_firstMin (h : firstMin key l = some (r, i)) : i ∈ l ∧ key i = some r := by
  induction l using reverseRecOn with
  | nil => cases h
  | append_singleton l j ih =>
    rw [firstMin_concat, minRound] at h
    split at h
    · next r' hj =>
        split at h
        · cases h
          exact ⟨by simp, hj⟩
        · exact ⟨mem_append_left _ (ih h).1, (ih h).2⟩
    · exact ⟨mem_append_left _ (ih h).1, (ih h).2⟩

theorem firstMin_eq_none (h : firstMin key l = none) : ∀ j ∈ l, key j = none := by
  induction l using reverseRecOn with
  | nil => simp
  | append_singleton l j ih =>
    rw [firstMin_concat, minRound] at h
    split at h
    · split at h
      · cases h
      · next hall =>
          rw [h] at hall
          exact absurd rfl hall
    · next hj => exact forall_mem_append.2 ⟨ih h, forall_mem_singleton.2 hj⟩

theorem least_of_firstMin {key : Nat → Option Nat} {n r w : Nat}
    (h : firstMin key (List.range n) = some (r, w)) {j r' : Nat} (hj : j < n)
    (hr' : key j = some r') : r < r' ∨ (r = r' ∧ w ≤ j) := by
  induction n generalizing r w j r' with
  | zero => cases hj
  | succ n ih =>
    rw [range_succ, firstMin_concat, minRound] at h
    cases hn : key n with
    | none =>
      rw [hn] at h
      rcases Nat.lt_succ_iff_lt_or_eq.1 hj with hj | rfl
      · exact ih h hj hr'
      · rw [hn] at hr'
        cases hr'
    | some rn =>
      rw [hn] at h
      dsimp only at h
      cases hbest : firstMin key (List.range n) with
      | none =>
        have hnone := firstMin_eq_none hbest
        cases hbest ▸ h
        rcases Nat.lt_succ_iff_lt_or_eq.1 hj with hj | rfl
        · rw [hnone j (mem_range.2 hj)] at hr'
          cases hr'
        · rw [hn] at hr'
          exact .inr ⟨Option.some.inj hr', Nat.le_refl _⟩
      | some best =>
        obtain ⟨rb, wb⟩ := best
        have hwb := mem_range.1 (mem_of_firstMin hbest).1
        rw [hbest] at h
        split at h
        · next hlt =>
            cases h
            have hlt : r < rb := by simpa using hlt
            rcases Nat.lt_succ_iff_lt_or_eq.1 hj with hj | rfl
            · have := ih hbest hj hr'
              omega
            · rw [hn] at hr'
              exact .inr ⟨Option.some.inj hr', Nat.le_refl _⟩
        · next hlt =>
            cases h
            have hlt : ¬ rn < r := by simpa using hlt
            rcases Nat.lt_succ_iff_lt_or_eq.1 hj with hj | rfl
            · exact ih hbest hj hr'
            · rw [hn] at hr'
              have := Option.some.inj hr'
              omega

theorem findIdx?_congr {p q : σ → Bool} (h : ∀ i ∈ l, p i = q i) : l.findIdx? p = l.findIdx? q := by
  induction l with
  | nil => rfl
  | cons i l ih =>
    rw [findIdx?_cons, findIdx?_cons, h i mem_cons_self, ih fun j hj => h j (mem_cons_of_mem i hj)]

end

/-! ## The first element without a property -/

theorem forall_or_first (P : σ → Prop) [DecidablePred P] (l : List σ) :
    (∀ a ∈ l, P a) ∨ ∃ pre a post, l = pre ++ a :: post ∧ (∀ b ∈ pre, P b) ∧ ¬ P a := by
  induction l with
  | nil => exact .inl nofun
  | cons x l ih =>
    by_cases hx : P x
    · rcases ih with hall | ⟨pre, a, post, rfl, hpre, ha⟩
      · exact .inl (forall_mem_cons.2 ⟨hx, hall⟩)
      · exact .inr ⟨x :: pre, a, post, rfl, forall_mem_cons.2 ⟨hx, hpre⟩, ha⟩
    · exact .inr ⟨[], x, l, rfl, nofun, hx⟩

theorem mem_before_iff {pre post : List Nat} {a b : Nat}
    (h : (pre ++ a :: post).Pairwise (· < ·)) : b ∈ pre ↔ b ∈ pre ++ a :: post ∧ b < a := by
  obtain ⟨-, hrest, hlt⟩ := pairwise_append.1 h
  constructor
  · intro hb
    exact ⟨mem_append_left _ hb, hlt b hb a mem_cons_self⟩
  · rintro ⟨hb, hba⟩
    rcases mem_append.1 hb with hb | hb
    · exact hb
    · rcases mem_cons.1 hb with rfl | hb
      · omega
      · have := (pairwise_cons.1 hrest).1 b hb
        omega

end Thos.Lib
