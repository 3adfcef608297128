import Mathlib.Tactic

/-!
# A heap with stale entries

Entries are added when a value changes and never removed in place: an entry whose value is out of
date is dropped when it comes to the top. `peekLive` is the look at the top. Only the least entry
of a heap is ever read or removed, so a heap is a list in any order.
-/

set_option autoImplicit false

namespace Thos.Lib

open List

universe u v

variable {ε : Type u} {κ : Type v} [DecidableEq ε] [LinearOrder κ]

/-- Drop least entries until the least one is live; the entry and the heap that is left. -/
def peekLive (key : ε → κ) (live : ε → Bool) : Nat → List ε → Option ε × List ε
  | 0, heap => (none, heap)
  | n + 1, heap =>
    match heap.argmin key with
    | none => (none, heap)
    | some e => if live e then (some e, heap) else peekLive key live n (heap.erase e)

variable {key : ε → κ} {live : ε → Bool} {n : Nat} {heap : List ε} {e : ε}

theorem mem_peekLive (hlive : live e = true) (he : e ∈ heap) :
    e ∈ (peekLive key live n heap).2 := by
  induction n generalizing heap with
  | zero => exact he
  | succ n ih =>
    rw [peekLive]
    split
    · exact he
    · next top htop =>
        split
        · exact he
        · next hstale =>
            have hne : e ≠ top := fun heq => hstale (heq ▸ hlive)
            exact ih ((mem_erase_of_ne hne).2 he)

theorem stale_of_peekLive (hn : heap.length ≤ n) (h : (peekLive key live n heap).1 = none)
    (he : e ∈ heap) : live e = false := by
  induction n generalizing heap with
  | zero => simp [length_eq_zero_iff.1 (Nat.le_zero.1 hn)] at he
  | succ n ih =>
    rw [peekLive] at h
    split at h
    · next htop =>
        rw [argmin_eq_none.1 htop] at he
        cases he
    · next top htop =>
        split at h
        · cases h
        · next hstale =>
            rcases eq_or_ne e top with rfl | hne
            · exact Bool.eq_false_of_not_eq_true hstale
            · have hlen := length_erase_of_mem (argmin_mem htop)
              exact ih (by omega) h ((mem_erase_of_ne hne).2 he)

theorem least_of_peekLive (h : (peekLive key live n heap).1 = some e) :
    e ∈ heap ∧ live e = true ∧ ∀ e' ∈ heap, live e' = true → key e ≤ key e' := by
  induction n generalizing heap with
  | zero => cases h
  | succ n ih =>
    rw [peekLive] at h
    split at h
    · cases h
    · next top htop =>
        split at h
        · next hlive =>
            cases h
            exact ⟨argmin_mem htop, hlive, fun e' he' _ => le_of_mem_argmin he' htop⟩
        · next hstale =>
            obtain ⟨he, hlive, hleast⟩ := ih h
            refine ⟨mem_of_mem_erase he, hlive, fun e' he' hlive' => ?_⟩
            have hne : e' ≠ top := fun heq => hstale (heq ▸ hlive')
            exact hleast e' ((mem_erase_of_ne hne).2 he') hlive'

end Thos.Lib
