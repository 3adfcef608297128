import Mathlib.Tactic

/-!
# Locks taken in order

Threads that spin on locks. If every thread that spins on a lock holds only smaller ones, no
threads wait for each other in a circle (`not_transGen_spinsOn`).

A list of locks that are to be taken is brought in order by sorting it and dropping what is equal
to its neighbour; `dropRepeats` of a sorted list ascends.
-/

set_option autoImplicit false

namespace Thos.Lib

section Cycles

variable {T L : Type} [Preorder L] {wants : T → Option L} {holder : L → Option T}

/-- `t` spins on a lock that `u` holds. -/
def SpinsOn (wants : T → Option L) (holder : L → Option T) (t u : T) : Prop :=
  ∃ l, wants t = some l ∧ holder l = some u

theorem exists_held_of_transGen (hasc : ∀ t l l', wants t = some l → holder l' = some t → l' < l)
    {t u : T} (h : Relation.TransGen (SpinsOn wants holder) t u) :
    ∃ l l', wants t = some l ∧ l ≤ l' ∧ holder l' = some u := by
  induction h with
  | single hspin =>
    obtain ⟨l, hwants, hhold⟩ := hspin
    exact ⟨l, l, hwants, le_rfl, hhold⟩
  | tail _ hspin ih =>
    obtain ⟨l, l', hwants, hle, hhold⟩ := ih
    obtain ⟨m, hwants', hholder'⟩ := hspin
    exact ⟨l, m, hwants, hle.trans (hasc _ m l' hwants' hhold).le, hholder'⟩

theorem not_transGen_spinsOn (hasc : ∀ t l l', wants t = some l → holder l' = some t → l' < l)
    (t : T) : ¬ Relation.TransGen (SpinsOn wants holder) t t := by
  intro h
  obtain ⟨l, l', hwants, hle, hhold⟩ := exists_held_of_transGen hasc h
  exact (hle.trans_lt (hasc t l l' hwants hhold)).false

end Cycles

variable {L : Type}

/-- Drop what is equal to its neighbour. -/
def dropRepeats [DecidableEq L] : List L → List L
  | a :: b :: l => if a = b then dropRepeats (b :: l) else a :: dropRepeats (b :: l)
  | l => l

theorem mem_dropRepeats [DecidableEq L] {x : L} {l : List L} : x ∈ dropRepeats l ↔ x ∈ l := by
  fun_induction dropRepeats l with
  | case1 a l ih => simp [ih]
  | case2 a b l hne ih => simp [ih]
  | case3 l => rfl

theorem pairwise_dropRepeats [LinearOrder L] {l : List L} (h : l.Pairwise (· ≤ ·)) :
    (dropRepeats l).Pairwise (· < ·) := by
  fun_induction dropRepeats l with
  | case1 a l ih => exact ih (List.pairwise_cons.1 h).2
  | case2 a b l hne ih =>
    obtain ⟨hle, htail⟩ := List.pairwise_cons.1 h
    refine List.pairwise_cons.2 ⟨fun x hx => ?_, ih htail⟩
    -- `a` is below its neighbour, and that is the least of the rest
    have hab : a < b := (hle b List.mem_cons_self).lt_of_ne hne
    rcases List.mem_cons.1 (mem_dropRepeats.1 hx) with rfl | hx
    · exact hab
    · exact hab.trans_le ((List.pairwise_cons.1 htail).1 x hx)
  | case3 l hshort =>
    match l with
    | [] => exact .nil
    | [a] => exact List.pairwise_singleton _ a
    | a :: b :: l => exact absurd rfl (hshort a b l)

end Thos.Lib
