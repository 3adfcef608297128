import Mathlib.Tactic

/-!
# Counting the members of a set in an interval

The number of members of a finite set of numbers in an interval, and what adding or
removing one number does to it.
-/

set_option autoImplicit false

namespace Thos.Lib

/-- The number of members of `s` among `b, …, b + n - 1`. -/
def tally (s : Finset Nat) (b n : Nat) : Nat := {i ∈ Finset.range n | b + i ∈ s}.card

variable {s : Finset Nat} {b n x : Nat}

theorem tally_le (s : Finset Nat) (b n : Nat) : tally s b n ≤ n := by
  calc tally s b n ≤ (Finset.range n).card := Finset.card_filter_le ..
    _ = n := Finset.card_range n

theorem tally_insert_of_outside (h : x < b ∨ b + n ≤ x) : tally (insert x s) b n = tally s b n := by
  refine congrArg Finset.card (Finset.filter_congr fun i hi => ?_)
  rw [Finset.mem_range] at hi
  rw [Finset.mem_insert, or_iff_right (by omega)]

theorem tally_insert (hx : x ∉ s) (hlo : b ≤ x) (hhi : x < b + n) :
    tally (insert x s) b n = tally s b n + 1 := by
  have hset : {i ∈ Finset.range n | b + i ∈ insert x s} =
      insert (x - b) {i ∈ Finset.range n | b + i ∈ s} := by
    ext i
    simp only [Finset.mem_filter, Finset.mem_range, Finset.mem_insert]
    constructor
    · rintro ⟨hi, h | h⟩
      · exact .inl (by omega)
      · exact .inr ⟨hi, h⟩
    · rintro (rfl | ⟨hi, h⟩)
      · exact ⟨by omega, .inl (by omega)⟩
      · exact ⟨hi, .inr h⟩
  rw [tally, hset, Finset.card_insert_of_notMem, tally]
  rw [Finset.mem_filter, Nat.add_sub_cancel' hlo]
  exact fun h => hx h.2

theorem tally_erase_of_outside (h : x < b ∨ b + n ≤ x) : tally (s.erase x) b n = tally s b n := by
  refine congrArg Finset.card (Finset.filter_congr fun i hi => ?_)
  rw [Finset.mem_range] at hi
  rw [Finset.mem_erase, and_iff_right (by omega)]

theorem tally_erase (hx : x ∈ s) (hlo : b ≤ x) (hhi : x < b + n) :
    tally (s.erase x) b n + 1 = tally s b n := by
  rw [← tally_insert (Finset.notMem_erase x s) hlo hhi, Finset.insert_erase hx]

variable {c : Nat} (h : c + tally s b n = n) (hlo : b ≤ x) (hhi : x < b + n)
include h hlo hhi

theorem free_pos (hx : x ∉ s) : 0 < c := by
  have hle := tally_le (insert x s) b n
  rw [tally_insert hx hlo hhi] at hle
  omega

theorem free_insert (hx : x ∉ s) : c - 1 + tally (insert x s) b n = n := by
  have hpos := free_pos h hlo hhi hx
  rw [tally_insert hx hlo hhi]
  omega

theorem free_erase (hx : x ∈ s) : c + 1 + tally (s.erase x) b n = n := by
  have htally := tally_erase hx hlo hhi
  omega

end Thos.Lib
