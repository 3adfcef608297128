import Mathlib.Tactic

/-!
# A ledger of owners

Every item that is in use belongs to exactly one owner or is loose: taken, but not yet or
no longer anybody's. As one equation of multisets this says at once that no item has two
owners, that no owner holds an item twice, and that nothing in use is unaccounted for; and
each step of a program that moves items about is a rewriting of the equation.
-/

set_option autoImplicit false

namespace Thos.Lib

open Multiset (le_add_left le_add_right mem_add nodup_of_le zero_le)

variable {ι β : Type}

/-- What the live owners hold and what is loose make up what is in use. -/
def Ledger (own : ι → Multiset β) (live : Finset ι) (loose : Multiset β) (used : Finset β) : Prop :=
  ∑ i ∈ live, own i + loose = used.val

namespace Ledger

variable {own : ι → Multiset β} {live : Finset ι} {loose : Multiset β} {used : Finset β} {i : ι}

variable (h : Ledger own live loose used)
include h

theorem congr {own' : ι → Multiset β}
    (heq : ∀ i ∈ live, own' i = own i) : Ledger own' live loose used := by
  rw [Ledger, Finset.sum_congr rfl heq]
  exact h

theorem own_le (hi : i ∈ live) : own i ≤ used.val := by
  rw [← h]
  exact (Finset.single_le_sum (fun _ _ => zero_le _) hi).trans (le_add_right _ _)

theorem nodup (hi : i ∈ live) : (own i).Nodup := nodup_of_le (h.own_le hi) used.nodup

theorem mem_used (hi : i ∈ live) {b : β} (hb : b ∈ own i) : b ∈ used :=
  Multiset.mem_of_le (h.own_le hi) hb

theorem mem_used_of_loose {b : β} (hb : b ∈ loose) : b ∈ used := by
  rw [← Finset.mem_val, ← h]
  exact mem_add.2 (.inr hb)

theorem nodup_loose : loose.Nodup := by
  refine nodup_of_le ?_ used.nodup
  rw [← h]
  exact le_add_left _ _

theorem not_mem_of_loose (hi : i ∈ live) {b : β} (hb : b ∈ loose) : b ∉ own i := by
  intro hown
  have hle : own i + loose ≤ used.val := by
    rw [← h]
    exact add_le_add_left (Finset.single_le_sum (fun _ _ => zero_le _) hi) _
  have hdisj := (Multiset.nodup_add.1 (nodup_of_le hle used.nodup)).2.2
  exact Multiset.disjoint_left.1 hdisj hown hb

section Moves

variable [DecidableEq ι]

theorem erase (hi : i ∈ live) : Ledger own (live.erase i) (own i + loose) used := by
  rw [Ledger, ← h, ← Finset.sum_erase_add _ _ hi, add_assoc]

omit h in
theorem insert (h : Ledger own live (own i + loose) used) (hi : i ∉ live) :
    Ledger own (insert i live) loose used := by
  rw [Ledger, ← h, Finset.sum_insert hi, add_assoc, add_left_comm]

theorem transfer {own' : ι → Multiset β} {loose' : Multiset β}
    (hi : i ∈ live) (hother : ∀ j ∈ live, j ≠ i → own' j = own j)
    (hmove : own' i + loose' = own i + loose) : Ledger own' live loose' used := by
  have hsum : ∑ j ∈ live.erase i, own' j = ∑ j ∈ live.erase i, own j :=
    Finset.sum_congr rfl fun j hj =>
      hother j (Finset.mem_of_mem_erase hj) (Finset.ne_of_mem_erase hj)
  rw [Ledger, ← h, ← Finset.sum_erase_add _ _ hi, ← Finset.sum_erase_add _ _ hi, hsum, add_assoc,
    hmove, add_assoc]

theorem apart {j : ι} (hi : i ∈ live) (hj : j ∈ live)
    (hne : i ≠ j) {b : β} (hb : b ∈ own i) : b ∉ own j :=
  (h.erase hi).not_mem_of_loose (Finset.mem_erase.2 ⟨hne.symm, hj⟩) (mem_add.2 (.inl hb))

end Moves

variable [DecidableEq β]

theorem grow {new : List β} (hnodup : new.Nodup) (hfresh : ∀ b ∈ new, b ∉ used) :
    Ledger own live (new + loose) (used ∪ new.toFinset) := by
  have hdisj : Disjoint used new.toFinset :=
    Finset.disjoint_right.2 fun b hb => hfresh b (List.mem_toFinset.1 hb)
  have hval : (used ∪ new.toFinset).val = used.val + new := by
    rw [← Finset.disjUnion_eq_union _ _ hdisj, Finset.disjUnion_val, List.toFinset_val,
      hnodup.dedup]
  rw [Ledger, hval, ← h, add_comm (new : Multiset β), add_assoc]

omit h

theorem shrink {bs : List β} (h : Ledger own live (bs + loose) used) :
    Ledger own live loose (used \ bs.toFinset) := by
  have hle : (bs : Multiset β) ≤ used.val := by
    rw [← h]
    exact (le_add_right _ _).trans (le_add_left _ _)
  have hnodup : bs.Nodup := Multiset.coe_nodup.1 (nodup_of_le hle used.nodup)
  rw [Ledger, Finset.sdiff_val, List.toFinset_val, hnodup.dedup, ← h, add_left_comm,
    add_tsub_cancel_left]

end Ledger

end Thos.Lib
