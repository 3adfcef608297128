import Thos.Ext2.Model

/-!
# Groups with a backup

With `sparse_super` the groups 0 and 1 and the powers of 3, 5 and 7 have a copy of the
superblock. The loop of `has_backup` goes through the powers of one base.
-/

set_option autoImplicit false

namespace Thos.Ext2

/-- The loop of `has_backup` for one base, or `none` if it takes more turns. -/
def powerTurns (base g : Nat) : Nat → Nat → Option Bool
  | 0, _ => none
  | turns + 1, p =>
    if p < g then (if p * base < 2 ^ 32 then powerTurns base g turns (p * base) else some false)
    else some (p = g)

section

variable {base g n k : Nat} (hbase : 1 < base) (hg : g < 2 ^ 32) (hn : 2 ^ 32 ≤ base ^ (k + n))
include hg hn

theorem powerTurns_eq :
    powerTurns base g (n + 1) (base ^ k) = some (powerLoop base g n (base ^ k)) := by
  induction n generalizing k with
  | zero =>
    have hle : ¬ base ^ k < g := (hg.trans_le hn).not_gt
    rw [powerTurns, if_neg hle, powerLoop]
  | succ n ih =>
    rw [powerTurns, powerLoop, ← pow_succ]
    split_ifs
    · exact ih (by rwa [Nat.add_right_comm])
    · rfl
    · rfl

include hbase

theorem powerLoop_iff : powerLoop base g n (base ^ k) = true ↔ ∃ j, k ≤ j ∧ g = base ^ j := by
  have hlast : ∀ {k}, g ≤ base ^ k → (base ^ k = g ↔ ∃ j, k ≤ j ∧ g = base ^ j) := by
    intro k hle
    refine ⟨fun heq => ⟨k, le_rfl, heq.symm⟩, ?_⟩
    rintro ⟨j, hj, rfl⟩
    exact (Nat.pow_le_pow_right hbase.le hj).antisymm hle
  induction n generalizing k with
  | zero => simpa [powerLoop] using hlast (hg.trans_le hn).le
  | succ n ih =>
    rw [powerLoop, ← pow_succ]
    split_ifs with hlt hfit
    · -- the power is not `base ^ k`, so it is one from the next on
      refine (ih (k := k + 1) (by rwa [Nat.add_right_comm])).trans ?_
      refine exists_congr fun j => and_congr_left fun hj => ⟨Nat.le_of_succ_le, fun hle => ?_⟩
      exact hle.lt_of_ne fun heq => hlt.ne' (heq ▸ hj)
    · refine iff_of_false nofun ?_
      rintro ⟨j, hj, rfl⟩
      have hkj : k < j := (Nat.pow_lt_pow_iff_right hbase).1 hlt
      exact hfit ((Nat.pow_le_pow_right hbase.le hkj).trans_lt hg)
    · simpa using hlast (not_lt.1 hlt)

end

/-- The loop of `has_backup` ends for each base. With `sparse_super` the call holds of 0, 1 and the
powers of 3, 5 and 7, and without it of every group. -/
theorem hasBackup_iff (fs : Ext2) (g : UInt32) :
    (∀ base ∈ [3, 5, 7], ∃ turns, powerTurns base g.toNat turns base =
      some (powerLoop base g.toNat 32 base)) ∧
    (fs.hasBackup g.toNat = true ↔ fs.sparseSuper = false ∨ g ≤ 1 ∨
      ∃ base ∈ [3, 5, 7], ∃ k, 1 ≤ k ∧ g.toNat = base ^ k) := by
  have hbase : ∀ base ∈ [3, 5, 7], 1 < base ∧ 2 ^ 32 ≤ base ^ (1 + 32) := by decide
  have hloop : ∀ base ∈ [3, 5, 7], powerLoop base g.toNat 32 base = true ↔
      ∃ k, 1 ≤ k ∧ g.toNat = base ^ k := by
    intro base hb
    have hiff := powerLoop_iff (hbase base hb).1 g.toNat_lt (hbase base hb).2
    rwa [pow_one] at hiff
  refine ⟨fun base hb => ⟨33, ?_⟩, ?_⟩
  · have heq := powerTurns_eq g.toNat_lt (hbase base hb).2
    rwa [pow_one] at heq
  · have hle : g ≤ 1 ↔ g.toNat ≤ 1 := Iff.rfl
    rw [hasBackup, hle, ← or_assoc]
    split_ifs with hall
    · exact iff_of_true rfl (.inl (by simpa using hall))
    · rw [or_iff_right (by simpa using hall), List.any_eq_true]
      exact exists_congr fun base => and_congr_right (hloop base)

end Thos.Ext2
