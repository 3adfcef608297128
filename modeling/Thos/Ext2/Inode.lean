import Thos.Ext2.Records

/-!
# Fields of a raw inode

What the patches of the driver leave in the fields that it reads back.
-/

set_option autoImplicit false

namespace Thos.Ext2

open Thos.Lib

variable {raw : Bytes}

section

variable (hlen : 100 ≤ raw.length)
include hlen

variable (block : Nat → Nat)

theorem setBlocks_loop (n : Nat) (hn : n ≤ 15) :
    let raw' := (List.range n).foldl (fun raw i => splice raw (40 + i * 4) (toLe32 (block i))) raw
    raw'.length = raw.length ∧ Agree raw raw' 0 40 ∧
      ∀ i, i < 15 → le32 raw' (40 + i * 4) = if i < n then
        block i % 4294967296 else le32 raw (40 + i * 4) := by
  induction n with
  | zero => exact ⟨rfl, fun _ _ _ => rfl, fun i _ => by simp⟩
  | succ n ih =>
    obtain ⟨h1, h2, h3⟩ := ih (by omega)
    rw [List.range_succ, List.foldl_append]
    generalize (List.range n).foldl
      (fun raw i => splice raw (40 + i * 4) (toLe32 (block i))) raw = r at *
    have hin : 40 + n * 4 + (toLe32 (block n)).length ≤ r.length := by
      rw [length_toLe32]
      omega
    refine ⟨?_, h2.trans (agree_splice hin (by omega)), fun i hi => ?_⟩
    · rw [List.foldl_cons, List.foldl_nil, length_splice hin, h1]
    · rw [List.foldl_cons, List.foldl_nil]
      by_cases hin' : i = n
      · subst hin'
        rw [if_pos (by omega), le32_splice_self (by omega)]
      · rw [le32_splice_of_apart hin (by simp; omega), h3 i hi]
        by_cases hlt : i < n
        · rw [if_pos hlt, if_pos (by omega)]
        · rw [if_neg hlt, if_neg (by omega)]

theorem length_setBlocks : (setBlocks raw block).length = raw.length :=
  (setBlocks_loop hlen block 15 le_rfl).1

theorem agree_setBlocks : Agree raw (setBlocks raw block) 0 40 :=
  (setBlocks_loop hlen block 15 le_rfl).2.1

theorem block_setBlocks {block : Nat → Nat} {i : Nat} (hi : i < 15)
    (hlt : block i < 4294967296) : (decodeInode (setBlocks raw block)).block i = block i := by
  have h := (setBlocks_loop hlen block 15 le_rfl).2.2 i hi
  rwa [if_pos hi, Nat.mod_eq_of_lt hlt] at h

end

theorem setInode_fields (mode uid gid size links b512 : Nat) (block : Nat → Nat)
    (hlen : 100 ≤ raw.length) : let raw' := setInode mode uid gid size links b512 block raw
    raw'.length = raw.length ∧ (decodeInode raw').mode = mode % 65536 ∧
    (decodeInode raw').uid = uid % 65536 ∧ (decodeInode raw').gid = gid % 65536 ∧
    (decodeInode raw').size = size % 4294967296 ∧ le16 raw' 26 = links % 65536 ∧
    le32 raw' 28 = b512 % 4294967296 ∧ ∀ i, i < 15 → block i < 4294967296 →
      (decodeInode raw').block i = block i := by
  intro raw'
  have l1 : (splice raw 0 (toLe16 mode)).length = raw.length := length_splice (by simp; omega)
  have l2 : (splice (splice raw 0 (toLe16 mode)) 2 (toLe16 uid)).length = raw.length := by
    rw [length_splice (by simp; omega), l1]
  generalize hr2 : splice (splice raw 0 (toLe16 mode)) 2 (toLe16 uid) = r2 at l2
  have l3 : (splice r2 4 (toLe32 size)).length = raw.length := by
    rw [length_splice (by simp; omega), l2]
  have l4 : (splice (splice r2 4 (toLe32 size)) 24 (toLe16 gid)).length = raw.length := by
    rw [length_splice (by simp; omega), l3]
  generalize hr4 : splice (splice r2 4 (toLe32 size)) 24 (toLe16 gid) = r4 at l4
  have l5 : (splice r4 26 (toLe16 links)).length = raw.length := by
    rw [length_splice (by simp; omega), l4]
  have l6 : (splice (splice r4 26 (toLe16 links)) 28 (toLe32 b512)).length = raw.length := by
    rw [length_splice (by simp; omega), l5]
  generalize hr6 : splice (splice r4 26 (toLe16 links)) 28 (toLe32 b512) = r6 at l6
  have hset : raw' = setBlocks r6 block := by
    rw [← hr6, ← hr4, ← hr2]
    rfl
  rw [hset]
  have hl6 : 100 ≤ r6.length := by omega
  have hag := agree_setBlocks hl6 block
  -- each field is apart from those written after it
  have f4 : ∀ o, o + 2 ≤ 26 → le16 r6 o = le16 r4 o := fun o ho => by
    rw [← hr6, le16_splice_of_apart (by simp; omega) (by omega),
      le16_splice_of_apart (by simp; omega) (by omega)]
  have f2 : ∀ o, o + 2 ≤ 4 → le16 r4 o = le16 r2 o := fun o ho => by
    rw [← hr4, le16_splice_of_apart (by simp; omega) (by omega),
      le16_splice_of_apart (by simp; omega) (by omega)]
  refine ⟨by rw [length_setBlocks hl6, l6], ?_, ?_, ?_, ?_, ?_, ?_,
    fun i hi hlt => block_setBlocks hl6 hi hlt⟩
  · show le16 (setBlocks r6 block) 0 = _
    rw [hag.le16 (by omega) (by omega), f4 0 (by omega), f2 0 (by omega), ← hr2,
      le16_splice_of_apart (by simp; omega) (by omega), le16_splice_self (by omega)]
  · show le16 (setBlocks r6 block) 2 = _
    rw [hag.le16 (by omega) (by omega), f4 2 (by omega), f2 2 (by omega), ← hr2,
      le16_splice_self (by omega)]
  · show le16 (setBlocks r6 block) 24 = _
    rw [hag.le16 (by omega) (by omega), f4 24 (by omega), ← hr4, le16_splice_self (by omega)]
  · show le32 (setBlocks r6 block) 4 = _
    rw [hag.le32 (by omega) (by omega), le32, f4 4 (by omega), f4 6 (by omega), ← le32, ← hr4,
      le32_splice_of_apart (by simp; omega) (by omega), le32_splice_self (by omega)]
  · rw [hag.le16 (by omega) (by omega), ← hr6,
      le16_splice_of_apart (by simp; omega) (by omega), le16_splice_self (by omega)]
  · rw [hag.le32 (by omega) (by omega), ← hr6, le32_splice_self (by omega)]

theorem growDir_fields (fs : Ext2) (nb : Nat → Nat) (hlen : 100 ≤ raw.length)
    (hsize : le32 raw 4 + fs.blockSize < 4294967296)
    (hcount : le32 raw 28 + fs.blockSize / 512 < 4294967296) : let raw' := fs.growDir nb raw
    raw'.length = raw.length ∧ (decodeInode raw').mode = (decodeInode raw).mode ∧
    (decodeInode raw').uid = (decodeInode raw).uid ∧
    (decodeInode raw').gid = (decodeInode raw).gid ∧
    (decodeInode raw').size = (decodeInode raw).size + fs.blockSize ∧ le16 raw' 26 = le16 raw 26 ∧
    le32 raw' 28 = le32 raw 28 + fs.blockSize / 512 ∧
    ∀ i, i < 15 → nb i < 4294967296 → (decodeInode raw').block i = nb i := by
  intro raw'
  have l1 : (splice raw 4 (toLe32 (le32 raw 4 + fs.blockSize))).length = raw.length :=
    length_splice (by simp; omega)
  generalize hr1 : splice raw 4 (toLe32 (le32 raw 4 + fs.blockSize)) = r1 at l1
  have e28 : le32 r1 28 = le32 raw 28 := by
    rw [← hr1, le32_splice_of_apart (by simp; omega) (by simp)]
  have l2 : (splice r1 28 (toLe32 (le32 r1 28 + fs.blockSize / 512))).length = raw.length := by
    rw [length_splice (by simp; omega), l1]
  generalize hr2 : splice r1 28 (toLe32 (le32 r1 28 + fs.blockSize / 512)) = r2 at l2
  have hgrow : raw' = setBlocks r2 nb := by
    rw [← hr2, ← hr1]
    rfl
  rw [hgrow]
  have hl2 : 100 ≤ r2.length := by omega
  have hag := agree_setBlocks hl2 nb
  have f : ∀ o, o + 2 ≤ 4 ∨ 8 ≤ o ∧ o + 2 ≤ 28 → le16 r2 o = le16 raw o := fun o ho => by
    rw [← hr2, le16_splice_of_apart (by simp; omega) (by omega), ← hr1,
      le16_splice_of_apart (by simp; omega) (by simp; omega)]
  refine ⟨by rw [length_setBlocks hl2, l2], ?_, ?_, ?_, ?_, ?_, ?_,
    fun i hi hlt => block_setBlocks hl2 hi hlt⟩
  · show le16 (setBlocks r2 nb) 0 = le16 raw 0
    rw [hag.le16 (by omega) (by omega), f 0 (by omega)]
  · show le16 (setBlocks r2 nb) 2 = le16 raw 2
    rw [hag.le16 (by omega) (by omega), f 2 (by omega)]
  · show le16 (setBlocks r2 nb) 24 = le16 raw 24
    rw [hag.le16 (by omega) (by omega), f 24 (by omega)]
  · show le32 (setBlocks r2 nb) 4 = le32 raw 4 + fs.blockSize
    rw [hag.le32 (by omega) (by omega), ← hr2,
      le32_splice_of_apart (by simp; omega) (by omega), ← hr1,
      le32_splice_self (by omega), Nat.mod_eq_of_lt hsize]
  · rw [hag.le16 (by omega) (by omega), f 26 (by omega)]
  · rw [hag.le32 (by omega) (by omega), ← hr2, le32_splice_self (by omega), e28,
      Nat.mod_eq_of_lt hcount]

/-! ## Patches of one field -/

theorem addLinks_fields (hlen : 100 ≤ raw.length) (delta : Int) :
    (addLinks delta raw).length = raw.length ∧ decodeInode (addLinks delta raw) = decodeInode raw ∧
    le16 (addLinks delta raw) 26 = ((le16 raw 26 + delta) % 2 ^ 16).toNat ∧
    le32 (addLinks delta raw) 28 = le32 raw 28 := by
  have hin : ∀ x, 26 + (toLe16 x).length ≤ raw.length := fun x => by
    rw [length_toLe16]
    omega
  refine ⟨length_splice (hin _), ?_, ?_, ?_⟩
  · simp only [decodeInode, addLinks]
    congr 1
    · exact le16_splice_of_apart (hin _) (by omega)
    · exact le32_splice_of_apart (hin _) (by omega)
    · funext i
      exact le32_splice_of_apart (hin _) (by simp; omega)
    · exact le16_splice_of_apart (hin _) (by omega)
    · exact le16_splice_of_apart (hin _) (by omega)
  · have hlt : ((le16 raw 26 + delta) % 2 ^ 16).toNat < 65536 := by omega
    rw [addLinks, le16_splice_self (by omega), Nat.mod_eq_of_lt hlt]
  · exact le32_splice_of_apart (hin _) (by simp)

end Thos.Ext2
