import Thos.Ext2.Layout
import Thos.Lib.Tally

/-!
# The books of a volume

A volume is what the disk says, with the bitmaps read as sets: which blocks and inodes are
taken, and what the inodes and the data blocks hold. A disk shows a volume when its
bitmaps, inode tables, and blocks agree with it, and books it when the free counts in the
descriptors and the superblock agree with the sets as well. The driver's allocators start
and end in booked disks; between two sector writes a disk only shows its volume.
-/

set_option autoImplicit false

namespace Thos.Ext2

open Thos.Lib Function

/-- What a disk says. `dirs` are the inodes that are counted as directories; `synced` is
whether the backups are up to date. -/
structure Vol where
  (used inodes dirs : Finset Nat)
  (inode data : Nat → Bytes)
  synced : Bool

/-- The volume with other contents in a block. -/
@[simps] def Vol.putData (v : Vol) (n : Nat) (x : Bytes) : Vol :=
  { v with data := update v.data n x }

/-- The volume with other contents in an inode. -/
@[simps] def Vol.putInode (v : Vol) (ino : Nat) (x : Bytes) : Vol :=
  { v with inode := update v.inode ino x }

variable {fs : Ext2} (L : Layout fs)

/-- The contents of the regions agree with the volume. -/
structure Shows (m : Region → Bytes) (v : Vol) : Prop where
  blockPtr : ∀ g, g < fs.groupCount → le32 (m .gdt) (32 * g) = L.blockBitmap g
  inodePtr : ∀ g, g < fs.groupCount → le32 (m .gdt) (32 * g + 4) = L.inodeBitmap g
  tablePtr : ∀ g, g < fs.groupCount → le32 (m .gdt) (32 * g + 8) = L.inodeTable g
  used : ∀ g i, g < fs.groupCount → i < fs.inGroup g →
    (bit (m (.block (L.blockBitmap g))) i = true ↔ fs.blockNo g i ∈ v.used)
  inodes : ∀ g i, g < fs.groupCount → i < fs.inodesPerGroup →
    (bit (m (.block (L.inodeBitmap g))) i = true ↔ fs.inoNo g i ∈ v.inodes)
  inode : ∀ ino, fs.ValidIno ino → m (.inode ino) = v.inode ino
  data : ∀ n, L.Data n → m (.block n) = v.data n
  reserved : ∀ n, fs.firstDataBlock ≤ n → n < fs.blockCount → L.kind n ≠ .data → n ∈ v.used

/-- The counts agree with the sets, and the backups with the primary copies. -/
structure Booked (fs : Ext2) (m : Region → Bytes) (v : Vol) : Prop where
  freeBlocks : ∀ g, g < fs.groupCount →
    le16 (m .gdt) (32 * g + 12) + tally v.used (fs.blockNo g 0) (fs.inGroup g) = fs.inGroup g
  freeInodes : ∀ g, g < fs.groupCount →
    le16 (m .gdt) (32 * g + 14) + tally v.inodes (fs.inoNo g 0) fs.inodesPerGroup =
      fs.inodesPerGroup
  usedDirs : ∀ g, g < fs.groupCount →
    le16 (m .gdt) (32 * g + 16) = tally v.dirs (fs.inoNo g 0) fs.inodesPerGroup
  allFreeBlocks : le32 (m .sb) 12 +
    tally v.used fs.firstDataBlock (fs.blockCount - fs.firstDataBlock) =
      fs.blockCount - fs.firstDataBlock
  allFreeInodes : le32 (m .sb) 16 + tally v.inodes 1 (fs.groupCount * fs.inodesPerGroup) =
    fs.groupCount * fs.inodesPerGroup
  backups : v.synced = true → ∀ g, fs.Backup g →
    m (.backupSb g) = splice (m .sb) 90 (toLe16 g) ∧ m (.backupGdt g) = m .gdt

/-- The disk holds the volume, counts and all. -/
def Layout.Image (d : Disk) (v : Vol) : Prop :=
  ∃ m, L.regions.Holds d m ∧ Shows L m v ∧ Booked fs m v

def Layout.Glimpse (d : Disk) (v : Vol) : Prop := ∃ m, L.regions.Holds d m ∧ Shows L m v

variable {L} {g g' n : Nat}

theorem Layout.Image.glimpse {d : Disk} {v : Vol} (h : L.Image d v) : L.Glimpse d v :=
  let ⟨m, hm, hs, _⟩ := h
  ⟨m, hm, hs⟩

/-! ## Changes of a region -/

section

variable (hg : g < fs.groupCount)
include hg

theorem Layout.Data.ne_blockBitmap (hn : L.Data n) : n ≠ L.blockBitmap g := by
  rintro rfl
  cases hn.2.2.symm.trans (L.kind_blockBitmap g hg)

theorem Layout.Data.ne_inodeBitmap (hn : L.Data n) : n ≠ L.inodeBitmap g := by
  rintro rfl
  cases hn.2.2.symm.trans (L.kind_inodeBitmap g hg)

variable (hg' : g' < fs.groupCount)
include hg'

theorem Layout.blockBitmap_ne_inodeBitmap : L.blockBitmap g ≠ L.inodeBitmap g' := by
  intro h
  have hk := L.kind_blockBitmap g hg
  rw [h, L.kind_inodeBitmap g' hg'] at hk
  cases hk

theorem Layout.blockBitmap_inj (h : L.blockBitmap g = L.blockBitmap g') : g = g' := by
  have hk := L.kind_blockBitmap g hg
  rw [h, L.kind_blockBitmap g' hg'] at hk
  cases hk
  rfl

theorem Layout.inodeBitmap_inj (h : L.inodeBitmap g = L.inodeBitmap g') : g = g' := by
  have hk := L.kind_inodeBitmap g hg
  rw [h, L.kind_inodeBitmap g' hg'] at hk
  cases hk
  rfl

end

variable {m : Region → Bytes} {v : Vol} (h : Shows L m v)
include h

theorem Shows.congr {w : Vol} (hused : w.used = v.used) (hinos : w.inodes = v.inodes)
    (hinode : w.inode = v.inode) (hdata : w.data = v.data) : Shows L m w := by
  obtain ⟨used, inodes, dirs, inode, data, synced⟩ := w
  cases hused
  cases hinos
  cases hinode
  cases hdata
  exact { h with }

theorem Shows.update_other {r : Region} (x : Bytes) (hgdt : r ≠ .gdt)
    (hblock : ∀ n, r ≠ .block n) (hinode : ∀ ino, r ≠ .inode ino) : Shows L (update m r x) v where
  __ := h
  blockPtr g hg := by rw [update_of_ne hgdt.symm, h.blockPtr g hg]
  inodePtr g hg := by rw [update_of_ne hgdt.symm, h.inodePtr g hg]
  tablePtr g hg := by rw [update_of_ne hgdt.symm, h.tablePtr g hg]
  used g i hg hi := by rw [update_of_ne (hblock _).symm, h.used g i hg hi]
  inodes g i hg hi := by rw [update_of_ne (hblock _).symm, h.inodes g i hg hi]
  inode ino hino := by rw [update_of_ne (hinode _).symm, h.inode ino hino]
  data n hn := by rw [update_of_ne (hblock _).symm, h.data n hn]

theorem Shows.update_count (off x : Nat) (hlen : (m .gdt).length = fs.groupCount * 32)
    (hg : g < fs.groupCount) (hoff : 12 ≤ off) (hoff' : off + 2 ≤ 32) :
    Shows L (update m .gdt (splice (m .gdt) (32 * g + off) (toLe16 x))) v := by
  have hin : 32 * g + off + (toLe16 x).length ≤ (m .gdt).length := by
    rw [length_toLe16, hlen]
    omega
  have hkeep : ∀ g' k, k + 4 ≤ 12 → le32 (splice (m .gdt) (32 * g + off) (toLe16 x)) (32 * g' + k) =
      le32 (m .gdt) (32 * g' + k) := fun g' k hk =>
    le32_splice_of_apart hin (by
      rw [length_toLe16]
      rcases lt_trichotomy g g' with hlt | rfl | hlt <;> omega)
  exact { h with
    blockPtr := fun g' hg' => by
      rw [update_self]
      exact (hkeep g' 0 (by omega)).trans (h.blockPtr g' hg')
    inodePtr := fun g' hg' => by rw [update_self, hkeep g' 4 (by omega), h.inodePtr g' hg']
    tablePtr := fun g' hg' => by rw [update_self, hkeep g' 8 (by omega), h.tablePtr g' hg'] }

theorem Shows.update_data (hn : L.Data n) (x : Bytes) :
    Shows L (update m (.block n) x) (v.putData n x) :=
  { h with
    used := fun g i hg hi => by
      rw [update_of_ne (by simpa using (hn.ne_blockBitmap hg).symm)]
      exact h.used g i hg hi
    inodes := fun g i hg hi => by
      rw [update_of_ne (by simpa using (hn.ne_inodeBitmap hg).symm)]
      exact h.inodes g i hg hi
    data := fun n' hn' => by
      by_cases hnn : n' = n
      · rw [hnn, update_self, Vol.putData_data, update_self]
      · rw [update_of_ne (by simpa using hnn), Vol.putData_data, update_of_ne hnn, h.data n' hn'] }

theorem Shows.update_inode (ino : Nat) (x : Bytes) :
    Shows L (update m (.inode ino) x) (v.putInode ino x) :=
  { h with
    inode := fun ino' hino => by
      by_cases hii : ino' = ino
      · rw [hii, update_self, Vol.putInode_inode, update_self]
      · rw [update_of_ne (by simpa using hii), Vol.putInode_inode, update_of_ne hii,
          h.inode ino' hino] }

theorem Shows.update_blockBitmap (hg : g < fs.groupCount) {x : Bytes} {used : Finset Nat}
    (hbit : ∀ i, i < fs.inGroup g → (bit x i = true ↔ fs.blockNo g i ∈ used))
    (hrest : ∀ g' i, g' < fs.groupCount → i < fs.inGroup g' → g' ≠ g →
      (fs.blockNo g' i ∈ used ↔ fs.blockNo g' i ∈ v.used))
    (hres : ∀ n, fs.firstDataBlock ≤ n → n < fs.blockCount → L.kind n ≠ .data → n ∈ used) :
    Shows L (update m (.block (L.blockBitmap g)) x) { v with used := used } :=
  { h with
    used := fun g' i hg' hi => by
      by_cases hgg : g' = g
      · subst hgg
        rw [update_self]
        exact hbit i hi
      · rw [update_of_ne (by simpa using fun hb => hgg (L.blockBitmap_inj hg' hg hb)),
          h.used g' i hg' hi, hrest g' i hg' hi hgg]
    inodes := fun g' i hg' hi => by
      rw [update_of_ne (by simpa using (L.blockBitmap_ne_inodeBitmap hg hg').symm),
        h.inodes g' i hg' hi]
    data := fun n hn => by rw [update_of_ne (by simpa using hn.ne_blockBitmap hg), h.data n hn]
    reserved := hres }

theorem Shows.update_inodeBitmap (hg : g < fs.groupCount) {x : Bytes} {inodes : Finset Nat}
    (hbit : ∀ i, i < fs.inodesPerGroup → (bit x i = true ↔ fs.inoNo g i ∈ inodes))
    (hrest : ∀ g' i, g' < fs.groupCount → i < fs.inodesPerGroup → g' ≠ g →
      (fs.inoNo g' i ∈ inodes ↔ fs.inoNo g' i ∈ v.inodes)) :
    Shows L (update m (.block (L.inodeBitmap g)) x) { v with inodes := inodes } :=
  { h with
    used := fun g' i hg' hi => by
      rw [update_of_ne (by simpa using L.blockBitmap_ne_inodeBitmap hg' hg), h.used g' i hg' hi]
    inodes := fun g' i hg' hi => by
      by_cases hgg : g' = g
      · subst hgg
        rw [update_self]
        exact hbit i hi
      · rw [update_of_ne (by simpa using fun hb => hgg (L.inodeBitmap_inj hg' hg hb)),
          h.inodes g' i hg' hi, hrest g' i hg' hi hgg]
    data := fun n hn => by rw [update_of_ne (by simpa using hn.ne_inodeBitmap hg), h.data n hn] }

end Thos.Ext2
