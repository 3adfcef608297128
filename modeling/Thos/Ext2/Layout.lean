import Thos.Ext2.Model

/-!
# Where things are on the disk

A layout says where the superblock, the descriptor table, the bitmaps, the inode tables,
and the backups of a file system are, and which blocks are left for data. The block kinds
keep them apart. A disk under a layout is a map from regions to their contents.
-/

set_option autoImplicit false

namespace Thos.Ext2

open Thos.Lib Nat

/-- What a block is there for. -/
inductive Kind
  | superblock
  | descriptors
  | blockBitmap (g : Nat)
  | inodeBitmap (g : Nat)
  | inodeTable (g : Nat)
  | backupSuperblock (g : Nat)
  | backupDescriptors (g : Nat)
  | reserved
  | data
  deriving DecidableEq

/-- Group `g` holds a backup of the superblock and of the descriptor table. -/
def Backup (fs : Ext2) (g : Nat) : Prop := 0 < g ∧ g < fs.groupCount ∧ fs.hasBackup g = true

/-- The layout of a file system. Blocks and inodes that are set aside are no owner's. -/
structure Layout (fs : Ext2) where
  (blockBitmap inodeBitmap inodeTable : Nat → Nat)
  kind : Nat → Kind
  reservedInos : Finset Nat
  blockSize_eq : fs.blockSize = 1024 ∨ fs.blockSize = 2048 ∨ fs.blockSize = 4096
  firstDataBlock_eq : fs.firstDataBlock = if fs.blockSize = 1024 then 1 else 0
  inodeSize_ge : 128 ≤ fs.inodeSize
  inodeSize_dvd : fs.inodeSize ∣ fs.blockSize
  blocksPerGroup_pos : 0 < fs.blocksPerGroup
  blocksPerGroup_le : fs.blocksPerGroup ≤ 8 * fs.blockSize
  inodesPerGroup_pos : 0 < fs.inodesPerGroup
  inodesPerGroup_le : fs.inodesPerGroup ≤ 8 * fs.blockSize
  blockCount_gt : fs.firstDataBlock < fs.blockCount
  blockCount_lt : fs.blockCount < 2 ^ 32
  inodeCount_lt : fs.groupCount * fs.inodesPerGroup < 2 ^ 32
  kind_superblock : kind fs.firstDataBlock = .superblock
  kind_descriptors : ∀ k, k * fs.blockSize < fs.groupCount * 32 →
    kind (fs.firstDataBlock + 1 + k) = .descriptors
  kind_blockBitmap : ∀ g, g < fs.groupCount → kind (blockBitmap g) = .blockBitmap g
  kind_inodeBitmap : ∀ g, g < fs.groupCount → kind (inodeBitmap g) = .inodeBitmap g
  kind_inodeTable : ∀ g, g < fs.groupCount → ∀ k, k * fs.blockSize <
    fs.inodesPerGroup * fs.inodeSize → kind (inodeTable g + k) = .inodeTable g
  kind_backupSuperblock : ∀ g, fs.Backup g →
    kind (fs.firstDataBlock + g * fs.blocksPerGroup) = .backupSuperblock g
  kind_backupDescriptors : ∀ g, fs.Backup g → ∀ k, k * fs.blockSize < fs.groupCount * 32 →
    kind (fs.firstDataBlock + g * fs.blocksPerGroup + 1 + k) = .backupDescriptors g

/-- The parts of the disk that the driver reads and writes. -/
inductive Region
  | sb
  | gdt
  | inode (ino : Nat)
  | block (n : Nat)
  | backupSb (g : Nat)
  | backupGdt (g : Nat)
  deriving DecidableEq

variable {fs : Ext2}

namespace Layout

variable (L : Layout fs)

/-- A data block of the file system. -/
def Data (n : Nat) : Prop := fs.firstDataBlock ≤ n ∧ n < fs.blockCount ∧ L.kind n = .data

end Layout

/-- An inode number of the file system. -/
def ValidIno (fs : Ext2) (ino : Nat) : Prop := 0 < ino ∧ ino ≤ fs.groupCount * fs.inodesPerGroup

variable (L : Layout fs) {g i : Nat}
include L

theorem Layout.blockSize_pos : 0 < fs.blockSize := by
  have := L.blockSize_eq
  omega

theorem Layout.groupCount_pos : 0 < fs.groupCount := by
  have h := L.blockCount_gt
  have hb := L.blocksPerGroup_pos
  exact div_pos (by omega) hb

omit L in
theorem ValidIno.group_lt {ino : Nat} (h : fs.ValidIno ino) :
    (ino - 1) / fs.inodesPerGroup < fs.groupCount := by
  refine Nat.div_lt_of_lt_mul ?_
  rw [mul_comm]
  have := h.1
  have := h.2
  omega

theorem Layout.inGroup_le (hg : g < fs.groupCount) : fs.inGroup g ≤ fs.blocksPerGroup := by
  unfold inGroup
  split_ifs with hlast
  · have hcount := hlast
    unfold groupCount at hcount hg
    have hmul := Nat.div_mul_le_self (fs.blockCount - fs.firstDataBlock + fs.blocksPerGroup - 1)
      fs.blocksPerGroup
    have hlt := Nat.lt_div_mul_add L.blocksPerGroup_pos
      (a := fs.blockCount - fs.firstDataBlock + fs.blocksPerGroup - 1)
    generalize (fs.blockCount - fs.firstDataBlock + fs.blocksPerGroup - 1) /
      fs.blocksPerGroup = G at *
    obtain ⟨G', rfl⟩ : ∃ G', G = G' + 1 := ⟨G - 1, by omega⟩
    rw [hcount, Nat.add_sub_cancel]
    rw [Nat.add_mul] at hlt hmul
    omega
  · exact le_rfl

/-! ## Groups -/

def blockNo (fs : Ext2) (g i : Nat) : Nat := fs.firstDataBlock + g * fs.blocksPerGroup + i

def inoNo (fs : Ext2) (g i : Nat) : Nat := g * fs.inodesPerGroup + i + 1

theorem Layout.blockNo_lt (hg : g < fs.groupCount)
    (hi : i < fs.inGroup g) : fs.blockNo g i < fs.blockCount := by
  have hgt := L.blockCount_gt
  unfold inGroup at hi
  unfold blockNo
  split_ifs at hi with hlast
  · omega
  · -- a group before the last is full
    have hnext : (g + 1) * fs.blocksPerGroup <
      fs.blockCount - fs.firstDataBlock + fs.blocksPerGroup - 1 + 1 - fs.blocksPerGroup + 1 := by
      have hle : (g + 2) * fs.blocksPerGroup ≤ fs.groupCount * fs.blocksPerGroup :=
        mul_le_mul_right _ (by omega)
      have hmul := div_mul_le_self
        (fs.blockCount - fs.firstDataBlock + fs.blocksPerGroup - 1) fs.blocksPerGroup
      have hb := L.blocksPerGroup_pos
      unfold groupCount at hle
      rw [add_mul] at hle ⊢
      omega
    rw [add_mul] at hnext
    omega

theorem Layout.div_blockNo (hg : g < fs.groupCount)
    (hi : i < fs.inGroup g) : (fs.blockNo g i - fs.firstDataBlock) / fs.blocksPerGroup = g := by
  have := L.inGroup_le hg
  rw [blockNo, Nat.add_assoc, Nat.add_sub_cancel_left, Nat.mul_comm,
    Nat.mul_add_div L.blocksPerGroup_pos, Nat.div_eq_of_lt (by omega), Nat.add_zero]

theorem Layout.mod_blockNo (hg : g < fs.groupCount)
    (hi : i < fs.inGroup g) : (fs.blockNo g i - fs.firstDataBlock) % fs.blocksPerGroup = i := by
  have := L.inGroup_le hg
  rw [blockNo, Nat.add_assoc, Nat.add_sub_cancel_left, Nat.mul_comm, Nat.mul_add_mod,
    Nat.mod_eq_of_lt (by omega)]

theorem Layout.exists_blockNo {n : Nat} (hlo : fs.firstDataBlock ≤ n)
    (hhi : n < fs.blockCount) : ∃ g i, g < fs.groupCount ∧ i < fs.inGroup g ∧
    n = fs.blockNo g i := by
  have hb := L.blocksPerGroup_pos
  have hn : n = fs.blockNo ((n - fs.firstDataBlock) / fs.blocksPerGroup)
      ((n - fs.firstDataBlock) % fs.blocksPerGroup) := by
    have := Nat.div_add_mod' (n - fs.firstDataBlock) fs.blocksPerGroup
    unfold blockNo
    omega
  refine ⟨_, _, ?_, ?_, hn⟩
  · refine Nat.lt_of_lt_of_le (Nat.lt_add_one _) ?_
    rw [groupCount, ← Nat.add_div_right _ hb]
    exact Nat.div_le_div_right (by omega)
  · unfold inGroup
    split_ifs with hlast
    · unfold blockNo at hn
      omega
    · exact Nat.mod_lt _ hb

omit L in
theorem validIno_inoNo (hg : g < fs.groupCount) (hi : i < fs.inodesPerGroup) :
    fs.ValidIno (fs.inoNo g i) := by
  have hle : (g + 1) * fs.inodesPerGroup ≤ fs.groupCount * fs.inodesPerGroup :=
    mul_le_mul_right _ (by omega)
  rw [add_mul] at hle
  exact ⟨by rw [inoNo]; omega, by rw [inoNo]; omega⟩

omit L in
theorem div_inoNo (hi : i < fs.inodesPerGroup) : (fs.inoNo g i - 1) / fs.inodesPerGroup = g := by
  rw [inoNo, Nat.add_sub_cancel, Nat.mul_comm, Nat.mul_add_div (by omega), Nat.div_eq_of_lt hi,
    Nat.add_zero]

omit L in
theorem mod_inoNo (hi : i < fs.inodesPerGroup) : (fs.inoNo g i - 1) % fs.inodesPerGroup = i := by
  rw [inoNo, Nat.add_sub_cancel, Nat.mul_comm, Nat.mul_add_mod, Nat.mod_eq_of_lt hi]

theorem Layout.exists_inoNo {ino : Nat} (h : fs.ValidIno ino) :
    ∃ g i, g < fs.groupCount ∧ i < fs.inodesPerGroup ∧ ino = fs.inoNo g i := by
  refine ⟨_, _, h.group_lt, mod_lt (ino - 1) L.inodesPerGroup_pos, ?_⟩
  have := div_add_mod' (ino - 1) fs.inodesPerGroup
  have := h.1
  unfold inoNo
  omega

omit L

/-! ## Regions -/

namespace Layout

variable (L : Layout fs)

def addr : Region → Nat
  | .sb => sbOffset
  | .gdt => (fs.firstDataBlock + 1) * fs.blockSize
  | .inode ino => L.inodeTable ((ino - 1) / fs.inodesPerGroup) * fs.blockSize +
      (ino - 1) % fs.inodesPerGroup * fs.inodeSize
  | .block n => n * fs.blockSize
  | .backupSb g => (fs.firstDataBlock + g * fs.blocksPerGroup) * fs.blockSize
  | .backupGdt g => (fs.firstDataBlock + g * fs.blocksPerGroup + 1) * fs.blockSize

def size (fs : Ext2) : Region → Nat
  | .sb => 1024
  | .gdt => fs.groupCount * 32
  | .inode _ => fs.inodeSize
  | .block _ => fs.blockSize
  | .backupSb _ => 1024
  | .backupGdt _ => fs.groupCount * 32

def valid : Region → Prop
  | .sb => True
  | .gdt => True
  | .inode ino => fs.ValidIno ino
  | .block n =>
    L.kind n = .data ∨ ∃ g, g < fs.groupCount ∧ (n = L.blockBitmap g ∨ n = L.inodeBitmap g)
  | .backupSb g => fs.Backup g
  | .backupGdt g => fs.Backup g

/-- The region that an address is in, by the kind of its block. -/
def regionAt (a : Nat) : Region :=
  match L.kind (a / fs.blockSize) with
  | .superblock => .sb
  | .descriptors => .gdt
  | .inodeTable g => .inode (fs.inoNo g ((a - L.inodeTable g * fs.blockSize) / fs.inodeSize))
  | .backupSuperblock g => .backupSb g
  | .backupDescriptors g => .backupGdt g
  | .blockBitmap _ | .inodeBitmap _ | .reserved | .data => .block (a / fs.blockSize)

include L in
theorem div_blockSize (n k : Nat) :
    (n * fs.blockSize + k) / fs.blockSize = n + k / fs.blockSize := by
  rw [mul_comm, mul_add_div L.blockSize_pos]

theorem regionAt_addr {r : Region} (hr : L.valid r) {k : Nat} (hk : k < size fs r) :
    L.regionAt (L.addr r + k) = r := by
  have hlt : ∀ x, x / fs.blockSize * fs.blockSize ≤ x := fun x => Nat.div_mul_le_self x _
  unfold regionAt
  cases r with
  | sb =>
    have hfirst : (L.addr .sb + k) / fs.blockSize = fs.firstDataBlock := by
      have hk : k < 1024 := hk
      have := L.firstDataBlock_eq
      rcases L.blockSize_eq with hb | hb | hb <;> simp [hb] at this <;>
        simp only [addr, sbOffset, hb, this] <;> omega
    rw [hfirst, L.kind_superblock]
  | gdt => rw [addr, L.div_blockSize, L.kind_descriptors _ (Nat.lt_of_le_of_lt (hlt k) hk)]
  | backupSb g =>
    have hin : k / fs.blockSize = 0 := Nat.div_eq_of_lt (by
      have hk : k < 1024 := hk
      have := L.blockSize_eq
      omega)
    rw [addr, L.div_blockSize, hin, Nat.add_zero, L.kind_backupSuperblock g hr]
  | backupGdt g =>
    rw [addr, L.div_blockSize, L.kind_backupDescriptors g hr _ (Nat.lt_of_le_of_lt (hlt k) hk)]
  | block n =>
    have hin : k / fs.blockSize = 0 := Nat.div_eq_of_lt hk
    rw [addr, L.div_blockSize, hin, Nat.add_zero]
    rcases hr with hr | ⟨g, hg, rfl | rfl⟩
    · rw [hr]
    · rw [L.kind_blockBitmap g hg]
    · rw [L.kind_inodeBitmap g hg]
  | inode ino =>
    obtain ⟨g, i, hg, hi, rfl⟩ := L.exists_inoNo hr
    have hk : k < fs.inodeSize := hk
    have hend : i * fs.inodeSize + k < fs.inodesPerGroup * fs.inodeSize := by
      have := Nat.mul_le_mul_right fs.inodeSize (show i + 1 ≤ fs.inodesPerGroup from hi)
      rw [Nat.add_mul] at this
      omega
    rw [addr, div_inoNo hi, mod_inoNo hi, Nat.add_assoc, L.div_blockSize,
      L.kind_inodeTable g hg _ (Nat.lt_of_le_of_lt (hlt _) hend)]
    simp only [Nat.add_sub_cancel_left]
    rw [Nat.mul_comm i, Nat.mul_add_div (by omega), Nat.div_eq_of_lt hk, Nat.add_zero]

include L in
theorem size_pos (r : Region) : 0 < size fs r := by
  have := L.groupCount_pos
  have := L.inodeSize_ge
  have := L.blockSize_pos
  cases r <;> simp only [size] <;> omega

theorem eq_of_common {r r' : Region} (hr : L.valid r) (hr' : L.valid r') (k k' : Nat)
    (hk : k < size fs r) (hk' : k' < size fs r') (h : L.addr r + k = L.addr r' + k') : r = r' := by
  rw [← L.regionAt_addr hr hk, h, L.regionAt_addr hr' hk']

/-- The regions of the disk; the kinds of the blocks keep them apart. -/
def regions : Regions Region where
  addr := L.addr
  size := size fs
  valid := L.valid
  apart := by
    intro r r' hr hr' hne
    by_contra hboth
    have := L.size_pos r
    have := L.size_pos r'
    -- two regions that overlap share the first address of one of them
    rcases Nat.le_total (L.addr r) (L.addr r') with hle | hle
    · obtain ⟨k, hk⟩ := Nat.exists_eq_add_of_le hle
      exact hne (L.eq_of_common hr hr' k 0 (by omega) (by omega) (by omega))
    · obtain ⟨k, hk⟩ := Nat.exists_eq_add_of_le hle
      exact hne (L.eq_of_common hr hr' 0 k (by omega) (by omega) (by omega))

end Layout

end Thos.Ext2
