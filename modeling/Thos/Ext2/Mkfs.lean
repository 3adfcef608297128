import Thos.Ext2.Failure

/-!
# Disks

Every volume of the right sizes is on some disk, and that disk mounts. The superblock, the
descriptor table and the bitmaps are written out from the volume; every other region holds
what the volume says.
-/

set_option autoImplicit false

namespace Thos.Ext2

open Thos.Lib List

variable {fs : Ext2} {L : Layout fs} {v : Vol} {k n : Nat} {name : Bytes}

/-! ## From regions to a disk -/

/-- The disk with these contents in its regions. -/
def Layout.diskOf (L : Layout fs) (m : Region → Bytes) : Disk := fun a =>
  (m (L.regionAt a)).getD (a - L.addr (L.regionAt a)) 0

theorem Layout.holds_diskOf (L : Layout fs) {m : Region → Bytes} (hm : L.Sized m) :
    L.regions.Holds (L.diskOf m) m := by
  intro r hr
  refine ext_getElem? fun i => ?_
  change (readRange _ (L.addr r) (Layout.size fs r))[i]? = _
  rw [getElem?_readRange]
  split_ifs with hi
  · rw [diskOf, L.regionAt_addr hr hi, Nat.add_sub_cancel_left, getD_eq_getElem?_getD,
      getElem?_eq_getElem (by rw [hm r hr]; exact hi)]
    rfl
  · rw [getElem?_eq_none (by rw [hm r hr]; omega)]

/-! ## Tables and bitmaps -/

theorem slice_flatMap {f : Nat → Bytes} {w g : Nat} (hw : ∀ k, (f k).length = w) (hg : g < n) :
    slice ((List.range n).flatMap f) (w * g) w = f g := by
  have hlen : ∀ n, ((List.range n).flatMap f).length = w * n := fun n => by
    rw [length_flatMap, map_congr_left fun k _ => hw k, map_const', sum_replicate,
      length_range, nsmul_eq_mul, Nat.cast_id, mul_comm]
  obtain ⟨k, rfl⟩ := Nat.exists_eq_add_of_lt hg
  rw [show g + k + 1 = g + (k + 1) by omega, range_add, range_succ_eq_map, map_cons,
    flatMap_append, flatMap_cons, add_zero, slice, drop_append_of_le_length (hlen g).ge,
    drop_of_length_le (hlen g).le, nil_append, take_append_of_le_length (hw g).ge,
    take_of_length_le (hw g).le]

/-- A buffer with these bits set. -/
def bitmapOf (n : Nat) (bits : List Nat) : Bytes := bits.foldl setBit (List.replicate n 0)

theorem length_foldl_setBit (bits : List Nat) (b : Bytes) :
    (bits.foldl setBit b).length = b.length := by
  induction bits generalizing b with
  | nil => rfl
  | cons i bits ih => rw [foldl_cons, ih, length_setBit]

theorem bit_foldl_setBit {bits : List Nat} {b : Bytes}
    (h : ∀ i ∈ bits, i / 8 < b.length) (j : Nat) :
    bit (bits.foldl setBit b) j = (decide (j ∈ bits) || bit b j) := by
  induction bits generalizing b with
  | nil => simp
  | cons i bits ih =>
    obtain ⟨hi, hrest⟩ := forall_mem_cons.1 h
    rw [foldl_cons, ih (by simpa using hrest), bit_setBit hi]
    by_cases hj : j ∈ bits <;> simp [hj]

theorem bit_bitmapOf {j : Nat} {bits : List Nat} (h : ∀ i ∈ bits, i < 8 * n) :
    bit (bitmapOf n bits) j = true ↔ j ∈ bits := by
  have hzero : bit (List.replicate n 0) j = false := by rw [bit, byte_zeros, Nat.zero_testBit]
  rw [bitmapOf, bit_foldl_setBit
    (fun i hi => by rw [length_replicate]; have := h i hi; omega), hzero,
    Bool.or_false, decide_eq_true_eq]

/-! ## Fields one after the other -/

abbrev gap (n : Nat) : Bytes := List.replicate n 0

section

variable (b : Bytes) {o : Nat}

theorem le32_past {a : Bytes} (ha : a.length = n) (h : n ≤ o) :
    le32 (a ++ b) o = le32 b (o - n) := by
  obtain ⟨k, rfl⟩ := Nat.exists_eq_add_of_le h
  rw [← ha, le32_append_right, Nat.add_sub_cancel_left]

theorem le32_past_gap (h : n ≤ o) : le32 (gap n ++ b) o = le32 b (o - n) :=
  le32_past b length_replicate h

variable (x : Nat)

theorem le32_past_le16 (h : 2 ≤ o) : le32 (toLe16 x ++ b) o = le32 b (o - 2) :=
  le32_past b rfl h

theorem le32_past_le32 (h : 4 ≤ o) : le32 (toLe32 x ++ b) o = le32 b (o - 4) :=
  le32_past b rfl h

theorem le32_here : le32 (toLe32 x ++ b) 0 = x % 4294967296 := by
  rw [le32_append_left (by simp), le32_toLe32]

theorem le16_past {a : Bytes} (ha : a.length = n) (h : n ≤ o) :
    le16 (a ++ b) o = le16 b (o - n) := by
  obtain ⟨k, rfl⟩ := Nat.exists_eq_add_of_le h
  rw [← ha, le16_append_right, Nat.add_sub_cancel_left]

theorem le16_past_gap (h : n ≤ o) : le16 (gap n ++ b) o = le16 b (o - n) :=
  le16_past b length_replicate h

theorem le16_past_le16 (h : 2 ≤ o) : le16 (toLe16 x ++ b) o = le16 b (o - 2) :=
  le16_past b rfl h

theorem le16_past_le32 (h : 4 ≤ o) : le16 (toLe32 x ++ b) o = le16 b (o - 4) :=
  le16_past b rfl h

theorem le16_here : le16 (toLe16 x ++ b) 0 = x % 65536 := by
  rw [le16_append_left (by simp), le16_toLe16]

end

/-! ## The superblock -/

/-- `s_log_block_size`. -/
def logSize (fs : Ext2) : Nat := if fs.blockSize = 1024 then
    0 else if fs.blockSize = 2048 then 1 else 2

def superBytes (fs : Ext2) (freeBlocks freeInodes : Nat) : Bytes :=
  gap 4 ++ (toLe32 fs.blockCount ++ (gap 4 ++ (toLe32 freeBlocks ++ (toLe32 freeInodes ++
    (toLe32 fs.firstDataBlock ++ (toLe32 fs.logSize ++
      (gap 4 ++ (toLe32 fs.blocksPerGroup ++ (gap 4 ++
    (toLe32 fs.inodesPerGroup ++ (gap 12 ++ (toLe16 0xEF53 ++ (gap 18 ++ (toLe32 1 ++ (gap 8 ++
    (toLe16 fs.inodeSize ++ (gap 6 ++ (toLe32 (if fs.filetype then 2 else 0) ++
    (toLe32 (if fs.sparseSuper then 1 else 0) ++ gap 920)))))))))))))))))))

theorem length_superBytes (a b : Nat) : (superBytes fs a b).length = 1024 := by
  simp [superBytes]

theorem superBytes_fields (a b : Nat) :
    le32 (superBytes fs a b) 12 = a % 4294967296 ∧ le32 (superBytes fs a b) 16 = b % 4294967296 ∧
    le32 (superBytes fs a b) 4 = fs.blockCount % 4294967296 ∧
    le32 (superBytes fs a b) 20 = fs.firstDataBlock % 4294967296 ∧
    le32 (superBytes fs a b) 24 = fs.logSize % 4294967296 ∧
    le32 (superBytes fs a b) 32 = fs.blocksPerGroup % 4294967296 ∧
    le32 (superBytes fs a b) 40 = fs.inodesPerGroup % 4294967296 ∧
    le16 (superBytes fs a b) 56 = 0xEF53 ∧ le32 (superBytes fs a b) 76 = 1 ∧
    le16 (superBytes fs a b) 88 = fs.inodeSize % 65536 ∧
    le32 (superBytes fs a b) 96 = (if fs.filetype then 2 else 0) % 4294967296 ∧
    le32 (superBytes fs a b) 100 = (if fs.sparseSuper then 1 else 0) % 4294967296 := by
  refine ⟨?_, ?_, ?_, ?_, ?_, ?_, ?_, ?_, ?_, ?_, ?_, ?_⟩ <;>
    simp (disch := omega) only [superBytes, le32_past_gap, le32_past_le32, le32_past_le16,
      le32_here, le16_past_gap, le16_past_le32, le16_past_le16, le16_here, Nat.reduceSub]

theorem decodeSuper_superBytes (L : Layout fs) (a b : Nat) :
    decodeSuper (superBytes fs a b) = .ok fs := by
  have hbs := L.blockSize_eq
  have hfirst : fs.firstDataBlock ≤ 1 := by
    rw [L.firstDataBlock_eq]
    split_ifs <;> omega
  have hinode := Nat.le_of_dvd L.blockSize_pos L.inodeSize_dvd
  have hcount := L.blockCount_lt
  have hipg := L.inodesPerGroup_le
  have hbpg := L.blocksPerGroup_le
  obtain ⟨-, -, h4, h20, h24, h32, h40, h56, h76, h88, h96, h100⟩ := @superBytes_fields fs a b
  rw [Nat.mod_eq_of_lt (by omega)] at h4 h20 h32 h40 h88
  have hlog : 1024 * 2 ^ le32 (superBytes fs a b) 24 = fs.blockSize := by
    rw [h24]
    rcases hbs with h | h | h <;> simp [logSize, h]
  have hfiletype : (le32 (superBytes fs a b) 96).testBit 1 = fs.filetype := by
    rw [h96]
    cases fs.filetype <;> rfl
  have hsparse : (le32 (superBytes fs a b) 100).testBit 0 = fs.sparseSuper := by
    rw [h100]
    cases fs.sparseSuper <;> rfl
  rw [decodeSuper, if_neg (by omega), hlog, h76, if_pos (by omega), h88, h40, h20, h32, h4,
    hfiletype, hsparse]

/-! ## The regions of a volume -/

/-- A group descriptor. -/
def descriptor (L : Layout fs) (v : Vol) (g : Nat) : Bytes :=
  toLe32 (L.blockBitmap g) ++ (toLe32 (L.inodeBitmap g) ++ (toLe32 (L.inodeTable g) ++
    (toLe16 (fs.inGroup g - tally v.used (fs.blockNo g 0) (fs.inGroup g)) ++
    (toLe16 (fs.inodesPerGroup - tally v.inodes (fs.inoNo g 0) fs.inodesPerGroup) ++
    (toLe16 (tally v.dirs (fs.inoNo g 0) fs.inodesPerGroup) ++ gap 14)))))

theorem length_descriptor (L : Layout fs) (v : Vol) (g : Nat) : (descriptor L v g).length = 32 := by
  simp [descriptor]

def superOf (fs : Ext2) (v : Vol) : Bytes :=
  superBytes fs (fs.blockCount - fs.firstDataBlock - tally v.used fs.firstDataBlock
      (fs.blockCount - fs.firstDataBlock))
    (fs.groupCount * fs.inodesPerGroup - tally v.inodes 1 (fs.groupCount * fs.inodesPerGroup))

def tableOf (L : Layout fs) (v : Vol) : Bytes := (List.range fs.groupCount).flatMap (descriptor L v)

/-- What the regions hold. -/
def Layout.bytes (L : Layout fs) (v : Vol) : Region → Bytes
  | .sb => superOf fs v
  | .gdt => tableOf L v
  | .inode i => v.inode i
  | .block n =>
    match L.kind n with
    | .blockBitmap g =>
      bitmapOf fs.blockSize ((List.range (fs.inGroup g)).filter fun i => fs.blockNo g i ∈ v.used)
    | .inodeBitmap g =>
      bitmapOf fs.blockSize ((List.range fs.inodesPerGroup).filter fun i => fs.inoNo g i ∈ v.inodes)
    | _ => if fs.firstDataBlock ≤ n ∧ n < fs.blockCount then v.data n else gap fs.blockSize
  | .backupSb g => splice (superOf fs v) 90 (toLe16 g)
  | .backupGdt _ => tableOf L v

theorem length_tableOf (L : Layout fs) (v : Vol) : (tableOf L v).length = fs.groupCount * 32 := by
  rw [tableOf, length_flatMap, map_congr_left fun g _ => length_descriptor L v g,
    map_const', sum_replicate, length_range, nsmul_eq_mul, Nat.cast_id]

theorem length_bitmapOf (n : Nat) (bits : List Nat) : (bitmapOf n bits).length = n := by
  rw [bitmapOf, length_foldl_setBit, length_replicate]

section

variable {g : Nat}

theorem Layout.bytes_data (hn : L.Data n) : L.bytes v (.block n) = v.data n := by
  rw [bytes, hn.2.2]
  exact if_pos ⟨hn.1, hn.2.1⟩

theorem Layout.bytes_blockBitmap (hg : g < fs.groupCount) : L.bytes v (.block (L.blockBitmap g)) =
    bitmapOf fs.blockSize ((List.range (fs.inGroup g)).filter fun i => fs.blockNo g
      i ∈ v.used) := by
  rw [bytes, L.kind_blockBitmap g hg]

theorem Layout.bytes_inodeBitmap (hg : g < fs.groupCount) : L.bytes v (.block (L.inodeBitmap g)) =
    bitmapOf fs.blockSize ((List.range fs.inodesPerGroup).filter fun i => fs.inoNo g i ∈
      v.inodes) := by
  rw [bytes, L.kind_inodeBitmap g hg]

end

theorem Layout.sized_bytes (L : Layout fs) (hfull : L.Full v) : L.Sized (L.bytes v) := by
  intro r hr
  cases r with
  | sb => exact length_superBytes _ _
  | gdt => exact length_tableOf L v
  | inode i => exact hfull.inode i hr
  | backupSb g =>
    have hlen : (superOf fs v).length = 1024 := length_superBytes ..
    exact (length_splice (by rw [hlen]; simp)).trans hlen
  | backupGdt g => exact length_tableOf L v
  | block n =>
    change (L.bytes v (.block n)).length = fs.blockSize
    rcases hr with hr | ⟨g, hg, rfl | rfl⟩
    · by_cases hin : fs.firstDataBlock ≤ n ∧ n < fs.blockCount
      · rw [bytes_data ⟨hin.1, hin.2, hr⟩]
        exact hfull.data n ⟨hin.1, hin.2, hr⟩
      · rw [bytes, hr]
        simp only [if_neg hin, length_replicate]
    · rw [bytes_blockBitmap hg, length_bitmapOf]
    · rw [bytes_inodeBitmap hg, length_bitmapOf]

section

variable {g : Nat} (hg : g < fs.groupCount)
include hg

theorem slice_tableOf : slice (tableOf L v) (32 * g) 32 = descriptor L v g :=
  slice_flatMap (length_descriptor L v) hg

theorem le32_tableOf (hk : k + 4 ≤ 32) : le32 (tableOf L v) (32 * g + k) =
    le32 (descriptor L v g) k := by
  rw [← slice_tableOf hg, le32_slice hk]

theorem le16_tableOf (hk : k + 2 ≤ 32) : le16 (tableOf L v) (32 * g + k) =
    le16 (descriptor L v g) k := by
  rw [← slice_tableOf hg, le16_slice hk]

end

/-- The volume is one that a disk can hold: the sizes are right, the blocks set aside are in
use, and the numbers of the metadata blocks fit their fields. -/
structure Layout.Fits (L : Layout fs) (v : Vol) : Prop extends L.Full v where
  reserved : ∀ n, fs.firstDataBlock ≤ n → n < fs.blockCount → L.kind n ≠ .data → n ∈ v.used
  bitmaps : ∀ g, g < fs.groupCount →
    L.blockBitmap g < 4294967296 ∧ L.inodeBitmap g < 4294967296 ∧ L.inodeTable g < 4294967296

theorem Layout.Fits.shows (h : L.Fits v) : Shows L (L.bytes v) v := by
  have hread : ∀ g, g < fs.groupCount → ∀ k, k + 4 ≤ 32 →
      le32 (L.bytes v .gdt) (32 * g + k) = le32 (descriptor L v g) k := fun g hg k hk =>
    le32_tableOf hg hk
  refine ⟨fun g hg => ?_, fun g hg => ?_, fun g hg => ?_, fun g i hg hi => ?_, fun g i hg hi => ?_,
    fun i hi => rfl, fun n hn => L.bytes_data hn, h.reserved⟩
  · have := (h.bitmaps g hg).1
    have hk := hread g hg 0 (by omega)
    simp only [descriptor, le32_here] at hk
    rwa [Nat.mod_eq_of_lt this] at hk
  · have := (h.bitmaps g hg).2.1
    have hk := hread g hg 4 (by omega)
    simp (disch := omega) only [descriptor, le32_past_le32, le32_here, Nat.reduceSub] at hk
    rwa [Nat.mod_eq_of_lt this] at hk
  · have := (h.bitmaps g hg).2.2
    have hk := hread g hg 8 (by omega)
    simp (disch := omega) only [descriptor, le32_past_le32, le32_here, Nat.reduceSub] at hk
    rwa [Nat.mod_eq_of_lt this] at hk
  · have hle := L.inGroup_le hg
    have hbpg := L.blocksPerGroup_le
    rw [L.bytes_blockBitmap hg, bit_bitmapOf, mem_filter, mem_range, decide_eq_true_eq,
      and_iff_right hi]
    intro j hj
    have := mem_range.1 (mem_filter.1 hj).1
    omega
  · have hipg := L.inodesPerGroup_le
    rw [L.bytes_inodeBitmap hg, bit_bitmapOf, mem_filter, mem_range, decide_eq_true_eq,
      and_iff_right hi]
    intro j hj
    have := mem_range.1 (mem_filter.1 hj).1
    omega

theorem Layout.booked_bytes (L : Layout fs) (v : Vol) : Booked fs (L.bytes v) v := by
  have hbs := L.blockSize_eq
  have hread : ∀ g, g < fs.groupCount → ∀ k, k + 2 ≤ 32 →
      le16 (L.bytes v .gdt) (32 * g + k) = le16 (descriptor L v g) k := fun g hg k hk =>
    le16_tableOf hg hk
  have hipg := L.inodesPerGroup_le
  refine ⟨fun g hg => ?_, fun g hg => ?_, fun g hg => ?_, ?_, ?_, fun _ g _ => ⟨rfl, rfl⟩⟩
  · have hle := L.inGroup_le hg
    have hbpg := L.blocksPerGroup_le
    have htally := tally_le v.used (fs.blockNo g 0) (fs.inGroup g)
    rw [hread g hg 12 (by omega)]
    simp (disch := omega) only [descriptor, le16_past_le32, le16_here, Nat.reduceSub]
    omega
  · have htally := tally_le v.inodes (fs.inoNo g 0) fs.inodesPerGroup
    rw [hread g hg 14 (by omega)]
    simp (disch := omega) only [descriptor, le16_past_le32, le16_past_le16, le16_here,
      Nat.reduceSub]
    omega
  · have htally := tally_le v.dirs (fs.inoNo g 0) fs.inodesPerGroup
    rw [hread g hg 16 (by omega)]
    simp (disch := omega) only [descriptor, le16_past_le32, le16_past_le16, le16_here,
      Nat.reduceSub]
    omega
  · have htally := tally_le v.used fs.firstDataBlock (fs.blockCount - fs.firstDataBlock)
    have hcount := L.blockCount_lt
    rw [show le32 (L.bytes v .sb) 12 = _ from (superBytes_fields ..).1]
    omega
  · have htally := tally_le v.inodes 1 (fs.groupCount * fs.inodesPerGroup)
    have hcount := L.inodeCount_lt
    rw [show le32 (L.bytes v .sb) 16 = _ from (superBytes_fields ..).2.1]
    omega

theorem Layout.Fits.exists_image (h : L.Fits v) : ∃ d, L.Image d v ∧ (mount d).out = .ok fs := by
  have hholds := L.holds_diskOf (L.sized_bytes h.toFull)
  refine ⟨L.diskOf (L.bytes v), ⟨L.bytes v, hholds, h.shows, L.booked_bytes v⟩, ?_⟩
  have hread := hholds.diskRange (ε := Stop) (r := Region.sb) trivial (o := 0) (n := 1024) le_rfl
  have hlen : (superOf fs v).length = 1024 := length_superBytes ..
  change (diskRange sbOffset 1024 : M Bytes).run _ =
    ⟨.ok (slice (superOf fs v) 0 1024), _, _⟩ at hread
  rw [slice_all hlen] at hread
  rw [mount, Prog.bind_of_read hread, superOf, decodeSuper_superBytes L]
  rfl

theorem Layout.Image.exists_mounted {d : Disk} (hd : L.Image d v)
    (hbitmaps : ∀ g, g < fs.groupCount →
      L.blockBitmap g < 2 ^ 32 ∧ L.inodeBitmap g < 2 ^ 32 ∧ L.inodeTable g < 2 ^ 32) :
    ∃ d', L.Image d' v ∧ (mount d').out = .ok fs := by
  have hfull := hd.glimpse.full
  obtain ⟨m, -, hs, -⟩ := hd
  exact Layout.Fits.exists_image ⟨hfull, hs.reserved, hbitmaps⟩

/-! ## An empty file system -/

/-- The volume with nothing but what is set aside. -/
def blankVol (L : Layout fs) : Vol where
  used := (Finset.range fs.blockCount).filter fun n => fs.firstDataBlock ≤ n ∧ L.kind n ≠ .data
  inodes := L.reservedInos
  dirs := ∅
  inode _ := gap fs.inodeSize
  data _ := gap fs.blockSize
  synced := true

/-- The volume with an empty root directory in the block `b`. -/
def freshVol (L : Layout fs) (b : Nat) : Vol := ((blankVol L).addDir fs 0 0 rootIno rootIno b).sync

theorem full_blankVol (L : Layout fs) : L.Full (blankVol L) :=
  ⟨fun _ _ => length_replicate, fun _ _ => length_replicate⟩

theorem not_mem_used_blankVol (hn : L.Data n) : n ∉ (blankVol L).used := by
  intro hmem
  exact (Finset.mem_filter.1 hmem).2.2 hn.2.2

theorem kept_blankVol (L : Layout fs) : Kept L (blankVol L) ∅ 0 where
  valid := nofun
  alive := Finset.empty_subset _
  counted := Finset.empty_subset _
  dirs := nofun
  sound := nofun
  ledger := by
    have hnone : L.taken (blankVol L) = ∅ := by
      refine Finset.eq_empty_of_forall_notMem fun n hn => ?_
      obtain ⟨hused, hdata⟩ := Layout.mem_taken.1 hn
      exact not_mem_used_blankVol hdata hused
    rw [hnone]
    rfl

theorem fits_freshVol (b : Nat) (hbitmaps : ∀ g, g < fs.groupCount →
      L.blockBitmap g < 2 ^ 32 ∧ L.inodeBitmap g < 2 ^ 32 ∧ L.inodeTable g < 2 ^ 32) :
    L.Fits (freshVol L b) where
  data := (full_addDir 0 0 (full_blankVol L) rootIno rootIno b).data
  inode := (full_addDir 0 0 (full_blankVol L) rootIno rootIno b).inode
  reserved n hlo hhi hk := by
    refine Finset.mem_insert_of_mem (Finset.mem_filter.2 ⟨Finset.mem_range.2 hhi, hlo, hk⟩)
  bitmaps := hbitmaps

theorem not_cramped_freshVol {b : Nat} (hb : L.Data b) (hname : name.length < 256) :
    ¬ Cramped (freshVol L b) rootIno name := by
  intro hcramp
  have hself : (freshVol L b).inode rootIno = newDirInode fs 0 0 b (gap fs.inodeSize) :=
    Vol.addDir_inode_self 0 0 (blankVol L) rootIno rootIno b
  have hblock : ((freshVol L b).node rootIno).block 0 = b := by
    rw [Vol.node, hself, block_newDirInode (length_replicate_inode L) hb 0 0 (by omega)]
    rfl
  have hdata : (freshVol L b).data b = fs.newDirBlock rootIno rootIno :=
    Vol.addDir_data_self 0 0 (blankVol L) rootIno rootIno b
  have hlt : rootIno < 2 ^ 32 := show 2 < 2 ^ 32 by omega
  have hne : rootIno ≠ 0 := show 2 ≠ 0 by omega
  have hmem : b ∈ (List.range 12).map ((freshVol L b).node rootIno).block :=
    mem_map.2 ⟨0, mem_range.2 (by omega), hblock⟩
  exact not_packed_newDirBlock L hlt hne hlt hne hdata hname (hcramp b hmem hb.ne_zero)

section

variable {b : Nat} (hb : L.Data b) (hroot : rootIno ∉ L.reservedInos) (hvalid : fs.ValidIno rootIno)
include hb hroot hvalid

theorem addDir_blankVol : ∀ u, u = (blankVol L).addDir fs 0 0 rootIno rootIno b →
    Kept L u {rootIno} 0 ∧ u.entries fs (u.node rootIno) =
      [⟨rootIno, dot⟩, ⟨rootIno, dotdot⟩] ∧ le16 (u.inode rootIno) 26 = 2 := by
  rintro _ rfl
  obtain ⟨hk, -, hents, hlinks⟩ := (kept_blankVol L).addDir 0 0 (full_blankVol L) hvalid hvalid
    hroot hb (not_mem_used_blankVol hb)
  exact ⟨hk, hents, hlinks⟩

theorem entries_freshVol : (freshVol L b).entries fs ((freshVol L b).node rootIno) =
    [⟨rootIno, dot⟩, ⟨rootIno, dotdot⟩] := by
  have hkeep : (freshVol L b).data = ((blankVol L).addDir fs 0 0 rootIno rootIno b).data := rfl
  exact (Vol.entries_of_data hkeep _).trans (addDir_blankVol hb hroot hvalid _ rfl).2.1

theorem links_freshVol : le16 ((freshVol L b).inode rootIno) 26 = 2 :=
  (addDir_blankVol hb hroot hvalid _ rfl).2.2

theorem find_freshVol (hprop : name ≠ dot ∧ name ≠ dotdot) :
    (freshVol L b).find fs ((freshVol L b).node rootIno) name = none := by
  rw [Vol.find, entries_freshVol hb hroot hvalid, find?_cons_of_neg, find?_cons_of_neg]
  · rfl
  · simpa using hprop.2.symm
  · simpa using hprop.1.symm

theorem consistent_freshVol : Consistent L (freshVol L b) := by
  obtain ⟨hk, hents, hlinks⟩ := addDir_blankVol hb hroot hvalid _ rfl
  have hinos : ((blankVol L).addDir fs 0 0 rootIno rootIno b).inodes =
    insert rootIno L.reservedInos := rfl
  have hdirs : ((blankVol L).addDir fs 0 0 rootIno rootIno b).dirs = {rootIno} := rfl
  rw [freshVol]
  generalize (blankVol L).addDir fs 0 0 rootIno rootIno b = u at *
  have hlive : L.live u = {rootIno} := by
    rw [Layout.live, hinos, Finset.insert_sdiff_of_notMem _ hroot, Finset.sdiff_self]
    rfl
  refine Consistent.of_sync (hlive ▸ hk) (Names.Ok.root_only hlive hdirs hents hlinks)
    fun i hi => ?_
  rw [hinos]
  exact Finset.mem_insert_of_mem hi

end

/-! ## A plain file system -/

/-- A file system of `n` blocks of 4096 bytes, in groups of 32768 blocks and 32768 inodes. -/
def plainFs (n : Nat) : Ext2 where
  blockSize := 4096
  inodeSize := 128
  inodesPerGroup := 32768
  firstDataBlock := 0
  blocksPerGroup := 32768
  blockCount := n
  filetype := true
  sparseSuper := false

/-- Every group starts with a copy of the superblock, the descriptor table, the two bitmaps,
and the inode table. -/
def plainKind (n : Nat) : Kind :=
  if n % 32768 = 0 then if n = 0 then .superblock else .backupSuperblock (n / 32768)
  else if n % 32768 = 1 then if n = 1 then .descriptors else .backupDescriptors (n / 32768)
  else if n % 32768 = 2 then .blockBitmap (n / 32768)
  else if n % 32768 = 3 then .inodeBitmap (n / 32768)
  else if n % 32768 < 1028 then .inodeTable (n / 32768)
  else .data

theorem groupCount_plainFs (n : Nat) : (plainFs n).groupCount = (n + 32767) / 32768 := by
  change (n - 0 + 32768 - 1) / 32768 = _
  omega

def plain (n : Nat) (hlo : 1028 < n) (hhi : n ≤ 128 * 32768) : Layout (plainFs n) where
  blockBitmap g := g * 32768 + 2
  inodeBitmap g := g * 32768 + 3
  inodeTable g := g * 32768 + 4
  kind := plainKind
  reservedInos := {1, 3, 4, 5, 6, 7, 8, 9, 10}
  blockSize_eq := .inr (.inr rfl)
  firstDataBlock_eq := rfl
  inodeSize_ge := show 128 ≤ 128 by omega
  inodeSize_dvd := ⟨32, rfl⟩
  blocksPerGroup_pos := show 0 < 32768 by omega
  blocksPerGroup_le := show 32768 ≤ 8 * 4096 by omega
  inodesPerGroup_pos := show 0 < 32768 by omega
  inodesPerGroup_le := show 32768 ≤ 8 * 4096 by omega
  blockCount_gt := by change 0 < n; omega
  blockCount_lt := by change n < 2 ^ 32; omega
  inodeCount_lt := by
    rw [groupCount_plainFs]
    change (n + 32767) / 32768 * 32768 < 2 ^ 32
    omega
  kind_superblock := rfl
  kind_descriptors k hk := by
    rw [groupCount_plainFs] at hk
    change k * 4096 < (n + 32767) / 32768 * 32 at hk
    obtain rfl : k = 0 := by omega
    rfl
  kind_blockBitmap g _ := by
    rw [plainKind, if_neg (by omega), if_neg (by omega), if_pos (by omega)]
    congr 1
    omega
  kind_inodeBitmap g _ := by
    rw [plainKind, if_neg (by omega), if_neg (by omega), if_neg (by omega), if_pos (by omega)]
    congr 1
    omega
  kind_inodeTable g _ k hk := by
    change k * 4096 < 32768 * 128 at hk
    rw [plainKind, if_neg (by omega), if_neg (by omega), if_neg (by omega), if_neg (by omega),
      if_pos (by omega)]
    congr 1
    omega
  kind_backupSuperblock g hg := by
    have := hg.1
    change plainKind (0 + g * 32768) = _
    rw [plainKind, if_pos (by omega), if_neg (by omega)]
    congr 1
    omega
  kind_backupDescriptors g hg k hk := by
    have := hg.1
    rw [groupCount_plainFs] at hk
    change k * 4096 < (n + 32767) / 32768 * 32 at hk
    obtain rfl : k = 0 := by omega
    change plainKind (0 + g * 32768 + 1 + 0) = _
    rw [plainKind, if_neg (by omega), if_pos (by omega), if_neg (by omega)]
    congr 1
    omega

section Plain

variable (hlo : 1028 < n) (hhi : n ≤ 128 * 32768)

theorem data_plain {b : Nat} : (plain n hlo hhi).Data b ↔ b < n ∧ 1028 ≤ b % 32768 := by
  have hkind : plainKind b = .data ↔ 1028 ≤ b % 32768 := by
    rw [plainKind]
    split_ifs <;> simp only [false_iff, true_iff] <;> omega
  change 0 ≤ b ∧ b < n ∧ plainKind b = .data ↔ _
  rw [hkind]
  omega

theorem first_plain : (plain n hlo hhi).Data 1028 := (data_plain hlo hhi).2 ⟨hlo, by omega⟩

theorem root_plain : rootIno ∉ (plain n hlo hhi).reservedInos ∧ (plainFs n).ValidIno rootIno := by
  refine ⟨show 2 ∉ ({1, 3, 4, 5, 6, 7, 8, 9, 10} : Finset Nat) by decide, by decide, ?_⟩
  rw [groupCount_plainFs]
  change 2 ≤ (n + 32767) / 32768 * 32768
  omega

/-- The plain file system with an empty root directory. -/
def plainVol (n : Nat) (hlo : 1028 < n) (hhi : n ≤ 128 * 32768) : Vol :=
  freshVol (plain n hlo hhi) 1028

theorem consistent_plainVol : Consistent (plain n hlo hhi) (plainVol n hlo hhi) :=
  consistent_freshVol (first_plain hlo hhi) (root_plain hlo hhi).1 (root_plain hlo hhi).2

theorem links_plainVol : le16 ((plainVol n hlo hhi).inode rootIno) 26 = 2 :=
  links_freshVol (first_plain hlo hhi) (root_plain hlo hhi).1 (root_plain hlo hhi).2

include hhi in
theorem bitmaps_plain (g : Nat) (hg : g < (plainFs n).groupCount) :
    g * 32768 + 2 < 2 ^ 32 ∧ g * 32768 + 3 < 2 ^ 32 ∧ g * 32768 + 4 < 2 ^ 32 := by
  rw [groupCount_plainFs] at hg
  omega

omit hlo hhi in
theorem exists_plainDisk (n : Nat) (h : 1028 < n ∧ n ≤ 128 * 32768) : ∃ hlo hhi d,
    (plain n hlo hhi).Image d (plainVol n hlo hhi) ∧ (mount d).out = .ok (plainFs n) ∧
      Consistent (plain n hlo hhi) (plainVol n hlo hhi) := by
  have hfits := fits_freshVol (L := plain n h.1 h.2) 1028 (bitmaps_plain h.2)
  obtain ⟨d, hd, hmount⟩ := hfits.exists_image
  exact ⟨h.1, h.2, d, hd, hmount, consistent_plainVol h.1 h.2⟩

theorem find_plainVol (hprop : name ≠ dot ∧ name ≠ dotdot) :
    (plainVol n hlo hhi).find (plainFs n) ((plainVol n hlo hhi).node rootIno) name = none :=
  find_freshVol (first_plain hlo hhi) (root_plain hlo hhi).1 (root_plain hlo hhi).2 hprop

theorem lookup_plainVol {d : Disk} (hd : (plain n hlo hhi).Glimpse d (plainVol n hlo hhi))
    (hprop : name ≠ dot ∧ name ≠ dotdot) : ((plainFs n).lookup rootIno name d).out = .ok none := by
  have h := consistent_plainVol hlo hhi
  rw [h.lookup_dir hd h.names.root, find_plainVol hlo hhi hprop]

theorem notMem_inodes_plainVol {i : Nat} (hi : 11 ≤ i) : i ∉ (plainVol n hlo hhi).inodes := by
  intro hmem
  change i ∈ insert 2 ({1, 3, 4, 5, 6, 7, 8, 9, 10} : Finset Nat) at hmem
  simp only [Finset.mem_insert, Finset.mem_singleton] at hmem
  omega

theorem validIno_plainFs {i : Nat} (h1 : 1 ≤ i) (hi : i ≤ 32768) (hn : 0 < n) :
    (plainFs n).ValidIno i := by
  refine ⟨h1, ?_⟩
  rw [groupCount_plainFs]
  change i ≤ (n + 32767) / 32768 * 32768
  omega

theorem not_inodesFull_plainVol : ¬ (plainFs n).InodesFull (plainVol n hlo hhi) := fun hfull =>
  notMem_inodes_plainVol hlo hhi (le_refl 11)
    (hfull 11 (validIno_plainFs (by omega) (by omega) (by omega)))

theorem not_blocksFull_plainVol (hmore : 1029 < n) :
    ¬ (plain n hlo hhi).BlocksFull (plainVol n hlo hhi) := by
  intro hfull
  have hdata : (plain n hlo hhi).Data 1029 := (data_plain hlo hhi).2 ⟨hmore, by omega⟩
  rcases Finset.mem_insert.1 (hfull 1029 hdata) with heq | hmem
  · omega
  · exact (Finset.mem_filter.1 hmem).2.2 hdata.2.2

theorem block_plainVol (hk : k < 12) :
    ((plainVol n hlo hhi).node rootIno).block k = if k = 0 then 1028 else 0 := by
  have hb := first_plain hlo hhi
  have hself : (plainVol n hlo hhi).inode rootIno = newDirInode (plainFs n) 0 0 1028
    (gap (plainFs n).inodeSize) :=
    Vol.addDir_inode_self 0 0 (blankVol (plain n hlo hhi)) rootIno rootIno 1028
  rw [Vol.node, hself, block_newDirInode (length_replicate_inode (plain n hlo hhi)) hb
    0 0 (by omega)]
  revert k
  decide

theorem data_plainVol : (plainVol n hlo hhi).data 1028 = (plainFs n).newDirBlock rootIno rootIno :=
  Vol.addDir_data_self 0 0 (blankVol (plain n hlo hhi)) rootIno rootIno 1028

theorem not_cramped_plainVol (hname : name.length < 256) :
    ¬ Cramped (plainVol n hlo hhi) rootIno name :=
  not_cramped_freshVol (first_plain hlo hhi) hname

end Plain

end Thos.Ext2
