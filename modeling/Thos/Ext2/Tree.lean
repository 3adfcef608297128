import Thos.Ext2.Alloc

/-!
# The blocks of a file

The pointers of an inode, direct and through one or two levels of indirect blocks, as a
function of the block's index; the blocks that an inode owns; and what `read_file` returns
on every disk that shows the volume.
-/

set_option autoImplicit false

namespace Thos.Ext2

open Thos.Lib List Vol Prog Nat

variable {fs : Ext2} {L : Layout fs} {v : Vol} {d : Disk} {b i k n : Nat}

/-! ## Reads of a volume -/

theorem Layout.Glimpse.block (h : L.Glimpse d v) (hn : L.Data n) :
    fs.block n d = ⟨.ok (v.data n), d, []⟩ := by
  obtain ⟨m, hm, hs⟩ := h
  rw [block_run hm hn.valid, hs.data n hn]

theorem Layout.Glimpse.readInode (h : L.Glimpse d v) {ino : Nat} (hino : fs.ValidIno ino) :
    fs.readInode ino d = ⟨.ok (decodeInode (v.inode ino)), d, []⟩ := by
  obtain ⟨m, hm, hs⟩ := h
  rw [Ext2.readInode, bind_of_read (inodeOff_run hm hs hino),
    bind_of_read (inode_run hm hino), hs.inode ino hino]
  rfl

/-- The blocks and inodes of a volume are as long as they should be. -/
structure Layout.Full (L : Layout fs) (v : Vol) : Prop where
  data : ∀ n, L.Data n → (v.data n).length = fs.blockSize
  inode : ∀ ino, fs.ValidIno ino → (v.inode ino).length = fs.inodeSize

theorem Layout.Glimpse.full (h : L.Glimpse d v) : L.Full v := by
  obtain ⟨m, hm, hs⟩ := h
  refine ⟨fun n hn => ?_, fun ino hino => ?_⟩
  · rw [← hs.data n hn]
    exact Layout.sized hm _ hn.valid
  · rw [← hs.inode ino hino]
    exact Layout.sized hm (.inode ino) hino

/-! ## Pointers -/

/-- The number of pointers in a block. -/
def per (fs : Ext2) : Nat := fs.blockSize / 4

/-- Pointer `k` of an indirect block; a hole where there is no block. -/
def Vol.indirect (v : Vol) (b k : Nat) : Nat := if b = 0 then 0 else le32 (v.data b) (4 * k)

@[simp] theorem Vol.indirect_zero (v : Vol) (k : Nat) : v.indirect 0 k = 0 := if_pos rfl

/-- The number of block `i` of a file. -/
def Vol.ptr (fs : Ext2) (v : Vol) (blk : Nat → Nat) (i : Nat) : Nat :=
  if i < 12 then blk i
  else if i < 12 + fs.per then v.indirect (blk 12) (i - 12)
  else
    v.indirect (v.indirect (blk 13) ((i - (12 + fs.per)) / fs.per)) ((i - (12 + fs.per)) % fs.per)

/-- The number of blocks that an inode can point to. -/
def cap (fs : Ext2) : Nat := 12 + fs.per + fs.per * fs.per

/-- The block numbers that `block_map` lists. -/
def Vol.map (fs : Ext2) (v : Vol) (node : Inode) : List Nat :=
  (List.range (min (fs.mapLen node.size) fs.cap)).map (v.ptr fs node.block)

/-- What block `b` of a file holds; a hole is zeros. -/
def Vol.blockAt (fs : Ext2) (v : Vol) (b : Nat) : Bytes :=
  if b = 0 then List.replicate fs.blockSize 0 else v.data b

/-- The bytes of a file. -/
def Vol.content (fs : Ext2) (v : Vol) (node : Inode) : Bytes :=
  ((v.map fs node).flatMap (v.blockAt fs)).take node.size

/-- The blocks that an indirect block points to, and the block itself. -/
def Vol.branch (v : Vol) (b : Nat) : List Nat :=
  if b = 0 then [] else (ptrs (v.data b)).filter (· ≠ 0) ++ [b]

/-- The blocks under a double-indirect block, and the block itself. -/
def Vol.branches (v : Vol) (b : Nat) : List Nat :=
  if b = 0 then [] else (ptrs (v.data b)).flatMap v.branch ++ [b]

/-- The blocks that an inode owns but for the direct ones. -/
def Vol.tail (v : Vol) (blk : Nat → Nat) : List Nat := v.branch (blk 12) ++ v.branches (blk 13)

/-- The direct blocks of an inode. -/
def directs (blk : Nat → Nat) : List Nat := ((List.range 12).map blk).filter (· ≠ 0)

/-- The blocks that an inode owns, in the order in which they are freed. -/
def Vol.owned (v : Vol) (blk : Nat → Nat) : List Nat := directs blk ++ v.tail blk

theorem four_mul_per (L : Layout fs) : 4 * fs.per = fs.blockSize := by
  have := L.blockSize_eq
  unfold per
  omega

theorem per_pos (L : Layout fs) : 0 < fs.per := by
  have := L.blockSize_eq
  unfold per
  omega

theorem mem_ptrs {c : Bytes} (hc : c.length = fs.blockSize) :
    b ∈ ptrs c ↔ ∃ k, k < fs.per ∧ le32 c (4 * k) = b := by
  rw [ptrs, hc]
  simp [per]

section

variable {blk : Nat → Nat}

theorem mem_owned_of_direct (hi : i < 12) (h0 : blk i ≠ 0) : blk i ∈ v.owned blk := by
  simp only [owned, directs, mem_append, mem_filter, mem_map, mem_range]
  exact .inl ⟨⟨i, hi, rfl⟩, by simpa using h0⟩

theorem mem_branch_self (h0 : b ≠ 0) : b ∈ v.branch b := by
  simp [branch, h0]

theorem mem_branch_of_indirect (hlen : (v.data b).length = fs.blockSize)
    (hk : k < fs.per) (h0 : v.indirect b k ≠ 0) : v.indirect b k ∈ v.branch b := by
  unfold indirect at h0 ⊢
  by_cases hb : b = 0
  · simp [hb] at h0
  · rw [if_neg hb] at h0 ⊢
    rw [branch, if_neg hb, mem_append, mem_filter, mem_ptrs hlen]
    exact .inl ⟨⟨k, hk, rfl⟩, by simpa using h0⟩

theorem mem_branches_self (h0 : b ≠ 0) : b ∈ v.branches b := by
  simp [branches, h0]

theorem branch_subset_branches (hlen : (v.data b).length = fs.blockSize)
    (hk : k < fs.per) : v.branch (v.indirect b k) ⊆ v.branches b := by
  intro x hx
  by_cases hb : b = 0
  · simp [hb, indirect, branch] at hx
  · rw [branches, if_neg hb, mem_append, mem_flatMap]
    refine .inl ⟨v.indirect b k, (mem_ptrs hlen).2 ⟨k, hk, ?_⟩, hx⟩
    rw [indirect, if_neg hb]

theorem branch_subset_tail : v.branch (blk 12) ⊆ v.tail blk := fun _ hx => mem_append_left _ hx

theorem branches_subset_tail : v.branches (blk 13) ⊆ v.tail blk := fun _ hx =>
  mem_append_right _ hx

theorem tail_subset_owned : v.tail blk ⊆ v.owned blk := fun _ hx => mem_append_right _ hx

theorem branch_subset_owned : v.branch (blk 12) ⊆ v.owned blk := fun _ hx =>
  tail_subset_owned (branch_subset_tail hx)

theorem branches_subset_owned : v.branches (blk 13) ⊆ v.owned blk := fun _ hx =>
  tail_subset_owned (branches_subset_tail hx)

end

theorem Layout.Data.ne_zero (hn : L.Data n) : n ≠ 0 := by
  rintro rfl
  have hlo := hn.1
  have hfirst : fs.firstDataBlock = 0 := by omega
  have hk := L.kind_superblock
  rw [hfirst, hn.2.2] at hk
  cases hk

/-! ## Listing the blocks -/

/-- Every block that the inode owns is a data block. -/
def Layout.Owns (L : Layout fs) (v : Vol) (blk : Nat → Nat) : Prop := ∀ b ∈ v.owned blk, L.Data b

section

variable {blk : Nat → Nat} (hfull : L.Full v) (hown : L.Owns v blk)
include hfull hown

omit hfull in
theorem Layout.Owns.single : blk 12 = 0 ∨ L.Data (blk 12) := by
  by_cases h : blk 12 = 0
  · exact .inl h
  · exact .inr (hown _ (branch_subset_owned (mem_branch_self h)))

omit hfull in
theorem Layout.Owns.double : blk 13 = 0 ∨ L.Data (blk 13) := by
  by_cases h : blk 13 = 0
  · exact .inl h
  · exact .inr (hown _ (branches_subset_owned (mem_branches_self h)))

theorem Layout.Owns.indirect (hk : k < fs.per) :
    v.indirect (blk 13) k = 0 ∨ L.Data (v.indirect (blk 13) k) := by
  by_cases h : v.indirect (blk 13) k = 0
  · exact .inl h
  rcases Layout.Owns.double hown with h13 | h13
  · simp [h13] at h
  · exact .inr (hown _ (branches_subset_owned
      (branch_subset_branches (hfull.data _ h13) hk (mem_branch_self h))))

theorem ptr_mem_tail (h12 : 12 ≤ i) (hi : i < fs.cap) (h0 : v.ptr fs blk i ≠ 0) :
    v.ptr fs blk i ∈ v.tail blk := by
  unfold ptr at h0 ⊢
  rw [if_neg (by omega)] at h0 ⊢
  split_ifs at h0 ⊢ with hper
  · rcases Layout.Owns.single hown with h | h
    · simp [h] at h0
    · exact branch_subset_tail (mem_branch_of_indirect (hfull.data _ h) (by omega) h0)
  · have hpos : 0 < fs.per := Nat.pos_of_ne_zero fun h => by
      simp [h, cap] at hi
      omega
    have hj : (i - (12 + fs.per)) / fs.per < fs.per := Nat.div_lt_of_lt_mul (by
      unfold cap at hi
      omega)
    rcases Layout.Owns.indirect hfull hown hj with h | h
    · simp [h] at h0
    · refine branches_subset_tail ?_
      rcases Layout.Owns.double hown with h13 | h13
      · simp [h13] at h0
      · exact branch_subset_branches (hfull.data _ h13) hj
          (mem_branch_of_indirect (hfull.data _ h) (Nat.mod_lt _ hpos) h0)

omit hfull hown in
theorem ptr_direct (hi : i < 12) : v.ptr fs blk i = blk i := if_pos hi

theorem ptr_mem_owned (hi : i < fs.cap) (h0 : v.ptr fs blk i ≠ 0) :
    v.ptr fs blk i ∈ v.owned blk := by
  by_cases h12 : i < 12
  · rw [ptr_direct h12] at h0 ⊢
    exact mem_owned_of_direct h12 h0
  · exact tail_subset_owned (ptr_mem_tail hfull hown (by omega) hi h0)

theorem length_owned_le :
    (v.owned blk).length ≤ 12 + (fs.per + 1) + (fs.per * (fs.per + 1) + 1) := by
  have hbr : ∀ b, b = 0 ∨ L.Data b → (v.branch b).length ≤ fs.per + 1 := by
    rintro b (rfl | hb)
    · simp [Vol.branch]
    · have hlen : (ptrs (v.data b)).length = fs.per := by simp [ptrs, hfull.data b hb, per]
      rw [Vol.branch, if_neg hb.ne_zero, length_append, length_singleton]
      have := length_filter_le (· ≠ 0) (ptrs (v.data b))
      omega
  have hdirects : (directs blk).length ≤ 12 := by
    simpa [directs] using length_filter_le (· ≠ 0) ((List.range 12).map blk)
  have hbranches : (v.branches (blk 13)).length ≤ fs.per * (fs.per + 1) + 1 := by
    rcases Layout.Owns.double hown with h13 | h13
    · simp [h13, Vol.branches]
    · have hlen : (ptrs (v.data (blk 13))).length = fs.per := by simp [ptrs, hfull.data _ h13, per]
      rw [Vol.branches, if_neg h13.ne_zero, length_append, length_singleton, length_flatMap]
      have hsum := sum_le_card_nsmul ((ptrs (v.data (blk 13))).map fun b => (v.branch b).length)
        (fs.per + 1) ?_
      · rw [length_map, hlen, nsmul_eq_mul, cast_id] at hsum
        omega
      · simp only [mem_map, forall_exists_index, and_imp, forall_apply_eq_imp_iff₂]
        intro b hb
        obtain ⟨k, hk, rfl⟩ := (mem_ptrs (hfull.data _ h13)).1 hb
        have h := Layout.Owns.indirect hfull hown hk
        rw [Vol.indirect, if_neg h13.ne_zero] at h
        exact hbr _ h
  have h12 := hbr (blk 12) (Layout.Owns.single hown)
  rw [Vol.owned, Vol.tail, length_append, length_append]
  omega

theorem count_owned_le : (v.owned blk).length * (fs.blockSize / 512) ≤ 8800000 := by
  have hle := length_owned_le hfull hown
  have hbs := L.blockSize_eq
  have hper : fs.per ≤ 1024 := by
    have := four_mul_per L
    omega
  have hmul : fs.per * (fs.per + 1) ≤ 1024 * 1025 := Nat.mul_le_mul hper (by omega)
  exact Nat.mul_le_mul (show (v.owned blk).length ≤ 1100000 by omega)
    (show fs.blockSize / 512 ≤ 8 by omega)

end

/-- The disk shows the blocks `S` of the volume. -/
def Vol.Shown (fs : Ext2) (v : Vol) (d : Disk) (S : Nat → Prop) : Prop :=
  ∀ n, S n → readRange d (n * fs.blockSize) fs.blockSize = v.data n

theorem Layout.Glimpse.shown (h : L.Glimpse d v) : v.Shown fs d L.Data := fun n hn => by
  simpa [Ext2.block, diskRange_run] using h.block hn

variable {S : Nat → Prop} {node : Inode}

theorem Vol.Shown.block (h : v.Shown fs d S) (hn : S n) :
    fs.block n d = ⟨.ok (v.data n), d, []⟩ := by
  rw [Ext2.block, diskRange_run, h n hn]

theorem Vol.Shown.length_data (h : v.Shown fs d S) (hn : S n) :
    (v.data n).length = fs.blockSize := by
  rw [← h n hn, length_readRange]

section BlockMap

variable (h : v.Shown fs d S)
include h

theorem single_run {bn : Nat} (hbn : bn = 0 ∨ S bn) (out : List Nat) : fs.single n bn out d =
      ⟨.ok (out ++ (List.range (min fs.per (n - out.length))).map (v.indirect bn)), d, []⟩ := by
  rw [single]
  split_ifs with hfull hzero
  · rw [pure_run, Nat.sub_eq_zero_of_le hfull]
    simp
  · have hholes : (List.range (min fs.per (n - out.length))).map (v.indirect 0) =
        List.replicate (min fs.per (n - out.length)) 0 :=
      eq_replicate_iff.2 ⟨by simp, fun b hb => by
        obtain ⟨k, -, rfl⟩ := mem_map.1 hb
        exact v.indirect_zero k⟩
    rw [pure_run, hzero, hholes, per]
  · have hdata := hbn.resolve_left hzero
    have htake : (ptrs (v.data bn)).take (min (fs.blockSize / 4) (n - out.length)) =
        (List.range (min fs.per (n - out.length))).map (v.indirect bn) := by
      rw [ptrs, h.length_data hdata, ← map_take, take_range, per, min_eq_left (min_le_left ..)]
      exact map_congr_left fun k _ => by rw [indirect, if_neg hzero]
    rw [bind_of_read (h.block hdata), pure_run, htake]

/-- The blocks of the pointers in a double-indirect block, one after the other. -/
def Vol.spread (fs : Ext2) (v : Vol) (bns : List Nat) (i : Nat) : Nat :=
  v.indirect (bns.getD (i / fs.per) 0) (i % fs.per)

theorem singles_run (hpos : 0 < fs.per) (bns : List Nat) (hbns : ∀ b ∈ bns, b = 0 ∨ S b)
    (out : List Nat) : fs.singles n bns out d =
      ⟨.ok (out ++ (List.range (min (bns.length * fs.per) (n - out.length))).map (v.spread fs bns)),
        d, []⟩ := by
  induction bns generalizing out with
  | nil =>
    rw [singles, pure_run]
    simp
  | cons b bns ih =>
    rw [singles]
    split_ifs with hfull
    · rw [pure_run, Nat.sub_eq_zero_of_le hfull]
      simp
    rw [bind_of_read (single_run h (hbns b mem_cons_self) out),
      ih fun b' hb' => hbns b' (mem_cons_of_mem _ hb')]
    simp only [length_append, length_map, length_range, append_assoc, length_cons]
    -- the rest of the list starts where the first pointer's blocks end
    have hsplit : min ((bns.length + 1) * fs.per) (n - out.length) = min fs.per (n - out.length) +
        min (bns.length * fs.per) (n - (out.length + min fs.per (n - out.length))) := by
      rw [add_mul]
      omega
    rw [hsplit, range_add, map_append, map_map]
    congr 4
    · refine map_congr_left fun i hi => ?_
      rw [mem_range] at hi
      rw [spread, Nat.div_eq_of_lt (by omega), Nat.mod_eq_of_lt (by omega)]
      rfl
    · by_cases hlt : n - out.length < fs.per
      · rw [show n - (out.length + min fs.per (n - out.length)) = 0 by omega]
        simp
      · refine map_congr_left fun i _ => ?_
        rw [min_eq_left (by omega)]
        simp only [Function.comp, spread, Nat.add_div_left i hpos, Nat.add_mod_left]
        rfl

section

variable (blk : Nat → Nat)

omit h in
theorem map_ptr_direct {a : Nat} (ha : a ≤ 12) :
    (List.range a).map (v.ptr fs blk) = (List.range a).map blk := by
  refine map_congr_left fun i hi => ?_
  rw [mem_range] at hi
  rw [ptr, if_pos (by omega)]

omit h in
theorem map_ptr_single {a : Nat} (ha : a ≤ fs.per) : (List.range (12 + a)).map (v.ptr fs blk) =
      (List.range 12).map blk ++ (List.range a).map (v.indirect (blk 12)) := by
  rw [range_add, map_append, map_ptr_direct blk le_rfl, map_map]
  congr 1
  refine map_congr_left fun i hi => ?_
  rw [mem_range] at hi
  rw [Function.comp, ptr, if_neg (by omega), if_pos (by omega), Nat.add_sub_cancel_left]

omit h in
theorem map_ptr_double (a : Nat) : (List.range (12 + fs.per + a)).map (v.ptr fs blk) =
      (List.range 12).map blk ++ (List.range fs.per).map (v.indirect (blk 12)) ++
        (List.range a).map fun i => v.indirect (v.indirect (blk 13) (i / fs.per)) (i % fs.per) := by
  rw [range_add, map_append, map_ptr_single blk le_rfl, map_map]
  congr 1
  refine map_congr_left fun i _ => ?_
  rw [Function.comp, ptr, if_neg (by omega), if_neg (by omega), Nat.add_sub_cancel_left]

end

theorem blockMap_run (hpos : 0 < fs.per) (hsingle : node.block 12 = 0 ∨ S (node.block 12))
    (hdouble : node.block 13 = 0 ∨ S (node.block 13))
    (hind : ∀ k < fs.per, v.indirect (node.block 13) k = 0 ∨ S (v.indirect (node.block 13) k)) :
    fs.blockMap node d = ⟨.ok (v.map fs node), d, []⟩ := by
  rw [blockMap, Vol.map]
  generalize fs.mapLen node.size = n
  by_cases hn : n ≤ 12
  · rw [if_neg (by omega), bind_of_read (pure_run ..)]
    beta_reduce
    rw [if_pos (by simp; omega), pure_run, Nat.min_eq_right hn,
      Nat.min_eq_left (by unfold cap; omega), map_ptr_direct node.block hn]
  rw [if_pos (by omega), Nat.min_eq_left (by omega : 12 ≤ n), bind_of_read (single_run h hsingle _)]
  simp only [length_append, length_map, length_range]
  by_cases hn' : n ≤ 12 + fs.per
  · rw [if_pos (by omega), pure_run, Nat.min_eq_right (by omega : n - 12 ≤ fs.per),
      Nat.min_eq_left (by unfold cap; omega), ← map_ptr_single node.block
        (show n - 12 ≤ fs.per by omega), Nat.add_sub_cancel' (by omega)]
  rw [if_neg (by omega), Nat.min_eq_left (by omega : fs.per ≤ n - 12)]
  have hmin : min n fs.cap = 12 + fs.per + min (fs.per * fs.per) (n - (12 + fs.per)) := by
    unfold cap
    omega
  -- both arms walk over the pointers of the double-indirect block
  have hwalk : ∀ bns : List Nat, bns.length = fs.per →
      (∀ j, j < fs.per → bns.getD j 0 = v.indirect (node.block 13) j) →
      fs.singles n bns ((List.range 12).map node.block ++
        (List.range fs.per).map (v.indirect (node.block 12))) d =
        ⟨.ok ((List.range (min n fs.cap)).map (v.ptr fs node.block)), d, []⟩ := by
    intro bns hlen hget
    rw [singles_run h hpos bns]
    · rw [hmin, map_ptr_double, hlen]
      simp only [length_append, length_map, length_range]
      congr 3
      refine map_congr_left fun i hi => ?_
      rw [mem_range] at hi
      rw [Vol.spread, hget _ (Nat.div_lt_of_lt_mul (by omega))]
    · intro b hb
      obtain ⟨j, hj, rfl⟩ := getElem_of_mem hb
      have hj' : bns[j] = v.indirect (node.block 13) j := by
        rw [← hget j (by omega), getD_eq_getElem _ _ hj]
      rw [hj']
      exact hind j (by omega)
  split_ifs with h13
  · refine hwalk _ (by simp [per]) fun j hj => ?_
    rw [h13, Vol.indirect_zero, getD_eq_getElem?_getD, getElem?_replicate]
    split_ifs <;> rfl
  · have hdata := hdouble.resolve_left h13
    rw [bind_of_read (h.block hdata)]
    have hlen := h.length_data hdata
    refine hwalk _ (by simp [ptrs, hlen, per]) fun j hj => ?_
    rw [getD_eq_getElem _ _ (by simpa [ptrs, hlen, per] using hj)]
    simp [ptrs, Vol.indirect, h13]

end BlockMap

/-! ## Reading a file -/

/-- The blocks of a disk, as a volume without books. -/
def rawVol (fs : Ext2) (d : Disk) : Vol where
  used := ∅
  inodes := ∅
  dirs := ∅
  inode _ := []
  data n := readRange d (n * fs.blockSize) fs.blockSize
  synced := true

/-- The block that is read for the number `c` of the list when the last one read was `r`: a run is
one read, and the comparison in `u32` takes 0 for the successor of `0xFFFFFFFF`. -/
def follow (r c : Nat) : Nat := if r ≠ 0 ∧ c = (r + 1) % 2 ^ 32 then r + 1 else c

/-- The blocks that are read for a list of block numbers. -/
def readAs (r : Nat) : List Nat → List Nat
  | [] => []
  | c :: cs => follow r c :: readAs (follow r c) cs

@[simp]
theorem follow_zero (c : Nat) : follow 0 c = c := if_neg (by simp)

@[simp]
theorem length_readAs (r : Nat) (bs : List Nat) : (readAs r bs).length = bs.length := by
  induction bs generalizing r with
  | nil => rfl
  | cons c cs ih => rw [readAs, length_cons, ih, length_cons]

theorem readAs_holes (bs : List Nat) : readAs 0 bs = bs.takeWhile (· == 0) ++
      readAs 0 (bs.drop (bs.takeWhile (· == 0)).length) := by
  induction bs with
  | nil => rfl
  | cons c cs ih =>
    by_cases hc : c = 0
    · subst hc
      rw [takeWhile_cons_of_pos rfl, readAs, follow_zero, length_cons, drop_succ_cons, cons_append,
        ← ih]
    · rw [takeWhile_cons_of_neg (by simpa using hc)]
      rfl

theorem readAs_run {r : Nat} (hr : r ≠ 0) (bs : List Nat) : readAs r bs =
      range' (r + 1) (runLen (r % 2 ^ 32) bs) ++ readAs 0 (bs.drop (runLen (r % 2 ^ 32) bs)) := by
  induction bs generalizing r with
  | nil => rfl
  | cons c cs ih =>
    rw [runLen, Nat.mod_add_mod, readAs]
    split_ifs with hc
    · rw [follow, if_pos ⟨hr, hc⟩, ih (succ_ne_zero r), range'_succ, drop_succ_cons, ← hc]
      rfl
    · rw [follow, if_neg fun h => hc h.2]
      simp [readAs]

theorem readRange_run {b : Nat} (hb : b ≠ 0) (n : Nat) :
    readRange d (b * fs.blockSize) (n * fs.blockSize) =
      (range' b n).flatMap ((rawVol fs d).blockAt fs) := by
  induction n generalizing b with
  | zero => simp [readRange]
  | succ n ih =>
    rw [add_mul, one_mul, add_comm, readRange_append, range'_succ, flatMap_cons, ← ih (by omega),
      blockAt, if_neg hb, rawVol, add_mul b, one_mul]

theorem flatMap_holes (bs : List Nat) : (bs.takeWhile (· == 0)).flatMap (v.blockAt fs) =
      List.replicate ((bs.takeWhile (· == 0)).length * fs.blockSize) 0 := by
  induction bs with
  | nil => simp
  | cons b bs ih =>
    by_cases hb : b = 0
    · rw [takeWhile_cons_of_pos (by simpa using hb), flatMap_cons, ih, length_cons,
        add_mul, one_mul, hb, blockAt, if_pos rfl, ← replicate_add, add_comm]
    · rw [takeWhile_cons_of_neg (by simpa using hb)]
      simp

theorem readRuns_run (fuel : Nat) (bs : List Nat) (hbs : ∀ b ∈ bs, b < 2 ^ 32)
    (hfuel : bs.length ≤ fuel) (out : Bytes) : fs.readRuns fuel bs out d =
      ⟨.ok (out ++ (readAs 0 bs).flatMap ((rawVol fs d).blockAt fs)), d, []⟩ := by
  induction fuel generalizing bs out with
  | zero =>
    obtain rfl := length_eq_zero_iff.1 (le_zero.1 hfuel)
    rw [readRuns, pure_run]
    simp [readAs]
  | succ fuel ih =>
    cases bs with
    | nil =>
      rw [readRuns, pure_run]
      simp [readAs]
    | cons b bs =>
      rw [length_cons] at hfuel
      have hrest : ∀ k, ∀ c ∈ bs.drop k, c < 2 ^ 32 := fun k c hc =>
        hbs c (mem_cons_of_mem _ (mem_of_mem_drop hc))
      rw [readRuns, readAs, follow_zero]
      split_ifs with hb
      · rw [ih _ (hrest _) (by rw [length_drop]; omega), hb, readAs_holes bs, flatMap_cons,
          flatMap_append, flatMap_holes, blockAt, if_pos rfl, add_mul, one_mul, add_comm,
          replicate_add]
        simp only [append_assoc]
      · have hrun := readAs_run hb bs
        rw [Nat.mod_eq_of_lt (hbs b mem_cons_self)] at hrun
        rw [bind_of_read (diskRange_run ..), ih _ (hrest _) (by rw [length_drop]; omega),
          readRange_run hb, range'_succ, hrun, append_assoc, ← flatMap_append, cons_append]

theorem readAs_of_lt {bs : List Nat} (h : ∀ b ∈ bs, b + 1 < 2 ^ 32) {r : Nat}
    (hr : r + 1 < 2 ^ 32) : readAs r bs = bs := by
  induction bs generalizing r with
  | nil => rfl
  | cons c cs ih =>
    obtain ⟨hc, hcs⟩ := forall_mem_cons.1 h
    have hnext : follow r c = c := by
      rw [follow, mod_eq_of_lt hr]
      split_ifs with hrun
      · exact hrun.2.symm
      · rfl
    rw [readAs, hnext, ih hcs hc]

theorem map_zero_or_data (h : L.Full v) (hown : L.Owns v node.block) :
    ∀ b ∈ v.map fs node, b = 0 ∨ L.Data b := by
  intro b hb
  obtain ⟨i, hi, rfl⟩ := mem_map.1 hb
  rw [mem_range] at hi
  by_cases h0 : v.ptr fs node.block i = 0
  · exact .inl h0
  · exact .inr (hown _ (ptr_mem_owned h hown (by omega) h0))

theorem readFile_run (h : L.Glimpse d v) (hown : L.Owns v node.block) :
    fs.readFile node d = ⟨.ok (v.content fs node), d, []⟩ := by
  have hmap := map_zero_or_data h.full hown
  have hlt : ∀ b ∈ v.map fs node, b + 1 < 2 ^ 32 := fun b hb => by
    have hcount := L.blockCount_lt
    rcases hmap b hb with rfl | hdata
    · decide
    · have := hdata.2.1
      omega
  have hblock : ∀ b ∈ v.map fs node, (rawVol fs d).blockAt fs b = v.blockAt fs b := by
    intro b hb
    rw [blockAt, blockAt]
    split_ifs with h0
    · rfl
    · exact h.shown b ((hmap b hb).resolve_left h0)
  rw [readFile, bind_of_read (blockMap_run h.shown (per_pos L) (Layout.Owns.single hown)
      (Layout.Owns.double hown) fun k hk => Layout.Owns.indirect h.full hown hk),
    bind_of_read (readRuns_run _ _ (fun b hb => (lt_succ_self b).trans (hlt b hb)) le_rfl []),
    pure_run, nil_append, readAs_of_lt hlt (by decide), flatMap_congr hblock, content]

/-! ## Every disk

The same without a layout: whatever the disk holds and wherever the pointers lead. -/

/-- Byte `k` of a file, in the block that the pointers assign to it; a hole is zeros. -/
def fileByte (fs : Ext2) (d : Disk) (node : Inode) (k : Nat) : UInt8 :=
  let b := (rawVol fs d).ptr fs node.block (k / fs.blockSize)
  if b = 0 then 0 else d (b * fs.blockSize + k % fs.blockSize)

theorem length_blockAt_rawVol (b : Nat) : ((rawVol fs d).blockAt fs b).length = fs.blockSize := by
  unfold blockAt
  split_ifs <;> simp [rawVol]

theorem ptr_rawVol_lt (hnode : ∀ i, node.block i < 2 ^ 32) (i : Nat) :
    (rawVol fs d).ptr fs node.block i < 2 ^ 32 := by
  have hind : ∀ b k, (rawVol fs d).indirect b k < 2 ^ 32 := by
    intro b k
    unfold indirect
    split_ifs
    · decide
    · exact le32_lt ..
  unfold ptr
  split_ifs
  · exact hnode i
  · exact hind ..
  · exact hind ..

/-- Byte `k` of a file whose block for it is `b`. -/
def blockByte (fs : Ext2) (d : Disk) (b k : Nat) : UInt8 :=
  if b = 0 then 0 else d (b * fs.blockSize + k % fs.blockSize)

/-- Entry `i` of a block list is read in a run that has left the range of `u32`: an entry before it
is `0xFFFFFFFF`, and from there on the entries count up from 0. -/
def Wrapped (ptr : Nat → Nat) (i : Nat) : Prop :=
  ∃ j < i, ptr j = 2 ^ 32 - 1 ∧ ∀ m, j < m → m ≤ i → ptr m = m - j - 1

theorem getD_readAs_succ (r : Nat) {bs : List Nat} {i : Nat} (hi : i + 1 < bs.length) :
    (readAs r bs).getD (i + 1) 0 = follow ((readAs r bs).getD i 0) (bs.getD (i + 1) 0) := by
  induction bs generalizing r i with
  | nil => cases hi
  | cons c cs ih =>
    cases i with
    | zero =>
      obtain ⟨c', cs', rfl⟩ := exists_cons_of_length_pos (lt_of_succ_lt_succ hi)
      rfl
    | succ i => exact ih _ (lt_of_succ_lt_succ hi)

theorem getD_readAs {ptr : Nat → Nat} (hptr : ∀ i, ptr i < 2 ^ 32) {n : Nat} (hn : n ≤ 2 ^ 32)
    {i : Nat} (hi : i < n) : let r := (readAs 0 ((List.range n).map ptr)).getD i 0
      Wrapped ptr i ∧ r = 2 ^ 32 + ptr i ∨ ¬ Wrapped ptr i ∧ r = ptr i := by
  have hget : ∀ i < n, ((List.range n).map ptr).getD i 0 = ptr i := fun i hi => by
    simp [getD_eq_getElem?_getD, hi]
  induction i with
  | zero =>
    refine .inr ⟨fun ⟨j, hj, _⟩ => absurd hj (not_lt_zero j), ?_⟩
    cases n with
    | zero => cases hi
    | succ n => simp [range_succ_eq_map, readAs]
  | succ i ih =>
    have hlt := hptr (i + 1)
    dsimp only
    rw [getD_readAs_succ 0 (by simpa using hi), hget _ hi, follow]
    rcases ih (by omega) with ⟨⟨j, hj, hlast, hcount⟩, hr⟩ | ⟨hnot, hr⟩
    · -- the run goes on, or it ends here
      have hi' := hcount i hj le_rfl
      rw [hr]
      by_cases hnext : ptr (i + 1) = i - j
      · refine .inl ⟨⟨j, by omega, hlast, fun m hjm hm => ?_⟩, ?_⟩
        · rcases Nat.lt_or_ge i m with him | him
          · obtain rfl : m = i + 1 := by omega
            omega
          · exact hcount m hjm him
        · rw [if_pos ⟨by omega, by omega⟩]
          omega
      · refine .inr ⟨?_, if_neg (by omega)⟩
        rintro ⟨j', hj', hlast', hcount'⟩
        rcases Nat.lt_or_ge j' i with hlt' | hge
        · have := hcount' i hlt' (by omega)
          have := hcount' (i + 1) (by omega) le_rfl
          omega
        · obtain rfl : j' = i := by omega
          omega
    · rw [hr]
      by_cases hwrap : ptr i = 2 ^ 32 - 1 ∧ ptr (i + 1) = 0
      · refine .inl ⟨⟨i, by omega, hwrap.1, fun m him hm => ?_⟩, ?_⟩
        · obtain rfl : m = i + 1 := by omega
          omega
        · rw [if_pos ⟨by omega, by omega⟩]
          omega
      · refine .inr ⟨?_, ?_⟩
        · rintro ⟨j, hj, hlast, hcount⟩
          rcases Nat.lt_or_ge j i with hlt' | hge
          · exact hnot ⟨j, hlt', hlast, fun m hjm hm => hcount m hjm (by omega)⟩
          · obtain rfl : j = i := by omega
            exact hwrap ⟨hlast, by simpa using hcount (j + 1) (by omega) le_rfl⟩
        · have := hptr i
          split_ifs with hnext
          · omega
          · rfl

theorem div_lt_mapLen (hbs : 4 ≤ fs.blockSize) {k size : Nat} (hk : k < size) :
    k / fs.blockSize < fs.mapLen size := by
  refine lt_of_lt_of_le ?_ (le_max_right ..)
  refine (lt_div_iff_mul_lt (by omega)).2 ?_
  have := div_mul_le_self k fs.blockSize
  omega

theorem readFile_eq_readAs (hbs : 4 ≤ fs.blockSize) (d : Disk) (node : Inode)
    (hnode : ∀ i, node.block i < 2 ^ 32) (hsize : node.size ≤ fs.cap * fs.blockSize) :
    fs.readFile node d = ⟨.ok ((List.range node.size).map fun k => fs.blockByte d ((readAs 0
      ((List.range (fs.mapLen node.size)).map ((rawVol fs d).ptr fs node.block))).getD
        (k / fs.blockSize) 0) k), d, []⟩ := by
  have hshown : (rawVol fs d).Shown fs d fun _ => True := fun _ _ => rfl
  have hcap : fs.mapLen node.size ≤ fs.cap := by
    refine max_le (by unfold cap; omega) ?_
    exact le_of_lt_succ ((div_lt_iff_lt_mul (by omega)).2 (by rw [succ_mul]; omega))
  have hlt : ∀ b ∈ (rawVol fs d).map fs node, b < 2 ^ 32 := by
    intro b hb
    obtain ⟨i, -, rfl⟩ := mem_map.1 hb
    exact ptr_rawVol_lt hnode i
  rw [readFile, bind_of_read (blockMap_run hshown (by unfold per; omega) (.inr trivial)
      (.inr trivial) fun _ _ => .inr trivial), bind_of_read (readRuns_run _ _ hlt le_rfl []),
    pure_run, nil_append, Vol.map, min_eq_left hcap]
  generalize hnums : readAs 0 ((List.range (fs.mapLen node.size)).map _) = nums
  have hlen : nums.length = fs.mapLen node.size := by rw [← hnums]; simp
  have hlist : nums = (List.range (fs.mapLen node.size)).map fun i => nums.getD i 0 := by
    refine ext_getElem (by simpa using hlen) fun i hi _ => ?_
    rw [getElem_map, getElem_range, getD_eq_getElem _ _ hi]
  congr 2
  refine ext_getElem? fun k => ?_
  by_cases hk : k < node.size
  · have hblock := (div_lt_iff_lt_mul (by omega)).1 (div_lt_mapLen hbs hk)
    rw [getElem?_take_of_lt hk, hlist, flatMap_map,
      getElem?_flatMap_range (fun i _ => length_blockAt_rawVol _) hblock, getElem?_map,
      getElem?_range hk, ← hlist]
    have hmod : k % fs.blockSize < fs.blockSize := mod_lt _ (by omega)
    simp only [Option.map_some, blockByte, Vol.blockAt]
    split_ifs
    · rw [getElem?_replicate, if_pos hmod]
    · rw [rawVol, getElem?_readRange, if_pos hmod]
  · rw [getElem?_take, if_neg hk, getElem?_eq_none (by simpa using hk)]

/-- For every disk and every inode with fields of 32 bits that the range of the pointers suffices
for, `read_file` returns the bytes of the file one by one if and only if the disk happens to hold
them wherever a run has left the range of `u32`. -/
theorem readFile_eq_blocks_iff (hbs : 4 ≤ fs.blockSize) (d : Disk) (node : Inode)
    (hnode : ∀ i, node.block i < 2 ^ 32) (hsize : node.size ≤ fs.cap * fs.blockSize)
    (hfield : node.size < 2 ^ 32) :
    fs.readFile node d = ⟨.ok ((List.range node.size).map (fs.fileByte d node)), d, []⟩ ↔
      ∀ k < node.size, Wrapped ((rawVol fs d).ptr fs node.block) (k / fs.blockSize) →
        d ((2 ^ 32 + (rawVol fs d).ptr fs node.block (k / fs.blockSize)) * fs.blockSize +
          k % fs.blockSize) = fs.fileByte d node k := by
  have hlen : fs.mapLen node.size ≤ 2 ^ 32 := by
    refine max_le (by decide) ?_
    exact le_of_lt_succ ((div_lt_iff_lt_mul (by omega)).2 (by omega))
  rw [readFile_eq_readAs hbs d node hnode hsize]
  simp only [Result.mk.injEq, Except.ok.injEq, and_true, map_inj_left, mem_range]
  refine forall₂_congr fun k hk => ?_
  have hptr : ∀ i, (rawVol fs d).ptr fs node.block i < 2 ^ 32 := ptr_rawVol_lt hnode
  have hnum := getD_readAs hptr hlen (div_lt_mapLen hbs hk)
  rcases hnum with ⟨hwrap, hnum⟩ | ⟨hwrap, hnum⟩
  · rw [hnum, blockByte, if_neg (by omega), imp_iff_right hwrap]
  · rw [hnum]
    exact iff_of_true rfl fun h => absurd h hwrap

/-- A mounted file system with blocks of 1024 bytes. -/
def smallBlocks : Ext2 := ⟨1024, 128, 8, 1, 8192, 64, true, false⟩

/-- On a disk full of ones, the hole after block `0xFFFFFFFF` is read as block `2 ^ 32`. -/
theorem readFile_wraps :
    let node : Inode := ⟨0x8000, 1025, fun i => if i = 0 then 0xFFFFFFFF else 0, 0, 0⟩
    (smallBlocks.readFile node fun _ => 1).out = .ok (List.replicate 1025 1) ∧
      smallBlocks.fileByte (fun _ => 1) node 1024 = 0 := by
  decide +kernel

/-- On a disk full of zeros that is the hole. -/
theorem readFile_eq_blocks_iff_zeros :
    let node : Inode := ⟨0x8000, 1025, fun i => if i = 0 then 0xFFFFFFFF else 0, 0, 0⟩
    smallBlocks.readFile node (fun _ => 0) =
      ⟨.ok ((List.range 1025).map (smallBlocks.fileByte (fun _ => 0) node)), fun _ => 0, []⟩ := by
  refine (readFile_eq_blocks_iff (by decide) _ _ (fun i => ?_) (by decide) (by decide)).2
    fun k _ _ => ?_
  · dsimp only
    split_ifs <;> decide
  · simp only [fileByte]
    split_ifs <;> rfl

end Thos.Ext2
