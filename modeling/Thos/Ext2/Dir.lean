import Thos.Ext2.Blocks
import Thos.Ext2.Records

/-!
# Directories

A directory is a file whose blocks are tiled by records. Its entries are those of its
blocks, one after the other; `lookup` finds the first of a name. What an inode's tree of
blocks means depends on the blocks it owns only, so writes elsewhere leave its contents
and its entries alone.
-/

set_option autoImplicit false

namespace Thos.Ext2

open Thos.Lib List Vol

variable {fs : Ext2} {L : Layout fs} {v : Vol} {node : Inode}

/-! ## Shape -/

/-- The number of blocks of a directory. -/
def dirLen (fs : Ext2) (node : Inode) : Nat := node.size / fs.blockSize

/-- The blocks of a directory are there, without holes, and tiled by records. -/
structure DirShape (fs : Ext2) (v : Vol) (node : Inode) : Prop where
  size_eq : node.size = dirLen fs node * fs.blockSize
  pos : 0 < dirLen fs node
  le_cap : dirLen fs node ≤ fs.cap
  direct : ∀ i, i < 12 → (node.block i ≠ 0 ↔ i < dirLen fs node)
  ne_zero : ∀ i, i < dirLen fs node → v.ptr fs node.block i ≠ 0
  block : ∀ i, i < dirLen fs node → DirBlock fs (v.data (v.ptr fs node.block i))

/-- The entries of a directory. -/
def Vol.entries (fs : Ext2) (v : Vol) (node : Inode) : List Entry :=
  (v.map fs node).flatMap fun b => blockEntries (v.data b)

theorem DirShape.map_eq (h : DirShape fs v node) (hbs : 0 < fs.blockSize) :
    v.map fs node = (List.range (dirLen fs node)).map (v.ptr fs node.block) := by
  have hlen : min (fs.mapLen node.size) fs.cap = dirLen fs node := by
    have h1 := h.pos
    have h2 := h.le_cap
    have h3 : (node.size + fs.blockSize - 1) / fs.blockSize = dirLen fs node := by
      rw [h.size_eq]
      refine Nat.div_eq_of_lt_le ?_ ?_
      · omega
      · rw [add_mul]
        omega
    rw [mapLen, h3]
    omega
  rw [Vol.map, hlen]

section

variable (h : DirShape fs v node) (hbs : 0 < fs.blockSize)
include h hbs

theorem DirShape.content_eq : v.content fs node = (v.map fs node).flatMap v.data := by
  have hblks : (v.map fs node).flatMap (v.blockAt fs) = (v.map fs node).flatMap v.data := by
    refine flatMap_congr fun b hb => ?_
    rw [h.map_eq hbs] at hb
    obtain ⟨i, hi, rfl⟩ := mem_map.1 hb
    rw [blockAt, if_neg (h.ne_zero i (mem_range.1 hi))]
  have hlen : ((v.map fs node).flatMap v.data).length = node.size := by
    have hsum : ∀ n, n ≤ dirLen fs node →
        (((List.range n).map (v.ptr fs node.block)).flatMap v.data).length = n * fs.blockSize := by
      intro n hn
      induction n with
      | zero => simp
      | succ n ih =>
        rw [range_succ, map_append, flatMap_append, length_append, ih (by omega),
          map_singleton, flatMap_singleton, (h.block n (by omega)).length, add_mul, one_mul]
    rw [h.map_eq hbs, hsum _ le_rfl, ← h.size_eq]
  rw [content, hblks, take_of_length_le hlen.le]

theorem DirShape.tiled :
    Tiled (v.content fs node) 0 ((v.map fs node).flatMap fun b => dirRecords (v.data b))
      (v.content fs node).length := by
  rw [h.content_eq hbs]
  refine tiled_flatMap v.data _ fun b hb => ?_
  rw [h.map_eq hbs] at hb
  obtain ⟨i, hi, rfl⟩ := mem_map.1 hb
  exact (h.block i (mem_range.1 hi)).tiled

omit h hbs in
theorem entriesOf_flatMap (bs : List Nat) : entriesOf (bs.flatMap fun b => dirRecords (v.data b)) =
      bs.flatMap fun b => blockEntries (v.data b) := by
  induction bs with
  | nil => rfl
  | cons b bs ih => rw [flatMap_cons, flatMap_cons, entriesOf_append, ih, blockEntries]

/-- The inode that the first entry of a name stands for. -/
def Vol.find (fs : Ext2) (v : Vol) (node : Inode) (name : Bytes) : Option Nat :=
  ((v.entries fs node).find? fun e => e.name = name).map Entry.ino

theorem DirShape.findEntry (name : Bytes) :
    findEntry (v.content fs node) name ((v.content fs node).length + 1) 0 =
    v.find fs node name := by
  have hlen := (h.tiled hbs).length_le
  rw [findEntry_eq (h.tiled hbs) (by omega), entriesOf_flatMap]
  rfl

end

/-! ## Writes elsewhere -/

section

variable {v' : Vol} {blk : Nat → Nat} (hsame : ∀ b ∈ v.tail blk, v'.data b = v.data b)
include hsame

theorem branch_frame {b : Nat} (hb : b ≠ 0 → b ∈ v.tail blk) : v'.branch b = v.branch b := by
  by_cases h0 : b = 0
  · simp [h0]
  · rw [branch, branch, hsame b (hb h0)]

theorem tail_frame : v'.tail blk = v.tail blk := by
  have h12 : v'.branch (blk 12) = v.branch (blk 12) :=
    branch_frame hsame fun h0 => branch_subset_tail (mem_branch_self h0)
  have h13 : v'.branches (blk 13) = v.branches (blk 13) := by
    by_cases h0 : blk 13 = 0
    · simp [h0]
    · have hself : blk 13 ∈ v.tail blk := branches_subset_tail (mem_branches_self h0)
      rw [Vol.branches, Vol.branches, if_neg h0, if_neg h0, hsame _ hself]
      congr 1
      refine flatMap_congr fun b hb => branch_frame hsame fun hb0 => branches_subset_tail ?_
      rw [Vol.branches, if_neg h0]
      exact mem_append_left _ (mem_flatMap.2 ⟨b, hb, mem_branch_self hb0⟩)
  rw [Vol.tail, Vol.tail, h12, h13]

theorem owned_frame : v'.owned blk = v.owned blk := by
  rw [owned, owned, tail_frame hsame]

theorem indirect_frame {b : Nat} (hb : b ≠ 0 → b ∈ v.tail blk) (k : Nat) :
    v'.indirect b k = v.indirect b k := by
  by_cases h0 : b = 0
  · simp [h0]
  · rw [indirect, indirect, hsame b (hb h0)]

theorem ptr_frame (hfull : L.Full v) (hown : L.Owns v blk) {i : Nat} (hi : i < fs.cap) :
    v'.ptr fs blk i = v.ptr fs blk i := by
  unfold ptr
  split_ifs with h12 hper
  · rfl
  · exact indirect_frame hsame (fun h0 => branch_subset_tail (mem_branch_self h0)) _
  · have hj : (i - (12 + fs.per)) / fs.per < fs.per := Nat.div_lt_of_lt_mul (by
      unfold cap at hi
      omega)
    rw [indirect_frame hsame fun h0 => branches_subset_tail (mem_branches_self h0)]
    refine indirect_frame hsame (fun h0 => ?_) _
    rcases Layout.Owns.double hown with h13 | h13
    · simp [h13] at h0
    · exact branches_subset_tail (branch_subset_branches (hfull.data _ h13) hj (mem_branch_self h0))

theorem map_frame (hfull : L.Full v) {node : Inode} (hblk : node.block = blk)
    (hown : L.Owns v blk) : v'.map fs node = v.map fs node := by
  subst hblk
  refine map_congr_left fun i hi => ?_
  rw [mem_range] at hi
  exact ptr_frame hsame hfull hown (by omega)

end

variable {v' : Vol} (hfull : L.Full v) (hown : L.Owns v node.block)
  (hsame : ∀ b ∈ v.owned node.block, v'.data b = v.data b)
include hfull hown hsame

omit hsame in
theorem mem_owned_of_mem_map {b : Nat} (hb : b ∈ v.map fs node) (h0 : b ≠ 0) :
    b ∈ v.owned node.block := by
  obtain ⟨i, hi, rfl⟩ := mem_map.1 hb
  rw [mem_range] at hi
  exact ptr_mem_owned hfull hown (by omega) h0

theorem content_frame : v'.content fs node = v.content fs node := by
  rw [content, content, map_frame (fun b hb => hsame b (tail_subset_owned hb)) hfull rfl hown]
  congr 1
  refine flatMap_congr fun b hb => ?_
  by_cases h0 : b = 0
  · simp [blockAt, h0]
  · rw [blockAt, blockAt, hsame b (mem_owned_of_mem_map hfull hown hb h0)]

theorem DirShape.frame (h : DirShape fs v node) : DirShape fs v' node where
  __ := h
  ne_zero i hi := by
    rw [ptr_frame (fun b hb => hsame b (tail_subset_owned hb)) hfull hown
      (by have := h.le_cap; omega)]
    exact h.ne_zero i hi
  block i hi := by
    have hcap : i < fs.cap := by
      have := h.le_cap
      omega
    rw [ptr_frame (fun b hb => hsame b (tail_subset_owned hb)) hfull hown hcap,
      hsame _ (ptr_mem_owned hfull hown hcap (h.ne_zero i hi))]
    exact h.block i hi

theorem entries_frame (h : DirShape fs v node) : v'.entries fs node = v.entries fs node := by
  rw [entries, entries, map_frame (fun b hb => hsame b (tail_subset_owned hb)) hfull rfl hown]
  refine flatMap_congr fun b hb => ?_
  have h0 : b ≠ 0 := by
    rw [h.map_eq L.blockSize_pos] at hb
    obtain ⟨i, hi, rfl⟩ := mem_map.1 hb
    exact h.ne_zero i (mem_range.1 hi)
  rw [hsame b (mem_owned_of_mem_map hfull hown hb h0)]

end Thos.Ext2
