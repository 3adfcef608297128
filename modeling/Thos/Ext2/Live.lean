import Thos.Ext2.Dir
import Thos.Ext2.Inode
import Thos.Lib.Ledger

/-!
# Live inodes

What holds of a volume between the calls of the driver, and also in the middle of one: the
live inodes are sound, and the ledger of data blocks balances, with the blocks that are on
their way into or out of an inode booked as loose. Every step of a call is one of a few
moves of this invariant: blocks are taken or given back, and an inode dies or comes alive.
-/

set_option autoImplicit false

namespace Thos.Ext2

open Thos.Lib Finset

variable {fs : Ext2} {L : Layout fs} {v v' : Vol}

/-- The fields of an inode. -/
def Vol.node (v : Vol) (i : Nat) : Inode := decodeInode (v.inode i)

/-- The blocks that an inode owns. -/
def Vol.blocks (v : Vol) (i : Nat) : List Nat := v.owned (v.node i).block

/-! ## Inodes that a step leaves alone -/

/-- The inode and its blocks are the same in both volumes. -/
structure Same (v v' : Vol) (i : Nat) : Prop where
  inode : v'.inode i = v.inode i
  data : ∀ b ∈ v.blocks i, v'.data b = v.data b

section

variable {i : Nat} (h : Same v v' i)
include h

theorem Same.node : v'.node i = v.node i := congrArg decodeInode h.inode

theorem Same.blocks : v'.blocks i = v.blocks i := by
  rw [Vol.blocks, Vol.blocks, h.node]
  exact owned_frame fun b hb => h.data b (tail_subset_owned hb)

theorem Same.trans {v'' : Vol} (h' : Same v' v'' i) : Same v v'' i := by
  refine ⟨h'.inode.trans h.inode, fun b hb => ?_⟩
  rw [h'.data b (by rwa [h.blocks]), h.data b hb]

theorem Same.content (hfull : L.Full v) (hown : L.Owns v (v.node i).block) :
    v'.content fs (v'.node i) = v.content fs (v.node i) := by
  rw [h.node]
  exact content_frame hfull hown h.data

theorem Same.entries (hfull : L.Full v) (hown : L.Owns v (v.node i).block)
    (hdir : DirShape fs v (v.node i)) : v'.entries fs (v'.node i) = v.entries fs (v.node i) := by
  rw [h.node]
  exact entries_frame hfull hown h.data hdir

end

/-! ## Soundness -/

/-- A raw inode that is a regular file or a directory, without a triple-indirect block,
that counts its blocks. -/
structure Sound (fs : Ext2) (v : Vol) (raw : Bytes) : Prop where
  kind : isDir (decodeInode raw).mode = true ∨ isReg (decodeInode raw).mode = true
  triple : (decodeInode raw).block 14 = 0
  count : le32 raw 28 = (v.owned (decodeInode raw).block).length * (fs.blockSize / 512)
  shape : isDir (decodeInode raw).mode = true → DirShape fs v (decodeInode raw)

theorem Sound.frame {raw : Bytes} (h : Sound fs v raw) (hfull : L.Full v)
    (hown : L.Owns v (decodeInode raw).block)
    (hsame : ∀ b ∈ v.owned (decodeInode raw).block, v'.data b = v.data b) : Sound fs v' raw where
  __ := h
  count := by rw [h.count, owned_frame fun b hb => hsame b (tail_subset_owned hb)]
  shape hd := (h.shape hd).frame hfull hown hsame

def Layout.taken (L : Layout fs) (v : Vol) : Finset Nat :=
  v.used.filter fun n => fs.firstDataBlock ≤ n ∧ n < fs.blockCount ∧ L.kind n = .data

theorem Layout.mem_taken {n : Nat} : n ∈ L.taken v ↔ n ∈ v.used ∧ L.Data n := by
  rw [Layout.taken, mem_filter]
  rfl

/-- The inodes in `live` are sound, and the data blocks in use are theirs or loose. -/
structure Kept (L : Layout fs) (v : Vol) (live : Finset Nat) (loose : Multiset Nat) : Prop where
  valid : ∀ i ∈ live, fs.ValidIno i
  alive : live ⊆ v.inodes
  counted : v.dirs ⊆ v.inodes
  dirs : ∀ i ∈ live, (isDir (v.node i).mode = true ↔ i ∈ v.dirs)
  sound : ∀ i ∈ live, Sound fs v (v.inode i)
  ledger : Ledger (fun i => (v.blocks i : Multiset Nat)) live loose (L.taken v)

section Kept

variable {live : Finset Nat} {loose : Multiset Nat} {i : Nat} (h : Kept L v live loose)
include h

theorem Kept.mem_taken (hi : i ∈ live) {b : Nat} (hb : b ∈ v.blocks i) : b ∈ v.used ∧ L.Data b :=
  Layout.mem_taken.1 (h.ledger.mem_used hi (Multiset.mem_coe.2 hb))

theorem Kept.owns (hi : i ∈ live) : L.Owns v (v.node i).block := fun _ hb => (h.mem_taken hi hb).2

theorem Kept.nodup (hi : i ∈ live) : (v.blocks i).Nodup := Multiset.coe_nodup.1 (h.ledger.nodup hi)

theorem Kept.shape (hi : i ∈ live) (hdir : isDir (v.node i).mode = true) :
    DirShape fs v (v.node i) :=
  (h.sound i hi).shape hdir

/-! ## Moves -/

theorem Kept.erase (hi : i ∈ live) : Kept L v (live.erase i) (v.blocks i + loose) where
  __ := h
  valid j hj := h.valid j (mem_of_mem_erase hj)
  alive := (erase_subset ..).trans h.alive
  dirs j hj := h.dirs j (mem_of_mem_erase hj)
  sound j hj := h.sound j (mem_of_mem_erase hj)
  ledger := h.ledger.erase hi

omit h in
theorem Kept.insert (h : Kept L v live (v.blocks i + loose)) (hi : i ∉ live)
    (hvalid : fs.ValidIno i) (halive : i ∈ v.inodes)
    (hdirs : isDir (v.node i).mode = true ↔ i ∈ v.dirs) (hsound : Sound fs v (v.inode i)) :
    Kept L v (insert i live) loose where
  __ := h
  valid j hj := by
    rcases mem_insert.1 hj with rfl | hj
    · exact hvalid
    · exact h.valid j hj
  alive := insert_subset halive h.alive
  dirs j hj := by
    rcases mem_insert.1 hj with rfl | hj
    · exact hdirs
    · exact h.dirs j hj
  sound j hj := by
    rcases mem_insert.1 hj with rfl | hj
    · exact hsound
    · exact h.sound j hj
  ledger := h.ledger.insert hi

variable (hfull : L.Full v)
include hfull

theorem Kept.carry (hsame : ∀ i ∈ live, Same v v' i)
    (halive : live ⊆ v'.inodes) (hcntd : v'.dirs ⊆ v'.inodes)
    (hdirs : ∀ i ∈ live, (i ∈ v'.dirs ↔ i ∈ v.dirs)) {loose' : Multiset Nat}
    (hledger : Ledger (fun i => (v.blocks i : Multiset Nat)) live loose' (L.taken v')) :
    Kept L v' live loose' where
  __ := h
  alive := halive
  counted := hcntd
  dirs i hi := by rw [(hsame i hi).node, h.dirs i hi, hdirs i hi]
  sound i hi := by
    rw [(hsame i hi).inode]
    exact (h.sound i hi).frame hfull (h.owns hi) (hsame i hi).data
  ledger := hledger.congr fun i hi => by rw [(hsame i hi).blocks]

theorem Kept.grow {new : List Nat} (hg : Grown L v new v') : Kept L v' live (new + loose) := by
  have hsame : ∀ i ∈ live, Same v v' i := fun i hi =>
    ⟨congrFun hg.inode i, fun b hb => hg.later.2 b (h.mem_taken hi hb).1⟩
  have htaken : L.taken v' = L.taken v ∪ new.toFinset := by
    ext n
    rw [mem_union, Layout.mem_taken, Layout.mem_taken, hg.mem_used, List.mem_toFinset]
    have := hg.data n
    tauto
  refine h.carry hfull hsame ?_ ?_ (fun i _ => by rw [hg.dirs]) ?_
  · rw [hg.inodes]
    exact h.alive
  · rw [hg.inodes, hg.dirs]
    exact h.counted
  · rw [htaken]
    exact h.ledger.grow hg.nodup fun b hb hmem => hg.fresh b hb (Layout.mem_taken.1 hmem).1

omit h in
theorem Kept.drop {bs : List Nat} (h : Kept L v live (bs + loose)) :
    Kept L (v.dropBlocks bs) live loose := by
  have htaken : L.taken (v.dropBlocks bs) = L.taken v \ bs.toFinset := by
    ext n
    rw [mem_sdiff, Layout.mem_taken, Layout.mem_taken, Vol.mem_used_dropBlocks, List.mem_toFinset]
    tauto
  refine h.carry hfull (fun i _ => ⟨by simp, by simp⟩) (by simpa using h.alive)
    (by simpa using h.counted) (by simp) ?_
  rw [htaken]
  exact h.ledger.shrink

theorem Kept.replace (hi : i ∈ live)
    (hsame : ∀ j ∈ live.erase i, Same v v' j) (hinos : v'.inodes = v.inodes)
    (hdirs : v'.dirs = v.dirs) {loose' : Multiset Nat} (htaken : L.taken v' = L.taken v)
    (hblks : (v'.blocks i : Multiset Nat) + loose' = v.blocks i + loose)
    (hmode : isDir (v'.node i).mode = isDir (v.node i).mode) (hsound : Sound fs v' (v'.inode i)) :
    Kept L v' live loose' := by
  have hcarry : Kept L v' (live.erase i) (v'.blocks i + loose') := by
    refine (h.erase hi).carry hfull hsame ?_ ?_ (fun j _ => by rw [hdirs]) ?_
    · rw [hinos]
      exact (h.erase hi).alive
    · rw [hinos, hdirs]
      exact h.counted
    · rw [htaken, hblks]
      exact h.ledger.erase hi
  rw [← insert_erase hi]
  refine hcarry.insert (notMem_erase _ _) (h.valid i hi) ?_ ?_ hsound
  · rw [hinos]
    exact h.alive hi
  · rw [hmode, hdirs]
    exact h.dirs i hi

end Kept

end Thos.Ext2
