import Thos.Ext2.Live
import Thos.Ext2.Names

/-!
# Edits of a directory

`dir_insert` puts a record into a gap of a direct block, or into a new block of its own;
`dir_remove` takes the first record of a name out. Either way the directory's entries gain
or lose one entry, and no other live inode notices.
-/

set_option autoImplicit false

namespace Thos.Ext2

open Thos.Lib Function List Vol Meets

variable {fs : Ext2} {L : Layout fs} {v v' : Vol} {node : Inode}

/-! ## One block of a directory -/

theorem directs_inj {blk : Nat → Nat} (h : (directs blk).Nodup) {j k : Nat}
    (hj : j < 12) (hk : k < 12) (h0 : blk k ≠ 0) (heq : blk j = blk k) : j = k := by
  rw [directs, nodup_iff_pairwise_ne, pairwise_filter, pairwise_map, pairwise_iff_getElem] at h
  have hlt : ∀ a b, a < b → b < 12 → blk a ≠ 0 → blk b ≠ 0 → blk a ≠ blk b := by
    intro a b hab hb ha0 hb0
    have := h a b (by simp; omega) (by simpa using hb) hab
    simpa [ha0, hb0] using this
  rcases lt_trichotomy j k with hjk | hjk | hjk
  · exact absurd heq (hlt j k hjk hk (heq ▸ h0) h0)
  · exact hjk
  · exact absurd heq.symm (hlt k j hjk hj h0 (heq ▸ h0))

section

variable (hfull : L.Full v) (hown : L.Owns v node.block) (hnodup : (v.owned node.block).Nodup)
  (h : DirShape fs v node) {k : Nat} (hk : k < 12) (h0 : node.block k ≠ 0)
include hnodup hk h0

omit hnodup in
theorem mem_directs : node.block k ∈ directs node.block := by
  simp only [directs, mem_filter, mem_map, mem_range]
  exact ⟨⟨k, hk, rfl⟩, by simpa using h0⟩

theorem direct_notMem_tail : node.block k ∉ v.tail node.block := fun htail =>
  (nodup_append.1 hnodup).2.2 _ (mem_directs hk h0) _ htail rfl

theorem data_putData_of_tail (c : Bytes) :
    ∀ b ∈ v.tail node.block, (v.putData (node.block k) c).data b = v.data b := by
  intro b hb
  rw [putData_data, update_of_ne]
  rintro rfl
  exact direct_notMem_tail hnodup hk h0 hb

include hfull hown h in
theorem DirShape.map_split :
    ∃ post, v.map fs node = (List.range k).map node.block ++ node.block k :: post ∧
      node.block k ∉ (List.range k).map node.block ∧ node.block k ∉ post := by
  have hinj := fun {j : Nat} (hj : j < 12) => directs_inj (nodup_append.1 hnodup).1 hj hk h0
  have hlt := (h.direct k hk).1 h0
  obtain ⟨m, hm⟩ := Nat.exists_eq_add_of_lt hlt
  refine ⟨(List.range m).map fun j => v.ptr fs node.block (k + (j + 1)), ?_, ?_, ?_⟩
  · rw [h.map_eq L.blockSize_pos, show dirLen fs node = k + (m + 1) by omega, range_add,
      map_append, range_succ_eq_map, map_cons, map_cons, map_map, map_map, add_zero, ptr_direct hk]
    congr 1
    exact map_congr_left fun j hj => ptr_direct (by rw [mem_range] at hj; omega)
  · intro hmem
    obtain ⟨j, hj, heq⟩ := mem_map.1 hmem
    rw [mem_range] at hj
    have := hinj (by omega) heq
    omega
  · intro hmem
    obtain ⟨j, hj, heq⟩ := mem_map.1 hmem
    rw [mem_range] at hj
    have hcap := h.le_cap
    by_cases h12 : k + (j + 1) < 12
    · rw [ptr_direct h12] at heq
      have := hinj h12 heq
      omega
    · refine direct_notMem_tail hnodup hk h0 ?_
      rw [← heq]
      exact ptr_mem_tail hfull hown (by omega) (by omega) (by rw [heq]; exact h0)

variable {c : Bytes}

include hfull hown h in
theorem DirShape.entries_putData : ∃ post,
      v.entries fs node = ((List.range k).map node.block).flatMap
        (fun b => blockEntries (v.data b)) ++ (blockEntries (v.data (node.block k)) ++ post) ∧
      (v.putData (node.block k) c).entries fs node =
        ((List.range k).map node.block).flatMap (fun b => blockEntries (v.data b)) ++
          (blockEntries c ++ post) := by
  obtain ⟨post, hmap, hpre, hpost⟩ := h.map_split hfull hown hnodup hk h0
  have hmap' : (v.putData (node.block k) c).map fs node = v.map fs node :=
    map_frame (data_putData_of_tail hnodup hk h0 c) hfull rfl hown
  have hother : ∀ bs : List Nat, node.block k ∉ bs →
      bs.flatMap (fun b => blockEntries ((v.putData (node.block k) c).data b)) =
        bs.flatMap fun b => blockEntries (v.data b) := by
    intro bs hbs
    refine flatMap_congr fun b hb => ?_
    rw [putData_data, update_of_ne]
    rintro rfl
    exact hbs hb
  refine ⟨post.flatMap fun b => blockEntries (v.data b), ?_, ?_⟩
  · rw [entries, hmap, flatMap_append, flatMap_cons]
  · rw [entries, hmap', hmap, flatMap_append, flatMap_cons, hother _ hpre, hother _ hpost,
      putData_data, update_self]

include hfull hown h in
theorem DirShape.putData (hc : DirBlock fs c) : DirShape fs (v.putData (node.block k) c) node where
  __ := h
  ne_zero i hi := by
    have hcap := h.le_cap
    rw [ptr_frame (data_putData_of_tail hnodup hk h0 c) hfull hown (by omega)]
    exact h.ne_zero i hi
  block i hi := by
    have hcap := h.le_cap
    rw [ptr_frame (data_putData_of_tail hnodup hk h0 c) hfull hown (by omega)]
    by_cases heq : v.ptr fs node.block i = node.block k
    · rw [heq, putData_data, update_self]
      exact hc
    · rw [putData_data, update_of_ne heq]
      exact h.block i hi

end

/-! ## What an edit leaves alone -/

/-- Of the live inodes, the step changes `p` only, and there neither mode nor owner. -/
structure Beside (v : Vol) (live : Finset Nat) (p : Nat) (v' : Vol) : Prop where
  same : ∀ j ∈ live, j ≠ p → Same v v' j
  mode : (v'.node p).mode = (v.node p).mode
  uid : (v'.node p).uid = (v.node p).uid
  gid : (v'.node p).gid = (v.node p).gid

theorem Beside.after {w : Vol} {live : Finset Nat} {p : Nat} (h0 : ∀ j ∈ live, Same v w j)
    (hp : p ∈ live) (h : Beside w live p v') : Beside v live p v' where
  same j hj hne := (h0 j hj).trans (h.same j hj hne)
  mode := h.mode.trans (congrArg Inode.mode (h0 p hp).node)
  uid := h.uid.trans (congrArg Inode.uid (h0 p hp).node)
  gid := h.gid.trans (congrArg Inode.gid (h0 p hp).node)

/-- The step edits the directory `p` only, and there only the blocks. -/
structure DirEdit (v : Vol) (live : Finset Nat) (p : Nat) (v' : Vol) : Prop extends
    Beside v live p v' where
  links : le16 (v'.inode p) 26 = le16 (v.inode p) 26
  inodes : v'.inodes = v.inodes
  dirs : v'.dirs = v.dirs

theorem Kept.putDir {live : Finset Nat} {loose : Multiset Nat} (hk : Kept L v live loose)
    (hfull : L.Full v) {p : Nat} (hp : p ∈ live) (hdir : isDir (v.node p).mode = true) {k : Nat}
    (hk12 : k < 12) (h0 : (v.node p).block k ≠ 0) {c : Bytes} (hc : DirBlock fs c) :
    Kept L (v.putData ((v.node p).block k) c) live loose ∧
      DirEdit v live p (v.putData ((v.node p).block k) c) := by
  have hmem : (v.node p).block k ∈ v.blocks p := mem_owned_of_direct hk12 h0
  have hsame : ∀ j ∈ live, j ≠ p → Same v (v.putData ((v.node p).block k) c) j := by
    refine fun j hj hne => ⟨rfl, fun b hb => ?_⟩
    rw [putData_data, update_of_ne]
    rintro rfl
    exact hk.ledger.apart hp hj hne.symm hmem hb
  have htail := data_putData_of_tail (hk.nodup hp) hk12 h0 c
  have howned : (v.putData ((v.node p).block k) c).owned (v.node p).block =
    v.owned (v.node p).block :=
    owned_frame htail
  have hsound := hk.sound p hp
  refine ⟨hk.replace hfull hp (fun j hj => hsame j (Finset.mem_of_mem_erase hj)
    (Finset.ne_of_mem_erase hj)) rfl rfl rfl ?_ rfl ⟨hsound.kind, hsound.triple, ?_, fun _ => ?_⟩,
    ⟨hsame, rfl, rfl, rfl⟩, rfl, rfl, rfl⟩
  · rw [show (v.putData ((v.node p).block k) c).blocks p = v.blocks p from howned]
  · exact hsound.count.trans (congrArg (fun bs => bs.length * (fs.blockSize / 512)) howned.symm)
  · exact (hk.shape hp hdir).putData hfull (hk.owns hp) (hk.nodup hp) hk12 h0 hc

/-! ## Removal -/

theorem Kept.direct_dirBlock {live : Finset Nat} {loose : Multiset Nat}
    (hk : Kept L v live loose) {p : Nat} (hp : p ∈ live) (hdir : isDir (v.node p).mode = true) :
    ∀ b ∈ (List.range 12).map (v.node p).block, b ≠ 0 → L.Data b ∧ DirBlock fs (v.data b) := by
  intro b hb h0
  obtain ⟨k, hk12, rfl⟩ := mem_map.1 hb
  rw [mem_range] at hk12
  have hshape := hk.shape hp hdir
  refine ⟨hk.owns hp _ (mem_owned_of_direct hk12 h0), ?_⟩
  have := hshape.block k ((hshape.direct k hk12).1 h0)
  rwa [ptr_direct hk12] at this

/-! ## Insertion -/

def Gains (fs : Ext2) (v : Vol) (p : Nat) (e : Entry) (v' : Vol) : Prop :=
  Adds e (v.entries fs (v.node p)) (v'.entries fs (v'.node p))

/-- No record of the block has room for one with the name. -/
def Packed (v : Vol) (name : Bytes) (b : Nat) : Prop :=
  ∀ r ∈ dirRecords (v.data b), r.len - r.used < round4 (8 + name.length)

section

variable {name : Bytes} {child : Nat} (hchild : child < 4294967296) (h0 : child ≠ 0)
  (hname : name.length < 256)
include hchild h0 hname

theorem meets_insertIn (ft : UInt8) (bnos : List Nat)
    (hb : ∀ b ∈ bnos, b ≠ 0 → L.Data b ∧ DirBlock fs (v.data b)) {Q : Bool → Vol → Prop}
    {E : Stop → Vol → Prop} {C : Vol → Prop} (hC : ∀ w, C w)
    (hno : (∀ b ∈ bnos, b ≠ 0 → Packed v name b) → Q false v)
    (hyes : ∀ b ∈ bnos, b ≠ 0 → ∀ c, Inserted fs ⟨child, name⟩ (v.data b) c →
      TakesGap ⟨child, name⟩ (v.data b) c → Q true (v.putData b c)) :
    L.Meets v (fs.insertIn name child ft bnos) Q E C := by
  have hbs : fs.blockSize < 65536 := by
    have := L.blockSize_eq
    omega
  induction bnos with
  | nil => exact pure (hno nofun)
  | cons b bnos ih =>
    -- a block without room is passed over
    have hskip : (b ≠ 0 → Packed v name b) → L.Meets v (fs.insertIn name child ft bnos) Q E C :=
      fun hpack => ih (fun b' h' => hb b' (mem_cons_of_mem _ h'))
        (fun hrest => hno (forall_mem_cons.2 ⟨hpack, hrest⟩))
        fun b' h' => hyes b' (mem_cons_of_mem _ h')
    rw [insertIn]
    by_cases hz : b = 0
    · rw [if_pos hz]
      exact hskip fun hne => absurd hz hne
    obtain ⟨hdata, hblock⟩ := hb b mem_cons_self hz
    rw [if_neg hz]
    refine read (fun d hd => hd.glimpse.block hdata) ?_
    rcases hblock.findGap hbs ft hchild h0 hname with
      ⟨hnone, hno'⟩ | ⟨off, used, recLen, hat, hins, htakes⟩
    · rw [hnone]
      exact hskip fun _ => hno'
    · rw [hat]
      refine bind (meets_writeBlock hdata hins.1.length ?_ (hC _) fun _ _ _ => hC _)
      exact pure (hyes b mem_cons_self hz _ hins htakes)

theorem dirBlock_single (L : Layout fs) (ft : UInt8) :
    DirBlock fs (putRecord (List.replicate fs.blockSize 0) 0 child fs.blockSize ft name) ∧
      blockEntries (putRecord (List.replicate fs.blockSize 0) 0 child fs.blockSize ft name) =
        [⟨child, name⟩] := by
  have hbs := L.blockSize_eq
  have hzeros : (List.replicate fs.blockSize (0 : UInt8)).length = fs.blockSize := length_replicate
  have hfit : round4 (8 + name.length) ≤ fs.blockSize := by
    rw [round4]
    omega
  have htiled := (Tiled.nil (c := List.replicate fs.blockSize 0) 0).put ft hchild h0
    (show fs.blockSize < 65536 by omega) hname (by omega) hfit (by omega)
  have hlen : (putRecord (List.replicate fs.blockSize 0) 0 child fs.blockSize ft name).length =
      fs.blockSize := (length_putRecord (by omega)).trans hzeros
  generalize putRecord (List.replicate fs.blockSize 0) 0 child fs.blockSize ft name =
    c at htiled hlen
  rw [zero_add, ← hlen] at htiled
  obtain ⟨hblock, hents⟩ := dirBlock_of_tiled htiled hlen
  refine ⟨hblock, hents.trans ?_⟩
  rw [nil_append, entriesOf_cons_of_used h0]
  rfl

end

theorem length_newDirBlock (L : Layout fs) (ino p : Nat) :
    (fs.newDirBlock ino p).length = fs.blockSize := by
  have hbs := L.blockSize_eq
  have hzeros : (List.replicate fs.blockSize (0 : UInt8)).length = fs.blockSize := length_replicate
  have hdot : dot.length = 1 := rfl
  have hdotdot : dotdot.length = 2 := rfl
  rw [newDirBlock, length_putRecord, length_putRecord, hzeros]
  · omega
  · rw [length_putRecord] <;> omega

section

variable (L) {ino p : Nat} (hino : ino < 4294967296) (h0 : ino ≠ 0) (hp : p < 4294967296)
  (hp0 : p ≠ 0)
include L hino h0 hp hp0

theorem tiled_newDirBlock :
    Tiled (fs.newDirBlock ino p) 0 [⟨ino, 12, dot⟩, ⟨p, fs.blockSize - 12, dotdot⟩]
      (fs.newDirBlock ino p).length := by
  have hbs := L.blockSize_eq
  have hzeros : (List.replicate fs.blockSize (0 : UInt8)).length = fs.blockSize := length_replicate
  have hdot : dot.length = 1 := rfl
  have hdotdot : dotdot.length = 2 := rfl
  have hlen : (putRecord (List.replicate fs.blockSize 0) 0 ino 12 (fs.fileType true) dot).length =
      fs.blockSize := (length_putRecord (by omega)).trans hzeros
  have h1 := (Tiled.nil (c := List.replicate fs.blockSize 0) 0).put (fs.fileType true) hino h0
    (show 12 < 65536 by omega) (show dot.length < 256 by omega) (by omega) (by decide) (by omega)
  have h2 := h1.put (fs.fileType true) hp hp0 (show fs.blockSize - 12 < 65536 by omega)
    (show dotdot.length < 256 by omega) (by omega)
    (show round4 (8 + dotdot.length) ≤ fs.blockSize - 12 by rw [hdotdot, round4]; omega) (by omega)
  have hdef : putRecord (putRecord (List.replicate fs.blockSize 0) 0 ino 12
    (fs.fileType true) dot) (0 + 12)
      p (fs.blockSize - 12) (fs.fileType true) dotdot = fs.newDirBlock ino p := rfl
  have hlen' := length_newDirBlock L ino p
  rw [hdef] at h2
  generalize fs.newDirBlock ino p = c at h2 hlen' ⊢
  rwa [show 0 + 12 + (fs.blockSize - 12) = c.length by omega] at h2

theorem dirBlock_newDirBlock : DirBlock fs (fs.newDirBlock ino p) ∧
      blockEntries (fs.newDirBlock ino p) = [⟨ino, dot⟩, ⟨p, dotdot⟩] := by
  obtain ⟨hblock, hents⟩ := dirBlock_of_tiled (tiled_newDirBlock L hino h0 hp hp0)
    (length_newDirBlock L ino p)
  refine ⟨hblock, hents.trans ?_⟩
  rw [entriesOf_cons_of_used h0, entriesOf_cons_of_used hp0]
  rfl

theorem not_packed_newDirBlock {v : Vol} {b : Nat} (hv : v.data b = fs.newDirBlock ino p)
    {name : Bytes} (hname : name.length < 256) : ¬ Packed v name b := by
  intro hpack
  have hbs := L.blockSize_eq
  have hrecs := (tiled_newDirBlock L hino h0 hp hp0).dirRecords
  have hlast := hpack ⟨p, fs.blockSize - 12, dotdot⟩ (by rw [hv, hrecs]; simp)
  rw [Rec.used, if_neg hp0] at hlast
  have hdotdot : round4 (8 + dotdot.length) = 12 := rfl
  simp only [hdotdot] at hlast
  rw [round4] at hlast
  omega

theorem TakesGap.not_packed {e : Entry} {c : Bytes} (h : TakesGap e (fs.newDirBlock ino p) c)
    (he0 : e.ino ≠ 0) (he : e.name.length < 256) {v : Vol} {b : Nat} (hv : v.data b = c)
    {name : Bytes} (hname : name.length < 256) : ¬ Packed v name b := by
  intro hpack
  have hbs := L.blockSize_eq
  obtain ⟨r, hr, hneed, hmem⟩ := h
  have hlast : r.len - r.used - (if e.ino = 0 then 0 else round4 (8 + e.name.length)) <
      round4 (8 + name.length) := hpack _ (hv.symm ▸ hmem)
  rw [if_neg he0, round4, round4] at hlast
  rw [round4] at hneed
  rw [(tiled_newDirBlock L hino h0 hp hp0).dirRecords] at hr
  rcases mem_cons.1 hr with rfl | hr
  -- the record of `.` has no gap
  · have hused : (⟨ino, 12, dot⟩ : Rec).used = 12 := by
      rw [Rec.used, if_neg h0]
      exact (rfl : round4 (8 + dot.length) = 12)
    rw [hused] at hneed
    change _ ≤ 12 - 12 at hneed
    omega
  · obtain rfl := mem_singleton.1 hr
    have hused : (⟨p, fs.blockSize - 12, dotdot⟩ : Rec).used = 12 := by
      rw [Rec.used, if_neg hp0]
      exact (rfl : round4 (8 + dotdot.length) = 12)
    rw [hused] at hlast
    change fs.blockSize - 12 - 12 - _ < _ at hlast
    omega

end

/-! ## A new block for a directory -/

theorem directs_update {blk : Nat → Nat} {n b : Nat} (hn : n < 12) (h0 : blk n = 0) (hb : b ≠ 0) :
    (directs (update blk n b)).Perm (b :: directs blk) := by
  obtain ⟨m, hm⟩ := Nat.exists_eq_add_of_lt hn
  have hsplit : List.range 12 = List.range n ++ n :: (List.range m).map (fun j => n + (j + 1)) := by
    rw [show 12 = n + (m + 1) by omega, range_add, range_succ_eq_map, map_cons, map_map]
    rfl
  have hother : ∀ l : List Nat, n ∉ l → l.map (update blk n b) = l.map blk := by
    refine fun l hl => map_congr_left fun j hj => update_of_ne ?_ ..
    rintro rfl
    exact hl hj
  rw [directs, directs, hsplit, map_append, map_append, map_cons, map_cons,
    update_self, h0, hother _ (by simp), hother _ (by simp), filter_append,
    filter_append, filter_cons_of_pos (by simpa using hb), filter_cons_of_neg (by simp)]
  exact perm_middle

theorem DirShape.map_direct (h : DirShape fs v node) (hbs : 0 < fs.blockSize)
    (h12 : dirLen fs node ≤ 12) : v.map fs node = (List.range (dirLen fs node)).map node.block := by
  rw [h.map_eq hbs]
  exact map_congr_left fun j hj => ptr_direct (by rw [mem_range] at hj; omega)

/-- The directory `p` with a block `b` in its slot `n`. -/
def Vol.growDir (fs : Ext2) (v : Vol) (p n b : Nat) (c : Bytes) : Vol :=
  (v.addBlock b c).putInode p (fs.growDir (update (v.node p).block n b) (v.inode p))

section Grow

variable {live : Finset Nat} {loose : Multiset Nat} (hk : Kept L v live loose) (hfull : L.Full v)
  {p : Nat} (hp : p ∈ live) (hdir : isDir (v.node p).mode = true)
  {n : Nat} (hn : n < 12) (hlen : dirLen fs (v.node p) = n) {b : Nat} (hdata : L.Data b)
include hk hfull hp hdir hn hlen hdata

theorem Kept.node_growDir (c : Bytes) : let w := v.growDir fs p n b c
    (w.inode p).length = (v.inode p).length ∧ (w.node p).mode = (v.node p).mode ∧ (w.node p).uid =
    (v.node p).uid ∧ (w.node p).gid = (v.node p).gid ∧ (w.node p).size = (n + 1) * fs.blockSize ∧
      le16 (w.inode p) 26 = le16 (v.inode p) 26 ∧
      le32 (w.inode p) 28 = ((v.blocks p).length + 1) * (fs.blockSize / 512) ∧
      ∀ i, i < 15 → (w.node p).block i = update (v.node p).block n b i := by
  have hbs := L.blockSize_eq
  have hshape := hk.shape hp hdir
  have hraw : 100 ≤ (v.inode p).length := by
    have := L.inodeSize_ge
    have := hfull.inode p (hk.valid p hp)
    omega
  have hsize : le32 (v.inode p) 4 = n * fs.blockSize := by
    rw [← hlen]
    exact hshape.size_eq
  have hcount : le32 (v.inode p) 28 = (v.blocks p).length * (fs.blockSize / 512) :=
    (hk.sound p hp).count
  have hsmall : n * fs.blockSize ≤ 11 * 4096 := Nat.mul_le_mul (by omega) (by omega)
  have hblks : (v.blocks p).length * (fs.blockSize / 512) ≤ 8800000 :=
    count_owned_le hfull (hk.owns hp)
  obtain ⟨hraw', hmode, huid, hgid, hsize', hlinks, hcount', hblock⟩ := growDir_fields fs
    (update (v.node p).block n b) hraw (by omega) (by omega)
  have hself : (v.growDir fs p n b c).inode p =
      fs.growDir (update (v.node p).block n b) (v.inode p) := update_self ..
  have hnode : (v.growDir fs p n b c).node p =
      decodeInode (fs.growDir (update (v.node p).block n b) (v.inode p)) :=
    congrArg decodeInode hself
  intro w
  rw [show w.inode p = _ from hself, show w.node p = _ from hnode]
  refine ⟨hraw', hmode, huid, hgid, hsize'.trans ?_, hlinks, hcount'.trans ?_,
    fun i hi => hblock i hi ?_⟩
  · rw [show (decodeInode (v.inode p)).size = n * fs.blockSize from hsize, add_mul, one_mul]
  · rw [hcount, add_mul, one_mul]
  · rw [update_apply]
    split_ifs
    · exact hdata.lt
    · exact le32_lt ..

theorem Kept.dirLen_growDir (c : Bytes) : dirLen fs ((v.growDir fs p n b c).node p) = n + 1 := by
  obtain ⟨-, -, -, -, hsize, -⟩ := hk.node_growDir hfull hp hdir hn hlen hdata c
  rw [dirLen, hsize, Nat.mul_div_cancel _ L.blockSize_pos]

variable (hfree : b ∉ v.used) {c : Bytes} (hc : DirBlock fs c)
include hfree

omit hfull hdata in
theorem Kept.old_growDir (c : Bytes) {i : Nat} (hi : i < n) : (v.node p).block i ≠ 0 ∧
    (v.growDir fs p n b c).data ((v.node p).block i) = v.data ((v.node p).block i) := by
  have hne : (v.node p).block i ≠ 0 :=
    ((hk.shape hp hdir).direct i (by omega)).2 (by omega)
  refine ⟨hne, update_of_ne ?_ ..⟩
  rintro rfl
  exact hfree (hk.mem_taken hp (mem_owned_of_direct (by omega) hne)).1

theorem Kept.blocks_growDir : ((v.growDir fs p n b c).blocks p).Perm (b :: v.blocks p) := by
  obtain ⟨-, -, -, -, -, -, -, hblock⟩ := hk.node_growDir hfull hp hdir hn hlen hdata c
  have hshape := hk.shape hp hdir
  have hzero : (v.node p).block n = 0 := by
    by_contra hne
    have := (hshape.direct n hn).1 hne
    omega
  have htail : ∀ a ∈ v.tail (v.node p).block, (v.growDir fs p n b c).data a = v.data a := by
    intro a ha
    refine update_of_ne ?_ ..
    rintro rfl
    exact hfree (hk.mem_taken hp (tail_subset_owned ha)).1
  rw [Vol.blocks, Vol.owned_congr _ fun i hi => hblock i (by omega), Vol.owned,
    show (v.growDir fs p n b c).tail (update (v.node p).block n b) =
      (v.growDir fs p n b c).tail (v.node p).block from ?_, tail_frame htail]
  · exact (directs_update hn hzero hdata.ne_zero).append_right _
  · rw [Vol.tail, Vol.tail, update_of_ne (by omega), update_of_ne (by omega)]

include hc

theorem Kept.shape_growDir : DirShape fs (v.growDir fs p n b c)
    ((v.growDir fs p n b c).node p) := by
  obtain ⟨-, -, -, -, hsize, -, -, hblock⟩ := hk.node_growDir hfull hp hdir hn hlen hdata c
  have hshape := hk.shape hp hdir
  have hlen' := hk.dirLen_growDir hfull hp hdir hn hlen hdata c
  have hold := fun i => hk.old_growDir hp hdir hn hlen hfree c (i := i)
  have hptr : ∀ i, i < n + 1 → (v.growDir fs p n b c).ptr fs
    ((v.growDir fs p n b c).node p).block i = update (v.node p).block n b i := fun i hi => by
    rw [ptr_direct (by omega), hblock i (by omega)]
  refine ⟨by rw [hlen', hsize], by omega, ?_, fun i hi => ?_, fun i hi => ?_, fun i hi => ?_⟩
  · rw [hlen', cap]
    omega
  · rw [hblock i (by omega), hlen', update_apply]
    split_ifs
    · exact iff_of_true hdata.ne_zero (by omega)
    · rw [hshape.direct i hi, hlen]
      omega
  · rw [hlen'] at hi
    rw [hptr i hi, update_apply]
    split_ifs
    · exact hdata.ne_zero
    · exact (hold i (by omega)).1
  · rw [hlen'] at hi
    rw [hptr i hi, update_apply]
    split_ifs
    · change DirBlock fs (update v.data b c b)
      rwa [update_self]
    · rw [(hold i (by omega)).2]
      have := hshape.block i (by omega)
      rwa [ptr_direct (by omega)] at this

theorem Kept.entries_growDir : (v.growDir fs p n b c).entries fs ((v.growDir fs p n b c).node p) =
      v.entries fs (v.node p) ++ blockEntries c := by
  obtain ⟨-, -, -, -, -, -, -, hblock⟩ := hk.node_growDir hfull hp hdir hn hlen hdata c
  have hbs := L.blockSize_pos
  have hlen' := hk.dirLen_growDir hfull hp hdir hn hlen hdata c
  have hmap : (v.growDir fs p n b c).map fs ((v.growDir fs p n b c).node p) =
      (List.range n).map (v.node p).block ++ [b] := by
    rw [(hk.shape_growDir hfull hp hdir hn hlen hdata hfree hc).map_direct hbs (by omega), hlen',
      range_succ, map_append, map_singleton, hblock n (by omega), update_self]
    congr 1
    refine map_congr_left fun j hj => ?_
    rw [mem_range] at hj
    rw [hblock j (by omega), update_of_ne (by omega)]
  rw [entries, hmap, entries, (hk.shape hp hdir).map_direct hbs (by omega), hlen, flatMap_append,
    flatMap_singleton]
  congr 1
  · refine flatMap_congr fun a ha => ?_
    obtain ⟨j, hj, rfl⟩ := mem_map.1 ha
    exact congrArg blockEntries
      (hk.old_growDir hp hdir hn hlen hfree c (mem_range.1 hj)).2
  · exact congrArg blockEntries (update_self ..)

theorem Kept.growDir :
    Kept L (v.growDir fs p n b c) live loose ∧ DirEdit v live p (v.growDir fs p n b c) := by
  obtain ⟨-, hmode, huid, hgid, -, hlinks, hcount, hblock⟩ :=
    hk.node_growDir hfull hp hdir hn hlen hdata c
  have hperm := hk.blocks_growDir hfull hp hdir hn hlen hdata hfree (c := c)
  have hg : Grown L v [b] (v.addBlock b c) := (Grown.refl L v).addBlock hdata hfree c
  have hk1 := hk.grow hfull hg
  have hfull1 : L.Full (v.addBlock b c) := by
    refine ⟨fun m hm => ?_, hfull.inode⟩
    rw [addBlock_data, update_apply]
    split_ifs
    · exact hc.length
    · exact hfull.data m hm
  have hsame0 : ∀ j ∈ live, Same v (v.addBlock b c) j := fun j hj =>
    ⟨rfl, fun a ha => hg.later.2 a (hk.mem_taken hj ha).1⟩
  have hsame1 : ∀ j, j ≠ p → Same (v.addBlock b c) (v.growDir fs p n b c) j := fun j hj =>
    ⟨update_of_ne hj .., fun _ _ => rfl⟩
  have hsound := hk.sound p hp
  refine ⟨hk1.replace hfull1 hp (fun j hj => hsame1 j (Finset.ne_of_mem_erase hj)) rfl rfl rfl ?_ ?_
    ⟨?_, ?_, ?_, fun _ => hk.shape_growDir hfull hp hdir hn hlen hdata hfree hc⟩,
    ⟨fun j hj hne => (hsame0 j hj).trans (hsame1 j hne), hmode, huid, hgid⟩, hlinks, rfl, rfl⟩
  · rw [(hsame0 p hp).blocks, Multiset.coe_eq_coe.2 hperm, ← Multiset.cons_coe,
      ← Multiset.singleton_add, Multiset.coe_singleton, add_assoc, add_left_comm]
  · rw [hmode]
    rfl
  · exact .inl (hmode ▸ hdir)
  · rw [show (decodeInode ((v.growDir fs p n b c).inode p)).block 14 = _ from hblock 14 (by omega),
      update_of_ne (by omega)]
    exact hsound.triple
  · change _ = ((v.growDir fs p n b c).blocks p).length * _
    rw [hcount, hperm.length_eq, length_cons]

end Grow

theorem find?_range_eq {f : Nat → Nat} {k n s : Nat} (hf : ∀ i, i < k → (f i ≠ 0 ↔ i < n))
    (h : (List.range k).find? (fun s => f s = 0) = some s) : s = n ∧ s < k := by
  obtain ⟨hs, i, hi, hget, hbef⟩ := find?_eq_some_iff_getElem.1 h
  rw [length_range] at hi
  rw [getElem_range] at hget
  subst hget
  have h1 : ¬ i < n := fun hlt => (hf i hi).2 hlt (by simpa using hs)
  have h2 : ∀ j, j < i → j < n := fun j hj => by
    have := hbef j hj
    exact (hf j (by omega)).1 (by simpa using this)
  refine ⟨?_, hi⟩
  by_contra hne
  have := h2 n (by omega)
  omega

/-- The directory `p` has no room for the name, in its direct blocks or in a new one. -/
def NoRoom (L : Layout fs) (v : Vol) (p : Nat) (name : Bytes) : Prop :=
  (∀ b ∈ (List.range 12).map (v.node p).block, b ≠ 0 → Packed v name b) ∧
    (12 ≤ dirLen fs (v.node p) ∨ L.BlocksFull v)

theorem meets_dirInsert {live : Finset Nat} {loose : Multiset Nat} (hk : Kept L v live loose)
    {p : Nat} (hp : p ∈ live) (hdir : isDir (v.node p).mode = true) {name : Bytes} {child : Nat}
    (hchild : child < 2 ^ 32) (h0 : child ≠ 0) (hname : name.length < 256) {isDir : Bool}
    {Q : Unit → Vol → Prop} {E : Stop → Vol → Prop} {C : Vol → Prop} (hC : ∀ w, C w)
    (hE : ∀ msg, NoRoom L v p name → E (.err msg) v)
    (hQ : ∀ v', Kept L v' live loose → DirEdit v live p v' → Gains fs v p ⟨child, name⟩ v' →
      Q () v') : L.Meets v (fs.dirInsert p name child isDir) Q E C := by
  refine assume (fun d hd => hd.glimpse.full) fun hfull => ?_
  have hshape := hk.shape hp hdir
  refine read (fun d hd => hd.glimpse.readInode (hk.valid p hp)) ?_
  refine bind (meets_insertIn hchild h0 hname _ _ (hk.direct_dirBlock hp hdir) hC ?_ ?_)
  · -- no gap in a direct block
    intro hpack
    cases hfind : (List.range 12).find? fun s => (decodeInode (v.inode p)).block s = 0 with
    | none =>
      refine stop (hE _ ⟨hpack, .inl ?_⟩)
      have h11 : ¬ (decodeInode (v.inode p)).block 11 = 0 := by
        simpa using find?_eq_none.1 hfind 11 (mem_range.2 (by omega))
      have := (hshape.direct 11 (by omega)).1 h11
      omega
    | some slot =>
      obtain ⟨hslot, hlt⟩ := find?_range_eq hshape.direct hfind
      have hbs := L.blockSize_eq
      refine bind (mapErr (meets_allocBlock (fun hfull => hE _ ⟨hpack, .inr hfull⟩)
        (hC _) (fun b hb hfree => ?_) fun _ _ _ _ => hC _))
      rw [if_neg (by omega)]
      obtain ⟨hblock, hents⟩ := dirBlock_single hchild h0 hname L (fs.fileType isDir)
      generalize putRecord (List.replicate fs.blockSize 0) 0 child fs.blockSize (fs.fileType isDir)
        name = c at hblock hents
      refine bind (meets_writeBlock hb hblock.length ?_ (hC _) fun _ _ _ => hC _)
      have hput : (v.addBlock b (List.replicate fs.blockSize 0)).putData b c = v.addBlock b c := by
        simp [putData, addBlock]
      rw [hput]
      refine meets_patchInode (hk.valid p hp) (fun hl => ?_) (hC _) ?_ (hC _) fun _ _ => hC _
      · have := (hk.node_growDir hfull hp hdir hlt hslot.symm hb c).1
        rw [show (v.growDir fs p slot b c).inode p = _ from update_self ..] at this
        exact this.trans hl
      · obtain ⟨hkept, hedit⟩ := hk.growDir hfull hp hdir hlt hslot.symm hb hfree hblock
        refine hQ _ hkept hedit ⟨_, [], (append_nil _).symm, ?_⟩
        have := hk.entries_growDir hfull hp hdir hlt hslot.symm hb hfree hblock
        rwa [hents] at this
  · -- a gap in a direct block
    intro b hb hz c hins _
    obtain ⟨k, hk12, rfl⟩ := mem_map.1 hb
    rw [mem_range] at hk12
    obtain ⟨hkept, hedit⟩ := hk.putDir hfull hp hdir hk12 hz hins.1
    obtain ⟨tl, hold, hnew⟩ := hshape.entries_putData hfull (hk.owns hp) (hk.nodup hp)
      hk12 hz (c := c)
    obtain ⟨-, es, es', hes, hes'⟩ := hins
    refine pure (hQ _ hkept hedit ⟨((List.range k).map (v.node p).block).flatMap
      (fun b => blockEntries (v.data b)) ++ es, es' ++ tl, ?_, ?_⟩)
    · rw [hold, show blockEntries (v.data ((v.node p).block k)) = es ++ es' from hes]
      simp
    · change (v.putData ((v.node p).block k) c).entries fs (v.node p) = _
      rw [hnew, hes']
      simp

end Thos.Ext2
