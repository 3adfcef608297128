import Thos.Ext2.DirEdit

/-!
# New inodes

The inode that `write_path_owned` makes for a new file and the one that `mkdir_path_owned`
makes for a new directory are sound, and they own what was laid out for them. With the
specifications of the allocators this gives what a new file or directory does to the volume.
-/

set_option autoImplicit false

namespace Thos.Ext2

open Thos.Lib Function List Vol Meets
open Finset (mem_insert_of_mem mem_insert_self)

variable {fs : Ext2} {L : Layout fs} {v w : Vol}

/-! ## What depends on the data blocks only -/

section

variable (h : w.data = v.data)
include h

theorem Vol.ptr_of_data : w.ptr fs = v.ptr fs := by
  have hind : w.indirect = v.indirect := by
    funext b k
    rw [indirect, indirect, h]
  funext blk i
  rw [ptr, ptr, hind]

theorem Vol.content_of_data (node : Inode) : w.content fs node = v.content fs node := by
  have hblock : w.blockAt fs = v.blockAt fs := by
    funext b
    rw [blockAt, blockAt, h]
  rw [content, content, map, map, ptr_of_data h, hblock]

theorem Vol.entries_of_data (node : Inode) : w.entries fs node = v.entries fs node := by
  rw [entries, entries, map, map, ptr_of_data h, h]

end

/-! ## The inode of a new directory -/

def newDirInode (fs : Ext2) (uid gid b : Nat) (raw : Bytes) : Bytes :=
  setInode 0o040755 uid gid fs.blockSize 2 (fs.blockSize / 512) (blockArray [b] 0 0) raw

section

variable {raw : Bytes} (hraw : 100 ≤ raw.length) {b : Nat} (hb : L.Data b) (uid gid : Nat)

include hraw

theorem newDirInode_fields (L : Layout fs) (b : Nat) :
    (newDirInode fs uid gid b raw).length = raw.length ∧
      (decodeInode (newDirInode fs uid gid b raw)).mode = 0o040755 ∧
      (decodeInode (newDirInode fs uid gid b raw)).size = fs.blockSize ∧
      le16 (newDirInode fs uid gid b raw) 26 = 2 ∧
      le32 (newDirInode fs uid gid b raw) 28 = fs.blockSize / 512 := by
  have hbs := L.blockSize_eq
  obtain ⟨hlen, hmode, -, -, hsize, hlinks, hcount, -⟩ :=
    setInode_fields 0o040755 uid gid fs.blockSize 2 (fs.blockSize / 512) (blockArray [b] 0 0) hraw
  refine ⟨hlen, hmode, hsize.trans ?_, hlinks, hcount.trans ?_⟩ <;> omega

theorem dirLen_newDirInode (L : Layout fs) (b : Nat) :
    dirLen fs (decodeInode (newDirInode fs uid gid b raw)) = 1 := by
  rw [dirLen, (newDirInode_fields hraw uid gid L b).2.2.1, Nat.div_self L.blockSize_pos]

include hb

theorem block_newDirInode {k : Nat} (hk : k < 15) :
    (decodeInode (newDirInode fs uid gid b raw)).block k = blockArray [b] 0 0 k := by
  obtain ⟨-, -, -, -, -, -, -, hblock⟩ :=
    setInode_fields 0o040755 uid gid fs.blockSize 2 (fs.blockSize / 512) (blockArray [b] 0 0) hraw
  refine hblock k hk (blockArray_lt 0 0 (fun x hx => ?_) (by omega) (by omega))
  rw [mem_singleton.1 hx]
  exact hb.lt

theorem owned_newDirInode (w : Vol) :
    w.owned (decodeInode (newDirInode fs uid gid b raw)).block = [b] := by
  rw [w.owned_congr fun k hk => block_newDirInode hraw hb uid gid (show k < 15 by omega),
    owned_blockArray (by simp) (by simpa using hb.ne_zero)]
  simp

variable {i p : Nat} (hi : i < 4294967296) (hi0 : i ≠ 0) (hp : p < 4294967296) (hp0 : p ≠ 0)
  (hdata : w.data b = fs.newDirBlock i p)
include hi hi0 hp hp0 hdata

theorem shape_newDirInode : DirShape fs w (decodeInode (newDirInode fs uid gid b raw)) ∧
      w.entries fs (decodeInode (newDirInode fs uid gid b raw)) = [⟨i, dot⟩, ⟨p, dotdot⟩] := by
  obtain ⟨hblock, hents⟩ := dirBlock_newDirBlock L hi hi0 hp hp0
  have hlen := dirLen_newDirInode hraw uid gid L b
  have hsize := (newDirInode_fields hraw uid gid L b).2.2.1
  have hfirst := block_newDirInode hraw hb uid gid (show 0 < 15 by omega)
  have hptr : ∀ k, k < 1 → w.ptr fs (decodeInode (newDirInode fs uid gid b raw)).block k = b := by
    intro k hk
    obtain rfl : k = 0 := by omega
    rw [ptr_direct (by omega), hfirst]
    rfl
  have hshape : DirShape fs w (decodeInode (newDirInode fs uid gid b raw)) := by
    refine ⟨by rw [hlen, hsize, one_mul], by omega, ?_, fun k hk => ?_, ?_, ?_⟩
    · rw [hlen, cap]
      omega
    · rw [hlen, block_newDirInode hraw hb uid gid (by omega), blockArray, if_pos hk]
      have := hb.ne_zero
      rcases k with _ | k <;> simp [this]
    · rw [hlen]
      exact fun k hk => by rw [hptr k hk]; exact hb.ne_zero
    · rw [hlen]
      exact fun k hk => by rw [hptr k hk, hdata]; exact hblock
  refine ⟨hshape, ?_⟩
  rw [entries, hshape.map_direct L.blockSize_pos (by omega), hlen, range_one, map_singleton,
    flatMap_singleton, hfirst]
  change blockEntries (w.data b) = _
  rw [hdata, hents]

theorem sound_newDirInode : Sound fs w (newDirInode fs uid gid b raw) := by
  obtain ⟨-, hmode, -, -, hcount⟩ := newDirInode_fields hraw uid gid L b
  refine ⟨.inl ?_, ?_, ?_, fun _ => (shape_newDirInode hraw hb uid gid hi hi0 hp hp0 hdata).1⟩
  · rw [hmode]
    rfl
  · rw [block_newDirInode hraw hb uid gid (by omega)]
    rfl
  · rw [hcount, owned_newDirInode hraw hb uid gid, length_singleton, one_mul]

end

/-! ## The inode of a new file -/

theorem Laid.inode {raw : Bytes} (hraw : 100 ≤ raw.length) {data : Bytes} {blk : Nat → Nat}
    {b512 : Nat} (hlaid : Laid L v data blk b512 w) (hfull : L.Full w) (mode uid gid links : Nat) :
    let raw' := setInode mode uid gid data.length links b512 blk raw
    raw'.length = raw.length ∧ (decodeInode raw').mode = mode % 65536 ∧
      (decodeInode raw').uid = uid % 65536 ∧ (decodeInode raw').gid = gid % 65536 ∧
      le16 raw' 26 = links % 65536 ∧ w.owned (decodeInode raw').block = w.owned blk ∧
      (isReg (mode % 65536) = true → Sound fs w raw') ∧
      (data.length < 4294967296 → w.content fs (decodeInode raw') = data) := by
  intro raw'
  obtain ⟨hlen, hmode, huid, hgid, hsize, hlinks, hcount, hblock⟩ :=
    setInode_fields mode uid gid data.length links b512 blk hraw
  have hblk : ∀ i, i < 15 → (decodeInode raw').block i = blk i :=
    fun i hi => hblock i hi (hlaid.lt i)
  have howned : w.owned (decodeInode raw').block = w.owned blk :=
    w.owned_congr fun i hi => hblk i (by omega)
  refine ⟨hlen, hmode, huid, hgid, hlinks, howned, fun hreg => ⟨?_, ?_, ?_, ?_⟩, fun hlt => ?_⟩
  · right
    rw [hmode]
    exact hreg
  · rw [hblk 14 (by omega)]
    exact hlaid.last
  · have hle : (w.owned blk).length * (fs.blockSize / 512) ≤ 8800000 :=
      count_owned_le hfull fun b hb => hlaid.grown.data b hb
    rw [hcount, howned, hlaid.count, Nat.mod_eq_of_lt (by omega)]
  · intro hdir
    rw [hmode] at hdir
    simp only [isDir, isReg, decide_eq_true_eq] at hdir hreg
    omega
  · exact hlaid.content (fun i hi => hblk i (by omega)) (by rw [hsize, Nat.mod_eq_of_lt hlt])

/-! ## An inode comes alive -/

section

variable {live : Finset Nat} {loose : Multiset Nat}

theorem Vol.putInode_addInode (v : Vol) (i : Nat) (dir : Bool) (x y : Bytes) :
    (v.addInode i dir x).putInode i y = v.addInode i dir y := by
  simp [putInode, addInode]

theorem same_addInode {i j : Nat} (hne : j ≠ i) (dir : Bool) (x : Bytes) :
    Same v (v.addInode i dir x) j :=
  ⟨update_of_ne hne .., fun _ _ => rfl⟩

theorem Kept.addInode_aside {i : Nat} (hk : Kept L v live loose) (hfull : L.Full v)
    (hfree : i ∉ v.inodes)
    (dir : Bool) (raw : Bytes) : Kept L (v.addInode i dir raw) live loose := by
  have hnot : ∀ j ∈ live, j ≠ i := fun j hj heq => hfree (heq ▸ hk.alive hj)
  refine hk.carry hfull (fun j hj => same_addInode (hnot j hj) dir raw) ?_ ?_
    (fun j hj => ?_) hk.ledger
  · exact hk.alive.trans (Finset.subset_insert ..)
  · cases dir with
    | false => exact hk.counted.trans (Finset.subset_insert _ _)
    | true => exact Finset.insert_subset_insert _ hk.counted
  · cases dir with
    | false => exact Iff.rfl
    | true => exact (Finset.mem_insert.trans (or_iff_right (hnot j hj)))

theorem Kept.addInode {i : Nat} {dir : Bool} {raw : Bytes} {bs : List Nat}
    (hk : Kept L v live (bs + loose)) (hfull : L.Full v) (hi : fs.ValidIno i) (hfree : i ∉ v.inodes)
    (howned : v.owned (decodeInode raw).block = bs) (hsound : Sound fs v raw)
    (hdir : isDir (decodeInode raw).mode = dir) :
    Kept L (v.addInode i dir raw) (Insert.insert i live) loose := by
  have hself : (v.addInode i dir raw).inode i = raw := update_self ..
  have hfree' : i ∉ v.dirs := fun hmem => hfree (hk.counted hmem)
  have hcarry := hk.addInode_aside hfull hfree dir raw
  have hblks : (v.addInode i dir raw).blocks i = bs := by
    rw [blocks, node, hself]
    exact howned
  refine Kept.insert (hblks.symm ▸ hcarry) (fun hmem => hfree (hk.alive hmem)) hi
    (mem_insert_self ..)
    ?_ ?_
  · rw [node, hself, hdir]
    cases dir with
    | false => exact iff_of_false Bool.false_ne_true hfree'
    | true => exact iff_of_true rfl (mem_insert_self _ _)
  · rw [hself]
    refine hsound.frame hfull (fun b hb => ?_) fun _ _ => rfl
    rw [howned] at hb
    exact (Layout.mem_taken.1 (hk.ledger.mem_used_of_loose (Multiset.mem_add.2 (.inl hb)))).2

end

/-! ## New files -/

/-- What `write_path_owned` does after the checks. -/
def writeIn (fs : Ext2) (p : Nat) (name data : Bytes) (uid gid : Nat) : M Unit := do
  let (block, blocks512) ← okOr "no space / file too large" (fs.layOutData data)
  let found ← fs.lookup p name
  fs.store p name uid gid data.length blocks512 block found
  fs.syncBackups

/-- What `mkdir_path_owned` does after the checks. -/
def makeDirIn (fs : Ext2) (p : Nat) (name : Bytes) (uid gid : Nat) : M Unit := do
  let ino ← okOr "no free inode" (fs.allocInode true)
  let bno ← okOr "no free block" fs.allocBlock
  fs.writeBlock bno (fs.newDirBlock ino p)
  fs.patchInode ino
    (setInode 0o040755 uid gid fs.blockSize 2 (fs.blockSize / 512) (blockArray [bno] 0 0))
  fs.dirInsert p name ino true
  fs.bumpLinks p 1
  fs.syncBackups

/-- The inode `i` is new, with a name in the directory `p`. -/
structure Born (L : Layout fs) (v : Vol) (live : Finset Nat) (p : Nat) (e : Entry)
    (dir : Bool) (v' : Vol) : Prop where
  valid : fs.ValidIno e.ino
  fresh : e.ino ∉ v.inodes
  kept : Kept L v' (insert e.ino live) 0
  beside : Beside v live p v'
  inodes : v'.inodes = insert e.ino v.inodes
  dirs : v'.dirs = if dir then insert e.ino v.dirs else v.dirs
  adds : Gains fs v p e v'

structure NewFile (L : Layout fs) (v : Vol) (live : Finset Nat) (p : Nat) (e : Entry) (data : Bytes)
    (uid gid : Nat) (v' : Vol) : Prop extends Born L v live p e false v' where
  parent : le16 (v'.inode p) 26 = le16 (v.inode p) 26
  links : le16 (v'.inode e.ino) 26 = 1
  mode : (v'.node e.ino).mode = 0o100644
  uid : (v'.node e.ino).uid = uid % 65536
  gid : (v'.node e.ino).gid = gid % 65536
  content : data.length < 4294967296 → v'.content fs (v'.node e.ino) = data

/-- The new directory `i`. -/
structure NewDir (L : Layout fs) (v : Vol) (live : Finset Nat) (p : Nat) (e : Entry) (v' : Vol) :
    Prop extends Born L v live p e true v' where
  parent : le16 (v'.inode p) 26 = (le16 (v.inode p) 26 + 1) % 65536
  links : le16 (v'.inode e.ino) 26 = 2
  entries : v'.entries fs (v'.node e.ino) = [⟨e.ino, dot⟩, ⟨p, dotdot⟩]

theorem ValidIno.lt (L : Layout fs) {i : Nat} (hi : fs.ValidIno i) : i < 2 ^ 32 := by
  have := L.inodeCount_lt
  have := hi.2
  omega

/-- No record in a direct block of `p` has room for the name. -/
def Cramped (v : Vol) (p : Nat) (name : Bytes) : Prop :=
  ∀ b ∈ (List.range 12).map (v.node p).block, b ≠ 0 → Packed v name b

theorem NoRoom.cramped {p : Nat} {name : Bytes} (h : NoRoom L w p name) (hs : Same v w p) :
    Cramped v p name := by
  intro b hb h0
  have hpack := h.1 b (by rwa [hs.node]) h0
  obtain ⟨k, hk, rfl⟩ := mem_map.1 hb
  rw [mem_range] at hk
  rwa [Packed, hs.data _ (mem_owned_of_direct hk h0)] at hpack

theorem meets_create {live : Finset Nat} {p : Nat} {name data : Bytes} {uid gid : Nat}
    {blk : Nat → Nat} {b512 : Nat} (hk : Kept L v live 0) (hfull : L.Full v)
    (hlaid : Laid L v data blk b512 w) (hp : p ∈ live) (hdir : isDir (v.node p).mode = true)
    (hname : name.length < 256) {Q : Unit → Vol → Prop} {E : Stop → Vol → Prop} {C : Vol → Prop}
    (hC : ∀ u, C u)
    (hE : ∀ msg u, fs.InodesFull v ∨ Cramped v p name → E (.err msg) u)
    (hQ : ∀ i v', NewFile L v live p ⟨i, name⟩ data uid gid v' → Q () v') :
    L.Meets w (fs.create p name uid gid data.length b512 blk) Q E C := by
  have hsame : ∀ j ∈ live, Same v w j := fun j hj =>
    ⟨congrFun hlaid.grown.inode j, fun b hb => hlaid.grown.later.2 b (hk.mem_taken hj hb).1⟩
  have hkw := hk.grow hfull hlaid.grown
  refine assume (fun d hd => hd.glimpse.full) fun hfullw => ?_
  refine bind (mapErr (meets_allocInode hkw.counted (fun hno => ?_) (hC _)
    (fun i hi hfree => ?_) fun _ _ _ _ => hC _))
  · refine hE _ _ (.inl fun i hi => ?_)
    rw [← hlaid.grown.inodes]
    exact hno i hi
  have hraw : 100 ≤ (List.replicate fs.inodeSize (0 : UInt8)).length := by
    have := L.inodeSize_ge
    rw [length_replicate]
    omega
  obtain ⟨hlen, hmode, huid, hgid, hlinks, howned, hsound, hcont⟩ :=
    hlaid.inode hraw hfullw 0o100644 uid gid 1
  generalize hraw' : setInode 0o100644 uid gid data.length 1 b512 blk
    (List.replicate fs.inodeSize 0) = raw
    at hlen hmode huid hgid hlinks howned hsound hcont
  have hself : (w.addInode i false (List.replicate fs.inodeSize 0)).inode i =
    List.replicate fs.inodeSize 0 :=
    update_self ..
  have hkb : Kept L (w.addInode i false raw) (insert i live) 0 :=
    hkw.addInode hfullw hi hfree howned (hsound rfl) (by rw [hmode]; rfl)
  have hne : ∀ j ∈ live, j ≠ i := fun j hj heq => hfree (heq ▸ hkw.alive hj)
  have hsameb : ∀ j ∈ live, Same v (w.addInode i false raw) j := fun j hj =>
    (hsame j hj).trans (same_addInode (hne j hj) ..)
  refine bind (meets_patchInode hi (fun _ => ?_) (hC _) ?_ (hC _) fun _ _ => hC _)
  · rw [hself, hraw', hlen, length_replicate]
  rw [hself, hraw', putInode_addInode]
  refine assume (fun d hd => hd.glimpse.full) fun hfullb => ?_
  refine meets_dirInsert hkb (mem_insert_of_mem hp) ?_ (hi.lt L) (by have := hi.1; omega) hname hC
    (fun msg hno => hE msg _ (.inr (hno.cramped (hsameb p hp))))
      fun v' hk' hedit hgains => hQ i v' ?_
  · rw [(hsameb p hp).node]
    exact hdir
  have hinode : (w.addInode i false raw).inode i = raw := update_self ..
  have hsi := hedit.same i (mem_insert_self ..) (hne p hp).symm
  have hnode : v'.node i = decodeInode raw := by rw [hsi.node, node, hinode]
  refine ⟨⟨hi, ?_, hk', ?_, ?_, ?_, ?_⟩, ?_, ?_, ?_, ?_, ?_, fun hlt => ?_⟩
  · rwa [hlaid.grown.inodes] at hfree
  · exact Beside.after hsameb hp
      ⟨fun j hj hne => hedit.same j (mem_insert_of_mem hj) hne, hedit.mode, hedit.uid, hedit.gid⟩
  · rw [hedit.inodes, addInode_inodes, hlaid.grown.inodes]
  · rw [hedit.dirs, addInode_dirs, hlaid.grown.dirs]
  · rwa [Gains, (hsameb p hp).entries hfull (hk.owns hp) (hk.shape hp hdir)] at hgains
  · rw [hedit.links, (hsameb p hp).inode]
  · rw [hsi.inode, hinode]
    exact hlinks
  · rw [hnode, hmode]
  · rw [hnode, huid]
  · rw [hnode, hgid]
  · rw [hsi.content hfullb (hkb.owns (mem_insert_self ..)), node, hinode]
    exact hcont hlt

/-! ## Inodes whose blocks stay -/

section

variable {live : Finset Nat} {loose : Multiset Nat} {i : Nat} {raw : Bytes}

/-- The inode points to the same blocks, and is of the same kind. -/
structure Retouched (raw raw' : Bytes) : Prop where
  block : (decodeInode raw').block = (decodeInode raw).block
  size : (decodeInode raw').size = (decodeInode raw).size
  dir : isDir (decodeInode raw').mode = isDir (decodeInode raw).mode
  reg : isReg (decodeInode raw').mode = isReg (decodeInode raw).mode
  count : le32 raw' 28 = le32 raw 28

theorem DirShape.congr {v' : Vol} {node node' : Inode} (h : DirShape fs v node)
    (hdata : v'.data = v.data)
    (hblock : node'.block = node.block) (hsize : node'.size = node.size) :
    DirShape fs v' node' := by
  have hlen : dirLen fs node' = dirLen fs node := by rw [dirLen, dirLen, hsize]
  have hptr : v'.ptr fs = v.ptr fs := ptr_of_data hdata
  refine ⟨?_, ?_, ?_, ?_, ?_, ?_⟩ <;> rw [hlen]
  · rw [hsize]
    exact h.size_eq
  · exact h.pos
  · exact h.le_cap
  · rw [hblock]
    exact h.direct
  · rw [hblock, hptr]
    exact h.ne_zero
  · rw [hblock, hptr, hdata]
    exact h.block

theorem Kept.putInode (hk : Kept L v live loose) (hfull : L.Full v) (hi : i ∈ live)
    (h : Retouched (v.inode i) raw) : Kept L (v.putInode i raw) live loose := by
  have hself : (v.putInode i raw).inode i = raw := update_self ..
  have howned : (v.putInode i raw).owned (decodeInode raw).block = v.blocks i := by
    rw [h.block]
    rfl
  have hsound := hk.sound i hi
  have hsame : ∀ j ∈ live.erase i, Same v (v.putInode i raw) j := fun j hj =>
    ⟨update_of_ne (Finset.ne_of_mem_erase hj) .., fun _ _ => rfl⟩
  refine hk.replace hfull hi hsame rfl rfl rfl ?_ ?_ ?_
  · rw [blocks, node, hself, howned]
  · rw [node, hself, h.dir]
    rfl
  · rw [hself]
    refine ⟨by rw [h.dir, h.reg]; exact hsound.kind, by
      rw [h.block]; exact hsound.triple, ?_, fun hd => ?_⟩
    · rw [h.count, howned]
      exact hsound.count
    · rw [h.dir] at hd
      exact (hsound.shape hd).congr rfl h.block h.size

theorem Kept.sync (hk : Kept L v live loose) : Kept L v.sync live loose where
  __ := hk
  sound j hj :=
    have h := hk.sound j hj
    ⟨h.kind, h.triple, h.count, fun hd => (h.shape hd).congr rfl rfl rfl⟩

theorem retouched_addLinks {raw : Bytes} (hlen : 100 ≤ raw.length) (delta : Int) :
    Retouched raw (addLinks delta raw) := by
  obtain ⟨-, hdec, -, hcount⟩ := addLinks_fields hlen delta
  exact ⟨by rw [hdec], by rw [hdec], by rw [hdec], by rw [hdec], hcount⟩

end

/-! ## New directories -/

section MakeDir

variable {live : Finset Nat} {p : Nat} (hk : Kept L v live 0) (uid gid : Nat)

/-- The volume with the new directory `i` in the block `b`, before it has a name. -/
def Vol.addDir (fs : Ext2) (v : Vol) (uid gid i p b : Nat) : Vol :=
  (v.addBlock b (fs.newDirBlock i p)).addInode i true
    (newDirInode fs uid gid b (List.replicate fs.inodeSize 0))

theorem Vol.addDir_inode_self (v : Vol) (i p b : Nat) : (v.addDir fs uid gid i p b).inode i =
    newDirInode fs uid gid b (List.replicate fs.inodeSize 0) := update_self ..

theorem Vol.addDir_data_self (v : Vol) (i p b : Nat) : (v.addDir fs uid gid i p b).data b =
    fs.newDirBlock i p := update_self ..

theorem full_addDir (hfull : L.Full v) (i p b : Nat) : L.Full (v.addDir fs uid gid i p b) where
  data n hn := by
    rw [addDir, addInode_data, addBlock_data, update_apply]
    split_ifs
    · exact length_newDirBlock L i p
    · exact hfull.data n hn
  inode j hj := by
    rw [addDir, addInode_inode, update_apply]
    split_ifs
    · have := L.inodeSize_ge
      have hraw : 100 ≤ (List.replicate fs.inodeSize (0 : UInt8)).length := by
        rw [length_replicate]
        omega
      rw [(newDirInode_fields hraw uid gid L b).1, length_replicate]
    · exact hfull.inode j hj

include hk

theorem Kept.addDir (hfull : L.Full v) (hp : fs.ValidIno p) {i b : Nat} (hi : fs.ValidIno i)
    (hfree : i ∉ v.inodes) (hb : L.Data b) (hbfree : b ∉ v.used) :
    Kept L (v.addDir fs uid gid i p b) (Insert.insert i live) 0 ∧
      (∀ j ∈ live, Same v (v.addDir fs uid gid i p b) j) ∧
      (v.addDir fs uid gid i p b).entries fs ((v.addDir fs uid gid i p b).node i) =
        [⟨i, dot⟩, ⟨p, dotdot⟩] ∧ le16 ((v.addDir fs uid gid i p b).inode i) 26 = 2 := by
  have hi0 : i ≠ 0 := by have := hi.1; omega
  have hp0 : p ≠ 0 := by have := hp.1; omega
  have hraw : 100 ≤ (List.replicate fs.inodeSize (0 : UInt8)).length := by
    have := L.inodeSize_ge
    rw [length_replicate]
    omega
  have hdata : (v.addBlock b (fs.newDirBlock i p)).data b = fs.newDirBlock i p := update_self ..
  have howned := owned_newDirInode hraw hb uid gid (v.addBlock b (fs.newDirBlock i p))
  have hsound := sound_newDirInode hraw hb uid gid (hi.lt L) hi0 (hp.lt L) hp0 hdata
  have hents := (shape_newDirInode hraw hb uid gid (hi.lt L) hi0 (hp.lt L) hp0 hdata).2
  obtain ⟨-, hmode, -, hlinks, -⟩ := newDirInode_fields hraw uid gid L b
  have hg : Grown L v [b] (v.addBlock b (fs.newDirBlock i p)) :=
    (Grown.refl L v).addBlock hb hbfree _
  have hfull1 : L.Full (v.addBlock b (fs.newDirBlock i p)) := by
    refine ⟨fun m hm => ?_, hfull.inode⟩
    by_cases hmb : m = b
    · rw [hmb, hdata]
      exact length_newDirBlock L i p
    · rw [addBlock_data, update_of_ne hmb]
      exact hfull.data m hm
  have hne : ∀ j ∈ live, j ≠ i := fun j hj heq => hfree (heq ▸ hk.alive hj)
  have hgrow : ∀ j ∈ live, Same v (v.addBlock b (fs.newDirBlock i p)) j := fun j hj =>
    ⟨rfl, fun a ha => hg.later.2 a (hk.mem_taken hj ha).1⟩
  have hinode : (v.addDir fs uid gid i p b).inode i =
      newDirInode fs uid gid b (List.replicate fs.inodeSize 0) := update_self ..
  refine ⟨(hk.grow hfull hg).addInode hfull1 hi hfree howned hsound (by rw [hmode]; rfl),
    fun j hj => (hgrow j hj).trans (same_addInode (hne j hj) ..), ?_, by rw [hinode, hlinks]⟩
  have hkeep : (v.addDir fs uid gid i p b).data = (v.addBlock b (fs.newDirBlock i p)).data := rfl
  rw [node, hinode, entries_of_data hkeep, hents]

variable {name : Bytes} (hp : p ∈ live) (hdir : isDir (v.node p).mode = true)
  (hname : name.length < 256)
include hp hdir hname

theorem meets_makeDirIn {Q : Unit → Vol → Prop} {E : Stop → Vol → Prop} {C : Vol → Prop}
    (hC : ∀ u, C u)
    (hE : ∀ msg u, fs.InodesFull v ∨ L.BlocksFull v ∨ Cramped v p name → E (.err msg) u)
    (hQ : ∀ i v', NewDir L v live p ⟨i, name⟩ v' → Q () v'.sync) :
    L.Meets v (fs.makeDirIn p name uid gid) Q E C := by
  refine assume (fun d hd => hd.glimpse.full) fun hfull => ?_
  -- the inode and its block are taken and filled
  refine bind (mapErr (meets_allocInode hk.counted (fun hno => hE _ _ (.inl hno)) (hC _)
    (fun i hi hfree => ?_) fun _ _ _ _ => hC _))
  refine bind (mapErr (meets_allocBlock (fun hno => hE _ _ (.inr (.inl hno))) (hC _)
    (fun b hb hbfree => ?_) fun _ _ _ _ => hC _))
  refine bind (meets_writeBlock hb (length_newDirBlock L i p) ?_ (hC _) fun _ _ _ => hC _)
  refine bind (meets_patchInode hi (fun hl => ?_) (hC _) ?_ (hC _) fun _ _ => hC _)
  · rw [(setInode_fields _ _ _ _ _ _ _ ?_).1, hl]
    have := L.inodeSize_ge
    omega
  have hstate : (((v.addInode i true (List.replicate fs.inodeSize 0)).addBlock b
      (List.replicate fs.blockSize 0)).putData b (fs.newDirBlock i p)).putInode i
      (setInode 0o040755 uid gid fs.blockSize 2 (fs.blockSize / 512) (blockArray [b] 0 0)
        ((((v.addInode i true (List.replicate fs.inodeSize 0)).addBlock b
          (List.replicate fs.blockSize 0)).putData b (fs.newDirBlock i p)).inode i)) =
      v.addDir fs uid gid i p b := by
    simp [putData, addBlock, addInode, putInode, addDir, newDirInode]
  rw [hstate]
  obtain ⟨hku, hsame, hents, hlinks⟩ :=
    hk.addDir uid gid hfull (hk.valid p hp) hi hfree hb hbfree
  have hinos : (v.addDir fs uid gid i p b).inodes = insert i v.inodes := rfl
  have hdirs : (v.addDir fs uid gid i p b).dirs = insert i v.dirs := rfl
  generalize v.addDir fs uid gid i p b = u at *
  have hne : p ≠ i := fun heq => hfree (heq ▸ hk.alive hp)
  refine assume (fun d hd => hd.glimpse.full) fun hfullu => ?_
  refine bind (meets_dirInsert hku (mem_insert_of_mem hp) ?_ (hi.lt L)
    (by have := hi.1; omega) hname hC
    (fun msg hno => hE msg _ (.inr (.inr (hno.cramped (hsame p hp))))) fun w hkw hedit hgains => ?_)
  · rw [(hsame p hp).node]
    exact hdir
  -- the parent has one more link
  refine assume (fun d hd => hd.glimpse.full) fun hfullw => ?_
  have hp' : p ∈ insert i live := mem_insert_of_mem hp
  have hi' : i ∈ insert i live := mem_insert_self ..
  have hlenp : 100 ≤ (w.inode p).length := by
    have := L.inodeSize_ge
    have := hfullw.inode p (hkw.valid p hp')
    omega
  obtain ⟨hlenp', hdec, hlinks', -⟩ := addLinks_fields hlenp 1
  refine bind (meets_patchInode (hkw.valid p hp') (fun hl => by rw [hlenp', hl]) (hC _) ?_ (hC _)
    fun _ _ => hC _)
  have hk4 := hkw.putInode hfullw hp' (retouched_addLinks hlenp 1)
  have hself : (w.putInode p (addLinks 1 (w.inode p))).inode p = addLinks 1 (w.inode p) :=
    update_self ..
  have hother : ∀ j, j ≠ p → Same w (w.putInode p (addLinks 1 (w.inode p))) j := fun j hj =>
    ⟨update_of_ne hj .., fun _ _ => rfl⟩
  have hnodep : (w.putInode p (addLinks 1 (w.inode p))).node p = w.node p := by
    rw [node, hself, hdec, node]
  have hsamei := (hedit.same i hi' hne.symm).trans (hother i hne.symm)
  have hshape := hku.shape hi' ((hku.dirs i hi').2 (hdirs ▸ mem_insert_self ..))
  refine meets_syncBackups (hC _) (hQ i _ ⟨⟨hi, hfree, hk4, Beside.after hsame hp ⟨?_, ?_, ?_, ?_⟩,
    hedit.inodes.trans hinos, hedit.dirs.trans hdirs, ?_⟩, ?_, ?_, ?_⟩)
  · exact fun j hj hjp => (hedit.same j (mem_insert_of_mem hj) hjp).trans (hother j hjp)
  · rw [hnodep, hedit.mode]
  · rw [hnodep, hedit.uid]
  · rw [hnodep, hedit.gid]
  · rw [Gains, (hsame p hp).entries hfull (hk.owns hp) (hk.shape hp hdir)] at hgains
    have hdata : (w.putInode p (addLinks 1 (w.inode p))).data = w.data := rfl
    rwa [Gains, hnodep, entries_of_data hdata]
  · rw [hself, hlinks', hedit.links, (hsame p hp).inode]
    omega
  · rw [hsamei.inode, hlinks]
  · rw [hsamei.entries hfullu (hku.owns hi') hshape, hents]

end MakeDir

end Thos.Ext2
