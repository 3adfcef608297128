import Thos.Ext2.Failure

/-!
# Calls that make and overwrite

`write_path_owned` and `mkdir_path_owned` on a consistent volume: what a new file, a new
directory and a file with other data are to the volume, and that the volume is consistent
afterwards. A new directory is one more link of its parent, so this needs room in the
parent's link count.
-/

set_option autoImplicit false

namespace Thos.Ext2

open Thos.Lib Meets Vol

variable {fs : Ext2} {L : Layout fs} {v v' w : Vol} {d : Disk}

/-! ## A name more -/

section

variable {p : Nat} {e : Entry} {dir : Bool} (hb : Born L v (L.live v) p e dir v')
include hb

theorem Born.notMem : e.ino ∉ L.live v := fun hmem => hb.fresh (Finset.mem_sdiff.1 hmem).1

theorem Born.links {i : Nat} (hi : i ∈ L.live v) (hne : i ≠ p) :
    (L.names v').links i = (L.names v).links i := by
  change le16 (v'.inode i) 26 = le16 (v.inode i) 26
  rw [(hb.beside.same i hi hne).inode]

variable (h : Consistent L v)
include h

theorem Born.live : L.live v' = insert e.ino (L.live v) := by
  rw [Layout.live, hb.inodes, Finset.insert_sdiff_of_notMem _ (h.not_reserved hb.fresh)]
  rfl

theorem Born.reserved : ∀ i ∈ L.reservedInos, i ∈ v'.inodes := fun i hi => by
  rw [hb.inodes]
  exact Finset.mem_insert_of_mem (h.reserved i hi)

theorem Born.entries {i : Nat} (hfull : L.Full v) (hi : i ∈ v.dirs) (hne : i ≠ p) :
    (L.names v').entries i = (L.names v).entries i :=
  (hb.beside.same i (h.mem_live hi) hne).entries hfull (h.kept.owns (h.mem_live hi)) (h.shape hi)

end

section

variable {p : Nat} {e : Entry} (h : Consistent L v) (hfull : L.Full v) (hp : p ∈ v.dirs)
  (hprop : e.Proper)
include h hfull hp hprop

theorem NewFile.consistent {data : Bytes} {uid gid : Nat}
    (hn : NewFile L v (L.live v) p e data uid gid v') : Consistent L v'.sync := by
  have hb := hn.toBorn
  refine Consistent.of_sync (by rw [hb.live h]; exact hb.kept) ?_ (hb.reserved h)
  have hadds : Names.AddsAt (L.names v) p e (L.names v') :=
    ⟨hp, hb.dirs, fun i hi hne => hb.entries h hfull hi hne, hb.adds⟩
  refine h.names.create hadds hprop (hb.notMem) (hb.live h) (fun i hi => ?_) hn.links
  by_cases hip : i = p
  · rw [hip]
    exact hn.parent
  · exact hb.links hi hip

theorem NewDir.consistent (hn : NewDir L v (L.live v) p e v')
    (hlinks : le16 (v.inode p) 26 ≠ 65535) : Consistent L v'.sync := by
  have hb := hn.toBorn
  refine Consistent.of_sync (by rw [hb.live h]; exact hb.kept) ?_ (hb.reserved h)
  have hadds : Names.AddsDir (L.names v) p e (L.names v') := by
    refine ⟨hp, fun hmem => hb.notMem (h.mem_live hmem), hb.dirs,
      fun i hi hne => hb.entries h hfull hi hne, hb.adds, ?_⟩
    rw [show (L.names v').entries e.ino = [⟨e.ino, dot⟩, ⟨p, dotdot⟩] from hn.entries]
  refine h.names.mkdir hadds hprop (hb.notMem) (hb.live h) (fun i hi hne => hb.links hi hne) ?_
    hn.links
  have hlt := le16_lt (v.inode p) 26
  change le16 (v'.inode p) 26 = le16 (v.inode p) 26 + 1
  rw [hn.parent]
  omega

end

/-! ## Other data in a file -/

/-- The file `i` holds other data; `loose` is left of the old blocks. -/
structure Rewritten (L : Layout fs) (v : Vol) (live : Finset Nat) (loose : Multiset Nat) (i : Nat)
    (data : Bytes) (v' : Vol) : Prop where
  kept : Kept L v' live loose
  same : ∀ j ∈ live, j ≠ i → Same v v' j
  inodes : v'.inodes = v.inodes
  dirs : v'.dirs = v.dirs
  links : le16 (v'.inode i) 26 = le16 (v.inode i) 26
  mode : (v'.node i).mode = (v.node i).mode
  uid : (v'.node i).uid = (v.node i).uid
  gid : (v'.node i).gid = (v.node i).gid
  content : data.length < 4294967296 → v'.content fs (v'.node i) = data

/-- The patch of `overwrite`. -/
def commitInode (old : Inode) (size b512 : Nat) (blk : Nat → Nat) (raw : Bytes) : Bytes :=
  setInode old.mode old.uid old.gid size (le16 raw 26) b512 blk raw

section Overwrite

variable {live : Finset Nat} {i : Nat} {data : Bytes} {blk : Nat → Nat} {b512 : Nat}

theorem Rewritten.drop {loose : Multiset Nat} {bs : List Nat}
    (hr : Rewritten L v live (bs + loose) i data v')
    (hfull : L.Full v') : Rewritten L v live loose i data (v'.dropBlocks bs) := by
  exact { hr with
    kept := hr.kept.drop hfull
    same := fun j hj hne => (hr.same j hj hne).trans ⟨rfl, fun _ _ => rfl⟩ }

variable (hk : Kept L v live 0) (hfull : L.Full v) (hlaid : Laid L v data blk b512 w)
  (hi : i ∈ live)
  (hreg : isReg (v.node i).mode = true)
include hk hfull hlaid hi hreg

theorem Kept.commit (hfullw : L.Full w) :
    (commitInode (v.node i) data.length b512 blk (w.inode i)).length = (w.inode i).length ∧
      Rewritten L v live (v.blocks i) i data
        (w.putInode i (commitInode (v.node i) data.length b512 blk (w.inode i))) := by
  have hg := hlaid.grown
  have hsame : ∀ j ∈ live, Same v w j := fun j hj =>
    ⟨congrFun hg.inode j, fun b hb => hg.later.2 b (hk.mem_taken hj hb).1⟩
  have hkw := hk.grow hfull hg
  have hraw : 100 ≤ (w.inode i).length := by
    have := L.inodeSize_ge
    have := hfullw.inode i (hk.valid i hi)
    omega
  have hmode' : (v.node i).mode < 65536 := le16_lt ..
  have huid' : (v.node i).uid < 65536 := le16_lt ..
  have hgid' : (v.node i).gid < 65536 := le16_lt ..
  obtain ⟨hlen, hmode, huid, hgid, hlinks, howned, hsound, hcont⟩ :=
    hlaid.inode hraw hfullw (v.node i).mode (v.node i).uid (v.node i).gid (le16 (w.inode i) 26)
  rw [Nat.mod_eq_of_lt hmode'] at hmode hsound
  rw [Nat.mod_eq_of_lt huid'] at huid
  rw [Nat.mod_eq_of_lt hgid'] at hgid
  rw [Nat.mod_eq_of_lt (le16_lt ..)] at hlinks
  have hold : le16 (w.inode i) 26 = le16 (v.inode i) 26 := by rw [(hsame i hi).inode]
  refine ⟨hlen, ?_⟩
  rw [commitInode]
  generalize setInode (v.node i).mode (v.node i).uid (v.node i).gid data.length
    (le16 (w.inode i) 26) b512
    blk (w.inode i) = raw at *
  have hself : (w.putInode i raw).inode i = raw := Function.update_self ..
  have hnode : (w.putInode i raw).node i = decodeInode raw := by rw [node, hself]
  have hother : ∀ j, j ≠ i → Same w (w.putInode i raw) j := fun j hj =>
    ⟨Function.update_of_ne hj .., fun _ _ => rfl⟩
  have hblks : (w.putInode i raw).blocks i = w.owned blk := by
    rw [blocks, hnode]
    exact howned
  have hsoundw := hsound hreg
  refine ⟨hkw.replace hfullw hi (fun j hj => hother j (Finset.ne_of_mem_erase hj)) rfl
    rfl rfl ?_ ?_ ?_,
    fun j hj hne => (hsame j hj).trans (hother j hne), hg.inodes, hg.dirs, ?_, ?_, ?_, ?_,
      fun hlt => ?_⟩
  · rw [hblks, (hsame i hi).blocks, add_zero, add_comm]
  · rw [hnode, hmode, (hsame i hi).node]
  · rw [hself]
    exact ⟨hsoundw.kind, hsoundw.triple, hsoundw.count,
      fun hdir => (hsoundw.shape hdir).congr rfl rfl rfl⟩
  · rw [hself, hlinks, hold]
  · rw [hnode, hmode]
  · rw [hnode, huid]
  · rw [hnode, hgid]
  · have hkeep : (w.putInode i raw).data = w.data := rfl
    rw [hnode, content_of_data hkeep, hcont hlt]

theorem meets_overwrite {Q : Unit → Vol → Prop} {E : Stop → Vol → Prop} {C : Vol → Prop} (hC : C w)
    (hcut : ¬ fs.inodeSize ∣ sector → ∀ x, C (w.putInode i x))
    (hafter : ∀ loose u, Rewritten L v live loose i data u → C u)
    (hQ : ∀ u, Rewritten L v live 0 i data u → Q () u) :
    L.Meets w (fs.overwrite i data.length b512 blk) Q E C := by
  have hg := hlaid.grown
  have hsame : Same v w i := ⟨congrFun hg.inode i, fun b hb => hg.later.2 b (hk.mem_taken hi hb).1⟩
  refine assume (fun d hd => hd.glimpse.full) fun hfullw => ?_
  obtain ⟨hlen, hr⟩ := hk.commit hfull hlaid hi hreg hfullw
  have hnode : decodeInode (w.inode i) = v.node i := hsame.node
  refine read (fun d hd => hd.glimpse.readInode (hk.valid i hi)) ?_
  rw [hnode]
  change L.Meets w (do
    fs.patchInode i (commitInode (v.node i) data.length b512 blk)
    fs.freeAllBlocks (v.node i)) Q E C
  refine bind (meets_patchInode (hk.valid i hi) (fun hl => hlen.trans hl) hC ?_
    (hafter _ _ hr) hcut)
  generalize commitInode (v.node i) data.length b512 blk (w.inode i) = raw at hr
  refine assume (fun d hd => hd.glimpse.full) fun hfullu => ?_
  -- the old blocks are those of the inode before the call
  have howned : (w.putInode i raw).owned (v.node i).block = v.blocks i := by
    rw [← hsame.blocks, blocks, hsame.node]
    rfl
  have hfrees := frees_freeAllBlocks (L := L) (v := w.putInode i raw) (v.node i)
  rw [howned] at hfrees
  refine hfrees _ rfl (hk.nodup hi) (fun b hb => ?_) (fun bs hbs => ?_) ?_
  · obtain ⟨hused, hdata⟩ := hk.mem_taken hi hb
    exact ⟨hdata, hg.mem_used.2 (.inl hused)⟩
  · obtain ⟨rest, hrest⟩ := hbs
    have hsplit : (v.blocks i : Multiset Nat) = bs + rest := by rw [← hrest, Multiset.coe_add]
    rw [hsplit] at hr
    exact hafter _ _ (hr.drop hfullu)
  · have hall : (v.blocks i : Multiset Nat) = v.blocks i + 0 := (add_zero _).symm
    rw [hall] at hr
    exact hQ _ (hr.drop hfullu)

end Overwrite

theorem Rewritten.consistent {i : Nat} {data : Bytes} (h : Consistent L v) (hfull : L.Full v)
    (hi : i ∉ v.dirs) (hr : Rewritten L v (L.live v) 0 i data v') : Consistent L v'.sync := by
  have hlive : L.live v' = L.live v := by rw [Layout.live, hr.inodes, Layout.live]
  refine Consistent.of_sync (by rw [hlive]; exact hr.kept) ?_ (by rw [hr.inodes]; exact h.reserved)
  refine h.names.congr hlive hr.dirs (fun j hj => ?_) fun j hj => ?_
  · have hne : j ≠ i := by
      rintro rfl
      exact hi hj
    exact (hr.same j (h.mem_live hj) hne).entries hfull (h.kept.owns (h.mem_live hj)) (h.shape hj)
  · change le16 (v'.inode j) 26 = le16 (v.inode j) 26
    by_cases hji : j = i
    · rw [hji, hr.links]
    · rw [(hr.same j hj hji).inode]

/-! ## The two calls -/

/-- What a write that succeeds has done: there is a new file under the name, or the file
that has the name holds other data. -/
inductive Wrote (L : Layout fs) (v : Vol) (p : Nat) (name data : Bytes) (uid gid : Nat) : Vol → Prop
  | new (i : Nat) (u : Vol) (hfind : v.find fs (v.node p) name = none)
      (h : NewFile L v (L.live v) p ⟨i, name⟩ data uid gid u) : Wrote L v p name data uid gid u.sync
  | old (i : Nat) (u : Vol) (hfind : v.find fs (v.node p) name = some i)
      (h : Rewritten L v (L.live v) 0 i data u) : Wrote L v p name data uid gid u.sync

section

variable {p : Nat} {name data : Bytes} {uid gid : Nat} (h : Consistent L v) (hp : p ∈ v.dirs)
  (hfile : ∀ i, v.find fs (v.node p) name = some i → i ∉ v.dirs)
include h hp hfile

theorem Wrote.consistent {u : Vol} (hw : Wrote L v p name data uid gid u) (hfull : L.Full v)
    (hprop : name ≠ dot ∧ name ≠ dotdot) : Consistent L u := by
  cases hw with
  | new i u hfind hn =>
    exact hn.consistent h hfull hp (show (⟨i, name⟩ : Entry).Proper from hprop)
  | old i u hfind hr => exact hr.consistent h hfull (hfile i hfind)

theorem meets_writeIn (hname : name.length < 256) {Q : Unit → Vol → Prop} {E : Stop → Vol → Prop}
    {C : Vol → Prop} (hC : ∀ u, C u)
    (hE : ∀ msg u, (∃ d, L.Image d v ∧ (fs.layOutData data d).out = .error .none) ∨
      fs.InodesFull v ∨ Cramped v p name → E (.err msg) u)
    (hQ : ∀ u, Wrote L v p name data uid gid u → Q () u) :
    L.Meets v (fs.writeIn p name data uid gid) Q E C := by
  refine assume (fun d hd => hd.glimpse.full) fun hfull => ?_
  have hlay : L.Meets v (fs.layOutData data) (fun r w => Laid L v data r.1 r.2 w)
    (fun e _ => e = .none) C :=
    meets_layOutData (fun _ _ _ => hC _) (fun _ _ _ _ => rfl) (fun _ _ _ _ _ => rfl)
      fun _ _ _ hlaid => hlaid
  refine bind (mapErr (hlay.blame.mono ?_ ?_ fun _ _ => hC _))
  swap
  · rintro e u ⟨rfl, hstate⟩
    exact hE _ u (.inl hstate)
  rintro ⟨blk, b512⟩ w hlaid
  have hpl := h.mem_live hp
  have hkw := h.kept.grow hfull hlaid.grown
  have hsame : Same v w p := ⟨congrFun hlaid.grown.inode p, fun b hb =>
    hlaid.grown.later.2 b (h.kept.mem_taken hpl hb).1⟩
  have hscan : w.scan fs p name = v.find fs (v.node p) name := by
    rw [← h.scan_eq hp, scan, hsame.content hfull (h.kept.owns hpl), scan]
  refine read (fun d hd => hkw.lookup_run hd.glimpse hpl name) ?_
  rw [hscan]
  cases hfind : v.find fs (v.node p) name with
  | none =>
    refine bind (meets_create h.kept hfull hlaid hpl (h.isDir hp) hname hC
      (fun msg u hno => hE msg u (.inr hno)) fun i u hn => ?_)
    exact meets_syncBackups (hC _) (hQ _ (.new i u hfind hn))
  | some i =>
    have hil := (h.find_mem hp hfind).2
    have hreg := (h.isReg_iff hil).2 (hfile i hfind)
    refine bind (meets_overwrite h.kept hfull hlaid hil hreg (hC _) (fun _ _ => hC _)
      (fun _ _ _ => hC _) fun u hr => ?_)
    exact meets_syncBackups (hC _) (hQ _ (.old i u hfind hr))

end

theorem layOutData_small {data : Bytes} (hlen : data.length ≤ fs.blockSize)
    (hroom : ¬ L.BlocksFull v) (hd : L.Image d v) : (fs.layOutData data d).out ≠ .error .none := by
  by_cases hnil : data = []
  · rw [hnil, layOutData_nil L.blockSize_pos]
    rintro ⟨⟩
  have hpos := List.length_pos_iff.2 hnil
  have hn : (data.length + fs.blockSize - 1) / fs.blockSize = 1 := by
    rw [show data.length + fs.blockSize - 1 = data.length - 1 + fs.blockSize by omega,
      Nat.add_div_right _ L.blockSize_pos, Nat.div_eq_of_lt (by omega)]
  have hmeets : L.Meets v (fs.layOutData data) (fun _ _ => True) (fun _ _ => False)
    fun _ => True := by
    rw [layOutData, hn]
    simp only [if_pos (show 1 ≤ 12 by omega)]
    refine bind (bind (meets_allocBlock (fun hfull => hroom hfull) trivial (fun b hb _ => ?_)
      fun _ _ _ _ => trivial))
    refine bind (meets_writeBlock hb (length_chunk data 0) ?_ trivial fun _ _ _ => trivial)
    exact bind (pure (pure (pure trivial)))
  obtain ⟨x, -, hout, -⟩ := hmeets.exists_of_safe hd
  rw [hout]
  rintro ⟨⟩

end Thos.Ext2
