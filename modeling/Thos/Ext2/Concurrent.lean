import Thos.Ext2.ReadBack
import Thos.Lib.Interleave

/-!
# Two writes at once

Two calls of `write_path_owned` that take turns at the disk, a sector at a time. The driver
takes no lock: what it has read of a bitmap, a counter, or a directory block is written back
later, over what the other call has done in between. Calls that do not overlap leave both
files as they were written, and the disk consistent; calls that do can lose a file.
-/

set_option autoImplicit false

namespace Thos.Ext2

open Thos.Lib List Prog.Reaches Vol

variable {fs : Ext2} {L : Layout fs} {v u : Vol} {d d' : Disk} {c name : Bytes}

/-! ## One after the other -/

section

variable {path₁ path₂ name₁ name₂ data₁ data₂ : Bytes} {p₁ p₂ : Nat}

/-- The two names are not those of one file. -/
def Apart (fs : Ext2) (v : Vol) (p₁ : Nat) (name₁ : Bytes) (p₂ : Nat) (name₂ : Bytes) : Prop :=
  (p₂ = p₁ → name₂ ≠ name₁) ∧
    ∀ i, v.find fs (v.node p₁) name₁ = some i → v.find fs (v.node p₂) name₂ ≠ some i

theorem Apart.symm (h : fs.Apart v p₁ name₁ p₂ name₂) : fs.Apart v p₂ name₂ p₁ name₁ :=
  ⟨fun hp hname => h.1 hp.symm hname.symm, fun i h₂ h₁ => h.2 i h₁ h₂⟩

section

variable {i : Nat} (hs : Stored L v p₁ name₁ data₁ i u) (h : Consistent L v) (hfull : L.Full v)
include hs h hfull

theorem Stored.target (ht : fs.Target v path₂ p₂ name₂) (hne : p₂ = p₁ → name₂ ≠ name₁) :
    fs.Target u path₂ p₂ name₂ := by
  obtain ⟨parent, hsplit, hres⟩ := ht.parent
  refine ⟨⟨parent, hsplit, hs.resolve h hfull (h.mem_live h.names.root) hres⟩, ?_, fun k hk => ?_⟩
  · rw [hs.dirs]
    exact ht.dir
  · rw [hs.find_of_ne h hfull ht.dir hne] at hk
    rw [hs.dirs]
    exact ht.file k hk

theorem Stored.ne_of_apart {k : Nat} {w : Vol} (hs' : Stored L u p₂ name₂ data₂ k w)
    (hp : p₂ ∈ v.dirs) (hapart : fs.Apart v p₁ name₁ p₂ name₂) : i ≠ k := by
  rintro rfl
  rcases hs'.before with ⟨-, hnew⟩ | hold
  · exact hnew hs.file.1
  · rw [hs.find_of_ne h hfull hp hapart.1] at hold
    rcases hs.before with ⟨-, hnew⟩ | hsome
    · exact hnew (h.find_mem hp hold).2
    · exact hapart.2 i hsome hold

end

theorem Consistent.two_writes (h : Consistent L v) (hd : L.Image d v)
    (ht₁ : fs.Target v path₁ p₁ name₁)
    (ht₂ : fs.Target v path₂ p₂ name₂) (hapart : fs.Apart v p₁ name₁ p₂ name₂)
    (hlen₁ : data₁.length < 2 ^ 32) (hlen₂ : data₂.length < 2 ^ 32) {uid₁ gid₁ uid₂ gid₂ : Nat}
    (hout₁ : (fs.writePathOwned path₁ data₁ uid₁ gid₁ d).out = .ok ())
    (hd' : (fs.writePathOwned path₁ data₁ uid₁ gid₁ d).state = d')
    (hout₂ : (fs.writePathOwned path₂ data₂ uid₂ gid₂ d').out = .ok ()) :
    (fs.readPath path₁ (fs.writePathOwned path₂ data₂ uid₂ gid₂ d').state).out = .ok (some data₁) ∧
      (fs.readPath path₂ (fs.writePathOwned path₂ data₂ uid₂ gid₂ d').state).out =
        .ok (some data₂) ∧ ConsistentDisk L (fs.writePathOwned path₂ data₂ uid₂ gid₂ d').state := by
  subst hd'
  have hfull := hd.glimpse.full
  obtain ⟨i, u, hu, hs⟩ := h.stored hd (ht₁.leads h hd.glimpse) ht₁.dir ht₁.file hout₁
  have hu' := hs.consistent
  have hfullu := hu.glimpse.full
  have ht₂' := hs.target h hfull ht₂ hapart.1
  obtain ⟨k, w, hw, hs'⟩ := hu'.stored hu (ht₂'.leads hu' hu.glimpse) ht₂'.dir ht₂'.file hout₂
  have hne := hs.ne_of_apart h hfull hs' ht₂.dir hapart
  -- the first file is neither the second nor its directory
  have hsame : Same u w i := hs'.same i hs.file.1 hne (.inl fun hip => hs.file.2 (hip ▸ ht₂'.dir))
  have hres := hs'.resolve hu' hfullu (hu'.mem_live hu'.names.root) (ht₁.resolve h hs hfull)
  refine ⟨?_, ?_, w, hw, hs'.consistent⟩
  · rw [hs'.consistent.readPath hw.glimpse hres, hsame.content hfullu (hu'.kept.owns hs.file.1),
      hs.content hlen₁]
  · rw [hs'.consistent.readPath hw.glimpse (ht₂'.resolve hu' hs' hfullu), hs'.content hlen₂]

end

/-! ## A new empty file, up to the write of the directory block -/

/-- The directory `p` has the one block `b`. -/
def Lone (v : Vol) (p b : Nat) : Prop := ∀ k < 12, (v.node p).block k = if k = 0 then b else 0

/-- What is left of a call that creates a file once it has read the directory block. -/
def lastWrites (fs : Ext2) (b : Nat) (c : Bytes) : M Unit := do
  (do
    fs.writeBlock b c
    pure ())
  fs.syncBackups

theorem lastWrites_run {b : Nat} (hb : L.Data b) (hc : c.length = fs.blockSize)
    (hd : L.Image d v) : (fs.lastWrites b c d).out = .ok () ∧ L.Image (fs.lastWrites b c d).state
    (v.putData b c).sync := by
  have hmeets : L.Meets v (fs.lastWrites b c) (fun _ u => u = (v.putData b c).sync)
    (fun _ _ => False) fun _ => True :=
    Meets.bind (Meets.bind (meets_writeBlock hb hc
      (Meets.pure (meets_syncBackups trivial rfl)) trivial fun _ _ _ => trivial))
  obtain ⟨_, u, hout, hu, rfl⟩ := hmeets.exists_of_safe hd
  exact ⟨hout, hu⟩

section

variable {live : Finset Nat} (hk : Kept L v live 0) {p b : Nat} (hp : p ∈ live)
  (hdir : isDir (v.node p).mode = true) (hlone : Lone v p b) (hb : b ≠ 0)

theorem Lone.map (hlone : Lone v p b) :
    (List.range 12).map (v.node p).block = b :: List.replicate 11 0 := by
  refine ext_getElem? fun k => ?_
  rw [getElem?_map]
  by_cases hk : k < 12
  · rw [getElem?_range hk, Option.map_some, hlone k hk]
    cases k with
    | zero => rfl
    | succ k =>
      rw [getElem?_cons_succ, getElem?_replicate, if_neg (Nat.succ_ne_zero k), if_pos (by omega)]
  · rw [getElem?_eq_none (by simpa using hk), getElem?_eq_none (by simpa using hk)]
    rfl

include hk hp hdir hlone hb

theorem dirInsert_reaches (hd : L.Image d v) {child : Nat} (hchild : child < 2 ^ 32)
    (h0 : child ≠ 0) (hname : name.length < 256) (hroom : ¬ Packed v name b) :
    ∃ c, Inserted fs ⟨child, name⟩ (v.data b) c ∧ TakesGap ⟨child, name⟩ (v.data b) c ∧
      (fs.dirInsert p name child false).Reaches d (do fs.writeBlock b c; pure ()) d := by
  have hmap := hlone.map
  have hbs : fs.blockSize < 65536 := by
    have := L.blockSize_eq
    omega
  obtain ⟨hdata, hblock⟩ := hk.direct_dirBlock hp hdir b (by rw [hmap]; exact mem_cons_self) hb
  obtain ⟨-, hno⟩ | ⟨off, used, recLen, hat, hins, htakes⟩ :=
    hblock.findGap hbs (fs.fileType false) hchild h0 hname
  · exact absurd hno hroom
  refine ⟨_, hins, htakes, ?_⟩
  rw [dirInsert]
  refine (bind_of_read (hd.glimpse.readInode (hk.valid p hp)) _).trans ?_
  change Prog.Reaches ((fs.insertIn name child (fs.fileType false)
    ((List.range 12).map (v.node p).block)) >>= _)
    d _ d
  rw [hmap, insertIn, if_neg hb]
  refine ((bind_of_read (hd.glimpse.block hdata) _).bind _).trans ?_
  rw [hat]
  change Prog.Reaches ((fs.writeBlock b _ >>= fun _ => pure true) >>= _) d _ d
  rw [Prog.bind_assoc]
  exact .refl ..

theorem writePathOwned_reaches (hd : L.Image d v) {path : Bytes} (hlead : fs.Leads d path p name)
    (hname : name.length < 256) (hnone : v.scan fs p name = none) (hinos : ¬ fs.InodesFull v)
    (hroom : ¬ Packed v name b) (uid gid : Nat) :
    ∃ i raw c d', (fs.ValidIno i ∧ i ∉ v.inodes) ∧ Inserted fs ⟨i, name⟩ (v.data b) c ∧
      TakesGap ⟨i, name⟩ (v.data b) c ∧ L.Image d' (v.addInode i false raw) ∧
      (fs.writePathOwned path [] uid gid).Reaches d (fs.lastWrites b c) d' := by
  -- an inode is taken
  have halloc : L.Meets v (okOr "no free inode" (fs.allocInode false))
      (fun i u => fs.ValidIno i ∧ i ∉ v.inodes ∧ u = v.addInode i false
        (List.replicate fs.inodeSize 0))
      (fun _ _ => False) fun _ => True :=
    Meets.mapErr (meets_allocInode hk.counted (fun hno => hinos hno) trivial
      (fun i hi hfree => ⟨hi, hfree, rfl⟩) fun _ _ _ _ => trivial)
  obtain ⟨i, _, hout₁, hd₁, hi, hfree, rfl⟩ := halloc.exists_of_safe hd
  -- and filled in
  generalize hf : setInode 0o100644 uid gid 0 1 0 (blockArray [] 0 0) = f
  have hself : (v.addInode i false (List.replicate fs.inodeSize 0)).inode i =
    List.replicate fs.inodeSize 0 :=
    Function.update_self ..
  have hlen : (f (List.replicate fs.inodeSize 0)).length = fs.inodeSize := by
    have := L.inodeSize_ge
    have hzeros : (List.replicate fs.inodeSize (0 : UInt8)).length = fs.inodeSize :=
      length_replicate
    rw [← hf, (setInode_fields _ uid gid 0 1 0 _ (by omega)).1, hzeros]
  have hpatch : L.Meets (v.addInode i false (List.replicate fs.inodeSize 0)) (fs.patchInode i f)
      (fun _ u => ∃ raw, u = v.addInode i false raw) (fun _ _ => False) fun _ => True := by
    refine meets_patchInode hi (fun _ => ?_) trivial ?_ trivial fun _ _ => trivial
    · rw [hself, hlen]
    · rw [putInode_addInode]
      exact ⟨_, rfl⟩
  obtain ⟨⟨⟩, _, hout₂, hd₂, raw, rfl⟩ := hpatch.exists_of_safe hd₁
  have hne : p ≠ i := fun heq => hfree (heq ▸ hk.alive hp)
  have hnode : (v.addInode i false raw).node p = v.node p := (same_addInode hne false raw).node
  obtain ⟨c, hins, htakes, hreach⟩ := dirInsert_reaches
    (hk.addInode_aside hd.glimpse.full hfree false raw) hp (by rw [hnode]; exact hdir)
    (fun k hk => by rw [hnode]; exact hlone k hk) hb hd₂ (hi.lt L)
      (by have := hi.1; omega) hname hroom
  generalize hd' : (fs.patchInode i f
    (okOr "no free inode" (fs.allocInode false) d).state).state = d'
    at hd₂ hreach
  have hcreate : (fs.create p name uid gid 0 0 (blockArray [] 0 0)).Reaches d
      (do fs.writeBlock b c; pure ()) d' := by
    rw [create, hf]
    rw [← hd'] at hreach ⊢
    exact (bind_of_run hout₁ _).trans ((bind_of_run hout₂ _).trans hreach)
  have hlay : okOr "no space / file too large" (fs.layOutData []) d =
    ⟨.ok (blockArray [] 0 0, 0), d, []⟩ := by
    rw [okOr, Prog.mapErr_run, layOutData_nil L.blockSize_pos]
  have hlook := hk.lookup_run hd.glimpse hp name
  rw [hnone] at hlook
  refine ⟨i, raw, c, d', ⟨hi, hfree⟩, hins, htakes, hd₂, ?_⟩
  rw [writePathOwned]
  refine (bind_of_read hlead.resolveParent _).trans ?_
  dsimp only
  rw [if_neg (by omega)]
  exact (bind_of_read hlay _).trans ((bind_of_read hlook _).trans (hcreate.bind _))

end

/-! ## Two empty files in the root of a fresh file system -/

section Plain

variable {n : Nat} (hlo : 1028 < n) (hhi : n ≤ 128 * 32768) {live : Finset Nat}

/-- What the volume shares with the fresh one. -/
structure RootAlone (live : Finset Nat) (u : Vol) : Prop where
  kept : Kept (plain n hlo hhi) u live 0
  root : rootIno ∈ live
  node : u.node rootIno = (plainVol n hlo hhi).node rootIno

variable {hlo hhi}

section

variable (hr : RootAlone hlo hhi live u)
include hr

theorem RootAlone.isDir : isDir (u.node rootIno).mode = true := by
  have h := consistent_plainVol hlo hhi
  rw [hr.node]
  exact h.isDir h.names.root

theorem RootAlone.lone : Lone u rootIno 1028 := by
  intro k hk
  rw [hr.node]
  exact block_plainVol hlo hhi hk

theorem RootAlone.addInode (hfull : (plain n hlo hhi).Full u) {i : Nat}
    (hfree : i ∉ u.inodes) (raw : Bytes) : RootAlone hlo hhi live (u.addInode i false raw) := by
  have hne : rootIno ≠ i := fun heq => hfree (heq ▸ hr.kept.alive hr.root)
  exact ⟨hr.kept.addInode_aside hfull hfree false raw, hr.root,
    (same_addInode hne false raw).node.trans hr.node⟩

theorem RootAlone.putData (hfull : (plain n hlo hhi).Full u)
    (hc : DirBlock (plainFs n) c) : RootAlone hlo hhi live (u.putData 1028 c).sync := by
  have hblock : (u.node rootIno).block 0 = 1028 := hr.lone 0 (by omega)
  have h0 : (u.node rootIno).block 0 ≠ 0 := by
    rw [hblock]
    omega
  obtain ⟨hk, -⟩ := hr.kept.putDir hfull hr.root hr.isDir (show 0 < 12 by omega) h0 hc
  rw [hblock] at hk
  exact ⟨hk.sync, hr.root, hr.node⟩

theorem RootAlone.scan (name : Bytes) : u.scan (plainFs n) rootIno name =
      ((blockEntries (u.data 1028)).find? fun e => e.name = name).map Entry.ino := by
  have hshape := hr.kept.shape hr.root hr.isDir
  have hbs : 0 < (plainFs n).blockSize := (plain n hlo hhi).blockSize_pos
  have hone : dirLen (plainFs n) (u.node rootIno) = 1 := by
    have hno : ¬ (u.node rootIno).block 1 ≠ 0 := not_not.2 (hr.lone 1 (by omega))
    rw [hshape.direct 1 (by omega)] at hno
    have := hshape.pos
    omega
  have hmap : u.map (plainFs n) (u.node rootIno) = [1028] := by
    rw [hshape.map_direct hbs (by omega), hone]
    exact congrArg (fun b => [b]) (hr.lone 0 (by omega))
  rw [Vol.scan, hshape.findEntry hbs, Vol.find, Vol.entries, hmap, flatMap_singleton]

theorem RootAlone.readPath (hd : (plain n hlo hhi).Image d u)
    (hname : IsName name) (hnone : u.scan (plainFs n) rootIno name = none) :
    ((plainFs n).readPath (slash :: name) d).out = .ok none := by
  have hcomps : components (slash :: name) = [name] :=
    (components_append [] name).trans (components_name hname)
  have hlook := hr.kept.lookup_run hd.glimpse hr.root name
  rw [hnone] at hlook
  have hwalk : (plainFs n).walk rootIno [name] d = ⟨.ok none, d, []⟩ := by
    rw [walk, Prog.bind_of_read hlook]
    rfl
  rw [Ext2.readPath, pathLookup, hcomps, Prog.bind_of_read hwalk]
  rfl

theorem RootAlone.reaches (hd : (plain n hlo hhi).Image d u) (hname : IsName name)
    (hlong : name.length < 256) (hnone : u.scan (plainFs n) rootIno name = none) {j : Nat}
    (hj : (plainFs n).ValidIno j) (hfree : j ∉ u.inodes) (hroom : ¬ Packed u name 1028) :
    ∃ i raw c d', ((plainFs n).ValidIno i ∧ i ∉ u.inodes) ∧ Inserted (plainFs n) ⟨i, name⟩
    (u.data 1028) c ∧
      TakesGap ⟨i, name⟩ (u.data 1028) c ∧ (plain n hlo hhi).Image d' (u.addInode i false raw) ∧
      ((plainFs n).writePathOwned (slash :: name) [] 0 0).Reaches d
        ((plainFs n).lastWrites 1028 c) d' :=
  writePathOwned_reaches hr.kept hr.root hr.isDir hr.lone (by omega) hd
    (leads_root hname) hlong hnone
    (fun hfull => hfree (hfull j hj)) hroom 0 0

end

/-- The root directory is empty, and there are free inodes. -/
structure Blank (hlo : 1028 < n) (hhi : n ≤ 128 * 32768) (v : Vol) : Prop where
  consistent : Consistent (plain n hlo hhi) v
  alone : RootAlone hlo hhi ((plain n hlo hhi).live v) v
  data : v.data 1028 = (plainFs n).newDirBlock rootIno rootIno
  find : ∀ name, name ≠ dot ∧ name ≠ dotdot →
    ((blockEntries (v.data 1028)).find? fun e => e.name = name) = none
  free : ∀ i, 11 ≤ i → i ∉ v.inodes

theorem blank_plainVol : Blank hlo hhi (plainVol n hlo hhi) := by
  have h := consistent_plainVol hlo hhi
  have hr : RootAlone hlo hhi ((plain n hlo hhi).live (plainVol n hlo hhi)) (plainVol n hlo hhi) :=
    ⟨h.kept, h.mem_live h.names.root, rfl⟩
  refine ⟨h, hr, data_plainVol hlo hhi, fun name hproper => ?_,
    fun i => notMem_inodes_plainVol hlo hhi⟩
  have hscan := h.scan_eq h.names.root name
  rwa [hr.scan, find_plainVol hlo hhi hproper, Option.map_eq_none_iff] at hscan

variable (hv : Blank hlo hhi v)
include hv

theorem Blank.not_packed (hdata : u.data 1028 = v.data 1028)
    (hlong : name.length < 256) : ¬ Packed u name 1028 := by
  have hlt : rootIno < 2 ^ 32 := show 2 < 2 ^ 32 by omega
  have hne : rootIno ≠ 0 := show 2 ≠ 0 by omega
  exact not_packed_newDirBlock (plain n hlo hhi) hlt hne hlt hne (hdata.trans hv.data) hlong

theorem Blank.not_packed_of_takesGap {e : Entry} (htakes : TakesGap e (v.data 1028) c)
    (h0 : e.ino ≠ 0) (he : e.name.length < 256) (hdata : u.data 1028 = c)
    (hlong : name.length < 256) : ¬ Packed u name 1028 := by
  have hlt : rootIno < 2 ^ 32 := show 2 < 2 ^ 32 by omega
  have hne : rootIno ≠ 0 := show 2 ≠ 0 by omega
  rw [hv.data] at htakes
  exact htakes.not_packed (plain n hlo hhi) hlt hne hlt hne h0 he hdata hlong

theorem Blank.exists_free (hn : 0 < n) (i : Nat) : ∃ m, (plainFs n).ValidIno m ∧
    m ∉ insert i v.inodes := by
  have hvalid : ∀ j, 11 ≤ j → j ≤ 12 → (plainFs n).ValidIno j := fun j h11 h12 =>
    validIno_plainFs (by omega) (by omega) hn
  by_cases hi : i = 11
  · refine ⟨12, hvalid 12 (by omega) (by omega), fun hmem => ?_⟩
    exact (Finset.mem_insert.1 hmem).elim (by omega) (hv.free 12 (by omega))
  · refine ⟨11, hvalid 11 (by omega) (by omega), fun hmem => ?_⟩
    exact (Finset.mem_insert.1 hmem).elim (by omega) (hv.free 11 (by omega))

theorem Blank.reaches (hd : (plain n hlo hhi).Image d v) (hname : IsName name)
    (hlong : name.length < 256) (hproper : name ≠ dot ∧ name ≠ dotdot) :
    ∃ i raw c d', ((plainFs n).ValidIno i ∧ i ∉ v.inodes) ∧ Inserted (plainFs n) ⟨i, name⟩
    (v.data 1028) c ∧
      TakesGap ⟨i, name⟩ (v.data 1028) c ∧ (plain n hlo hhi).Image d' (v.addInode i false raw) ∧
      ((plainFs n).writePathOwned (slash :: name) [] 0 0).Reaches d
        ((plainFs n).lastWrites 1028 c) d' := by
  have hscan : v.scan (plainFs n) rootIno name = none := by
    rw [hv.alone.scan, hv.find name hproper]
    rfl
  exact hv.alone.reaches hd hname hlong hscan
    (validIno_plainFs (show 1 ≤ 11 by omega) (by omega) (by omega))
    (hv.free 11 (by omega)) (hv.not_packed rfl hlong)

end Plain

theorem Vol.putData_sync_putData (v : Vol) (b : Nat) (c c' : Bytes) :
    (((v.putData b c').sync).putData b c).sync = (v.putData b c).sync := by
  simp [putData, sync]

theorem Inserted.find_of_ne {e : Entry} {c' : Bytes} (h : Inserted fs e c c')
    (hne : e.name ≠ name) :
    ((blockEntries c').find? fun x => x.name = name) = (blockEntries c).find? fun x =>
    x.name = name := by
  obtain ⟨-, es, es', hes, hes'⟩ := h
  exact Adds.find_of_ne ⟨es, es', hes, hes'⟩ hne

/-! ## What holds, and what does not -/

/-- Two writes that do not overlap, to paths that do not name one file, read back, and the disk
is consistent. -/
theorem serial_writes_read_back (h : Consistent L v) (hd : L.Image d v)
    {path₁ path₂ name₁ name₂ data₁ data₂ : Bytes} {p₁ p₂ : Nat} (hw₁ : fs.Writable d path₁ p₁ name₁)
    (hw₂ : fs.Writable d path₂ p₂ name₂) (hname : p₂ = p₁ → name₂ ≠ name₁)
    (hfile : ∀ i, (fs.lookup p₁ name₁ d).out = .ok (some i) →
      (fs.lookup p₂ name₂ d).out ≠ .ok (some i)) (hlen₁ : data₁.length < 4294967296)
    (hlen₂ : data₂.length < 4294967296) (uid₁ gid₁ uid₂ gid₂ : Nat) (sch : List Side)
    (hserial : Serial false false sch (fs.writePathOwned path₁ data₁ uid₁ gid₁)
      (fs.writePathOwned path₂ data₂ uid₂ gid₂) d)
    (hend : interleave sch (fs.writePathOwned path₁ data₁ uid₁ gid₁)
      (fs.writePathOwned path₂ data₂ uid₂ gid₂) d = (.ret (), .ret (), d')) :
    (fs.readPath path₁ d').out = .ok (some data₁) ∧ (fs.readPath path₂ d').out = .ok (some data₂) ∧
      ConsistentDisk L d' := by
  have ht₁ := hw₁.target h hd.glimpse
  have ht₂ := hw₂.target h hd.glimpse
  have hapart : fs.Apart v p₁ name₁ p₂ name₂ := by
    refine ⟨hname, fun i h₁ h₂ => hfile i ?_ ?_⟩
    · rw [h.lookup_dir hd.glimpse ht₁.dir, h₁]
    · rw [h.lookup_dir hd.glimpse ht₂.dir, h₂]
  rcases serial_run hserial hend with ⟨hout₁, hout₂, rfl⟩ | ⟨hout₂, hout₁, rfl⟩
  · exact h.two_writes hd ht₁ ht₂ hapart hlen₁ hlen₂ hout₁ rfl hout₂
  · obtain ⟨hread₂, hread₁, hcons⟩ :=
      h.two_writes hd ht₂ ht₁ hapart.symm hlen₂ hlen₁ hout₂ rfl hout₁
    exact ⟨hread₁, hread₂, hcons⟩

/-- `/a` and then `/b`, both empty. -/
theorem serial_writes_read_back_two_files :
    ∃ (L : Layout (plainFs 1030)) (v : Vol) (d : Disk) (sch : List Side) (d' : Disk), L.Image d v ∧
      Consistent L v ∧ Serial false false sch ((plainFs 1030).writePathOwned [47, 97] [] 0 0)
        ((plainFs 1030).writePathOwned [47, 98] [] 0 0) d ∧
      interleave sch ((plainFs 1030).writePathOwned [47, 97] [] 0 0)
        ((plainFs 1030).writePathOwned [47, 98] [] 0 0) d = (.ret (), .ret (), d') ∧
      ((plainFs 1030).readPath [47, 97] d').out = .ok (some []) ∧
      ((plainFs 1030).readPath [47, 98] d').out = .ok (some []) ∧ ConsistentDisk L d' := by
  obtain ⟨hlo, hhi, d, hd, -, -⟩ := exists_plainDisk 1030 (by omega)
  have hv : Blank hlo hhi (plainVol 1030 hlo hhi) := blank_plainVol
  have hb : (plain 1030 hlo hhi).Data 1028 := (data_plain hlo hhi).2 ⟨hlo, by omega⟩
  generalize plainVol 1030 hlo hhi = v at *
  have h := hv.consistent
  -- `/a` is made
  obtain ⟨i, raw, c, d₁, ⟨hvalid, hi⟩, hins, htakes, hd₁, hA⟩ :=
    hv.reaches hd (show IsName [97] from ⟨by decide, by decide⟩)
    (by decide) (by decide)
  obtain ⟨hout₂, hd₂⟩ := lastWrites_run hb hins.1.length hd₁
  obtain ⟨houtA, hstateA⟩ := hA.run
  rw [← hstateA] at hd₂
  have hr₂ := (hv.alone.addInode hd.glimpse.full hi raw).putData hd₁.glimpse.full hins.1
  -- and then `/b`
  have hdata : ((v.addInode i false raw).putData 1028 c).sync.data 1028 = c := by
    rw [sync_data, putData_data, Function.update_self]
  have hne : (⟨i, [97]⟩ : Entry).name ≠ [98] := show [97] ≠ [98] by decide
  have hscan : ((v.addInode i false raw).putData 1028 c).sync.scan (plainFs 1030) rootIno
    [98] = none := by
    rw [hr₂.scan, hdata, hins.find_of_ne hne, hv.find [98] (by decide)]
    rfl
  obtain ⟨k, hk, hnok⟩ := hv.exists_free (by omega) i
  obtain ⟨j, raw', c', d₃, -, hins', -, hd₃, hB⟩ :=
    hr₂.reaches hd₂ ⟨by decide, by decide⟩ (by decide)
    hscan hk hnok (hv.not_packed_of_takesGap htakes (Nat.ne_of_gt hvalid.1) (show 1 < 256 by omega)
      hdata (by decide))
  obtain ⟨hout₄, -⟩ := lastWrites_run hb hins'.1.length hd₃
  obtain ⟨houtB, -⟩ := hB.run
  obtain ⟨sch, hserial, hsch⟩ := exists_serial (houtA.trans hout₂) (houtB.trans hout₄)
  have hroot := h.names.root
  have hnone : ∀ name : Bytes, name ≠ dot ∧ name ≠ dotdot →
      ((plainFs 1030).lookup rootIno name d).out = .ok none := fun name hproper => by
    rw [h.lookup_dir hd.glimpse hroot, ← h.scan_eq hroot, hv.alone.scan, hv.find name hproper]
    rfl
  have hwritable : ∀ name : Bytes, IsName name → name ≠ dot ∧ name ≠ dotdot →
      (plainFs 1030).Writable d (slash :: name) rootIno name := fun name hname hproper =>
    ⟨⟨[slash], splitParent_append [] hname, rfl⟩,
      ⟨_, h.readInode hd.glimpse (h.mem_live hroot), h.isDir hroot⟩, fun m node hm => by
        rw [hnone name hproper] at hm
        cases hm⟩
  refine ⟨plain 1030 hlo hhi, v, d, sch, _, hd, h, hserial, hsch, ?_⟩
  refine serial_writes_read_back h hd (hwritable [97] ⟨by decide, by decide⟩ (by decide))
    (hwritable [98] ⟨by decide, by decide⟩ (by decide)) (fun _ => by decide)
      (fun m hm => ?_) (by decide)
    (by decide) 0 0 0 0 sch hserial hsch
  rw [hnone [97] (by decide)] at hm
  cases hm

/-- `/a` and `/b` are made at once: `/a` has read the block of the root directory when `/b` is
made, and writes it back without `/b`. -/
theorem concurrent_create_loses_file :
    ∃ (L : Layout (plainFs 1030)) (v : Vol) (d : Disk) (sch : List Side) (d' : Disk),
      (mount d).out = .ok (plainFs 1030) ∧ L.Image d v ∧ Consistent L v ∧
      interleave sch ((plainFs 1030).writePathOwned [47, 97] [] 0 0)
        ((plainFs 1030).writePathOwned [47, 98] [] 0 0) d = (.ret (), .ret (), d') ∧
      ((plainFs 1030).readPath [47, 98] d').out = .ok none := by
  obtain ⟨hlo, hhi, d, hd, hmount, -⟩ := exists_plainDisk 1030 (by omega)
  have hv : Blank hlo hhi (plainVol 1030 hlo hhi) := blank_plainVol
  have hb : (plain 1030 hlo hhi).Data 1028 := (data_plain hlo hhi).2 ⟨hlo, by omega⟩
  generalize plainVol 1030 hlo hhi = v at *
  -- `/a` takes an inode and reads the block
  obtain ⟨i, raw, c, d₁, ⟨-, hi⟩, hins, -, hd₁, hA⟩ :=
    hv.reaches hd (show IsName [97] from ⟨by decide, by decide⟩)
    (by decide) (by decide)
  have hr₁ := hv.alone.addInode hd.glimpse.full hi raw
  -- `/b` takes another, and finds the block as it was
  have hscan : (v.addInode i false raw).scan (plainFs 1030) rootIno [98] = none := by
    rw [hr₁.scan]
    change Option.map _ ((blockEntries (v.data 1028)).find? _) = _
    rw [hv.find [98] (by decide)]
    rfl
  obtain ⟨k, hk, hnok⟩ := hv.exists_free (by omega) i
  obtain ⟨j, raw', c', d₂, ⟨-, hj⟩, hins', -, hd₂, hB⟩ :=
    hr₁.reaches hd₁ ⟨by decide, by decide⟩ (by decide)
    hscan hk hnok (hv.not_packed rfl (by decide))
  -- its entry is written, and overwritten
  obtain ⟨hout₃, hd₃⟩ := lastWrites_run hb hins'.1.length hd₂
  obtain ⟨houtB, hstateB⟩ := hB.run
  rw [← hstateB] at hd₃
  obtain ⟨hout₄, hd₄⟩ := lastWrites_run hb hins.1.length hd₃
  rw [putData_sync_putData] at hd₄
  obtain ⟨sch, hsch⟩ := exists_overtaken hA (houtB.trans hout₃) hout₄
  refine ⟨plain 1030 hlo hhi, v, d, sch, _, hmount, hd, hv.consistent, hsch, ?_⟩
  have hr₄ := (hr₁.addInode hd₁.glimpse.full hj raw').putData hd₂.glimpse.full hins.1
  refine hr₄.readPath hd₄ ⟨by decide, by decide⟩ ?_
  have hne : (⟨i, [97]⟩ : Entry).name ≠ [98] := show [97] ≠ [98] by decide
  rw [hr₄.scan, sync_data, putData_data, Function.update_self, hins.find_of_ne hne,
    hv.find [98] (by decide)]
  rfl

end Thos.Ext2
