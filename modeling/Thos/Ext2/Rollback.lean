import Thos.Ext2.Calls
import Thos.Ext2.Mkfs
import Thos.Ext2.Paths

/-!
# Rolling back

What a caller may see of a failed call: the bitmaps, the free counts, the inodes in use, and
what the directories hold. A failed call leaves all of it as it was exactly when it gave up
before it took a block or an inode, because nothing is given back on the way out.
-/

set_option autoImplicit false

namespace Thos.Ext2

open Thos.Lib Making

variable {fs : Ext2} {L : Layout fs} {v : Vol} {d d' : Disk}

/-- The free blocks, free inodes and used directories that a group's descriptor counts. -/
def groupCounts (fs : Ext2) (d : Disk) (g : Nat) : Nat × Nat × Nat :=
  let bgd := readRange d (fs.bgdOff g) 32
  (le16 bgd 12, le16 bgd 14, le16 bgd 16)

/-- The free blocks and free inodes that the superblock counts. -/
def superCounts (d : Disk) : Nat × Nat :=
  let sb := readRange d sbOffset 1024
  (le32 sb 12, le32 sb 16)

/-- The second disk is as the first in everything that a call which fails must not change. -/
structure RolledBack (L : Layout fs) (v : Vol) (d d' : Disk) : Prop where
  blockBitmap : ∀ g, g < fs.groupCount →
    readRange d' (L.addr (.block (L.blockBitmap g))) fs.blockSize =
      readRange d (L.addr (.block (L.blockBitmap g))) fs.blockSize
  inodeBitmap : ∀ g, g < fs.groupCount →
    readRange d' (L.addr (.block (L.inodeBitmap g))) fs.blockSize =
      readRange d (L.addr (.block (L.inodeBitmap g))) fs.blockSize
  groups : ∀ g, g < fs.groupCount → fs.groupCounts d' g = fs.groupCounts d g
  super : superCounts d' = superCounts d
  inode : ∀ i ∈ v.inodes,
    readRange d' (L.addr (.inode i)) fs.inodeSize = readRange d (L.addr (.inode i)) fs.inodeSize
  directory : ∀ i ∈ v.dirs, (fs.readFile (v.node i) d').out = (fs.readFile (v.node i) d).out

theorem RolledBack.refl (L : Layout fs) (v : Vol) (d : Disk) : RolledBack L v d d :=
  ⟨fun _ _ => rfl, fun _ _ => rfl, fun _ _ => rfl, rfl, fun _ _ => rfl, fun _ _ => rfl⟩

theorem Leaks.not_rolledBack (hleak : Leaks L v d') (hd : L.Image d v) : ¬ RolledBack L v d d' := by
  intro hback
  obtain ⟨w, ⟨m', hm', hs', -⟩, htaken⟩ := hleak
  obtain ⟨m, hm, hs, -⟩ := hd
  have hsame : ∀ n, L.valid (.block n) → readRange d' (L.addr (.block n)) fs.blockSize =
      readRange d (L.addr (.block n)) fs.blockSize → m' (.block n) = m (.block n) :=
    fun n hvalid hread => (hm' (.block n) hvalid).symm.trans (hread.trans (hm (.block n) hvalid))
  rcases htaken with ⟨b, hb, hfree, hused⟩ | ⟨i, hi, hfree, hused⟩
  · obtain ⟨g, k, hg, hk, rfl⟩ := L.exists_blockNo hb.1 hb.2.1
    rw [← hs'.used g k hg hk, hsame _ (.inr ⟨g, hg, .inl rfl⟩) (hback.blockBitmap g hg),
      hs.used g k hg hk] at hused
    exact hfree hused
  · obtain ⟨g, k, hg, hk, rfl⟩ := L.exists_inoNo hi
    rw [← hs'.inodes g k hg hk, hsame _ (.inr ⟨g, hg, .inr rfl⟩) (hback.inodeBitmap g hg),
      hs.inodes g k hg hk] at hused
    exact hfree hused

/-- A call that fails rolls back exactly when it gave up before it took anything: at its
path, its name, or the first thing it asks for. -/
theorem failed_call_rolled_back_iff (h : Consistent L v) (hd : L.Image d v) (c : Making)
    (path : Bytes) {msg : String} (hout : (c.run fs path d).out = .error (.err msg)) :
    RolledBack L v d (c.run fs path d).state ↔ c.Clean L v d path := by
  constructor
  · intro hback
    refine (c.clean_or_leaks hd h.kept.counted hout).resolve_right fun hleak => ?_
    exact hleak.not_rolledBack hd hback
  · intro hclean
    rw [c.state_of_clean hd hout hclean]
    exact RolledBack.refl L v d

/-! ## A name that is there already -/

theorem Gains.find_freshVol {b i : Nat} {name : Bytes} {u : Vol} (hb : L.Data b)
    (hroot : rootIno ∉ L.reservedInos) (hvalid : fs.ValidIno rootIno)
    (hprop : name ≠ dot ∧ name ≠ dotdot) (hadds : Gains fs (freshVol L b) rootIno ⟨i, name⟩ u) :
    u.sync.find fs (u.sync.node rootIno) name = some i := by
  have hkeep : u.sync.data = u.data := rfl
  rw [Gains, entries_freshVol hb hroot hvalid] at hadds
  rw [Vol.find, Vol.entries_of_data hkeep]
  change Option.map _ ((u.entries _ (u.node rootIno)).find? _) = _
  rw [hadds.find_self (by simpa using ⟨hprop.1.symm, hprop.2.symm⟩)]
  rfl

theorem exists_subdirectory : ∃ (L : Layout (plainFs 1030)) (v : Vol) (d : Disk) (i : Nat),
    (mount d).out = .ok (plainFs 1030) ∧ L.Image d v ∧ Consistent L v ∧ i ∈ v.dirs ∧ i ≠ rootIno ∧
      v.find (plainFs 1030) (v.node rootIno) [97] = some i := by
  obtain ⟨hlo, hhi, d₀, hd₀, -, h₀⟩ := exists_plainDisk 1030 (by omega)
  have hroot := h₀.names.root
  have hprop : [97] ≠ dot ∧ [97] ≠ dotdot := by decide
  have hmeets : (plain 1030 hlo hhi).Meets (plainVol 1030 hlo hhi)
      ((plainFs 1030).makeDirIn rootIno [97] 0 0)
      (fun _ u => ∃ i w, NewDir (plain 1030 hlo hhi) (plainVol 1030 hlo hhi)
        ((plain 1030 hlo hhi).live (plainVol 1030 hlo hhi)) rootIno ⟨i, [97]⟩ w ∧ u = w.sync)
      (fun _ _ => False) fun _ => True := by
    refine meets_makeDirIn h₀.kept 0 0 (h₀.mem_live hroot) (h₀.isDir hroot) (by decide)
      (fun _ => trivial) ?_
      fun i w hn => ⟨i, w, hn, rfl⟩
    rintro msg u (hinos | hblks | hcramp)
    · exact not_inodesFull_plainVol hlo hhi hinos
    · exact not_blocksFull_plainVol hlo hhi (by omega) hblks
    · exact not_cramped_plainVol hlo hhi (by decide) hcramp
  obtain ⟨-, u, -, hd₁, i, w, hn, rfl⟩ := hmeets.exists_of_safe hd₀
  have hcons := hn.consistent h₀ hd₀.glimpse.full hroot (e := ⟨i, [97]⟩) hprop
    (by rw [links_plainVol]; omega)
  obtain ⟨d, hd, hmount⟩ := hd₁.exists_mounted (bitmaps_plain hhi)
  refine ⟨plain 1030 hlo hhi, w.sync, d, i, hmount, hd, hcons, ?_, ?_, ?_⟩
  · change i ∈ w.dirs
    rw [hn.dirs]
    exact Finset.mem_insert_self ..
  · rintro rfl
    exact hn.fresh (h₀.kept.counted hroot)
  · exact hn.adds.find_freshVol ((data_plain hlo hhi).2 ⟨hlo, by omega⟩) (root_plain hlo hhi).1
      (root_plain hlo hhi).2 hprop

theorem leads_root {name : Bytes} (h : IsName name) : fs.Leads d (slash :: name) rootIno name :=
  ⟨[slash], splitParent_append [] h, rfl⟩

/-- `mkdir /a` where there is a directory `/a`. -/
theorem failed_call_rolled_back_exists :
    ∃ (L : Layout (plainFs 1030)) (v : Vol) (d : Disk), L.Image d v ∧ Consistent L v ∧
      ((mkdir 0 0).run (plainFs 1030) [47, 97] d).out = .error (.err "already exists") ∧
      RolledBack L v d ((mkdir 0 0).run (plainFs 1030) [47, 97] d).state := by
  obtain ⟨L, v, d, i, -, hd, h, -, -, hfind⟩ := exists_subdirectory
  have hlead : (plainFs 1030).Leads d [47, 97] rootIno [97] := leads_root ⟨by decide, by decide⟩
  have hfound : ((plainFs 1030).lookup rootIno [97] d).out = .ok (some i) := by
    rw [h.lookup_dir hd.glimpse h.names.root, hfind]
  have hout : ((mkdir 0 0).run (plainFs 1030) [47, 97] d).out = .error (.err "already exists") := by
    rw [run, mkdirPathOwned_run 0 0 hlead hfound]
    rfl
  refine ⟨L, v, d, hd, h, hout, ?_⟩
  exact (failed_call_rolled_back_iff h hd (.mkdir 0 0) [47, 97] hout).2
    (.inr (.inl ⟨rootIno, [97], i, hlead, hfound⟩))

/-! ## A disk with one block -/

theorem makeDirIn_blocksFull (hd : L.Image d v) (hdirs : v.dirs ⊆ v.inodes)
    (hroom : ¬ fs.InodesFull v) (hfull : L.BlocksFull v) (p : Nat) (name : Bytes) (uid gid : Nat) :
    (fs.makeDirIn p name uid gid d).out = .error (.err "no free block") := by
  refine Meets.out_eq (R := L.Image) (W := L.Glimpse) (C := fun _ => True) ?_ hd
  refine Meets.bind (Meets.mapErr (meets_allocInode hdirs (fun hno => absurd hno hroom) trivial
    (fun i hi hfree => ?_) fun _ _ _ _ => trivial))
  refine Meets.bind (Meets.mapErr (meets_allocBlock (fun _ => rfl) trivial (fun b hb hbfree => ?_)
    fun _ _ _ _ => trivial))
  exact absurd (hfull b hb) hbfree

/-- On a file system whose only data block is the root directory's, `mkdir /a` takes an inode
and then finds no block for it. -/
theorem failed_mkdir_keeps_inode :
    ∃ (L : Layout (plainFs 1029)) (v : Vol) (d : Disk), (mount d).out = .ok (plainFs 1029) ∧
      L.Image d v ∧ Consistent L v ∧
      ((mkdir 0 0).run (plainFs 1029) [47, 97] d).out = .error (.err "no free block") ∧
      ¬ RolledBack L v d ((mkdir 0 0).run (plainFs 1029) [47, 97] d).state := by
  obtain ⟨hlo, hhi, d, hd, hmount, hcons⟩ := exists_plainDisk 1029 (by omega)
  have hnone := lookup_plainVol hlo hhi hd.glimpse (show [97] ≠ dot ∧ [97] ≠ dotdot by decide)
  have hroom := not_inodesFull_plainVol hlo hhi
  have hfull : (plain 1029 hlo hhi).BlocksFull (plainVol 1029 hlo hhi) := by
    intro b hb
    obtain ⟨hlt, hge⟩ := (data_plain hlo hhi).1 hb
    obtain rfl : b = 1028 := by omega
    exact Finset.mem_insert_self ..
  have hlead : (plainFs 1029).Leads d [47, 97] rootIno [97] := leads_root ⟨by decide, by decide⟩
  have hout : ((mkdir 0 0).run (plainFs 1029) [47, 97] d).out = .error (.err "no free block") := by
    rw [run, mkdirPathOwned_run 0 0 hlead hnone]
    exact makeDirIn_blocksFull hd hcons.kept.counted hroom hfull rootIno [97] 0 0
  refine ⟨plain 1029 hlo hhi, plainVol 1029 hlo hhi, d, hmount, hd, hcons, hout, ?_⟩
  refine Leaks.not_rolledBack ?_ hd
  refine ((mkdir 0 0).clean_or_leaks hd hcons.kept.counted hout).resolve_left ?_
  rintro (hastray | ⟨p, name, i, hlead', hsome⟩ | hinodes)
  · exact hlead.not_astray hastray
  · obtain ⟨rfl, rfl⟩ := hlead.unique hlead'
    cases hnone ▸ hsome
  · exact hroom hinodes

end Thos.Ext2
