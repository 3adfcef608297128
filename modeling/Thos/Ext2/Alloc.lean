import Thos.Ext2.Books

/-!
# The allocators

What the allocators do to a volume. Each is run on the regions of the disk first: a bit of
a bitmap, a count in a descriptor, a count in the superblock. Between two sector writes
the disk shows the volume before or after.
-/

set_option autoImplicit false

namespace Thos.Ext2

open Thos.Lib Function List Meets Region Layout Regions Nat

variable {fs : Ext2} {L : Layout fs} {m : Region → Bytes} {v : Vol} {α : Type}

/-! ## Regions -/

/-- A program over the regions. -/
abbrev Layout.Runs (L : Layout fs) (m : Region → Bytes) (p : M α) (Q : α → (Region → Bytes) → Prop)
    (E : Stop → (Region → Bytes) → Prop) (C : (Region → Bytes) → Prop) : Prop :=
  Meets L.regions.Holds L.regions.Holds m p Q E C

/-- Every region is as long as it should be. -/
def Layout.Sized (L : Layout fs) (m : Region → Bytes) : Prop :=
  ∀ r, L.valid r → (m r).length = size fs r

variable {d : Disk}

theorem Layout.sized (h : L.regions.Holds d m) : L.Sized m := fun _ hr => h.length hr

variable {g : Nat}

theorem Layout.valid_blockBitmap (L : Layout fs) (hg : g < fs.groupCount) :
    L.valid (.block (L.blockBitmap g)) := .inr ⟨g, hg, .inl rfl⟩

theorem Layout.valid_inodeBitmap (L : Layout fs) (hg : g < fs.groupCount) :
    L.valid (.block (L.inodeBitmap g)) := .inr ⟨g, hg, .inr rfl⟩

variable {n g' j off : Nat}

theorem Layout.Data.valid (hn : L.Data n) : L.valid (.block n) := .inl hn.2.2

theorem Layout.sector_dvd (L : Layout fs) (n : Nat) : sector ∣ n * fs.blockSize := by
  refine Dvd.dvd.mul_left ?_ n
  rcases L.blockSize_eq with h | h | h <;> rw [h, sector] <;> decide

section

variable (h : L.regions.Holds d m)
include h

theorem readBgd_run {g : Nat} (hg : g < fs.groupCount) :
    fs.readBgd g d = ⟨.ok (slice (m .gdt) (32 * g) 32), d, []⟩ := by
  have haddr : fs.bgdOff g = L.regions.addr .gdt + 32 * g := by
    show _ = (fs.firstDataBlock + 1) * fs.blockSize + 32 * g
    rw [bgdOff, mul_comm 32]
  rw [readBgd, haddr]
  exact h.diskRange (r := gdt) trivial (by show _ ≤ fs.groupCount * 32; omega)

theorem block_run (hn : L.valid (.block n)) : fs.block n d = ⟨.ok (m (.block n)), d, []⟩ :=
  h.diskRange_all (r := Region.block n) hn

end

variable {Q : Unit → (Region → Bytes) → Prop} {E : Stop → (Region → Bytes) → Prop}
  {C : (Region → Bytes) → Prop} {x : Bytes}

theorem runs_writeBlock (hn : L.valid (.block n)) (hx : x.length = fs.blockSize)
    (hQ : Q () (update m (.block n) x)) (hC : C (update m (.block n) x))
    (hcut : ∀ k, k < fs.blockSize → sector ∣ k →
      C (update m (.block n) (splice (m (.block n)) 0 (x.take k)))) :
    L.Runs m (fs.writeBlock n x) Q E C :=
  meets_diskWrite_all (G := L.regions) (r := Region.block n) hn hx hQ hC
    fun k hk hdvd => hcut k (hx ▸ hk) ((Nat.dvd_add_right (L.sector_dvd n)).1 hdvd)

variable {x : Nat} {delta : Int}

theorem wrap_eq {c : Nat} {w : Int} (h : (c : Int) + delta = x) (hx : (x : Int) < w) :
    (((c : Int) + delta) % w).toNat = x := by
  rw [h, Int.emod_eq_of_lt (by omega) hx, Int.toNat_natCast]

theorem runs_bgdAdd16 (hg : g < fs.groupCount) (hoff : off + 2 ≤ 32)
    (heven : off % 2 = 0) (hsum : (le16 (m .gdt) (32 * g + off) : Int) + delta = x) (hx : x < 65536)
    (hC : C m) (hQ : Q () (update m .gdt (splice (m .gdt) (32 * g + off) (toLe16 x))) ∧
      C (update m .gdt (splice (m .gdt) (32 * g + off) (toLe16 x)))) :
    L.Runs m (fs.bgdAdd16 g off delta) Q E C := by
  have haddr : fs.bgdOff g + off = L.regions.addr .gdt + (32 * g + off) := by
    show _ = (fs.firstDataBlock + 1) * fs.blockSize + (32 * g + off)
    rw [bgdOff, Nat.mul_comm 32, Nat.add_assoc]
  have hin : 32 * g + off + 2 ≤ L.regions.size .gdt := by
    show _ ≤ fs.groupCount * 32
    omega
  refine read (x := slice (m .gdt) (32 * g + off) 2) (fun d hd => ?_) ?_
  · rw [haddr]
    exact hd.diskRange (r := gdt) trivial hin
  rw [le16_slice (by omega), Nat.add_zero, wrap_eq hsum (by omega), haddr]
  refine meets_diskWrite (G := L.regions) (r := gdt) trivial hin hQ.1 hQ.2 fun k hk hdvd => ?_
  -- the two bytes of a count are in one sector
  have hk0 : k = 0 := by
    have hbase := L.sector_dvd (fs.firstDataBlock + 1)
    have : sector ∣ 32 * g + off + k := by
      rw [Nat.add_assoc] at hdvd
      exact (Nat.dvd_add_right hbase).1 hdvd
    have hk2 : k < 2 := hk
    unfold sector at this
    omega
  rw [hk0, take_zero, splice_nil, update_eq_self]
  exact hC

theorem runs_sbAdd32 (hoff : off + 4 ≤ 1024) (heven : off % 4 = 0)
    (hsum : (le32 (m .sb) off : Int) + delta = x) (hx : x < 2 ^ 32) (hC : C m)
    (hQ : Q () (update m .sb (splice (m .sb) off (toLe32 x))) ∧
      C (update m .sb (splice (m .sb) off (toLe32 x)))) : L.Runs m (sbAdd32 off delta) Q E C := by
  have hin : off + 4 ≤ L.regions.size .sb := hoff
  refine read (x := slice (m .sb) off 4) (fun d hd => hd.diskRange (r := sb) trivial hin) ?_
  rw [le32_slice (by omega), add_zero, wrap_eq hsum (by omega)]
  refine meets_diskWrite (G := L.regions) (r := sb) trivial hin hQ.1 hQ.2 fun k hk hdvd => ?_
  have hk0 : k = 0 := by
    have hk4 : k < 4 := hk
    have : sector ∣ 1024 + off + k := hdvd
    unfold sector at this
    omega
  rw [hk0, take_zero, splice_nil, update_eq_self]
  exact hC

theorem runs_takeBit {bn count : Nat} (hbn : L.valid (.block bn))
    (hcount : count ≤ 8 * fs.blockSize) {Q : Option Nat → (Region → Bytes) → Prop} (hC : C m)
    (hnone : (∀ i, i < count → bit (m (.block bn)) i = true) → Q none m)
    (hsome : ∀ i, i < count → bit (m (.block bn)) i = false →
      Q (some i) (update m (.block bn) (setBit (m (.block bn)) i)) ∧
        C (update m (.block bn) (setBit (m (.block bn)) i))) :
    L.Runs m (fs.takeBit bn count) Q E C := by
  refine assume (fun d hd => sized hd _ hbn) fun hlen => ?_
  have hlen : (m (.block bn)).length = fs.blockSize := hlen
  refine read (fun d hd => block_run hd hbn) ?_
  cases hfind : firstClear (m (.block bn)) count with
  | none =>
    refine pure (hnone fun i hi => ?_)
    have := find?_eq_none.1 hfind i (mem_range.2 hi)
    simpa using this
  | some i =>
    have hi : i < count := mem_range.1 (mem_of_find?_eq_some hfind)
    have hclear : bit (m (.block bn)) i = false := by simpa using find?_some hfind
    simp only
    rw [if_neg (by omega)]
    obtain ⟨hQ, hC'⟩ := hsome i hi hclear
    refine bind (runs_writeBlock hbn (by rw [length_setBit, hlen]) (pure hQ) hC' ?_)
    intro k _ _
    rw [setBit, splice_take_set]
    split_ifs
    · exact hC'
    · rwa [update_eq_self]

/-! ## Counts -/

/-- The volume with one more block taken, which holds `x`. -/
@[simps] def Vol.addBlock (v : Vol) (n : Nat) (x : Bytes) : Vol :=
  { v with used := insert n v.used, data := update v.data n x, synced := false }

/-- The volume with one block given back. -/
@[simps] def Vol.dropBlock (v : Vol) (n : Nat) : Vol :=
  { v with used := v.used.erase n, synced := false }

/-- The volume with one more inode taken, which holds `x`. -/
@[simps] def Vol.addInode (v : Vol) (ino : Nat) (isDir : Bool) (x : Bytes) : Vol :=
  { v with
    inodes := insert ino v.inodes
    dirs := if isDir then insert ino v.dirs else v.dirs
    inode := update v.inode ino x
    synced := false }

variable {i : Nat}

theorem blockNo_inj : fs.blockNo g j = fs.blockNo g i ↔ j = i := by
  unfold blockNo
  omega

theorem Layout.blockNo_ne (L : Layout fs) (hg : g < fs.groupCount)
    (hi : i < fs.inGroup g) (hg' : g' < fs.groupCount) (hj : j < fs.inGroup g') (hne : g' ≠ g) :
    fs.blockNo g' j ≠ fs.blockNo g i := by
  intro heq
  have h1 := L.div_blockNo hg' hj
  rw [heq, L.div_blockNo hg hi] at h1
  exact hne h1.symm

theorem Layout.blockNo_outside (L : Layout fs) (hg : g < fs.groupCount)
    (hi : i < fs.inGroup g) (hg' : g' < fs.groupCount) (hne : g' ≠ g) :
    fs.blockNo g i < fs.blockNo g' 0 ∨ fs.blockNo g' 0 + fs.inGroup g' ≤ fs.blockNo g i := by
  by_contra hin
  refine L.blockNo_ne (j := fs.blockNo g i - fs.blockNo g' 0) hg hi hg' (by omega) hne ?_
  unfold blockNo at hin ⊢
  omega

theorem inoNo_ne (hi : i < fs.inodesPerGroup) (hj : j < fs.inodesPerGroup)
    (hne : g' ≠ g) : fs.inoNo g' j ≠ fs.inoNo g i := by
  intro heq
  have h1 := div_inoNo (g := g') hj
  rw [heq, div_inoNo hi] at h1
  exact hne h1.symm

theorem inoNo_outside (hi : i < fs.inodesPerGroup) (hne : g' ≠ g) :
    fs.inoNo g i < fs.inoNo g' 0 ∨ fs.inoNo g' 0 + fs.inodesPerGroup ≤ fs.inoNo g i := by
  by_contra hin
  refine inoNo_ne (j := fs.inoNo g i - fs.inoNo g' 0) hi (by omega) hne ?_
  unfold inoNo at hin ⊢
  omega

/-- The counts in a descriptor table `y` are those of `x`, but for one, which is `c`. -/
def Recounts (x y : Bytes) (g off c : Nat) : Prop :=
  ∀ g' off', off' + 2 ≤ 32 → off' % 2 = 0 → le16 y (32 * g' + off') =
    if g' = g ∧ off' = off then c else le16 x (32 * g' + off')

section

variable {c : Nat} (hC : ∀ m', Shows L m' v → C m') (hs : Shows L m v)
include hC hs

theorem runs_count16 (hg : g < fs.groupCount) (hoff : 12 ≤ off) (hoff' : off + 2 ≤ 32)
    (heven : off % 2 = 0) (hsum : (le16 (m .gdt) (32 * g + off) : Int) + delta = c) (hc : c < 65536)
    (hQ : ∀ x, Shows L (update m .gdt x) v → Recounts (m .gdt) x g off c →
      Q () (update m .gdt x)) : L.Runs m (fs.bgdAdd16 g off delta) Q E C := by
  refine assume (fun d hd => sized hd .gdt trivial) fun hlen => ?_
  have hlen : (m .gdt).length = fs.groupCount * 32 := hlen
  have hnew := hs.update_count off c hlen hg hoff hoff'
  refine runs_bgdAdd16 hg hoff' heven hsum hc (hC _ hs)
    ⟨hQ _ hnew fun g' off' ho he => ?_, hC _ hnew⟩
  have hin : 32 * g + off + (toLe16 c).length ≤ (m .gdt).length := by
    rw [length_toLe16, hlen]
    omega
  split_ifs with h
  · rw [h.1, h.2, le16_splice_self (by rw [hlen]; omega), mod_eq_of_lt hc]
  · refine le16_splice_of_apart hin ?_
    rw [length_toLe16]
    rcases lt_trichotomy g g' with hlt | heq | hlt <;> omega

theorem runs_count32 (hoff : off + 4 ≤ 1024) (halign : off % 4 = 0)
    (hsum : (le32 (m .sb) off : Int) + delta = c) (hc : c < 4294967296)
    (hQ : ∀ x, Shows L (update m .sb x) v →
      (∀ off', off' % 4 = 0 → le32 x off' = if off' = off then c else le32 (m .sb) off') →
      Q () (update m .sb x)) : L.Runs m (sbAdd32 off delta) Q E C := by
  refine assume (fun d hd => sized hd .sb trivial) fun hlen => ?_
  have hlen : (m .sb).length = 1024 := hlen
  have hnew := hs.update_other (r := .sb) (splice (m .sb) off (toLe32 c)) nofun nofun nofun
  refine runs_sbAdd32 hoff halign hsum hc (hC _ hs) ⟨hQ _ hnew fun off' he => ?_, hC _ hnew⟩
  split_ifs with h
  · rw [h, le32_splice_self (by omega), mod_eq_of_lt hc]
  · exact le32_splice_of_apart (by rw [length_toLe32]; omega) (by rw [length_toLe32]; omega)

theorem runs_countBlock (hg : g < fs.groupCount)
    (hsum : (le16 (m .gdt) (32 * g + 12) : Int) + delta = c) (hc : c < 65536)
    (hsum' : (le32 (m .sb) 12 : Int) + delta = n) (hn : n < 2 ^ 32)
    (hQ : ∀ m', Shows L m' v → Recounts (m .gdt) (m' .gdt) g 12 c →
      le32 (m' .sb) 12 = n → le32 (m' .sb) 16 = le32 (m .sb) 16 → Q () m') :
    L.Runs m (fs.countBlock g delta) Q E C := by
  refine bind (runs_count16 hC hs hg le_rfl (by omega) rfl hsum hc fun x hx hcount => ?_)
  exact runs_count32 hC hx (by omega) rfl hsum' hn fun y hy hall =>
    hQ _ hy hcount ((hall 12 rfl).trans (if_pos rfl)) ((hall 16 rfl).trans (if_neg (by omega)))

theorem runs_countInode {isDir : Bool} {k : Nat} (hg : g < fs.groupCount)
    (hsum : (le16 (m .gdt) (32 * g + 14) : Int) + delta = c) (hc : c < 65536)
    (hsum' : (le32 (m .sb) 16 : Int) + delta = n) (hn : n < 2 ^ 32)
    (hsum'' : isDir = true → (le16 (m .gdt) (32 * g + 16) : Int) + -delta = k) (hk : k < 65536)
    (hQ : ∀ m', Shows L m' v → (∀ r, r ≠ .gdt → r ≠ .sb → m' r = m r) →
      (∀ g' off, off + 2 ≤ 32 → off % 2 = 0 → le16 (m' .gdt) (32 * g' + off) =
        if g' = g ∧ off = 14 then c else if g' = g ∧ off = 16 ∧ isDir = true then k
        else le16 (m .gdt) (32 * g' + off)) →
      le32 (m' .sb) 16 = n → le32 (m' .sb) 12 = le32 (m .sb) 12 → Q () m') :
    L.Runs m (fs.countInode g isDir delta) Q E C := by
  refine bind (runs_count16 hC hs hg (by omega) (by omega) rfl hsum hc fun x hx hcount => ?_)
  refine bind (runs_count32 hC hx (by omega) rfl hsum' hn fun y hy hall => ?_)
  have h16 : (update (update m .gdt x) .sb y) .gdt = x := rfl
  have hfree := (hall 16 rfl).trans (if_pos rfl)
  have hblks := (hall 12 rfl).trans (if_neg (by omega))
  refine when (fun hdir => ?_) fun hdir => ?_
  · refine runs_count16 hC hy hg (by omega) (by omega) rfl ?_ hk fun z hz hcount' => ?_
    · rw [h16, hcount g 16 (by omega) rfl, if_neg (by omega)]
      exact hsum'' hdir
    refine hQ _ hz (fun r h1 h2 => ?_) (fun g' off ho he => ?_) hfree hblks
    · rw [update_of_ne h1, update_of_ne h2, update_of_ne h1]
    · rw [update_self, hcount' g' off ho he, h16, hcount g' off ho he]
      simp only [hdir, and_true]
      split_ifs <;> first | rfl | omega
  · refine hQ _ hy (fun r h1 h2 => ?_) (fun g' off ho he => ?_) hfree hblks
    · rw [update_of_ne h2, update_of_ne h1]
    · rw [h16, hcount g' off ho he]
      simp [hdir]

end

section

variable {m' : Region → Bytes} {x : Bytes} (hb : Booked fs m v) (hg : g < fs.groupCount)
include hb hg

theorem Booked.freeBlocks_pos (L : Layout fs) (hi : i < fs.inGroup g)
    (hfree : fs.blockNo g i ∉ v.used) : 0 < le16 (m .gdt) (32 * g + 12) ∧ 0 < le32 (m .sb) 12 := by
  have hlt := L.blockNo_lt hg hi
  exact ⟨free_pos (hb.freeBlocks g hg) (by unfold blockNo; omega) (by unfold blockNo; omega) hfree,
    free_pos hb.allFreeBlocks (by unfold blockNo; omega) (by omega) hfree⟩

theorem Booked.recount (L : Layout fs) {c : Nat} {used : Finset Nat} {data : Nat → Bytes}
    (hi : i < fs.inGroup g) (hgdt : Recounts (m .gdt) (m' .gdt) g 12 c)
    (hs16 : le32 (m' .sb) 16 = le32 (m .sb) 16)
    (hself : c + tally used (fs.blockNo g 0) (fs.inGroup g) = fs.inGroup g)
    (hother : ∀ b n, fs.blockNo g i < b ∨ b + n ≤ fs.blockNo g i →
      tally used b n = tally v.used b n)
    (hall : le32 (m' .sb) 12 + tally used fs.firstDataBlock (fs.blockCount - fs.firstDataBlock) =
      fs.blockCount - fs.firstDataBlock) :
    Booked fs m' { v with used := used, data := data, synced := false } := by
  refine ⟨fun g' hg' => ?_, fun g' hg' => ?_, fun g' hg' => ?_, hall, ?_, nofun⟩
  · rw [hgdt g' 12 (by omega) rfl]
    split_ifs with h
    · rw [h.1, hself]
    · rw [hother _ _ (L.blockNo_outside hg hi hg' (by simpa using h)), hb.freeBlocks g' hg']
  · rw [hgdt g' 14 (by omega) rfl, if_neg (by omega), hb.freeInodes g' hg']
  · rw [hgdt g' 16 (by omega) rfl, if_neg (by omega), hb.usedDirs g' hg']
  · rw [hs16, hb.allFreeInodes]

theorem Booked.addBlock (L : Layout fs) (hi : i < fs.inGroup g) (hfree : fs.blockNo g i ∉ v.used)
    (hgdt : Recounts (m .gdt) (m' .gdt) g 12 (le16 (m .gdt) (32 * g + 12) - 1))
    (hs12 : le32 (m' .sb) 12 = le32 (m .sb) 12 - 1) (hs16 : le32 (m' .sb) 16 = le32 (m .sb) 16) :
    Booked fs m' (v.addBlock (fs.blockNo g i) x) := by
  have hlt := L.blockNo_lt hg hi
  refine hb.recount hg L hi hgdt hs16 ?_ (fun _ _ => tally_insert_of_outside) ?_
  · exact free_insert (hb.freeBlocks g hg) (by unfold blockNo; omega) (by unfold blockNo; omega)
      hfree
  · rw [hs12]
    exact free_insert hb.allFreeBlocks (by unfold blockNo; omega) (by omega) hfree

theorem Booked.dropBlock (L : Layout fs) (hi : i < fs.inGroup g) (hused : fs.blockNo g i ∈ v.used)
    (hgdt : Recounts (m .gdt) (m' .gdt) g 12 (le16 (m .gdt) (32 * g + 12) + 1))
    (hs12 : le32 (m' .sb) 12 = le32 (m .sb) 12 + 1) (hs16 : le32 (m' .sb) 16 = le32 (m .sb) 16) :
    Booked fs m' (v.dropBlock (fs.blockNo g i)) := by
  have hlt := L.blockNo_lt hg hi
  refine hb.recount hg L hi hgdt hs16 ?_ (fun _ _ => tally_erase_of_outside) ?_
  · exact free_erase (hb.freeBlocks g hg) (by unfold blockNo; omega) (by unfold blockNo; omega)
      hused
  · rw [hs12]
    exact free_erase hb.allFreeBlocks (by unfold blockNo; omega) (by omega) hused

theorem Booked.freeInodes_pos (hi : i < fs.inodesPerGroup) (hfree : fs.inoNo g i ∉ v.inodes) :
    0 < le16 (m .gdt) (32 * g + 14) ∧ 0 < le32 (m .sb) 16 := by
  have hvalid := validIno_inoNo hg hi
  exact ⟨free_pos (hb.freeInodes g hg) (by unfold inoNo; omega) (by unfold inoNo; omega) hfree,
    free_pos hb.allFreeInodes hvalid.1 (by have := hvalid.2; omega) hfree⟩

theorem Booked.addInode (hi : i < fs.inodesPerGroup) (hfree : fs.inoNo g i ∉ v.inodes)
    {isDir : Bool} (hdir : isDir = true → fs.inoNo g i ∉ v.dirs)
    (hgdt : ∀ g' off, off + 2 ≤ 32 → off % 2 = 0 → le16 (m' .gdt) (32 * g' + off) =
      if g' = g ∧ off = 14 then le16 (m .gdt) (32 * g + 14) - 1
      else if g' = g ∧ off = 16 ∧ isDir = true then le16 (m .gdt) (32 * g + 16) + 1
      else le16 (m .gdt) (32 * g' + off))
    (hs12 : le32 (m' .sb) 12 = le32 (m .sb) 12) (hs16 : le32 (m' .sb) 16 = le32 (m .sb) 16 - 1) :
    Booked fs m' (v.addInode (fs.inoNo g i) isDir x) := by
  have hvalid := validIno_inoNo hg hi
  refine ⟨fun g' hg' => ?_, fun g' hg' => ?_, fun g' hg' => ?_, ?_, ?_, nofun⟩
  · rw [hgdt g' 12 (by omega) rfl, if_neg (by omega), if_neg (by omega)]
    exact hb.freeBlocks g' hg'
  · rw [hgdt g' 14 (by omega) rfl, Vol.addInode_inodes, if_neg (c := _ ∧ _ ∧ _) (by omega)]
    split_ifs with h
    · rw [h.1]
      exact free_insert (hb.freeInodes g hg) (by unfold inoNo; omega) (by unfold inoNo; omega) hfree
    · rw [tally_insert_of_outside (inoNo_outside hi (by simpa using h))]
      exact hb.freeInodes g' hg'
  · have hold := hb.usedDirs g' hg'
    rw [hgdt g' 16 (by omega) rfl, if_neg (by omega), Vol.addInode_dirs]
    cases isDir with
    | false => simpa using hold
    | true =>
      simp only [and_true, if_true]
      split_ifs with h
      · rw [h] at hold ⊢
        rw [tally_insert (hdir rfl) (by unfold inoNo; omega) (by unfold inoNo; omega), hold]
      · rw [tally_insert_of_outside (inoNo_outside hi h), hold]
  · rw [hs12]
    exact hb.allFreeBlocks
  · rw [hs16, Vol.addInode_inodes]
    exact free_insert hb.allFreeInodes hvalid.1 (by have := hvalid.2; omega) hfree

end

theorem scan_groups {F : Nat → Prop} {P : List Nat → Prop} (hnil : (∀ g, g < n → F g) → P [])
    (hcons : ∀ g gs, g < n → (F g → P gs) → P (g :: gs)) : P (List.range n) := by
  have hall : ∀ gs : List Nat, (∀ g ∈ gs, g < n) → (∀ g, g < n → g ∉ gs → F g) → P gs := by
    intro gs
    induction gs with
    | nil => exact fun _ hpassed => hnil fun g hg => hpassed g hg not_mem_nil
    | cons g gs ih =>
      intro hgs hpassed
      refine hcons g gs (hgs g mem_cons_self) fun hfull =>
        ih (fun g' hg' => hgs g' (mem_cons_of_mem _ hg')) fun g' hg' hnot => ?_
      by_cases heq : g' = g
      · exact heq ▸ hfull
      · exact hpassed g' hg' (by simp [heq, hnot])
  exact hall _ (fun g => mem_range.1) fun g hg hnot => absurd (mem_range.2 hg) hnot

/-! ## Blocks -/

/-- A program over the volume. -/
abbrev Layout.Meets (L : Layout fs) (v : Vol) (p : M α) (Q : α → Vol → Prop) (E : Stop → Vol → Prop)
    (C : Vol → Prop) : Prop :=
  Lib.Meets L.Image L.Glimpse v p Q E C

theorem Shows.takeBlock (h : Shows L m v) (hg : g < fs.groupCount) (hi : i < fs.inGroup g)
    (hlen : (m (.block (L.blockBitmap g))).length = fs.blockSize) :
    Shows L (update m (.block (L.blockBitmap g)) (setBit (m (.block (L.blockBitmap g))) i))
      { v with used := insert (fs.blockNo g i) v.used } := by
  have hbyte : i / 8 < (m (.block (L.blockBitmap g))).length := by
    have := L.inGroup_le hg
    have := L.blocksPerGroup_le
    omega
  refine h.update_blockBitmap hg (fun j hj => ?_) (fun g' j hg' hj hne => ?_) fun n hlo hhi hk =>
    Finset.mem_insert_of_mem (h.reserved n hlo hhi hk)
  · rw [bit_setBit hbyte, Finset.mem_insert, ← h.used g j hg hj]
    rw [blockNo_inj]
    by_cases hji : j = i <;> simp [hji]
  · rw [Finset.mem_insert, or_iff_right (L.blockNo_ne hg hi hg' hj hne)]

theorem Shows.data_of_free (h : Shows L m v) (hg : g < fs.groupCount) (hi : i < fs.inGroup g)
    (hfree : fs.blockNo g i ∉ v.used) : L.Data (fs.blockNo g i) := by
  have hlo : fs.firstDataBlock ≤ fs.blockNo g i := by
    unfold blockNo
    omega
  have hhi := L.blockNo_lt hg hi
  refine ⟨hlo, hhi, ?_⟩
  by_contra hk
  exact hfree (h.reserved _ hlo hhi hk)

/-- No block is free. -/
def Layout.BlocksFull (L : Layout fs) (v : Vol) : Prop := ∀ n, L.Data n → n ∈ v.used

theorem meets_allocBlock {Q : Nat → Vol → Prop} {E : Stop → Vol → Prop} {C : Vol → Prop}
    (hE : L.BlocksFull v → E .none v) (hC : C v)
    (hQ : ∀ n, L.Data n → n ∉ v.used → Q n (v.addBlock n (List.replicate fs.blockSize 0)))
    (hcut : ∀ n, L.Data n → n ∉ v.used → ∀ x, C (v.addBlock n x)) :
    L.Meets v fs.allocBlock Q E C := by
  refine lift fun m ⟨hs, hb⟩ => ?_
  rw [allocBlock]
  refine scan_groups (F := fun g => ∀ i, i < fs.inGroup g → fs.blockNo g i ∈ v.used)
    (P := fun gs => L.Runs m (fs.allocBlockIn gs) ..) ?_ ?_
  · intro hfull
    refine stop ⟨v, ⟨hs, hb⟩, hE fun n hn => ?_⟩
    obtain ⟨g, i, hg, hi, rfl⟩ := L.exists_blockNo hn.1 hn.2.1
    exact hfull g hg i hi
  · intro g gs hg ih
    refine read (fun d hd => readBgd_run hd hg) ?_
    rw [le16_slice (by omega)]
    split_ifs with hzero
    · refine ih fun i hi => ?_
      by_contra hfree
      have := (hb.freeBlocks_pos hg L hi hfree).1
      omega
    refine assume (fun d hd => sized hd) fun hsized => ?_
    rw [le32_slice (by omega), add_zero, hs.blockPtr g hg]
    have hin := L.inGroup_le hg
    have hle := L.blocksPerGroup_le
    refine bind (runs_takeBit (L.valid_blockBitmap hg) (by omega) ⟨v, hs, hC⟩
      (fun hset => ih fun i hi => (hs.used g i hg hi).1 (hset i hi)) ?_)
    intro i hi hclear
    have hfree : fs.blockNo g i ∉ v.used := by
      rw [← hs.used g i hg hi, hclear]
      nofun
    have hdata := hs.data_of_free hg hi hfree
    obtain ⟨hpos, hpos'⟩ := hb.freeBlocks_pos hg L hi hfree
    have hlt := le16_lt (m .gdt) (32 * g + 12)
    have hlt' := le32_lt (m .sb) 12
    -- the bit is set; the counts and the block follow
    have h1 := hs.takeBlock hg hi (hsized _ (L.valid_blockBitmap hg))
    have hC1 : ∀ m', Shows L m' { v with used := insert (fs.blockNo g i) v.used } →
        ∃ v', Shows L m' v' ∧ C v' := fun m' h =>
      ⟨v.addBlock (fs.blockNo g i) (v.data (fs.blockNo g i)),
        h.congr rfl rfl rfl (update_eq_self ..), hcut _ hdata hfree _⟩
    refine ⟨?_, hC1 _ h1⟩
    refine bind (runs_countBlock hC1 h1 hg (Int.natCast_pred_of_pos hpos).symm (by omega)
      (Int.natCast_pred_of_pos hpos').symm (by omega) fun m2 h2 h16 h12 h12' => ?_)
    have h3 := fun x => (h2.update_data hdata x).congr (w := v.addBlock (fs.blockNo g i) x)
      rfl rfl rfl rfl
    refine bind (runs_writeBlock hdata.valid (by simp) ?_
      ⟨_, h3 _, hcut _ hdata hfree _⟩ fun k _ _ => ⟨_, h3 _, hcut _ hdata hfree _⟩)
    exact pure ⟨_, ⟨h3 _, hb.addBlock hg L hi hfree h16 h12 h12'⟩, hQ _ hdata hfree⟩

theorem Shows.giveBlock (h : Shows L m v) (hg : g < fs.groupCount) (hi : i < fs.inGroup g)
    (hdata : L.Data (fs.blockNo g i))
    (hlen : (m (.block (L.blockBitmap g))).length = fs.blockSize) :
    Shows L (update m (.block (L.blockBitmap g)) (clearBit (m (.block (L.blockBitmap g))) i))
      { v with used := v.used.erase (fs.blockNo g i) } := by
  have hbyte : i / 8 < (m (.block (L.blockBitmap g))).length := by
    have := L.inGroup_le hg
    have := L.blocksPerGroup_le
    omega
  refine h.update_blockBitmap hg (fun j hj => ?_) (fun g' j hg' hj hne => ?_) fun n hlo hhi hk => ?_
  · rw [bit_clearBit hbyte, Finset.mem_erase, ← h.used g j hg hj]
    rw [ne_eq, blockNo_inj]
    by_cases hji : j = i <;> simp [hji]
  · rw [Finset.mem_erase, and_iff_right (L.blockNo_ne hg hi hg' hj hne)]
  · refine Finset.mem_erase.2 ⟨?_, h.reserved n hlo hhi hk⟩
    rintro rfl
    exact hk hdata.2.2

theorem meets_freeBlock (hn : L.Data n) (hused : n ∈ v.used) {Q : Unit → Vol → Prop}
    {E : Stop → Vol → Prop} {C : Vol → Prop} (hC : C v) (hQ : Q () (v.dropBlock n))
    (hC' : C (v.dropBlock n)) : L.Meets v (fs.freeBlock n) Q E C := by
  refine lift fun m ⟨hs, hb⟩ => ?_
  obtain ⟨g, i, hg, hi, rfl⟩ := L.exists_blockNo hn.1 hn.2.1
  refine assume (fun d hd => sized hd) fun hsized => ?_
  have hlen : (m (.block (L.blockBitmap g))).length = fs.blockSize :=
    hsized _ (L.valid_blockBitmap hg)
  have hin := L.inGroup_le hg
  have hle := L.blocksPerGroup_le
  have hbs := L.blockSize_eq
  have hcount := hb.freeBlocks g hg
  have hall := hb.allFreeBlocks
  have hlt := L.blockCount_lt
  rw [freeBlock, if_neg (not_lt.2 hn.1)]
  simp only [L.div_blockNo hg hi, L.mod_blockNo hg hi]
  refine read (fun d hd => readBgd_run hd hg) ?_
  rw [le32_slice (by omega), add_zero, hs.blockPtr g hg]
  refine read (fun d hd => block_run hd (L.valid_blockBitmap hg)) ?_
  rw [if_neg (by omega), (hs.used g i hg hi).2 hused]
  refine when (fun _ => ?_) nofun
  have h1 := hs.giveBlock hg hi hn hlen
  have hC1 : ∀ m', Shows L m' { v with used := v.used.erase (fs.blockNo g i) } →
      ∃ v', Shows L m' v' ∧ C v' := fun m' h =>
    ⟨v.dropBlock _, h.congr rfl rfl rfl rfl, hC'⟩
  refine bind (runs_writeBlock (L.valid_blockBitmap hg) (by rw [length_clearBit, hlen]) ?_
    (hC1 _ h1) fun k _ _ => ?_)
  swap
  · rw [clearBit, splice_take_set]
    split_ifs
    · exact hC1 _ h1
    · rw [update_eq_self]
      exact ⟨v, hs, hC⟩
  -- where a block is taken the counts are not full
  have hmem := tally_erase (b := fs.blockNo g 0) (n := fs.inGroup g) hused
    (by unfold blockNo; omega)
    (by unfold blockNo; omega)
  have hmem' := tally_erase (b := fs.firstDataBlock) (n := fs.blockCount - fs.firstDataBlock) hused
    hn.1 (by have := hn.2.1; omega)
  exact runs_countBlock (c := le16 (m .gdt) (32 * g + 12) + 1) (n := le32 (m .sb) 12 + 1) hC1 h1 hg
    rfl (by omega) rfl (by omega) fun m2 h2 h16 h12 h12' =>
    ⟨v.dropBlock _, ⟨h2.congr rfl rfl rfl rfl, hb.dropBlock hg L hi hused h16 h12 h12'⟩, hQ⟩

/-- A block taken and given back is free again, in bitmap and counts. -/
theorem allocBlock_freeBlock : L.Meets v (fs.allocBlock >>= fs.freeBlock)
    (fun _ u => u.used = v.used) (fun e u => e = .none ∧ L.BlocksFull v ∧ u = v) fun _ => True :=
  bind (meets_allocBlock (fun h => ⟨rfl, h, rfl⟩) trivial (fun _ hn hu =>
    meets_freeBlock hn (by simp) trivial (Finset.erase_insert hu) trivial) (by simp))

/-! ## Inodes and blocks in place -/

variable {ino : Nat}

theorem inodeOff_run (h : L.regions.Holds d m) (hs : Shows L m v) (hino : fs.ValidIno ino) :
    fs.inodeOff ino d = ⟨.ok (L.addr (.inode ino)), d, []⟩ := by
  have hg := hino.group_lt
  rw [inodeOff, Prog.bind_of_read (readBgd_run h hg), le32_slice (by omega), hs.tablePtr _ hg]
  rfl

theorem inode_run (h : L.regions.Holds d m) (hino : fs.ValidIno ino) :
    (diskRange (L.addr (.inode ino)) fs.inodeSize : M Bytes) d = ⟨.ok (m (.inode ino)), d, []⟩ :=
  h.diskRange_all (r := inode ino) hino

theorem runs_patchInode (hs : Shows L m v) (hino : fs.ValidIno ino) {f : Bytes → Bytes}
    (hf : (f (m (.inode ino))).length = fs.inodeSize) (hC : C m)
    (hQ : Q () (update m (.inode ino) (f (m (.inode ino)))))
    (hC' : C (update m (.inode ino) (f (m (.inode ino)))))
    (hcut : ¬ fs.inodeSize ∣ sector → ∀ x, C (update m (.inode ino) x)) :
    L.Runs m (fs.patchInode ino f) Q E C := by
  refine read (fun d hd => inodeOff_run hd hs hino) ?_
  refine read (fun d hd => inode_run hd hino) ?_
  refine meets_diskWrite_all (G := L.regions) (r := inode ino) hino hf hQ hC' fun k hk hdvd => ?_
  by_cases hdiv : fs.inodeSize ∣ sector
  · -- the sector boundaries are inode boundaries
    have hk0 : k = 0 := by
      have h1 : sector ∣ L.inodeTable ((ino - 1) / fs.inodesPerGroup) * fs.blockSize +
          ((ino - 1) % fs.inodesPerGroup * fs.inodeSize + k) := by
        rw [← Nat.add_assoc]
        exact hdvd
      have h2 := hdiv.trans ((Nat.dvd_add_right (L.sector_dvd _)).1 h1)
      have h3 : fs.inodeSize ∣ k := (Nat.dvd_add_right (Dvd.intro_left _ rfl)).1 h2
      exact Nat.eq_zero_of_dvd_of_lt h3 (hf ▸ hk)
    rw [hk0, take_zero, splice_nil, update_eq_self]
    exact hC
  · exact hcut hdiv _

theorem Booked.congr (hb : Booked fs m v) {m' : Region → Bytes} {v' : Vol} (hgdt : m' .gdt = m .gdt)
    (hsb : m' .sb = m .sb) (hbackup : ∀ g, m' (.backupSb g) = m (.backupSb g))
    (hbackup' : ∀ g, m' (.backupGdt g) = m (.backupGdt g)) (hused : v'.used = v.used)
    (hinos : v'.inodes = v.inodes) (hdirs : v'.dirs = v.dirs) (hsync : v'.synced = v.synced) :
    Booked fs m' v' := by
  refine ⟨?_, ?_, ?_, ?_, ?_, ?_⟩
  · simpa only [hgdt, hused] using hb.freeBlocks
  · simpa only [hgdt, hinos] using hb.freeInodes
  · simpa only [hgdt, hdirs] using hb.usedDirs
  · simpa only [hsb, hused] using hb.allFreeBlocks
  · simpa only [hsb, hinos] using hb.allFreeInodes
  · simpa only [hsync, hbackup, hbackup', hsb, hgdt] using hb.backups

section Volumes

variable {Q : Unit → Vol → Prop} {E : Stop → Vol → Prop} {C : Vol → Prop} {x : Bytes}

theorem meets_patchInode (hino : fs.ValidIno ino) {f : Bytes → Bytes}
    (hf : (v.inode ino).length = fs.inodeSize → (f (v.inode ino)).length = fs.inodeSize) (hC : C v)
    (hQ : Q () (v.putInode ino (f (v.inode ino)))) (hC' : C (v.putInode ino (f (v.inode ino))))
    (hcut : ¬ fs.inodeSize ∣ sector → ∀ x, C (v.putInode ino x)) :
    L.Meets v (fs.patchInode ino f) Q E C := by
  refine lift fun m ⟨hs, hb⟩ => ?_
  refine assume (fun d hd => sized hd _ (show L.valid (.inode ino) from hino)) fun hlen => ?_
  have hm := hs.inode ino hino
  refine runs_patchInode hs hino (hm ▸ hf (hm ▸ hlen)) ⟨v, hs, hC⟩ ?_ ?_ fun hdiv x =>
    ⟨_, hs.update_inode ino x, hcut hdiv x⟩
  · rw [hm]
    exact ⟨_, ⟨hs.update_inode ino _, hb.congr (by simp) (by simp) (by simp)
      (by simp) rfl rfl rfl rfl⟩, hQ⟩
  · rw [hm]
    exact ⟨_, hs.update_inode ino _, hC'⟩

theorem meets_writeBlock (hn : L.Data n) (hx : x.length = fs.blockSize)
    (hQ : Q () (v.putData n x)) (hC : C (v.putData n x))
    (hcut : ∀ k, k < fs.blockSize → sector ∣ k → C (v.putData n (splice (v.data n) 0 (x.take k)))) :
    L.Meets v (fs.writeBlock n x) Q E C := by
  refine lift fun m ⟨hs, hb⟩ => ?_
  refine runs_writeBlock hn.valid hx ⟨_, ⟨hs.update_data hn x, ?_⟩, hQ⟩ ⟨_, hs.update_data hn x, hC⟩
    fun k hk hdvd => ⟨_, hs.update_data hn _, ?_⟩
  · exact hb.congr (by simp) (by simp) (by simp) (by simp) rfl rfl rfl rfl
  · rw [hs.data n hn]
    exact hcut k hk hdvd

/-! ## Inodes -/

theorem Shows.takeInode (h : Shows L m v) (hg : g < fs.groupCount) (hi : i < fs.inodesPerGroup)
    (hlen : (m (.block (L.inodeBitmap g))).length = fs.blockSize) :
    Shows L (update m (.block (L.inodeBitmap g)) (setBit (m (.block (L.inodeBitmap g))) i))
      { v with inodes := insert (fs.inoNo g i) v.inodes } := by
  have hbyte : i / 8 < (m (.block (L.inodeBitmap g))).length := by
    have := L.inodesPerGroup_le
    omega
  refine h.update_inodeBitmap hg (fun j hj => ?_) fun g' j hg' hj hne => ?_
  · rw [bit_setBit hbyte, Finset.mem_insert, ← h.inodes g j hg hj]
    have hno : fs.inoNo g j = fs.inoNo g i ↔ j = i := by
      unfold inoNo
      omega
    rw [hno]
    by_cases hji : j = i <;> simp [hji]
  · rw [Finset.mem_insert, or_iff_right (inoNo_ne hi hj hne)]

/-- No inode is free. -/
def InodesFull (fs : Ext2) (v : Vol) : Prop := ∀ ino, fs.ValidIno ino → ino ∈ v.inodes

theorem meets_allocInode {isDir : Bool} (hdirs : v.dirs ⊆ v.inodes) {Q : Nat → Vol → Prop}
    (hE : fs.InodesFull v → E .none v) (hC : C v) (hQ : ∀ ino, fs.ValidIno ino → ino ∉ v.inodes →
      Q ino (v.addInode ino isDir (List.replicate fs.inodeSize 0)))
    (hcut : ∀ ino, fs.ValidIno ino → ino ∉ v.inodes → ∀ x, C (v.addInode ino isDir x)) :
    L.Meets v (fs.allocInode isDir) Q E C := by
  refine lift fun m ⟨hs, hb⟩ => ?_
  rw [allocInode]
  refine scan_groups (F := fun g => ∀ i, i < fs.inodesPerGroup → fs.inoNo g i ∈ v.inodes)
    (P := fun gs => L.Runs m (fs.allocInodeIn isDir gs) ..) ?_ ?_
  · intro hfull
    refine stop ⟨v, ⟨hs, hb⟩, hE fun ino hino => ?_⟩
    obtain ⟨g, i, hg, hi, rfl⟩ := L.exists_inoNo hino
    exact hfull g hg i hi
  · intro g gs hg ih
    refine read (fun d hd => readBgd_run hd hg) ?_
    rw [le16_slice (by omega)]
    split_ifs with hzero
    · refine ih fun i hi => ?_
      by_contra hfree
      have := (hb.freeInodes_pos hg hi hfree).1
      omega
    refine assume (fun d hd => sized hd) fun hsized => ?_
    rw [le32_slice (by omega), hs.inodePtr g hg]
    refine bind (runs_takeBit (L.valid_inodeBitmap hg) L.inodesPerGroup_le ⟨v, hs, hC⟩
      (fun hset => ih fun i hi => (hs.inodes g i hg hi).1 (hset i hi)) ?_)
    intro i hi hclear
    have hfree : fs.inoNo g i ∉ v.inodes := by
      rw [← hs.inodes g i hg hi, hclear]
      nofun
    have hvalid := validIno_inoNo hg hi
    have hsize : (m (.inode (fs.inoNo g i))).length = fs.inodeSize := hsized (.inode _) hvalid
    obtain ⟨hpos, hpos'⟩ := hb.freeInodes_pos hg hi hfree
    have hlt := le16_lt (m .gdt) (32 * g + 14)
    have hlt' := le32_lt (m .sb) 16
    have hcount := hb.usedDirs g hg
    have hsmall := tally_le v.dirs (fs.inoNo g 0) fs.inodesPerGroup
    have hipg := L.inodesPerGroup_le
    have hbs := L.blockSize_eq
    -- the bit is set; the counts and the inode follow
    have h1 := hs.takeInode hg hi (hsized _ (L.valid_inodeBitmap hg))
    have hC1 : ∀ m', Shows L m' { v with inodes := insert (fs.inoNo g i) v.inodes } →
        ∃ v', Shows L m' v' ∧ C v' := fun m' h =>
      ⟨v.addInode (fs.inoNo g i) isDir (v.inode (fs.inoNo g i)),
        h.congr rfl rfl (update_eq_self ..) rfl, hcut _ hvalid hfree _⟩
    refine ⟨?_, hC1 _ h1⟩
    refine bind (runs_countInode (k := le16 (m .gdt) (32 * g + 16) + 1) hC1 h1 hg
      (Int.natCast_pred_of_pos hpos).symm (by omega) (Int.natCast_pred_of_pos hpos').symm (by omega)
      (fun _ => by simp) (by omega) fun m2 h2 hkeep h14 h16 h12 => ?_)
    have hraw : m2 (.inode (fs.inoNo g i)) = m (.inode (fs.inoNo g i)) := hkeep _ nofun nofun
    have h3 := fun x => (h2.update_inode (fs.inoNo g i) x).congr
      (w := v.addInode (fs.inoNo g i) isDir x) rfl rfl rfl rfl
    refine bind (runs_patchInode h2 hvalid (by rw [length_replicate, hraw, hsize])
      (hC1 _ h2) ?_ ⟨_, h3 _, hcut _ hvalid hfree _⟩ fun _ x => ⟨_, h3 x, hcut _ hvalid hfree _⟩)
    rw [hraw, hsize]
    exact pure ⟨_, ⟨h3 _, hb.addInode hg hi hfree (fun _ h => hfree (hdirs h)) h14 h12 h16⟩,
      hQ _ hvalid hfree⟩

end Volumes

/-! ## Backups -/

/-- The backups of the groups in `gs` are copies of `sb` and `gdt`. -/
def Copied (fs : Ext2) (m : Region → Bytes) (sb gdt : Bytes) (gs : List Nat) : Prop :=
  ∀ g ∈ gs, fs.hasBackup g = true → m (.backupSb g) = splice sb 90 (toLe16 g) ∧
    m (.backupGdt g) = gdt

theorem runs_copyBackups {sb gdt : Bytes} (hlen : sb.length = 1024)
    (hlen' : gdt.length = fs.groupCount * 32) (hC : ∀ m', Shows L m' v → C m') (gs : List Nat)
    (hgs : ∀ g ∈ gs, 0 < g ∧ g < fs.groupCount) (hs : Shows L m v)
    (hQ : ∀ m', Shows L m' v → m' .sb = m .sb → m' .gdt = m .gdt → fs.Copied m' sb gdt gs →
      (∀ g, g ∉ gs → m' (.backupSb g) = m (.backupSb g) ∧ m' (.backupGdt g) = m (.backupGdt g)) →
      Q () m') : L.Runs m (fs.copyBackups sb gdt gs) Q E C := by
  induction gs generalizing m with
  | nil => exact pure (hQ m hs rfl rfl nofun fun _ _ => ⟨rfl, rfl⟩)
  | cons g gs ih =>
    have hg := hgs g mem_cons_self
    have hrest := fun g' hg' => hgs g' (mem_cons_of_mem _ hg')
    refine bind (when (fun hbackup => ?_) fun hnone => ih hrest hs ?_)
    · have hvalid : fs.Backup g := ⟨hg.1, hg.2, hbackup⟩
      have hsb : (splice sb 90 (toLe16 g)).length = 1024 := by
        rw [length_splice (by rw [length_toLe16]; omega), hlen]
      have h1 := fun x => hs.update_other (r := .backupSb g) x nofun nofun nofun
      have h2 := fun x => (h1 (splice sb 90 (toLe16 g))).update_other (r := .backupGdt g) x
        nofun nofun nofun
      refine bind (meets_diskWrite_all (G := L.regions) (r := backupSb g)
        hvalid hsb ?_ (hC _ (h1 _)) fun k _ _ => hC _ (h1 _))
      refine meets_diskWrite_all (G := L.regions) (r := backupGdt g) hvalid hlen' ?_
        (hC _ (h2 _)) fun k _ _ => hC _ (h2 _)
      refine ih hrest (h2 _) fun m' hs' hsb' hgdt' hcopy hrest =>
        hQ m' hs' (by simpa using hsb')
        (by simpa using hgdt') (fun g' hg' hb => ?_) fun g' hg' => ?_
      · by_cases hin : g' ∈ gs
        · exact hcopy g' hin hb
        · obtain rfl := (mem_cons.1 hg').resolve_right hin
          simpa using hrest g' hin
      · obtain ⟨hne, hin⟩ := not_or.1 (mt mem_cons.2 hg')
        simpa [hne] using hrest g' hin
    · intro m' hs' hsb' hgdt' hcopy hrest
      refine hQ m' hs' hsb' hgdt' (fun g' hg' hb => ?_) fun g' hg' =>
        hrest g' fun h => hg' (mem_cons_of_mem _ h)
      rcases mem_cons.1 hg' with rfl | hin
      · cases hnone ▸ hb
      · exact hcopy g' hin hb

/-- The volume with its backups up to date. -/
@[simps] def Vol.sync (v : Vol) : Vol := { v with synced := true }

theorem meets_syncBackups {Q : Unit → Vol → Prop} {E : Stop → Vol → Prop}
    {C : Vol → Prop} (hC : C v) (hQ : Q () v.sync) : L.Meets v fs.syncBackups Q E C := by
  refine lift fun m ⟨hs, hb⟩ => ?_
  have hbooked : ∀ m', m' .sb = m .sb → m' .gdt = m .gdt →
      (∀ g, fs.Backup g → m' (.backupSb g) = splice (m .sb) 90 (toLe16 g) ∧
        m' (.backupGdt g) = m .gdt) → Booked fs m' { v with synced := true } := by
    intro m' hsb hgdt hcopy
    refine ⟨?_, ?_, ?_, ?_, ?_, fun _ g hg => ?_⟩
    · simpa only [hgdt] using hb.freeBlocks
    · simpa only [hgdt] using hb.freeInodes
    · simpa only [hgdt] using hb.usedDirs
    · simpa only [hsb] using hb.allFreeBlocks
    · simpa only [hsb] using hb.allFreeInodes
    · rw [hsb, hgdt]
      exact hcopy g hg
  rw [syncBackups]
  split_ifs with hone
  · -- one group has no backups
    refine pure ⟨{ v with synced := true },
      ⟨hs.congr rfl rfl rfl rfl, hbooked m rfl rfl fun g hg => ?_⟩, hQ⟩
    have h1 := hg.1
    have h2 := hg.2.1
    omega
  refine assume (fun d hd => sized hd) fun hsized => ?_
  refine read (fun d hd => hd.diskRange_all (r := sb) trivial) ?_
  refine read (x := m .gdt) (fun d hd => ?_) ?_
  · rw [bgdOff, zero_mul]
    exact hd.diskRange_all (r := gdt) trivial
  refine runs_copyBackups (hsized .sb trivial) (hsized .gdt trivial)
    (fun m' h => ⟨v, h, hC⟩) _ ?_ hs ?_
  · intro g hg
    obtain ⟨g', hg', rfl⟩ := mem_map.1 hg
    rw [mem_range] at hg'
    omega
  · intro m' hs' hsb hgdt hcopy _
    refine ⟨{ v with synced := true }, ⟨hs'.congr rfl rfl rfl rfl,
      hbooked m' hsb hgdt fun g hg => hcopy g ?_ hg.2.2⟩, hQ⟩
    have h1 := hg.1
    have h2 := hg.2.1
    exact mem_map.2 ⟨g - 1, mem_range.2 (by omega), by omega⟩

end Thos.Ext2
