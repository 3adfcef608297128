import Thos.Ext2.Consistent

/-!
# Calls that fail

`write_path_owned` and `mkdir_path_owned` take blocks and inodes as they go and give none
back when a later step fails. A call that fails leaves the disk as it was exactly when it
fails before it has taken anything. This holds whatever the path leads through: a lookup
only reads, and an insertion that fails has written nothing.
-/

set_option autoImplicit false

namespace Thos.Ext2

open Thos.Lib List Prog Prog.Quiet Finset

variable {fs : Ext2} {L : Layout fs} {v : Vol} {d : Disk} {α β : Type} {name path : Bytes}

/-! ## The read side only reads -/

section

variable (fs)

theorem quiet_block (n : Nat) : (fs.block n).Quiet := quiet_diskRange _ _

variable (ino : Nat)

theorem quiet_inodeOff : (fs.inodeOff ino).Quiet :=
  (quiet_diskRange _ _).bind fun _ => .pure _

theorem quiet_readInode : (fs.readInode ino).Quiet :=
  (quiet_inodeOff fs ino).bind fun _ => (quiet_diskRange _ _).bind fun _ => .pure _

theorem quiet_single (n bn : Nat) (out : List Nat) : (fs.single n bn out).Quiet := by
  rw [single]
  split_ifs
  · exact .pure _
  · exact .pure _
  · exact (quiet_block fs bn).bind fun _ => .pure _

theorem quiet_singles (n : Nat) (bns out : List Nat) : (fs.singles n bns out).Quiet := by
  induction bns generalizing out with
  | nil => exact .pure _
  | cons bn bns ih =>
    rw [singles]
    split_ifs
    · exact .pure _
    · exact (quiet_single fs n bn out).bind fun out => ih out

theorem quiet_blockMap (node : Inode) : (fs.blockMap node).Quiet := by
  have hrest : ∀ out, (if fs.mapLen node.size ≤ out.length then pure out
      else if node.block 13 = 0 then
        fs.singles (fs.mapLen node.size) (List.replicate (fs.blockSize / 4) 0) out
      else do
        let dind ← fs.block (node.block 13)
        fs.singles (fs.mapLen node.size) (ptrs dind) out : M (List Nat)).Quiet := by
    intro out
    split_ifs
    · exact .pure _
    · exact quiet_singles fs _ _ _
    · exact (quiet_block fs _).bind fun _ => quiet_singles fs _ _ _
  rw [blockMap]
  by_cases h12 : 12 < fs.mapLen node.size
  · rw [if_pos h12]
    exact (quiet_single fs _ _ _).bind hrest
  · rw [if_neg h12]
    exact (pure _).bind hrest

theorem quiet_readRuns (fuel : Nat) (bs : List Nat) (out : Bytes) :
    (fs.readRuns fuel bs out).Quiet := by
  induction fuel generalizing bs out with
  | zero => exact .pure _
  | succ fuel ih =>
    cases bs with
    | nil => exact .pure _
    | cons b bs =>
      rw [readRuns]
      split_ifs
      · exact ih _ _
      · exact (quiet_diskRange _ _).bind fun _ => ih _ _

theorem quiet_readFile (node : Inode) : (fs.readFile node).Quiet :=
  (quiet_blockMap fs node).bind fun _ => (quiet_readRuns fs _ _ _).bind fun _ => .pure _

theorem quiet_lookup (name : Bytes) : (fs.lookup ino name).Quiet :=
  (quiet_readInode fs ino).bind fun _ => (quiet_readFile fs _).bind fun _ => .pure _

theorem quiet_walk (names : List Bytes) : (fs.walk ino names).Quiet := by
  induction names generalizing ino with
  | nil => exact .pure _
  | cons name names ih =>
    refine (quiet_lookup fs ino name).bind fun found => ?_
    cases found with
    | none => exact .pure _
    | some ino => exact ih ino

theorem quiet_pathLookup (path : Bytes) : (fs.pathLookup path).Quiet := quiet_walk fs _ _

end

theorem quiet_run {p : M α} (hp : p.Quiet) {a : α} (hout : (p d).out = .ok a) :
    p d = ⟨.ok a, d, []⟩ := by
  obtain ⟨b, hb⟩ := hp d
  rw [hb] at hout ⊢
  cases hout
  rfl

/-! ## Steps that cannot fail -/

/-- A stop other than an error text. -/
def NoText (e : Stop) : Prop := ∀ msg, e ≠ .err msg

section

variable (fs)

theorem noText_panic : NoText .panic := nofun

theorem stops_patchInode (ino : Nat) (f : Bytes → Bytes) : (fs.patchInode ino f).Stops NoText :=
  (quiet_inodeOff fs ino).stops.bind fun _ => (quiet_diskRange _ _).stops.bind fun _ =>
    stops_diskWrite _ _ _

theorem stops_countBlock (g : Nat) (delta : Int) : (fs.countBlock g delta).Stops NoText :=
  ((quiet_diskRange _ _).stops.bind fun _ => stops_diskWrite _ _ _).bind fun _ =>
    (quiet_diskRange _ _).stops.bind fun _ => stops_diskWrite _ _ _

theorem stops_freeBlock (bno : Nat) : (fs.freeBlock bno).Stops NoText := by
  rw [freeBlock]
  split_ifs
  · exact .stop noText_panic
  · refine (quiet_diskRange _ _).stops.bind fun _ => (quiet_block fs _).stops.bind fun _ => ?_
    split_ifs
    · exact .stop noText_panic
    · exact .when ((stops_diskWrite _ _ _).bind fun _ => stops_countBlock fs _ _)

theorem stops_freeBlocks (bs : List Nat) : (fs.freeBlocks bs).Stops NoText := by
  induction bs with
  | nil => exact (pure ()).stops
  | cons b bs ih => exact (Prog.Stops.when (stops_freeBlock fs b)).bind fun _ => ih

theorem stops_freeIndirects (sibs : List Nat) : (fs.freeIndirects sibs).Stops NoText := by
  induction sibs with
  | nil => exact (pure ()).stops
  | cons sib sibs ih =>
    refine (Prog.Stops.when ?_).bind fun _ => ih
    exact (quiet_block fs sib).stops.bind fun _ => (stops_freeBlocks fs _).bind fun _ =>
      stops_freeBlock fs sib

theorem stops_freeAllBlocks (node : Inode) : (fs.freeAllBlocks node).Stops NoText := by
  refine (stops_freeBlocks fs _).bind fun _ => (stops_freeIndirects fs _).bind fun _ => .when ?_
  exact (quiet_block fs _).stops.bind fun _ => (stops_freeIndirects fs _).bind fun _ =>
    stops_freeBlock fs _

theorem stops_overwrite (ino size b512 : Nat) (block : Nat → Nat) :
    (fs.overwrite ino size b512 block).Stops NoText :=
  (quiet_readInode fs ino).stops.bind fun _ => (stops_patchInode fs _ _).bind fun _ =>
    stops_freeAllBlocks fs _

theorem stops_copyBackups (sb gdt : Bytes) (gs : List Nat) :
    (fs.copyBackups sb gdt gs).Stops NoText := by
  induction gs with
  | nil => exact (pure ()).stops
  | cons g gs ih =>
    refine (Prog.Stops.when ?_).bind fun _ => ih
    exact (stops_diskWrite _ _ _).bind fun _ => stops_diskWrite _ _ _

theorem stops_syncBackups : fs.syncBackups.Stops NoText := by
  rw [syncBackups]
  split_ifs
  · exact (pure ()).stops
  · exact (quiet_diskRange _ _).stops.bind fun _ => (quiet_diskRange _ _).stops.bind fun _ =>
      stops_copyBackups fs _ _ _

end

/-! ## Runs that fail -/

/-- From every disk that holds the volume, a run that ends in an error text leaves a disk
as `E` says. -/
def Layout.Fails (L : Layout fs) (v : Vol) (p : M α) (E : Disk → Prop) : Prop :=
  ∀ d, L.Image d v → ∀ msg, (p d).out = .error (.err msg) → E (p d).state

section

variable {p : M α} {f : α → M β} {E : Disk → Prop}

theorem Fails.of_stops (h : p.Stops NoText) : L.Fails v p E := fun d _ msg hout =>
  absurd rfl (h d _ hout msg)

theorem Fails.stop {e : Stop} (h : ∀ d, L.Image d v → E d) : L.Fails v (.stop e : M α) E :=
  fun d hd _ _ => h d hd

theorem Fails.bind {C : Vol → Prop}
    (h : L.Meets v p (fun x w => L.Fails w (f x) E) (fun _ w => ∀ d, L.Image d w → E d) C) :
    L.Fails v (p >>= f) E := by
  intro d hd msg hout
  obtain ⟨⟨w, hw, hpost⟩, -⟩ := h d hd
  rw [bind_run] at hout ⊢
  rcases hrun : p.run d with ⟨out, d', tr⟩
  simp only [hrun] at hw hpost hout ⊢
  cases out with
  | ok x => exact hpost d' hw msg hout
  | error e => exact hpost d' hw

theorem Fails.read (hp : p.Quiet) (h : ∀ x, L.Fails v (f x) E) : L.Fails v (p >>= f) E := by
  intro d hd msg hout
  obtain ⟨x, hx⟩ := hp d
  rw [bind_of_read hx] at hout ⊢
  exact h x d hd msg hout

theorem Fails.seq (h : L.Fails v p E) (hf : ∀ x, (f x).Stops NoText) : L.Fails v (p >>= f) E := by
  intro d hd msg hout
  have hp := h d hd msg
  rw [bind_run] at hout ⊢
  rcases hrun : p.run d with ⟨out, d', tr⟩
  simp only [hrun] at hp hout ⊢
  cases out with
  | ok x => exact absurd rfl (hf x d' _ hout msg)
  | error e =>
    cases hout
    exact hp rfl

end

open Fails

theorem insertIn_cases (fs : Ext2) (name : Bytes) (child : Nat) (ft : UInt8)
    (bnos : List Nat) (d : Disk) : fs.insertIn name child ft bnos d = ⟨.ok false, d, []⟩ ∨
      (fs.insertIn name child ft bnos d).out = .ok true ∨
      (fs.insertIn name child ft bnos d).out = .error .panic := by
  induction bnos with
  | nil => exact .inl rfl
  | cons b bnos ih =>
    rw [insertIn]
    split_ifs with h0
    · exact ih
    obtain ⟨blk, hblk⟩ := quiet_block fs b d
    rw [bind_of_read hblk]
    cases findGap blk (round4 (8 + name.length)) (fs.blockSize + 1) 0 with
    | none => exact ih
    | panic => exact .inr (.inr rfl)
    | «at» off used recLen =>
      refine .inr (.inl ?_)
      have hout : (fs.writeBlock b (fillGap blk off used recLen child ft name) d).out = .ok () :=
        (state_diskWrite _ _ d).1
      rw [bind_run]
      rcases hrun : (fs.writeBlock b (fillGap blk off used recLen child ft name)).run d with
        ⟨out, d', tr⟩
      cases hrun ▸ hout
      rfl

theorem fails_dirInsert {E : Disk → Prop} (hE : ∀ d, L.Image d v → E d) (p : Nat) (name : Bytes)
    (child : Nat) (isDir : Bool) : L.Fails v (fs.dirInsert p name child isDir) E := by
  refine read (quiet_readInode fs p) fun dir d hd msg hout => ?_
  rw [bind_run] at hout ⊢
  rcases insertIn_cases fs name child (fs.fileType isDir) ((List.range 12).map dir.block) d with
    h | h | h
  · rw [h] at hout ⊢
    revert msg hout
    simp only [Bool.false_eq_true, if_false]
    refine (?_ : L.Fails v _ E) d hd
    cases (List.range 12).find? fun s => dir.block s = 0 with
    | none => exact stop hE
    | some slot =>
      refine bind (C := fun _ => True) (Meets.mapErr (meets_allocBlock (fun _ => hE) trivial
        (fun b _ _ => of_stops ?_) fun _ _ _ _ => trivial))
      split_ifs
      · exact .stop noText_panic
      · exact (stops_diskWrite _ _ _).bind fun _ => stops_patchInode fs _ _
  all_goals
    rcases hrun : (fs.insertIn name child (fs.fileType isDir)
      ((List.range 12).map dir.block)).run d with ⟨out, d', tr⟩
    rw [hrun] at h hout
    cases h
    cases hout

/-! ## Allocators with nothing left -/

theorem tally_full {s : Finset Nat} {b n : Nat} (h : ∀ i, i < n → b + i ∈ s) : tally s b n = n := by
  have hall : (Finset.range n).filter (fun i => b + i ∈ s) = Finset.range n :=
    Finset.filter_true_of_mem fun i hi => h i (Finset.mem_range.1 hi)
  rw [tally, hall, Finset.card_range]

theorem allocBlock_full (hd : L.Image d v) (hfull : L.BlocksFull v) :
    fs.allocBlock d = ⟨.error .none, d, []⟩ := by
  obtain ⟨m, hm, hs, hb⟩ := hd
  have hzero : ∀ g, g < fs.groupCount → le16 (m .gdt) (32 * g + 12) = 0 := by
    intro g hg
    have hcount := hb.freeBlocks g hg
    rw [tally_full fun i hi => ?_] at hcount
    · omega
    · have hlt := L.blockNo_lt hg hi
      have hle : fs.firstDataBlock ≤ fs.blockNo g i := by
        rw [blockNo]
        omega
      change fs.blockNo g i ∈ v.used
      by_cases hk : L.kind (fs.blockNo g i) = .data
      · exact hfull _ ⟨hle, hlt, hk⟩
      · exact hs.reserved _ hle hlt hk
  refine scan_groups (F := fun _ => True)
    (P := fun gs => fs.allocBlockIn gs d = ⟨.error .none, d, []⟩) (fun _ => rfl)
    fun g gs hg ih => ?_
  rw [allocBlockIn, bind_of_read (readBgd_run hm hg), le16_slice (by omega), hzero g hg, if_pos rfl]
  exact ih trivial

theorem allocInode_full (hd : L.Image d v) (hfull : fs.InodesFull v) (isDir : Bool) :
    fs.allocInode isDir d = ⟨.error .none, d, []⟩ := by
  obtain ⟨m, hm, hs, hb⟩ := hd
  have hzero : ∀ g, g < fs.groupCount → le16 (m .gdt) (32 * g + 14) = 0 := by
    intro g hg
    have hcount := hb.freeInodes g hg
    rw [tally_full fun i hi => ?_] at hcount
    · omega
    · have hmem := hfull _ (validIno_inoNo hg hi)
      rwa [inoNo, show g * fs.inodesPerGroup + i + 1 = fs.inoNo g 0 + i by
        rw [inoNo]; omega] at hmem
  refine scan_groups (F := fun _ => True)
    (P := fun gs => fs.allocInodeIn isDir gs d = ⟨.error .none, d, []⟩) (fun _ => rfl)
    fun g gs hg ih => ?_
  rw [allocInodeIn, bind_of_read (readBgd_run hm hg), le16_slice (by omega), hzero g hg, if_pos rfl]
  exact ih trivial

theorem bind_of_stop {p : M α} {f : α → M β} {e : Stop} (h : p d = ⟨.error e, d, []⟩) :
    (p >>= f) d = ⟨.error e, d, []⟩ := by
  rw [bind_run, h]

theorem okOr_of_none {p : M α} {msg : String} (h : p d = ⟨.error .none, d, []⟩) :
    okOr msg p d = ⟨.error (.err msg), d, []⟩ := by
  rw [okOr, mapErr_run, h]

theorem layOutData_full {data : Bytes} (hd : L.Image d v) (hfull : L.BlocksFull v)
    (hne : data ≠ []) : fs.layOutData data d = ⟨.error .none, d, []⟩ := by
  have hpos : 0 < data.length := length_pos_iff.2 hne
  have hbs := L.blockSize_pos
  have hn : 0 < (data.length + fs.blockSize - 1) / fs.blockSize := Nat.div_pos (by omega) hbs
  obtain ⟨n, hn⟩ : ∃ n, min 12 ((data.length + fs.blockSize - 1) / fs.blockSize) = n + 1 :=
    ⟨min 12 ((data.length + fs.blockSize - 1) / fs.blockSize) - 1, by omega⟩
  rw [layOutData]
  refine bind_of_stop ?_
  rw [hn, layRun]
  exact bind_of_stop (allocBlock_full hd hfull)

theorem layOutData_nil (hbs : 0 < fs.blockSize) :
    fs.layOutData [] d = ⟨.ok (blockArray [] 0 0, 0), d, []⟩ := by
  have hn : (([] : Bytes).length + fs.blockSize - 1) / fs.blockSize = 0 :=
    Nat.div_eq_of_lt (by rw [length_nil]; omega)
  rw [layOutData, hn, Nat.min_zero, layRun, bind_of_read (pure_run ..), if_pos (by omega), zero_mul]
  rfl

/-! ## The calls that make something -/

/-- The calls that may run out of blocks or inodes. -/
inductive Making
  | write (data : Bytes) (uid gid : Nat)
  | mkdir (uid gid : Nat)

def Making.run (fs : Ext2) (path : Bytes) : Making → M Unit
  | .write data uid gid => fs.writePathOwned path data uid gid
  | .mkdir uid gid => fs.mkdirPathOwned path uid gid

/-- The path has no parent that a lookup finds. -/
def Astray (fs : Ext2) (d : Disk) (path : Bytes) : Prop :=
  ∀ parent name, splitParent path = some (parent, name) → (fs.pathLookup parent d).out = .ok none

/-- The parent of the path is the inode `p`, where the last name is `name`. -/
def Leads (fs : Ext2) (d : Disk) (path : Bytes) (p : Nat) (name : Bytes) : Prop :=
  ∃ parent, splitParent path = some (parent, name) ∧ (fs.pathLookup parent d).out = .ok (some p)

theorem astray_or_leads (fs : Ext2) (d : Disk) (path : Bytes) :
    fs.Astray d path ∨ ∃ p name, fs.Leads d path p name := by
  rcases hsplit : splitParent path with _ | ⟨parent, name⟩
  · exact .inl fun _ _ h => by rw [hsplit] at h; cases h
  · obtain ⟨found, hfound⟩ := quiet_pathLookup fs parent d
    cases found with
    | none =>
      refine .inl fun parent' name' h => ?_
      cases hsplit ▸ h
      rw [hfound]
    | some p => exact .inr ⟨p, name, parent, hsplit, by rw [hfound]⟩

theorem Astray.resolveParent (h : fs.Astray d path) :
    ∃ msg, fs.resolveParent path d = ⟨.error (.err msg), d, []⟩ := by
  rw [Ext2.resolveParent]
  rcases hsplit : splitParent path with _ | ⟨parent, name⟩
  · exact ⟨_, rfl⟩
  · refine ⟨"parent dir missing", ?_⟩
    change (fs.pathLookup parent >>= _).run d = _
    rw [bind_of_read (quiet_run (quiet_pathLookup fs parent) (h parent name hsplit))]
    rfl

theorem Leads.resolveParent {p : Nat} (h : fs.Leads d path p name) :
    fs.resolveParent path d = ⟨.ok (p, name), d, []⟩ := by
  obtain ⟨parent, hsplit, hout⟩ := h
  rw [Ext2.resolveParent, hsplit]
  change (fs.pathLookup parent >>= _).run d = _
  rw [bind_of_read (quiet_run (quiet_pathLookup fs parent) hout)]
  rfl

theorem Leads.not_astray {p : Nat} (h : fs.Leads d path p name) : ¬ fs.Astray d path := by
  obtain ⟨parent, hsplit, hout⟩ := h
  intro hstray
  rw [hstray parent name hsplit] at hout
  cases hout

theorem Leads.unique {name' : Bytes} {p p' : Nat} (h : fs.Leads d path p name)
    (h' : fs.Leads d path p' name') : p = p' ∧ name = name' := by
  have heq := h.resolveParent.symm.trans h'.resolveParent
  cases heq
  exact ⟨rfl, rfl⟩

/-- The call gives up before it takes anything. -/
def Making.Clean (L : Layout fs) (v : Vol) (d : Disk) (path : Bytes) : Making → Prop
  | .write data _ _ =>
    fs.Astray d path ∨ (∃ p name, fs.Leads d path p name ∧ 255 < name.length) ∨
      if data = [] then fs.InodesFull v else L.BlocksFull v
  | .mkdir _ _ =>
    fs.Astray d path ∨
      (∃ p name i, fs.Leads d path p name ∧ (fs.lookup p name d).out = .ok (some i)) ∨
      fs.InodesFull v

/-! ## What a failure leaves behind -/

/-- The disk holds a volume with a block or an inode in use that was free. -/
def Leaks (L : Layout fs) (v : Vol) (d : Disk) : Prop :=
  ∃ w, L.Image d w ∧
    ((∃ b, L.Data b ∧ b ∉ v.used ∧ b ∈ w.used) ∨ ∃ i, fs.ValidIno i ∧ i ∉ v.inodes ∧ i ∈ w.inodes)

theorem leaks_of_grown {new : List Nat} {w : Vol} (h : Grown L v new w) (hne : new ≠ []) :
    ∀ d, L.Image d w → Leaks L v d := by
  obtain ⟨b, hb⟩ := exists_mem_of_ne_nil new hne
  exact fun d hd => ⟨w, hd, .inl ⟨b, h.data b hb, h.fresh b hb, h.mem_used.2 (.inr hb)⟩⟩

theorem length_replicate_inode (L : Layout fs) :
    100 ≤ (List.replicate fs.inodeSize (0 : UInt8)).length := by
  have := L.inodeSize_ge
  rw [length_replicate]
  omega

section

variable {E : Disk → Prop} (hdirs : v.dirs ⊆ v.inodes) (hfull : fs.InodesFull v →
  ∀ d, L.Image d v → E d)
  (hleak : ∀ i w d, fs.ValidIno i → i ∉ v.inodes → i ∈ w.inodes → L.Image d w → E d)
include hdirs hfull hleak

theorem fails_create (p : Nat) (name : Bytes) (uid gid size b512 : Nat) (block : Nat → Nat) :
    L.Fails v (fs.create p name uid gid size b512 block) E := by
  refine bind (C := fun _ => True) (Meets.mapErr (meets_allocInode hdirs hfull trivial
    (fun i hi hfree => ?_) fun _ _ _ _ => trivial))
  refine bind (C := fun _ => True) (meets_patchInode hi (fun _ => ?_) trivial ?_ trivial
    fun _ _ => trivial)
  · rw [Vol.addInode_inode, Function.update_self,
      (setInode_fields _ _ _ _ _ _ _ (length_replicate_inode L)).1, length_replicate]
  · refine fails_dirInsert (fun d hd => hleak i _ d hi hfree ?_ hd) p name i false
    exact mem_insert_self ..

theorem fails_makeDirIn (p : Nat) (name : Bytes) (uid gid : Nat) :
    L.Fails v (fs.makeDirIn p name uid gid) E := by
  refine bind (C := fun _ => True) (Meets.mapErr (meets_allocInode hdirs hfull trivial
    (fun i hi hfree => ?_) fun _ _ _ _ => trivial))
  have hmem : i ∈ insert i v.inodes := mem_insert_self _ _
  refine bind (C := fun _ => True) (Meets.mapErr (meets_allocBlock
    (fun _ d hd => hleak i _ d hi hfree hmem hd) trivial (fun b hb _ => ?_) fun _ _ _ _ => trivial))
  refine bind (C := fun _ => True) (meets_writeBlock hb (length_newDirBlock L i p) ?_ trivial
    fun _ _ _ => trivial)
  refine bind (C := fun _ => True) (meets_patchInode hi (fun hl => ?_) trivial ?_ trivial
    fun _ _ => trivial)
  · rw [(setInode_fields _ _ _ _ _ _ _ ?_).1, hl]
    have := L.inodeSize_ge
    omega
  · refine seq (fails_dirInsert (fun d hd => hleak i _ d hi hfree hmem hd) p name i true)
      fun _ => ?_
    exact (stops_patchInode fs _ _).bind fun _ => stops_syncBackups fs

end

section Making

variable {data : Bytes} {p : Nat} (uid gid : Nat)

/-! ## Calls that give up at once -/

theorem writePathOwned_run (hlead : fs.Leads d path p name) :
    fs.writePathOwned path data uid gid d =
      (if 255 < name.length then .stop (.err "name too long") else fs.writeIn p name data uid gid :
        M Unit) d := by
  rw [writePathOwned, bind_of_read hlead.resolveParent]
  rfl

theorem mkdirPathOwned_run (hlead : fs.Leads d path p name) {found : Option Nat}
    (hfound : (fs.lookup p name d).out = .ok found) :
    fs.mkdirPathOwned path uid gid d = (match found with
        | some _ => .stop (.err "already exists")
        | none => fs.makeDirIn p name uid gid : M Unit) d := by
  rw [mkdirPathOwned, bind_of_read hlead.resolveParent]
  change (fs.lookup p name >>= _).run d = _
  rw [bind_of_read (quiet_run (quiet_lookup fs p name) hfound)]
  cases found <;> rfl

theorem writeIn_blocksFull (hd : L.Image d v) (hne : data ≠ []) (hfull : L.BlocksFull v) :
    fs.writeIn p name data uid gid d = ⟨.error (.err "no space / file too large"), d, []⟩ :=
  bind_of_stop (okOr_of_none (layOutData_full hd hfull hne))

theorem writeIn_nil_run (L : Layout fs) {found : Option Nat}
    (hfound : (fs.lookup p name d).out = .ok found) : fs.writeIn p name [] uid gid d =
      (do fs.store p name uid gid 0 0 (blockArray [] 0 0) found; fs.syncBackups : M Unit) d := by
  have hlay : okOr "no space / file too large" (fs.layOutData []) d =
      ⟨.ok (blockArray [] 0 0, 0), d, []⟩ := by
    rw [okOr, mapErr_run, layOutData_nil L.blockSize_pos]
  rw [writeIn, bind_of_read hlay]
  exact bind_of_read (quiet_run (quiet_lookup fs p name) hfound)

theorem writeIn_inodesFull (hd : L.Image d v) (hnone : (fs.lookup p name d).out = .ok none)
    (hfull : fs.InodesFull v) :
    fs.writeIn p name [] uid gid d = ⟨.error (.err "no free inode"), d, []⟩ := by
  rw [writeIn_nil_run uid gid L hnone]
  exact bind_of_stop (bind_of_stop (okOr_of_none (allocInode_full hd hfull false)))

theorem makeDirIn_inodesFull (hd : L.Image d v) (hfull : fs.InodesFull v) :
    fs.makeDirIn p name uid gid d = ⟨.error (.err "no free inode"), d, []⟩ :=
  bind_of_stop (okOr_of_none (allocInode_full hd hfull true))

theorem Astray.run (hstray : fs.Astray d path) (c : Making) :
    ∃ msg, c.run fs path d = ⟨.error (.err msg), d, []⟩ := by
  obtain ⟨msg, hrun⟩ := hstray.resolveParent
  cases c with
  | write data uid gid | mkdir uid gid => exact ⟨msg, bind_of_stop hrun⟩

/-! ## Calls that leak -/

theorem fails_writeIn (hdirs : v.dirs ⊆ v.inodes)
    (hroom : ¬ if data = [] then fs.InodesFull v else L.BlocksFull v) :
    L.Fails v (fs.writeIn p name data uid gid) (Leaks L v) := by
  -- a file that is there is overwritten without failure, so the arm for a new one is left
  have hstore : ∀ {w : Vol} {r : (Nat → Nat) × Nat} {E : Disk → Prop},
      L.Fails w (fs.create p name uid gid data.length r.2 r.1) E → L.Fails w (do
          let found ← fs.lookup p name
          fs.store p name uid gid data.length r.2 r.1 found
          fs.syncBackups) E := by
    intro w r E hcreate
    refine read (quiet_lookup fs p name) fun found => ?_
    cases found with
    | some i =>
      exact of_stops ((stops_overwrite fs _ _ _ _).bind fun _ => stops_syncBackups fs)
    | none => exact seq hcreate fun _ => stops_syncBackups fs
  by_cases hnil : data = []
  · rw [if_pos hnil] at hroom
    have hquiet : (okOr "no space / file too large" (fs.layOutData data)).Quiet := fun d =>
      ⟨_, by rw [okOr, mapErr_run, hnil, layOutData_nil L.blockSize_pos]⟩
    refine read hquiet fun r =>
      hstore (fails_create hdirs (fun h => absurd h hroom) ?_ _ _ _ _ _ _ _)
    exact fun i w d hi hfree hmem hd => ⟨w, hd, .inr ⟨i, hi, hfree, hmem⟩⟩
  · rw [if_neg hnil] at hroom
    have hne : ∀ new w, Grown L v new w → L.BlocksFull w → new ≠ [] := by
      rintro new w hg hfull rfl
      exact hroom fun n hn => (hg.mem_used.1 (hfull n hn)).resolve_right not_mem_nil
    refine bind (C := fun _ => True) (Meets.mapErr (meets_layOutData (fun _ _ _ => trivial)
      (fun new w hg hfull => leaks_of_grown hg (hne new w hg hfull))
      (fun new w hg hnew _ => leaks_of_grown hg hnew) fun blk b512 w hlaid => ?_))
    have hpos : 0 < (data.length + fs.blockSize - 1) / fs.blockSize :=
      Nat.div_pos (by have := length_pos_iff.2 hnil; omega) L.blockSize_pos
    have howned : w.owned blk ≠ [] := by
      have h0 := (hlaid.data 0 hpos).1
      rw [ptr_direct (by omega)] at h0
      exact ne_nil_of_mem (mem_owned_of_direct (by omega) h0)
    refine hstore (r := (blk, b512)) (fails_create ?_ (fun _ => leaks_of_grown hlaid.grown howned)
      ?_ _ _ _ _ _ _ _)
    · rw [hlaid.grown.dirs, hlaid.grown.inodes]
      exact hdirs
    · refine fun i w' d hi hfree hmem hd => ⟨w', hd, .inr ⟨i, hi, ?_, hmem⟩⟩
      rwa [← hlaid.grown.inodes]

variable {uid gid}

theorem Making.clean_or_leaks (hd : L.Image d v) (hdirs : v.dirs ⊆ v.inodes) (c : Making)
    {msg : String} (hout : (c.run fs path d).out = .error (.err msg)) :
    c.Clean L v d path ∨ Leaks L v (c.run fs path d).state := by
  rcases astray_or_leads fs d path with hstray | ⟨p, name, hlead⟩
  · cases c <;> exact .inl (.inl hstray)
  cases c with
  | write data uid gid =>
    by_cases hname : 255 < name.length
    · exact .inl (.inr (.inl ⟨p, name, hlead, hname⟩))
    by_cases hroom : if data = [] then fs.InodesFull v else L.BlocksFull v
    · exact .inl (.inr (.inr hroom))
    right
    rw [Making.run, writePathOwned_run uid gid hlead, if_neg hname] at hout ⊢
    exact fails_writeIn uid gid hdirs hroom d hd msg hout
  | mkdir uid gid =>
    obtain ⟨found, hfound⟩ := quiet_lookup fs p name d
    cases found with
    | some i => exact .inl (.inr (.inl ⟨p, name, i, hlead, by rw [hfound]⟩))
    | none =>
      by_cases hfull : fs.InodesFull v
      · exact .inl (.inr (.inr hfull))
      right
      rw [Making.run, mkdirPathOwned_run uid gid hlead (by rw [hfound])] at hout ⊢
      refine fails_makeDirIn hdirs (fun h => absurd h hfull) ?_ p name uid gid d hd msg hout
      exact fun i w d hi hfree hmem hd => ⟨w, hd, .inr ⟨i, hi, hfree, hmem⟩⟩

theorem Making.state_of_clean (hd : L.Image d v) (c : Making) {msg : String}
    (hout : (c.run fs path d).out = .error (.err msg)) (hclean : c.Clean L v d path) :
    (c.run fs path d).state = d := by
  rcases astray_or_leads fs d path with hstray | ⟨p, name, hlead⟩
  · obtain ⟨msg, hrun⟩ := hstray.run c
    rw [hrun]
  cases c with
  | write data uid gid =>
    by_cases hname : 255 < name.length
    · rw [Making.run, writePathOwned_run uid gid hlead, if_pos hname]
      rfl
    rw [Making.run, writePathOwned_run uid gid hlead, if_neg hname] at hout ⊢
    rcases hclean with hstray | ⟨p', name', hlead', hlong⟩ | hfull
    · exact absurd hstray hlead.not_astray
    · exact absurd ((hlead.unique hlead').2 ▸ hlong) hname
    · by_cases hnil : data = []
      · subst hnil
        rw [if_pos rfl] at hfull
        obtain ⟨found, hfound⟩ := quiet_lookup fs p name d
        cases found with
        | none => rw [writeIn_inodesFull uid gid hd (by rw [hfound]) hfull]
        | some i =>
          rw [writeIn_nil_run uid gid L (by rw [hfound])] at hout
          exact absurd rfl (((stops_overwrite fs i 0 0 _).bind fun _ => stops_syncBackups
            fs) d _ hout msg)
      · rw [if_neg hnil] at hfull
        rw [writeIn_blocksFull uid gid hd hnil hfull]
  | mkdir uid gid =>
    obtain ⟨found, hfound⟩ := quiet_lookup fs p name d
    rw [Making.run, mkdirPathOwned_run uid gid hlead (by rw [hfound])] at hout ⊢
    cases found with
    | some i => rfl
    | none =>
      rcases hclean with hstray | ⟨p', name', i, hlead', hsome⟩ | hfull
      · exact absurd hstray hlead.not_astray
      · obtain ⟨rfl, rfl⟩ := hlead.unique hlead'
        cases hfound ▸ hsome
      · change (fs.makeDirIn p name uid gid d).state = d
        rw [makeDirIn_inodesFull uid gid hd hfull]

end Making

end Thos.Ext2
