import Thos.Ext2.Calls
import Thos.Ext2.Rollback

/-!
# Walks through files

`lookup` reads whatever bytes an inode holds as directory records, and no call asks whether
the parent of a path is a directory. So a walk may go through a regular file, and a name may
be inserted into one. A file system is safe from this exactly when no path leads to a
regular file, or when there is nothing left to take and no such file reads as a directory
that holds a name.
-/

set_option autoImplicit false

namespace Thos.Ext2

open Thos.Lib List Prog Option

variable {fs : Ext2} {L : Layout fs} {v : Vol} {d : Disk} {names : List Bytes} {i : Nat}

theorem ok_unique {α : Type} {r : Except Stop α} {a b : α} (ha : r = .ok a)
    (hb : r = .ok b) : a = b :=
  Except.ok.inj (ha.symm.trans hb)

/-! ## Walks -/

theorem walk_append {j : Nat} (h : (fs.walk i names d).out = .ok (some j))
    (names' : List Bytes) : fs.walk i (names ++ names') d = fs.walk j names' d := by
  induction names generalizing i with
  | nil =>
    cases h
    rfl
  | cons name names ih =>
    obtain ⟨found, hfound⟩ := quiet_lookup fs i name d
    rw [walk, bind_of_read hfound] at h
    rw [cons_append, walk, bind_of_read hfound]
    cases found with
    | none => cases h
    | some k => exact ih h

theorem resolve_append {names' : List Bytes} :
    v.resolve fs i (names ++ names') = (v.resolve fs i names).bind fun j =>
    v.resolve fs j names' := by
  induction names generalizing i with
  | nil => rfl
  | cons name names ih =>
    rw [cons_append, Vol.resolve, Vol.resolve]
    split_ifs
    · rw [Option.bind_assoc]
      exact congrArg _ (funext fun j => ih)
    · rfl

section

variable (h : Consistent L v) (hd : L.Glimpse d v)
include h hd

theorem Consistent.readInode (hi : i ∈ L.live v) : (fs.readInode i d).out = .ok (v.node i) := by
  rw [hd.readInode (h.kept.valid i hi)]
  rfl

theorem Consistent.resolve_of_walk (pre : List Bytes) {j : Nat}
    (hmiss : ∀ post name rest k, names = post ++ name :: rest →
      (fs.walk rootIno (pre ++ post) d).out = .ok (some k) → k ∈ L.live v → k ∈ v.dirs ∨
        v.scan fs k name = none)
    (hpre : (fs.walk rootIno pre d).out = .ok (some i)) (hi : i ∈ L.live v)
    (hwalk : (fs.walk i names d).out = .ok (some j)) : v.resolve fs i names = some j := by
  induction names generalizing pre i with
  | nil =>
    cases hwalk
    rfl
  | cons name names ih =>
    rcases hmiss [] name names i rfl (by rwa [append_nil]) hi with hdir | hnone
    · rw [Vol.resolve, if_pos (h.isDir hdir)]
      rw [walk, bind_of_read (h.lookup_dir hd hdir name)] at hwalk
      cases hfind : v.find fs (v.node i) name with
      | none =>
        cases hfind ▸ hwalk
      | some k =>
        rw [hfind] at hwalk
        have hnext : (fs.walk rootIno (pre ++ [name]) d).out = .ok (some k) := by
          rw [walk_append hpre, walk, bind_of_read (h.lookup_dir hd hdir name), hfind]
          rfl
        refine ih _ (fun post name' rest k' heq hk' => ?_) hnext (h.find_mem hdir hfind).2 hwalk
        rw [append_assoc] at hk'
        exact hmiss (name :: post) name' rest k' (by rw [heq]; rfl) hk'
    · rw [walk, bind_of_read (h.kept.lookup_run hd hi name), hnone] at hwalk
      cases hwalk

end

/-! ## What the driver should do -/

/-- The calls that name a file in a directory. -/
inductive Naming
  | make (c : Making)
  | unlink
  | rmdir

def Naming.run (fs : Ext2) (path : Bytes) : Naming → M Unit
  | .make c => c.run fs path
  | .unlink => fs.unlinkPath path
  | .rmdir => fs.rmdirPath path

/-- The path leads to the regular file `i`. -/
def FileAt (fs : Ext2) (d : Disk) (path : Bytes) (i : Nat) : Prop :=
  (fs.pathLookup path d).out = .ok (some i) ∧
    ∃ node, (fs.readInode i d).out = .ok node ∧ isReg node.mode = true

/-- Walks go through directories only, and a regular file is refused as a parent. -/
structure KeepsToDirectories (fs : Ext2) (d : Disk) : Prop where
  through : ∀ path i, (fs.pathLookup path d).out = .ok (some i) →
    ∀ pre post, components path = pre ++ post → post ≠ [] →
      ∃ j node, (fs.walk rootIno pre d).out = .ok (some j) ∧ (fs.readInode j d).out = .ok node ∧
        isDir node.mode = true
  refused : ∀ (c : Naming) path parent name i, splitParent path = some (parent, name) →
    fs.FileAt d parent i →
      (∃ msg, (c.run fs path d).out = .error (.err msg)) ∧ (c.run fs path d).state = d

/-- No path leads to a regular file; or no block and no inode is free, and the bytes of the
regular files that paths lead to do not read as records with a name. -/
def Shielded (L : Layout fs) (v : Vol) (d : Disk) : Prop :=
  (∀ path i, ¬ fs.FileAt d path i) ∨ (L.BlocksFull v ∧ fs.InodesFull v ∧
      ∀ path i, fs.FileAt d path i → ∀ name, IsName name → v.scan fs i name = none)

theorem not_isDir_of_isReg {mode : Nat} (h : isReg mode = true) : ¬ isDir mode = true := by
  simp only [isDir, isReg, decide_eq_true_eq] at h ⊢
  omega

section Keeps

variable (h : Consistent L v) (hd : L.Image d v)
include h hd

theorem Consistent.fileAt (hnames : ∀ name ∈ names, IsName name)
    (hwalk : (fs.walk rootIno names d).out = .ok (some i)) (hi : i ∈ L.live v) (hdir : i ∉ v.dirs) :
    fs.FileAt d (joinPath names) i := by
  refine ⟨?_, v.node i, h.readInode hd.glimpse hi, (h.isReg_iff hi).2 hdir⟩
  rwa [pathLookup, components_joinPath hnames]

theorem Consistent.resolve_of_scans
    (hscan : ∀ path i, fs.FileAt d path i → ∀ name, IsName name → v.scan fs i name = none)
    {path : Bytes} (hpath : (fs.pathLookup path d).out = .ok (some i)) :
    v.resolve fs rootIno (components path) = some i := by
  have hroot := h.mem_live h.names.root
  refine h.resolve_of_walk hd.glimpse [] (fun post name rest k heq hk hkl => ?_) rfl hroot hpath
  have hmem : ∀ n ∈ post ++ name :: rest, IsName n := fun n hn =>
    isName_of_mem_components (heq ▸ hn)
  by_cases hkd : k ∈ v.dirs
  · exact .inl hkd
  · refine .inr (hscan _ k (h.fileAt hd (fun n hn => ?_) hk hkl hkd) name ?_)
    · exact hmem n (mem_append_left _ hn)
    · exact hmem name (mem_append_right _ mem_cons_self)

omit h in
theorem refuses_of_full (hblks : L.BlocksFull v) (hinos : fs.InodesFull v) (c : Naming)
    {path name : Bytes} (hlead : fs.Leads d path i name)
    (hnone : (fs.lookup i name d).out = .ok none) :
    ∃ msg, c.run fs path d = ⟨.error (.err msg), d, []⟩ := by
  have hlook := quiet_run (quiet_lookup fs i name) hnone
  cases c with
  | unlink =>
    refine ⟨"no such file", ?_⟩
    rw [Naming.run, unlinkPath, bind_of_read hlead.resolveParent]
    change (fs.lookup i name >>= _).run d = _
    rw [bind_of_read hlook]
    rfl
  | rmdir =>
    refine ⟨"no such directory", ?_⟩
    rw [Naming.run, rmdirPath, bind_of_read hlead.resolveParent]
    change (fs.lookup i name >>= _).run d = _
    rw [bind_of_read hlook]
    rfl
  | make c =>
    cases c with
    | mkdir uid gid =>
      refine ⟨_, (mkdirPathOwned_run uid gid hlead hnone).trans
        (makeDirIn_inodesFull uid gid hd hinos)⟩
    | write data uid gid =>
      rw [Naming.run, Making.run, writePathOwned_run uid gid hlead]
      split_ifs
      · exact ⟨_, rfl⟩
      by_cases hnil : data = []
      · subst hnil
        exact ⟨_, writeIn_inodesFull uid gid hd hnone hinos⟩
      · exact ⟨_, writeIn_blocksFull uid gid hd hnil hblks⟩

theorem Shielded.keeps (hs : Shielded L v d) : KeepsToDirectories fs d := by
  have hscan : ∀ path i, fs.FileAt d path i → ∀ name, IsName name → v.scan fs i name = none := by
    rcases hs with hno | ⟨-, -, hscan⟩
    · exact fun path i hfile => absurd hfile (hno path i)
    · exact hscan
  have hroot := h.mem_live h.names.root
  refine ⟨fun path i hpath pre post hsplit hpost => ?_, fun c path parent name i hsplit hfile => ?_⟩
  · have hres := h.resolve_of_scans hd hscan hpath
    rw [hsplit, resolve_append] at hres
    obtain ⟨j, hj, hrest⟩ := bind_eq_some_iff.1 hres
    refine ⟨j, v.node j, by rw [h.walk_of_resolve hd.glimpse hroot hj],
      h.readInode hd.glimpse (h.resolve_mem hroot hj), ?_⟩
    cases post with
    | nil => exact absurd rfl hpost
    | cons name post =>
      by_contra hdir
      rw [Vol.resolve, if_neg hdir] at hrest
      cases hrest
  · rcases hs with hno | ⟨hblks, hinos, -⟩
    · exact absurd hfile (hno parent i)
    have hname := (components_of_splitParent hsplit).1
    have hil := h.resolve_mem hroot (h.resolve_of_scans hd hscan hfile.1)
    have hlead : fs.Leads d path i name := ⟨parent, hsplit, hfile.1⟩
    obtain ⟨msg, hrun⟩ := refuses_of_full hd hblks hinos c hlead
      (by rw [h.kept.lookup_run hd.glimpse hil, hscan parent i hfile name hname])
    rw [hrun]
    exact ⟨⟨msg, rfl⟩, rfl⟩

theorem KeepsToDirectories.clean (hkeep : KeepsToDirectories fs d) {path parent name : Bytes}
    (hsplit : splitParent path = some (parent, name)) (hfile : fs.FileAt d parent i) (c : Making) :
    c.Clean L v d path := by
  obtain ⟨⟨msg, hout⟩, hstate⟩ := hkeep.refused (.make c) path parent name i hsplit hfile
  refine (c.clean_or_leaks hd h.kept.counted hout).resolve_right fun hleak => ?_
  rw [show (c.run fs path d).state = d from hstate] at hleak
  exact hleak.not_rolledBack hd (RolledBack.refl L v d)

theorem KeepsToDirectories.shielded (hkeep : KeepsToDirectories fs d) : Shielded L v d := by
  by_cases hno : ∀ path i, ¬ fs.FileAt d path i
  · exact .inl hno
  have hroot := h.mem_live h.names.root
  -- what a path leads to is live, and a regular file holds no name
  have hlive : ∀ path i, fs.FileAt d path i → i ∈ L.live v := by
    intro path i hfile
    refine h.resolve_mem hroot (?_ : v.resolve fs rootIno (components path) = some i)
    refine h.resolve_of_walk hd.glimpse [] (fun post name rest k heq hk hkl => ?_) rfl hroot hfile.1
    obtain ⟨j, node, hj, hnode, hdir⟩ :=
      hkeep.through path i hfile.1 post (name :: rest) heq (by simp)
    obtain rfl : j = k := some_inj.1 (ok_unique hj hk)
    obtain rfl := ok_unique hnode (h.readInode hd.glimpse hkl)
    exact .inl ((h.kept.dirs j hkl).1 hdir)
  have hscan : ∀ path i, fs.FileAt d path i → ∀ name, IsName name → v.scan fs i name = none := by
    intro path i hfile name hname
    cases hfind : v.scan fs i name with
    | none => rfl
    | some k =>
      have hcomp : components (path ++ slash :: name) = components path ++ [name] := by
        rw [components_append, components_name hname]
      have hpath : (fs.pathLookup (path ++ slash :: name) d).out = .ok (some k) := by
        rw [pathLookup, hcomp, walk_append hfile.1, walk,
          bind_of_read (h.kept.lookup_run hd.glimpse (hlive path i hfile) name), hfind]
        rfl
      obtain ⟨j, node, hj, hnode, hdir⟩ :=
        hkeep.through _ k hpath (components path) [name] hcomp (by simp)
      obtain ⟨hi, node', hnode', hreg⟩ := hfile
      obtain rfl : j = i := some_inj.1 (ok_unique hj hi)
      obtain rfl := ok_unique hnode hnode'
      exact absurd hdir (not_isDir_of_isReg hreg)
  simp only [not_forall, not_not] at hno
  obtain ⟨path, i, hfile⟩ := hno
  have hname : IsName [97] := ⟨by decide, by decide⟩
  have hsplit := splitParent_append path hname
  have hpar : fs.FileAt d (if path = [] then [slash] else path) i := by
    split_ifs with hnil
    · subst hnil
      exact hfile
    · exact hfile
  have hlead : fs.Leads d (path ++ slash :: [97]) i [97] := ⟨_, hsplit, hpar.1⟩
  have hclean := hkeep.clean h hd hsplit hpar
  refine .inr ⟨?_, ?_, hscan⟩
  · rcases hclean (.write [1] 0 0) with hstray | ⟨p, name, hlead', hlong⟩ | hfull
    · exact absurd hstray hlead.not_astray
    · obtain ⟨-, rfl⟩ := hlead.unique hlead'
      exact absurd hlong (by decide)
    · exact hfull
  · rcases hclean (.mkdir 0 0) with hstray | ⟨p, name, k, hlead', hsome⟩ | hfull
    · exact absurd hstray hlead.not_astray
    · obtain ⟨rfl, rfl⟩ := hlead.unique hlead'
      rw [h.kept.lookup_run hd.glimpse (hlive path i hfile), hscan path i hfile _ hname] at hsome
      cases hsome
    · exact hfull

end Keeps

/-- The driver keeps to directories exactly on the file systems that are shielded. -/
theorem keeps_to_directories_iff (h : Consistent L v) (hd : L.Image d v) :
    KeepsToDirectories fs d ↔ Shielded L v d :=
  ⟨fun hkeep => hkeep.shielded h hd, fun hs => hs.keeps h hd⟩

/-! ## A fresh file system in which a file is made -/

section

variable {b : Nat} (hb : L.Data b) (hroot : rootIno ∉ L.reservedInos) (hvalid : fs.ValidIno rootIno)
  (hroom : ¬ fs.InodesFull (freshVol L b)) {name data : Bytes}
  (hlay : ∀ d, L.Image d (freshVol L b) → (fs.layOutData data d).out ≠ .error .none)
include hb hroot hvalid hroom hlay

theorem writeIn_freshVol (hd : L.Image d (freshVol L b)) (hname : name.length < 256)
    (hprop : name ≠ dot ∧ name ≠ dotdot) (uid gid : Nat) :
    ∃ i u, (fs.writeIn rootIno name data uid gid d).out = .ok () ∧
      L.Image (fs.writeIn rootIno name data uid gid d).state u.sync ∧
      NewFile L (freshVol L b) (L.live (freshVol L b)) rootIno ⟨i, name⟩ data uid gid u := by
  have h := consistent_freshVol hb hroot hvalid
  have hnone := find_freshVol hb hroot hvalid hprop
  have hmeets : L.Meets (freshVol L b) (fs.writeIn rootIno name data uid gid)
      (fun _ u => Wrote L (freshVol L b) rootIno name data uid gid u)
      (fun _ _ => False) fun _ => True := by
    refine meets_writeIn h h.names.root (by rw [hnone]; nofun) hname (fun _ => trivial) ?_
      fun _ hw => hw
    rintro msg u (⟨d, hd, hout⟩ | hinos | hcramp)
    · exact hlay d hd hout
    · exact hroom hinos
    · exact not_cramped_freshVol hb hname hcramp
  obtain ⟨_, _, hout, hu, hw⟩ := hmeets.exists_of_safe hd
  cases hw with
  | old i u hfind _ => cases hnone ▸ hfind
  | new i u _ hn => exact ⟨i, u, hout, hu, hn⟩

theorem exists_file (hshort : data.length < 2 ^ 32) (hbitmaps : ∀ g, g < fs.groupCount →
      L.blockBitmap g < 2 ^ 32 ∧ L.inodeBitmap g < 2 ^ 32 ∧ L.inodeTable g < 2 ^ 32) :
    ∃ v d i, (mount d).out = .ok fs ∧ L.Image d v ∧ Consistent L v ∧ i ∈ L.live v ∧
      i ∉ (freshVol L b).inodes ∧ v.inodes = insert i (freshVol L b).inodes ∧
      v.dirs = {rootIno} ∧ fs.FileAt d [47, 102] i ∧ v.content fs (v.node i) = data := by
  have h₀ := consistent_freshVol hb hroot hvalid
  have hprop : [102] ≠ dot ∧ [102] ≠ dotdot := by decide
  obtain ⟨d₀, hd₀, -⟩ := (fits_freshVol (L := L) b hbitmaps).exists_image
  obtain ⟨i, u, -, hd₁, hn⟩ :=
    writeIn_freshVol hb hroot hvalid hroom hlay hd₀ (by decide) hprop 0 0
  have h := hn.consistent h₀ hd₀.glimpse.full h₀.names.root (e := ⟨i, [102]⟩) hprop
  obtain ⟨d, hd, hmount⟩ := hd₁.exists_mounted hbitmaps
  have hfind := hn.adds.find_freshVol hb hroot hvalid hprop
  have hi := (h.find_mem h.names.root hfind).2
  refine ⟨u.sync, d, i, hmount, hd, h, hi, hn.fresh, hn.inodes, hn.dirs,
    ⟨?_, _, h.readInode hd.glimpse hi, ?_⟩, ?_⟩
  · change (fs.walk rootIno [[102]] d).out = _
    rw [walk, bind_of_read (h.lookup_dir hd.glimpse h.names.root [102]), hfind]
    rfl
  · change isReg (u.node i).mode = true
    rw [hn.mode]
    rfl
  · have hkeep : u.sync.data = u.data := rfl
    rw [Vol.content_of_data hkeep]
    exact hn.content hshort

end

/-- The plain file system with 1029 blocks, in which all inodes but two are set aside. -/
def tight : Layout (plainFs 1029) :=
  { plain 1029 (by omega) (by omega) with reservedInos := Finset.Icc 1 32768 \ {2, 11} }

/-- `/f` is empty; it took the last inode, and the root directory has the only block. -/
theorem keeps_to_directories_full :
    ∃ (v : Vol) (d : Disk), tight.Image d v ∧ Consistent tight v ∧
      (∃ i, (plainFs 1029).FileAt d [47, 102] i) ∧ KeepsToDirectories (plainFs 1029) d := by
  have hdata : ∀ {b}, tight.Data b ↔ b < 1029 ∧ 1028 ≤ b % 32768 := data_plain (by omega) (by omega)
  have hres : ∀ {i}, i ∈ tight.reservedInos ↔ (1 ≤ i ∧ i ≤ 32768) ∧ i ≠ 2 ∧ i ≠ 11 := by
    simp [tight]
  have hfresh : ∀ {i}, i ∈ (freshVol tight 1028).inodes ↔ i = 2 ∨ i ∈ tight.reservedInos :=
    Finset.mem_insert
  have hvalid : ∀ {i}, (plainFs 1029).ValidIno i ↔ 1 ≤ i ∧ i ≤ 32768 := Iff.rfl
  obtain ⟨v, d, i, -, hd, h, hi, hnew, hinos, hdirs, hfile, hcontent⟩ :=
    exists_file (L := tight) (b := 1028) (hdata.2 (by omega))
      (fun hroot => (hres.1 hroot).2.1 rfl) (hvalid.2 (by decide))
      (fun hfull => by
        have := hfresh.1 (hfull 11 (hvalid.2 (by omega)))
        rw [hres] at this
        omega)
      (fun d _ => by rw [layOutData_nil tight.blockSize_pos]; nofun)
      (show ([] : Bytes).length < 2 ^ 32 by decide) (bitmaps_plain (by omega))
  obtain rfl : i = 11 := by
    rw [hfresh, hres] at hnew
    have := hvalid.1 (h.kept.valid i hi)
    omega
  -- the root directory and the file are all there is
  have hlive : ∀ k ∈ tight.live v, k ∉ v.dirs → k = 11 := by
    intro k hk hkd
    rw [Layout.live, hinos, Finset.mem_sdiff, Finset.mem_insert, hfresh] at hk
    rw [hdirs, Finset.mem_singleton] at hkd
    obtain ⟨hk | hk | hk, hnot⟩ := hk
    · exact hk
    · exact absurd hk hkd
    · exact absurd hk hnot
  have hscan : ∀ name, v.scan (plainFs 1029) 11 name = none := fun name => by
    rw [Vol.scan, hcontent]
    rfl
  refine ⟨v, d, hd, h, ⟨11, hfile⟩, (keeps_to_directories_iff h hd).2 (.inr ⟨fun b hbd => ?_,
    fun k hk => ?_, fun path k hpath name _ => ?_⟩)⟩
  · have hshape := h.shape h.names.root
    have hown := h.kept.mem_taken (h.mem_live h.names.root)
      (mem_append_left _ (mem_directs (by omega) ((hshape.direct 0 (by omega)).2 hshape.pos)))
    have hroot := hdata.1 hown.2
    have hb := hdata.1 hbd
    obtain rfl : b = (v.node rootIno).block 0 := by omega
    exact hown.1
  · rw [hinos, Finset.mem_insert, hfresh, hres]
    have := hvalid.1 hk
    omega
  · obtain ⟨hwalk, node, hnode, hreg⟩ := hpath
    have hroot := h.mem_live h.names.root
    have hk := h.resolve_mem hroot (h.resolve_of_walk hd.glimpse []
        (fun post name rest j _ _ hj => by
      by_cases hjd : j ∈ v.dirs
      · exact .inl hjd
      · exact .inr (hlive j hj hjd ▸ hscan name)) rfl hroot hwalk)
    have hkd : k ∉ v.dirs := fun hkd => by
      obtain rfl := ok_unique hnode (h.readInode hd.glimpse hk)
      exact not_isDir_of_isReg hreg (h.isDir hkd)
    exact hlive k hk hkd ▸ hscan name

/-- The bytes of a directory record: the name `a` for the root. -/
def forged : Bytes := [2, 0, 0, 0, 12, 0, 1, 2, 97, 0, 0, 0]

/-- `/f/a` is the root, although `/f` is a regular file. -/
theorem path_leads_through_file :
    ∃ (L : Layout (plainFs 1030)) (v : Vol) (d : Disk), (mount d).out = .ok (plainFs 1030) ∧
      L.Image d v ∧ Consistent L v ∧ (∃ i, (plainFs 1030).FileAt d [47, 102] i) ∧
      ((plainFs 1030).pathLookup [47, 102, 47, 97] d).out = .ok (some rootIno) ∧
      ¬ KeepsToDirectories (plainFs 1030) d := by
  have hlo : 1028 < 1030 := by omega
  have hhi : 1030 ≤ 128 * 32768 := by omega
  obtain ⟨v, d, i, hmount, hd, h, hi, -, -, -, hfile, hcontent⟩ :=
    exists_file (L := plain 1030 hlo hhi) (b := 1028) ((data_plain hlo hhi).2 (by omega))
      (root_plain hlo hhi).1 (root_plain hlo hhi).2 (not_inodesFull_plainVol hlo hhi)
      (fun d hd => layOutData_small (show forged.length ≤ 4096 by decide)
        (not_blocksFull_plainVol hlo hhi (by omega)) hd)
      (show forged.length < 2 ^ 32 by decide) (bitmaps_plain hhi)
  have hcomp : components [47, 102, 47, 97] = components [47, 102] ++ [[97]] := by decide
  have hpath : ((plainFs 1030).pathLookup [47, 102, 47, 97] d).out = .ok (some rootIno) := by
    rw [pathLookup, hcomp, walk_append hfile.1, walk,
      bind_of_read (h.kept.lookup_run hd.glimpse hi [97]), Vol.scan, hcontent]
    rfl
  refine ⟨_, v, d, hmount, hd, h, ⟨i, hfile⟩, hpath, fun hkeep => ?_⟩
  obtain ⟨j, node, hj, hnode, hdir⟩ := hkeep.through _ _ hpath _ [[97]] hcomp (by simp)
  obtain ⟨hwalk, node', hnode', hreg⟩ := hfile
  obtain rfl : j = i := some_inj.1 (ok_unique hj hwalk)
  obtain rfl := ok_unique hnode hnode'
  exact not_isDir_of_isReg hreg hdir

end Thos.Ext2
