import Thos.Ext2.Resolve

/-!
# Reading back

What a write that succeeds means to a reader: the path reads back what was written, and
every other path that leads along directories leads where it led, to the same file or
directory. The one directory that changes is the parent of a new file, which has a name
more.
-/

set_option autoImplicit false

namespace Thos.Ext2

open Thos.Lib Vol

variable {fs : Ext2} {L : Layout fs} {v u : Vol} {d d' : Disk} {i j p : Nat}
  {data name path : Bytes}

/-! ## What a write leaves to be read -/

/-- The file `i` is in the directory `p` under the name, with this data, and the rest is as it
was, but for a name more in `p` if the file is new. -/
structure Stored (L : Layout fs) (v : Vol) (p : Nat) (name data : Bytes) (i : Nat)
    (u : Vol) : Prop where
  consistent : Consistent L u
  dirs : u.dirs = v.dirs
  live : L.live v ⊆ L.live u
  file : i ∈ L.live u ∧ i ∉ u.dirs
  found : u.find fs (u.node p) name = some i
  content : data.length < 4294967296 → u.content fs (u.node i) = data
  before : v.find fs (v.node p) name = none ∧ i ∉ L.live v ∨ v.find fs (v.node p) name = some i
  same : ∀ j ∈ L.live v, j ≠ i → j ≠ p ∨ v.find fs (v.node p) name = some i → Same v u j
  finds : ∀ name', name' ≠ name → u.find fs (u.node p) name' = v.find fs (v.node p) name'
  owner : (u.node p).mode = (v.node p).mode ∧ (u.node p).uid = (v.node p).uid ∧
    (u.node p).gid = (v.node p).gid

theorem Vol.find_sync (v : Vol) (node : Inode) (name : Bytes) :
    v.sync.find fs node name = v.find fs node name := by
  have hkeep : v.sync.data = v.data := rfl
  rw [find, entries_of_data hkeep, find]

theorem same_sync (h : Same v u j) : Same v u.sync j := ⟨h.inode, h.data⟩

section

variable {uid gid : Nat}

theorem Wrote.stored (hw : Wrote L v p name data uid gid u) (h : Consistent L v) (hp : p ∈ v.dirs)
    (hfile : ∀ i, v.find fs (v.node p) name = some i → i ∉ v.dirs) (hfull : L.Full v)
    (hproper : name ≠ dot ∧ name ≠ dotdot) : ∃ i, Stored L v p name data i u := by
  have hcons := hw.consistent h hp hfile hfull hproper
  have hpl := h.mem_live hp
  cases hw with
  | new i u hfind hn =>
    have hb := hn.toBorn
    have hlive := hb.live h
    have hnew : i ∉ L.live v := hb.notMem
    have hnone : ∀ e ∈ v.entries fs (v.node p), e.name ≠ name := by
      rw [find, Option.map_eq_none_iff, List.find?_eq_none] at hfind
      exact fun e he => by simpa using hfind e he
    refine ⟨i, hcons, hb.dirs, ?_, ⟨?_, fun hi => ?_⟩, ?_, fun hlt => ?_, .inl ⟨hfind, hnew⟩,
      fun j hj hne hor => ?_, fun name' hne => ?_, hb.beside.mode, hb.beside.uid, hb.beside.gid⟩
    · change L.live v ⊆ L.live u
      rw [hlive]
      exact Finset.subset_insert ..
    · change i ∈ L.live u
      rw [hlive]
      exact Finset.mem_insert_self ..
    · rw [sync_dirs, hb.dirs] at hi
      exact hnew (h.mem_live hi)
    · rw [find_sync, find]
      change Option.map _ ((u.entries fs (u.node p)).find? _) = _
      rw [hb.adds.find_self hnone]
      rfl
    · have hkeep : u.sync.data = u.data := rfl
      rw [content_of_data hkeep]
      exact hn.content hlt
    · refine same_sync (hb.beside.same j hj (hor.resolve_right fun hsome => ?_))
      cases hfind ▸ hsome
    · rw [find_sync, find, find]
      change Option.map _ ((u.entries fs (u.node p)).find? _) = _
      rw [hb.adds.find_of_ne hne.symm]
  | old i u hfind hr =>
    have hil := (h.find_mem hp hfind).2
    have hid := hfile i hfind
    have hpi : p ≠ i := by
      rintro rfl
      exact hid hp
    have hlive : L.live u = L.live v := by rw [Layout.live, hr.inodes, Layout.live]
    have hsame := hr.same p hpl hpi
    have hfinds : ∀ name', u.sync.find fs (u.node p) name' = v.find fs (v.node p) name' :=
      fun name' => by
      rw [find_sync, find, hsame.entries hfull (h.kept.owns hpl) (h.shape hp), find]
    have hnode : u.node p = v.node p := hsame.node
    refine ⟨i, hcons, hr.dirs, hlive.ge, ⟨hlive.ge hil, ?_⟩, (hfinds name).trans hfind,
      fun hlt => ?_,
      .inr hfind, fun j hj hne _ => same_sync (hr.same j hj hne), fun name' _ => hfinds name', ?_⟩
    · rwa [sync_dirs, hr.dirs]
    · have hkeep : u.sync.data = u.data := rfl
      rw [content_of_data hkeep]
      exact hr.content hlt
    · change (u.node p).mode = _ ∧ (u.node p).uid = _ ∧ (u.node p).gid = _
      rw [hnode]
      exact ⟨rfl, rfl, rfl⟩

variable (hs : Stored L v p name data i u) (h : Consistent L v) (hfull : L.Full v)
include hs h hfull

theorem Stored.find_of_ne {name' : Bytes} (hj : j ∈ v.dirs) (hne : j = p → name' ≠ name) :
    u.find fs (u.node j) name' = v.find fs (v.node j) name' := by
  by_cases hjp : j = p
  · subst hjp
    exact hs.finds name' (hne rfl)
  · have hji : j ≠ i := by
      rintro rfl
      exact hs.file.2 (hs.dirs ▸ hj)
    have hjl := h.mem_live hj
    rw [find, (hs.same j hjl hji (.inl hjp)).entries hfull (h.kept.owns hjl) (h.shape hj), find]

theorem Stored.find_of_find {k : Nat} {name' : Bytes} (hj : j ∈ v.dirs)
    (hfind : v.find fs (v.node j) name' = some k) : u.find fs (u.node j) name' = some k := by
  by_cases hsame : j = p ∧ name' = name
  · obtain ⟨rfl, rfl⟩ := hsame
    rcases hs.before with ⟨hnone, -⟩ | hsome
    · cases hnone ▸ hfind
    · rw [hs.found, ← hsome, hfind]
  · rw [hs.find_of_ne h hfull hj fun hjp hname => hsame ⟨hjp, hname⟩, hfind]

theorem Stored.resolve {names : List Bytes} {k : Nat} (hj : j ∈ L.live v)
    (hres : v.resolve fs j names = some k) : u.resolve fs j names = some k := by
  induction names generalizing j with
  | nil => exact hres
  | cons name' names ih =>
    rw [Vol.resolve] at hres
    split_ifs at hres with hdir
    obtain ⟨m, hm, hres⟩ := Option.bind_eq_some_iff.1 hres
    have hjd := (h.kept.dirs j hj).1 hdir
    rw [Vol.resolve, if_pos (hs.consistent.isDir (hs.dirs.symm ▸ hjd)),
      hs.find_of_find h hfull hjd hm]
    exact ih (h.find_mem hjd hm).2 hres

end

/-! ## On the disk -/

section

variable (h : Consistent L v)
include h

section

variable (hd : L.Glimpse d v)
include hd

theorem Consistent.resolve_of_walksTo {names : List Bytes} (hi : i ∈ L.live v)
    (hwalk : fs.WalksTo d i names j) : v.resolve fs i names = some j := by
  induction names generalizing i with
  | nil => exact congrArg some hwalk
  | cons name names ih =>
    obtain ⟨node, k, hnode, hdir, hlook, hwalk⟩ := hwalk
    obtain rfl := ok_unique hnode (h.readInode hd hi)
    have hid := (h.kept.dirs i hi).1 hdir
    rw [h.lookup_dir hd hid name] at hlook
    have hfind : v.find fs (v.node i) name = some k := Except.ok.inj hlook
    rw [resolve, if_pos hdir, hfind]
    exact ih (h.find_mem hid hfind).2 hwalk

theorem Consistent.readFile (hi : i ∈ L.live v) :
    (fs.readFile (v.node i) d).out = .ok (v.content fs (v.node i)) := by
  rw [readFile_run hd (h.kept.owns hi)]

theorem Consistent.readPath (hres : v.resolve fs rootIno (components path) = some i) :
    (fs.readPath path d).out = .ok (some (v.content fs (v.node i))) := by
  have hroot := h.mem_live h.names.root
  have hi := h.resolve_mem hroot hres
  rw [Ext2.readPath]
  change ((fs.walk rootIno (components path) >>= _).run d).out = _
  rw [Prog.bind_of_read (h.walk_of_resolve hd hroot hres)]
  have hnode : fs.readInode i d = ⟨.ok (v.node i), d, []⟩ := hd.readInode (h.kept.valid i hi)
  change ((fs.readInode i >>= _).run d).out = _
  rw [Prog.bind_of_read hnode, Prog.bind_of_read (readFile_run hd (h.kept.owns hi))]
  rfl

end

theorem Consistent.proper_of_file (hp : p ∈ v.dirs)
    (hfile : ∀ i, v.find fs (v.node p) name = some i → i ∉ v.dirs) :
    name ≠ dot ∧ name ≠ dotdot := by
  constructor
  · rintro rfl
    exact hfile p (h.find_dot hp) hp
  · rintro rfl
    exact hfile _ (h.find_dotdot hp) (h.names.up_mem p hp)

theorem Consistent.stored (hd : L.Image d v) (hlead : fs.Leads d path p name)
    (hp : p ∈ v.dirs) (hfile : ∀ i, v.find fs (v.node p) name = some i → i ∉ v.dirs) {uid gid : Nat}
    (hout : (fs.writePathOwned path data uid gid d).out = .ok ()) :
    ∃ i u, L.Image (fs.writePathOwned path data uid gid d).state u ∧
    Stored L v p name data i u := by
  rw [writePathOwned_run uid gid hlead] at hout ⊢
  split_ifs at hout ⊢ with hlong
  · cases hout
  have hmeets : L.Meets v (fs.writeIn p name data uid gid)
    (fun _ u => Wrote L v p name data uid gid u) (fun _ _ => True) fun _ => True :=
    meets_writeIn h hp hfile (by omega) (fun _ => trivial) (fun _ _ _ => trivial) fun _ hw => hw
  obtain ⟨⟨u, hu, hpost⟩, -⟩ := hmeets d hd
  rw [show (fs.writeIn p name data uid gid d).out = .ok () from hout] at hpost
  obtain ⟨i, hs⟩ := Wrote.stored hpost h hp hfile hd.glimpse.full (h.proper_of_file hp hfile)
  exact ⟨i, u, hu, hs⟩

end

/-! ## What a path is aimed at -/

/-- The path leads along directories to the directory `p`, and its last name is not that of a
directory there. -/
structure Target (fs : Ext2) (v : Vol) (path : Bytes) (p : Nat) (name : Bytes) : Prop where
  parent : ∃ parent, splitParent path = some (parent, name) ∧
    v.resolve fs rootIno (components parent) = some p
  dir : p ∈ v.dirs
  file : ∀ i, v.find fs (v.node p) name = some i → i ∉ v.dirs

/-- The same, as the driver reads it off a disk. -/
structure Writable (fs : Ext2) (d : Disk) (path : Bytes) (p : Nat) (name : Bytes) : Prop where
  parent : ∃ parent, splitParent path = some (parent, name) ∧
    fs.WalksTo d rootIno (components parent) p
  dir : ∃ node, (fs.readInode p d).out = .ok node ∧ isDir node.mode = true
  file : ∀ i node, (fs.lookup p name d).out = .ok (some i) → (fs.readInode i d).out = .ok node →
    isDir node.mode = false

section

variable (h : Consistent L v)
include h

theorem Writable.target (hd : L.Glimpse d v) (hw : fs.Writable d path p name) :
    fs.Target v path p name := by
  obtain ⟨parent, hsplit, hparent⟩ := hw.parent
  obtain ⟨node, hnode, hdir⟩ := hw.dir
  have hroot := h.mem_live h.names.root
  have hres := h.resolve_of_walksTo hd hroot hparent
  have hpl := h.resolve_mem hroot hres
  obtain rfl := ok_unique hnode (h.readInode hd hpl)
  have hpd := (h.kept.dirs p hpl).1 hdir
  refine ⟨⟨parent, hsplit, hres⟩, hpd, fun i hfind hi => ?_⟩
  have hno := hw.file i _ (by rw [h.lookup_dir hd hpd name, hfind]) (h.readInode hd (h.mem_live hi))
  rw [h.isDir hi] at hno
  cases hno

variable (ht : fs.Target v path p name)
include ht

theorem Target.leads (hd : L.Glimpse d v) : fs.Leads d path p name := by
  obtain ⟨parent, hsplit, hres⟩ := ht.parent
  exact ⟨parent, hsplit, congrArg _ (h.walk_of_resolve hd (h.mem_live h.names.root) hres)⟩

theorem Target.resolve (hs : Stored L v p name data i u)
    (hfull : L.Full v) : u.resolve fs rootIno (components path) = some i := by
  obtain ⟨parent, hsplit, hres⟩ := ht.parent
  rw [(components_of_splitParent hsplit).2, resolve_append,
    hs.resolve h hfull (h.mem_live h.names.root) hres]
  change u.resolve fs p [name] = some i
  rw [Vol.resolve, if_pos (hs.consistent.isDir (hs.dirs.symm ▸ ht.dir)), hs.found]
  rfl

end

theorem Writable.reads_back (h : Consistent L v) (hd : L.Image d v)
    (hw : fs.Writable d path p name) (hlen : data.length < 2 ^ 32) (uid gid : Nat)
    (hout : (fs.writePathOwned path data uid gid d).out = .ok ()) :
    (fs.readPath path (fs.writePathOwned path data uid gid d).state).out = .ok (some data) := by
  have ht := hw.target h hd.glimpse
  obtain ⟨i, u, hu, hs⟩ := h.stored hd (ht.leads h hd.glimpse) ht.dir ht.file hout
  rw [hs.consistent.readPath hu.glimpse (ht.resolve h hs hd.glimpse.full), hs.content hlen]

/-- What a reader sees of the inode `j` is the same on both disks, but that the directory `p`
may have a new name. -/
def SeenAlike (fs : Ext2) (p : Nat) (name : Bytes) (d d' : Disk) (j : Nat) : Prop :=
  ∃ node node', (fs.readInode j d).out = .ok node ∧ (fs.readInode j d').out = .ok node' ∧
    node'.mode = node.mode ∧ node'.uid = node.uid ∧ node'.gid = node.gid ∧
      ((fs.readFile node' d').out = (fs.readFile node d).out ∨
        j = p ∧ (fs.lookup p name d).out = .ok none ∧
          ∀ name', name' ≠ name → (fs.lookup p name' d').out = (fs.lookup p name' d).out)

theorem Stored.seenAlike (hs : Stored L v p name data i u) (h : Consistent L v) (hd : L.Image d v)
    (hu : L.Image d' u) (hp : p ∈ v.dirs) (hj : j ∈ L.live v)
    (hji : v.find fs (v.node p) name ≠ some j) : fs.SeenAlike p name d d' j := by
  have hfull := hd.glimpse.full
  have hne : j ≠ i := by
    rintro rfl
    exact hs.before.elim (fun hnew => hnew.2 hj) hji
  have hju := hs.live hj
  refine ⟨v.node j, u.node j, h.readInode hd.glimpse hj, hs.consistent.readInode hu.glimpse hju, ?_⟩
  by_cases hnew : j = p ∧ v.find fs (v.node p) name = none
  · obtain ⟨rfl, hnone⟩ := hnew
    have hpu : j ∈ u.dirs := by rwa [hs.dirs]
    refine ⟨hs.owner.1, hs.owner.2.1, hs.owner.2.2, .inr ⟨rfl, ?_, fun name' hname => ?_⟩⟩
    · rw [h.lookup_dir hd.glimpse hp, hnone]
    · rw [hs.consistent.lookup_dir hu.glimpse hpu, h.lookup_dir hd.glimpse hp, hs.finds name' hname]
  · have hsame : Same v u j := hs.same j hj hne (by
      rcases hs.before with ⟨hnone, -⟩ | hsome
      · exact .inl fun hjp => hnew ⟨hjp, hnone⟩
      · exact .inr hsome)
    rw [hs.consistent.readFile hu.glimpse hju, h.readFile hd.glimpse hj, hsame.content hfull
      (h.kept.owns hj), hsame.node]
    exact ⟨rfl, rfl, rfl, .inl rfl⟩

/-- A write that succeeds reads back, and paths along directories that led to another inode
lead to it still. -/
theorem write_path_reads_back (h : Consistent L v) (hd : L.Image d v)
    {path parent name data : Bytes} {p : Nat}
    {dir : Inode} (hsplit : splitParent path = some (parent, name))
    (hparent : fs.WalksTo d rootIno (components parent) p) (hp : (fs.readInode p d).out = .ok dir)
    (hdir : isDir dir.mode = true)
    (hfile : ∀ i node, (fs.lookup p name d).out = .ok (some i) → (fs.readInode i d).out = .ok node →
      isDir node.mode = false) (hlen : data.length < 4294967296) (uid gid : Nat)
    (hout : (fs.writePathOwned path data uid gid d).out = .ok ()) :
    (fs.readPath path (fs.writePathOwned path data uid gid d).state).out = .ok (some data) ∧
      ∀ q j, fs.WalksTo d rootIno (components q) j → (fs.lookup p name d).out ≠ .ok (some j) →
        (fs.pathLookup q (fs.writePathOwned path data uid gid d).state).out = .ok (some j) ∧
          fs.SeenAlike p name d (fs.writePathOwned path data uid gid d).state j := by
  have hroot := h.mem_live h.names.root
  have hw : fs.Writable d path p name := ⟨⟨parent, hsplit, hparent⟩, ⟨dir, hp, hdir⟩, hfile⟩
  have ht := hw.target h hd.glimpse
  obtain ⟨i, u, hu, hs⟩ := h.stored hd (ht.leads h hd.glimpse) ht.dir ht.file hout
  refine ⟨hw.reads_back h hd hlen uid gid hout, fun q j hwalk hne => ?_⟩
  · have hresq := h.resolve_of_walksTo hd.glimpse hroot hwalk
    have hresu := hs.resolve h hd.glimpse.full hroot hresq
    refine ⟨congrArg _ (hs.consistent.walk_of_resolve hu.glimpse (hs.live hroot) hresu), ?_⟩
    refine hs.seenAlike h hd hu ht.dir (h.resolve_mem hroot hresq) fun hfind => hne ?_
    rw [h.lookup_dir hd.glimpse ht.dir, hfind]

/-! ## A file in the root of a fresh file system -/

theorem writePathOwned_plainVol {n : Nat} (hlo : 1028 < n) (hhi : n ≤ 128 * 32768)
    (hmore : 1029 < n) (hd : (plain n hlo hhi).Image d (plainVol n hlo hhi)) (hname : IsName name)
    (hlong : name.length < 256) (hproper : name ≠ dot ∧ name ≠ dotdot)
    (hlen : data.length ≤ (plainFs n).blockSize) (uid gid : Nat) :
    ((plainFs n).writePathOwned (slash :: name) data uid gid d).out = .ok () := by
  obtain ⟨i, u, hout, -⟩ := writeIn_freshVol ((data_plain hlo hhi).2 ⟨hlo, by omega⟩)
    (root_plain hlo hhi).1 (root_plain hlo hhi).2 (not_inodesFull_plainVol hlo hhi)
    (fun d hd => layOutData_small hlen (not_blocksFull_plainVol hlo hhi hmore) hd) hd hlong hproper
    uid gid
  rw [writePathOwned_run uid gid (leads_root hname), if_neg (by omega)]
  exact hout

/-- `/f` with one byte. -/
theorem write_path_reads_back_byte :
    ∃ (L : Layout (plainFs 1030)) (v : Vol) (d : Disk), L.Image d v ∧ Consistent L v ∧
      ((plainFs 1030).writePathOwned [47, 102] [7] 0 0 d).out = .ok () ∧
      ((plainFs 1030).readPath [47, 102]
        ((plainFs 1030).writePathOwned [47, 102] [7] 0 0 d).state).out = .ok (some [7]) := by
  obtain ⟨hlo, hhi, d, hd, -, h⟩ := exists_plainDisk 1030 (by omega)
  have hroot := h.names.root
  have hproper : [102] ≠ dot ∧ [102] ≠ dotdot := by decide
  have hnone := lookup_plainVol hlo hhi hd.glimpse hproper
  have hlen : [7].length ≤ (plainFs 1030).blockSize := show 1 ≤ 4096 by omega
  have hout : ((plainFs 1030).writePathOwned [47, 102] [7] 0 0 d).out = .ok () :=
    writePathOwned_plainVol hlo hhi (by omega) hd ⟨by decide, by decide⟩
      (by decide) hproper hlen 0 0
  have hsplit : splitParent [47, 102] = some ([47], [102]) := by decide
  refine ⟨plain 1030 hlo hhi, plainVol 1030 hlo hhi, d, hd, h, hout, ?_⟩
  refine (write_path_reads_back h hd (p := rootIno) hsplit rfl
    (h.readInode hd.glimpse (h.mem_live hroot))
    (h.isDir hroot) (fun i node hi => ?_) (by decide) 0 0 hout).1
  cases hnone ▸ hi

/-- The directory that a new file goes into reads otherwise afterwards. -/
theorem new_file_changes_parent :
    ∃ (L : Layout (plainFs 1030)) (v : Vol) (d : Disk), (mount d).out = .ok (plainFs 1030) ∧
      L.Image d v ∧ Consistent L v ∧ ((plainFs 1030).writePath [47, 102] [] d).out = .ok () ∧
      ((plainFs 1030).pathLookup [47, 102] d).out = .ok none ∧
      ((plainFs 1030).readPath [47] ((plainFs 1030).writePath [47, 102] [] d).state).out ≠
        ((plainFs 1030).readPath [47] d).out := by
  obtain ⟨hlo, hhi, d, hd, hmount, h⟩ := exists_plainDisk 1030 (by omega)
  have hroot := h.names.root
  have hproper : [102] ≠ dot ∧ [102] ≠ dotdot := by decide
  have hnone := find_plainVol hlo hhi hproper
  have hlead : (plainFs 1030).Leads d [47, 102] rootIno [102] := leads_root ⟨by decide, by decide⟩
  have hout : ((plainFs 1030).writePathOwned [47, 102] [] 0 0 d).out = .ok () :=
    writePathOwned_plainVol hlo hhi (by omega) hd ⟨by decide, by decide⟩ (by decide) hproper
      (Nat.zero_le _) 0 0
  obtain ⟨i, u, hu, hs⟩ := h.stored hd hlead hroot (by rw [hnone]; nofun) hout
  refine ⟨plain 1030 hlo hhi, plainVol 1030 hlo hhi, d, hmount, hd, h, hout, ?_, fun heq => ?_⟩
  · change ((plainFs 1030).walk rootIno [[102]] d).out = _
    rw [walk, Prog.bind_of_read (h.lookup_dir hd.glimpse hroot [102]), hnone]
    rfl
  -- the same bytes would read as the same names
  · have hold : ((plainFs 1030).readPath [47] d).out = _ := h.readPath hd.glimpse (i := rootIno) rfl
    have hnew : ((plainFs 1030).readPath [47] _).out = _ :=
      hs.consistent.readPath hu.glimpse (i := rootIno) rfl
    have hcontent := Option.some_inj.1 (ok_unique (heq.symm.trans hnew) hold)
    have hscan := hs.consistent.scan_eq hs.consistent.names.root [102]
    rw [scan, hcontent, hs.found, ← scan, h.scan_eq hroot, hnone] at hscan
    cases hscan

/-- The disks that calls of `write_path` lead to, each of which returns Ok. -/
inductive Written (L : Layout fs) : Disk → Prop
  | start {d : Disk} : ConsistentDisk L d → Written L d
  | write {d : Disk} {path name data : Bytes} {p uid gid : Nat} : Written L d →
    fs.Writable d path p name → (fs.writePathOwned path data uid gid d).out = .ok () →
    Written L (fs.writePathOwned path data uid gid d).state

/-- However many calls there are, the disk stays consistent. -/
theorem written_consistent (h : Written L d) : ConsistentDisk L d := by
  induction h with
  | start h => exact h
  | write _ hw hout ih =>
    obtain ⟨v, hd, hv⟩ := ih
    have ht := hw.target hv hd.glimpse
    obtain ⟨i, u, hu, hs⟩ := hv.stored hd (ht.leads hv hd.glimpse) ht.dir ht.file hout
    exact ⟨u, hu, hs.consistent⟩

/-- `/f` is made. -/
theorem written_consistent_byte :
    ∃ (L : Layout (plainFs 1030)) (d : Disk),
      ConsistentDisk L ((plainFs 1030).writePathOwned [47, 102] [7] 0 0 d).state := by
  obtain ⟨hlo, hhi, d, hd, -, h⟩ := exists_plainDisk 1030 (by omega)
  have hproper : [102] ≠ dot ∧ [102] ≠ dotdot := by decide
  have hroot := h.names.root
  have hw : (plainFs 1030).Writable d [47, 102] rootIno [102] :=
    ⟨⟨[47], by decide, rfl⟩, ⟨_, h.readInode hd.glimpse (h.mem_live hroot), h.isDir hroot⟩,
      fun _ _ hi => by cases lookup_plainVol hlo hhi hd.glimpse hproper ▸ hi⟩
  exact ⟨_, d, written_consistent (.write (.start ⟨_, hd, h⟩) hw
    (writePathOwned_plainVol hlo hhi (by omega) hd ⟨by decide, by decide⟩ (by decide) hproper
      (show [7].length ≤ 4096 by decide) 0 0))⟩

end Thos.Ext2
