import Thos.Ext2.Make

/-!
# Consistency

What a checker asks of a whole volume: the invariant of the live inodes with nothing loose,
the names, the inodes set aside, and the backups. Under it a walk along directories on the
disk is a walk along the entries of the volume.
-/

set_option autoImplicit false

namespace Thos.Ext2

open Thos.Lib

variable {fs : Ext2} {L : Layout fs} {v v' : Vol} {d : Disk} {i j : Nat}

/-- The inodes in use that are not set aside. -/
def Layout.live (L : Layout fs) (v : Vol) : Finset Nat := v.inodes \ L.reservedInos

/-- The names on a volume. -/
def Layout.names (L : Layout fs) (v : Vol) : Names where
  live := L.live v
  dirs := v.dirs
  entries i := v.entries fs (v.node i)
  links i := le16 (v.inode i) 26

/-- A volume that a checker passes. -/
structure Consistent (L : Layout fs) (v : Vol) : Prop where
  kept : Kept L v (L.live v) 0
  names : (L.names v).Ok
  reserved : ∀ i ∈ L.reservedInos, i ∈ v.inodes
  synced : v.synced = true

/-- A disk that a checker passes. -/
def ConsistentDisk (L : Layout fs) (d : Disk) : Prop := ∃ v, L.Image d v ∧ Consistent L v

theorem Consistent.of_sync (hk : Kept L v (L.live v) 0) (hn : (L.names v).Ok)
    (hres : ∀ i ∈ L.reservedInos, i ∈ v.inodes) : Consistent L v.sync where
  kept := hk.sync
  names := hn.congr rfl rfl (fun _ _ => Vol.entries_of_data rfl _) fun _ _ => rfl
  reserved := hres
  synced := rfl

section

variable (h : Consistent L v)
include h

theorem Consistent.mem_live (hi : i ∈ v.dirs) : i ∈ L.live v := h.names.sub hi

theorem Consistent.isDir (hi : i ∈ v.dirs) : isDir (v.node i).mode = true :=
  (h.kept.dirs i (h.mem_live hi)).2 hi

theorem Consistent.shape (hi : i ∈ v.dirs) : DirShape fs v (v.node i) :=
  h.kept.shape (h.mem_live hi) (h.isDir hi)

theorem Consistent.not_reserved (hi : i ∉ v.inodes) : i ∉ L.reservedInos :=
  fun hres => hi (h.reserved i hres)

theorem Consistent.isReg_iff (hi : i ∈ L.live v) : isReg (v.node i).mode = true ↔ i ∉ v.dirs := by
  rw [← h.kept.dirs i hi]
  have hkind := (h.kept.sound i hi).kind
  change Ext2.isDir (v.node i).mode = true ∨ isReg (v.node i).mode = true at hkind
  have hboth : ¬ (Ext2.isDir (v.node i).mode = true ∧ isReg (v.node i).mode = true) := by
    simp only [Ext2.isDir, isReg, decide_eq_true_eq]
    omega
  tauto

end

/-! ## Walks -/

/-- What `lookup` reads in an inode, whatever the inode is. -/
def Vol.scan (fs : Ext2) (v : Vol) (i : Nat) (name : Bytes) : Option Nat :=
  findEntry (v.content fs (v.node i)) name ((v.content fs (v.node i)).length + 1) 0

theorem Kept.lookup_run {live : Finset Nat} {loose : Multiset Nat} (h : Kept L v live loose)
    (hd : L.Glimpse d v) (hi : i ∈ live) (name : Bytes) :
    fs.lookup i name d = ⟨.ok (v.scan fs i name), d, []⟩ := by
  have hread : fs.readInode i d = ⟨.ok (v.node i), d, []⟩ := hd.readInode (h.valid i hi)
  rw [lookup, Prog.bind_of_read hread, Prog.bind_of_read (readFile_run hd (h.owns hi))]
  rfl

theorem Consistent.scan_eq (h : Consistent L v) (hi : i ∈ v.dirs) (name : Bytes) :
    v.scan fs i name = v.find fs (v.node i) name :=
  (h.shape hi).findEntry L.blockSize_pos name

theorem Consistent.find_mem (h : Consistent L v) (hi : i ∈ v.dirs) {name : Bytes}
    (hfind : v.find fs (v.node i) name = some j) :
    (⟨j, name⟩ : Entry) ∈ v.entries fs (v.node i) ∧ j ∈ L.live v := by
  obtain ⟨e, he, rfl⟩ := Option.map_eq_some_iff.1 hfind
  have hname : e.name = name := by simpa using List.find?_some he
  have hmem := List.mem_of_find?_eq_some he
  subst hname
  exact ⟨hmem, h.names.named i hi e hmem⟩

/-- The walk along directories; a name in anything else leads nowhere. -/
def Vol.resolve (fs : Ext2) (v : Vol) : Nat → List Bytes → Option Nat
  | i, [] => some i
  | i, name :: names =>
    if isDir (v.node i).mode then (v.find fs (v.node i) name).bind fun j => v.resolve fs j names
    else none

theorem Consistent.resolve_mem (h : Consistent L v) {names : List Bytes}
    (hi : i ∈ L.live v) (hres : v.resolve fs i names = some j) : j ∈ L.live v := by
  induction names generalizing i with
  | nil =>
    cases hres
    exact hi
  | cons name names ih =>
    rw [Vol.resolve] at hres
    split_ifs at hres with hdir
    obtain ⟨k, hk, hres⟩ := Option.bind_eq_some_iff.1 hres
    exact ih (h.find_mem ((h.kept.dirs i hi).1 hdir) hk).2 hres

variable (h : Consistent L v) (hd : L.Glimpse d v)
include h hd

theorem Consistent.lookup_dir (hi : i ∈ v.dirs) (name : Bytes) :
    fs.lookup i name d = ⟨.ok (v.find fs (v.node i) name), d, []⟩ := by
  rw [h.kept.lookup_run hd (h.mem_live hi), h.scan_eq hi]

theorem Consistent.walk_of_resolve {names : List Bytes} (hi : i ∈ L.live v)
    (hres : v.resolve fs i names = some j) : fs.walk i names d = ⟨.ok (some j), d, []⟩ := by
  induction names generalizing i with
  | nil =>
    cases hres
    rfl
  | cons name names ih =>
    rw [Vol.resolve] at hres
    split_ifs at hres with hdir
    obtain ⟨k, hk, hres⟩ := Option.bind_eq_some_iff.1 hres
    have hi' := (h.kept.dirs i hi).1 hdir
    rw [walk, Prog.bind_of_read (h.lookup_dir hd hi' name), hk]
    exact ih (h.find_mem hi' hk).2 hres

end Thos.Ext2
