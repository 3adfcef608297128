import Thos.Ext2.ReadBack
import Thos.File.Descriptors

/-!
# The files on a disk

The map from paths to contents that descriptors store into is what an ext2 file system holds: on
a consistent disk with the files of the map, a `write_path` that succeeds leaves a consistent
disk with the files of the map after the store. So a store is a call of the driver, and what is
proved of the map is what every later open reads.
-/

set_option autoImplicit false

namespace Thos.File

open Thos.Lib Thos.Ext2 Function Option

variable {fs : Ext2} {L : Layout fs} {v : Vol} {ino : Bytes → Nat} {d : Disk}
  {files : Bytes → Option Bytes} {path data : Bytes}

/-- The paths lead along directories to regular files with these contents, different paths to
different files. -/
structure OnVolume (L : Layout fs) (v : Vol) (ino : Bytes → Nat) (files : Bytes → Option Bytes) :
    Prop where
  consistent : Consistent L v
  leads : ∀ path, (files path).isSome → v.resolve fs rootIno (components path) = some (ino path)
  file : ∀ path data, files path = some data →
    ino path ∉ v.dirs ∧ v.content fs (v.node (ino path)) = data
  apart : ∀ path path', (files path).isSome → (files path').isSome → ino path = ino path' →
    path = path'

def OnDisk (L : Layout fs) (d : Disk) (files : Bytes → Option Bytes) : Prop :=
  ∃ v ino, L.Image d v ∧ OnVolume L v ino files

theorem OnDisk.readPath (h : OnDisk L d files) (hdata : files path = some data) :
    (fs.readPath path d).out = .ok (some data) := by
  obtain ⟨v, ino, hd, hv⟩ := h
  rw [hv.consistent.readPath hd.glimpse (hv.leads path (by rw [hdata]; rfl)),
    (hv.file path data hdata).2]

section

variable (h : OnVolume L v ino files) (hthere : (files path).isSome)
include h hthere

theorem OnVolume.target (hd : L.Glimpse d v) {p : Nat} {name : Bytes}
    (hlead : fs.Leads d path p name) :
    fs.Target v path p name ∧ v.find fs (v.node p) name = some (ino path) := by
  obtain ⟨parent, hsplit, hparent⟩ := hlead
  have hroot := h.consistent.mem_live h.consistent.names.root
  have hres := h.leads path hthere
  rw [(components_of_splitParent hsplit).2, resolve_append] at hres
  obtain ⟨q, hq, hlast⟩ := bind_eq_some_iff.1 hres
  obtain rfl : p = q := by
    rw [pathLookup, h.consistent.walk_of_resolve hd hroot hq] at hparent
    exact (some_inj.1 (Except.ok.inj hparent)).symm
  rw [Vol.resolve] at hlast
  split_ifs at hlast with hdir
  obtain ⟨j, hfind, hj⟩ := bind_eq_some_iff.1 hlast
  obtain rfl : j = ino path := some_inj.1 hj
  have hpd := (h.consistent.kept.dirs p (h.consistent.resolve_mem hroot hq)).1 hdir
  obtain ⟨data, hdata⟩ := isSome_iff_exists.1 hthere
  refine ⟨⟨⟨parent, hsplit, hq⟩, hpd, fun k hk => ?_⟩, hfind⟩
  obtain rfl := some_inj.1 (hk.symm.trans hfind)
  exact (h.file path data hdata).1

theorem OnVolume.stored (hfull : L.Full v) (hlen : data.length < 2 ^ 32) {p : Nat} {name : Bytes}
    {u : Vol} (hfind : v.find fs (v.node p) name = some (ino path))
    (hs : Stored L v p name data (ino path) u) :
    OnVolume L u ino (update files path (some data)) := by
  have hc := h.consistent
  have hroot := hc.mem_live hc.names.root
  have hsome : ∀ path', (update files path (some data) path').isSome → (files path').isSome := by
    intro path' hin
    rcases eq_or_ne path' path with rfl | hne
    · exact hthere
    · rwa [update_of_ne hne] at hin
  refine ⟨hs.consistent, fun path' hin => ?_, fun path' data' hdata => ?_,
    fun path₁ path₂ h₁ h₂ => h.apart path₁ path₂ (hsome path₁ h₁) (hsome path₂ h₂)⟩
  · exact hs.resolve hc hfull hroot (h.leads path' (hsome path' hin))
  · rcases eq_or_ne path' path with rfl | hne
    · rw [update_self] at hdata
      cases hdata
      exact ⟨hs.file.2, hs.content hlen⟩
    · rw [update_of_ne hne] at hdata
      have hin : (files path').isSome := by rw [hdata]; rfl
      have hlive := hc.resolve_mem hroot (h.leads path' hin)
      have hsame := hs.same _ hlive (fun heq => hne (h.apart path' path hin hthere heq))
        (.inr hfind)
      obtain ⟨hfile, hcontent⟩ := h.file path' data' hdata
      rw [hs.dirs, hsame.content hfull (hc.kept.owns hlive)]
      exact ⟨hfile, hcontent⟩

end

theorem OnDisk.write (h : OnDisk L d files) (hthere : (files path).isSome)
    (hlen : data.length < 2 ^ 32) {uid gid : Nat}
    (hout : (fs.writePathOwned path data uid gid d).out = .ok ()) :
    OnDisk L (fs.writePathOwned path data uid gid d).state
      (update files path (some (persisted data))) := by
  obtain ⟨v, ino, hd, hv⟩ := h
  rcases astray_or_leads fs d path with hstray | ⟨p, name, hlead⟩
  · obtain ⟨msg, hrun⟩ := hstray.run (.write data uid gid)
    rw [show fs.writePathOwned path data uid gid d = _ from hrun] at hout
    cases hout
  obtain ⟨ht, hfind⟩ := hv.target hthere hd.glimpse hlead
  obtain ⟨i, u, hu, hs⟩ := hv.consistent.stored hd hlead ht.dir ht.file hout
  rcases hs.before with ⟨hnone, -⟩ | hsome
  · cases hnone ▸ hfind
  obtain rfl := some_inj.1 (hsome.symm.trans hfind)
  rw [persisted_eq hlen]
  exact ⟨u, ino, hu, hv.stored hthere hd.glimpse.full hlen hfind hs⟩

theorem OnDisk.store {D : Type} [DecidableEq D] {s : Files D} {k : D} {f : Ext2File}
    (h : OnDisk L d s.disk) (hinv : s.Inv) (hf : s.opened k = some f) (src : Bytes)
    (hlen : (f.fill src).buf.length < 2 ^ 32) {uid gid : Nat}
    (hout : (fs.writePathOwned f.path (f.fill src).buf uid gid d).out = .ok ()) :
    OnDisk L (fs.writePathOwned f.path (f.fill src).buf uid gid d).state
      (s.write k f src true).disk := by
  have hwrite := h.write (hinv.opened k f hf) hlen hout
  rwa [persisted_eq hlen] at hwrite

end Thos.File
