import Mathlib.Data.List.GetD
import Thos.Memory.Frames

/-!
# Views of a section

`NtMapViewOfSection` maps the frames of a section from the page of the requested offset on,
and returns the address of that page as the base. So the byte at `base + i` is byte
`offset + i` of the section exactly if the offset is a multiple of the page size; the call
does not ask for that. Between two such views, in one address space or in two, the same
physical byte is seen exactly where the section offsets coincide.
-/

set_option autoImplicit false

namespace Thos.Memory

open Thos.Lib List Process Option

/-! ## Addresses -/

theorem address_inj {a b r s : Nat} (hr : r < 4096) (hs : s < 4096)
    (h : a * 4096 + r = b * 4096 + s) : a = b ∧ r = s := by
  omega

namespace Process

/-- `translate`: the physical address behind a virtual one. -/
def translate (p : Process) (virt : Nat) : Option Nat :=
  (Table.find 512 4 (pageOf virt) p.table).map fun frame => frame * 4096 + virt % 4096

/-- A byte read by a program. -/
def read (p : Process) (mem : Nat → UInt8) (virt : Nat) : Option UInt8 :=
  (p.translate virt).map mem

/-- The memory after a program has written a byte. -/
def write (p : Process) (mem : Nat → UInt8) (virt : Nat) (x : UInt8) : Nat → UInt8 :=
  match p.translate virt with
  | none => mem
  | some a => Function.update mem a x

/-- The address space still has the pages of an earlier state. -/
structure Keeps (q p : Process) : Prop where
  ordered : Table.Ordered 512 4 q.table
  pages : Table.pages 512 4 p.table ⊆ Table.pages 512 4 q.table

end Process

namespace Section

/-- The physical address of a byte of the section. -/
def addressOf (sec : Section) (k : Nat) : Nat := sec.frames.getD (k / 4096) 0 * 4096 + k % 4096

theorem addressOf_inj {sec : Section} (hsec : sec.Wf) {k l : Nat} (hk : k < sec.size)
    (hl : l < sec.size) : sec.addressOf k = sec.addressOf l ↔ k = l := by
  refine ⟨fun h => ?_, congrArg _⟩
  have hlen := hsec.length
  have hk' : k / 4096 < sec.frames.length := by omega
  have hl' : l / 4096 < sec.frames.length := by omega
  simp only [addressOf, getD_eq_getElem _ _ hk', getD_eq_getElem _ _ hl'] at h
  obtain ⟨hframe, hmod⟩ := address_inj (Nat.mod_lt k (by decide)) (Nat.mod_lt l (by decide)) h
  have hpage := hsec.nodup.getElem_inj_iff.1 hframe
  omega

end Section

/-! ## The call -/

variable {p q : Process} {n offset want : Nat} {sec : Section} {free : List Frame} {v : MappedView}

section View

variable (h : ntMapViewOfSection p n sec offset want free = some v)
include h

theorem size_of_view : 0 < v.size ∧ offset + v.size ≤ sec.size := by
  simp only [ntMapViewOfSection, viewSize, ite_none_left_eq_some, bind_eq_some_iff,
    map_eq_some_iff] at h
  obtain ⟨hlt, frames, -, r, -, rfl⟩ := h
  dsimp only
  split_ifs <;> omega

variable (hp : Table.Ordered 512 4 p.table)
include hp

theorem view_grows : v.base = p.nextUserVa ∧
    ∃ frames new, sec.framesFor offset v.size = some frames ∧
      Table.Grows 512 4 p.table v.proc.table
        (((SectionView.mk v.base frames.length n).addresses.zip frames).map
          fun q => (pageOf q.1, q.2)) new := by
  simp only [ntMapViewOfSection, ite_none_left_eq_some, bind_eq_some_iff, map_eq_some_iff] at h
  obtain ⟨-, frames, hfrs, ⟨p', free'⟩, hmap, rfl⟩ := h
  obtain ⟨⟨p₁, free₁⟩, hpages, ⟨⟩⟩ := map_eq_some_iff.1 hmap
  obtain ⟨table', new, rfl, -, hgrow⟩ := mapFrames_grows (p := p.reserve _) hp hpages
  dsimp only [reserve] at hgrow ⊢
  exact ⟨rfl, frames, new, hfrs, hgrow⟩

theorem keeps_of_view : v.proc.Keeps p := by
  obtain ⟨-, frames, new, -, hgrow⟩ := view_grows h hp
  exact ⟨hgrow.ordered, fun q hq => hgrow.pages.mem_iff.2 (mem_append_right _ hq)⟩

theorem translate_view (hsec : sec.Wf) (hbase : 4096 ∣ p.nextUserVa) (hq : q.Keeps v.proc)
    {i : Nat} (hi : i < v.size) : q.translate (v.base + i) =
      some (sec.frames.getD (offset / 4096 + i / 4096) 0 * 4096 + i % 4096) := by
  obtain ⟨-, hsize⟩ := size_of_view h
  obtain ⟨hva, frames, new, hfrs, hgrow⟩ := view_grows h hp
  have hlen := hsec.length
  rw [← hva] at hbase
  obtain ⟨hle, hfrs⟩ := ite_none_right_eq_some.1 hfrs
  have hframe : frames[i / 4096]? = some (sec.frames.getD (offset / 4096 + i / 4096) 0) := by
    have hin : offset / 4096 + i / 4096 < sec.frames.length := by omega
    rw [← some.inj hfrs, getElem?_drop, getElem?_take_of_lt (by omega),
      getElem?_eq_getElem hin, getD_eq_getElem _ _ hin]
  have haddr : (SectionView.addresses ⟨v.base, frames.length, n⟩)[i / 4096]? =
      some ((v.base + i / 4096 * 4096) % 2 ^ 64) := by
    rw [SectionView.addresses, getElem?_map,
      getElem?_range (List.getElem?_eq_some_iff.1 hframe).1, map_some]
  -- the page of the byte is one of those that were added
  have hpage : (pageOf (v.base + i), sec.frames.getD (offset / 4096 + i / 4096) 0) ∈
      Table.pages 512 4 v.proc.table := by
    have hnum : pageOf (v.base + i) = pageOf ((v.base + i / 4096 * 4096) % 2 ^ 64) := by
      unfold pageOf
      omega
    have hmem := mem_of_getElem? (getElem?_zip_eq_some (z := (_, _)).2 ⟨haddr, hframe⟩)
    rw [hnum]
    exact hgrow.pages.mem_iff.2 (mem_append_left _ (mem_map_of_mem hmem))
  rw [Process.translate, Table.find_of_mem_pages hq.ordered (hq.pages hpage), map_some]
  congr 2
  omega

end View

/-- What this asks of sections and address spaces holds throughout: in every run in which `execve`
is called by the only thread of its process. -/
theorem System.viewable {frames : List Frame} (hnodup : frames.Nodup) {calls : List Act}
    {s : System} (hrun : runAll (guarded step ExecsAlone) (boot frames) calls = some s) :
    (∀ sec ∈ s.sections, sec.Wf) ∧ ∀ x ∈ s.standing,
      Table.Ordered 512 4 (s.spaces x).table ∧ 4096 ∣ (s.spaces x).nextUserVa := by
  have hinv := (Inv.clean_iff_calls hnodup hrun).1
  refine ⟨fun sec hsec => (hinv.filled sec hsec).1, fun x hx => ?_⟩
  have hok := hinv.books.ok x hx
  exact ⟨hok.ordered, hok.aligned⟩

/-- Two views of a section, of one address space or of two, in later states that still have
their pages: the bytes are those of the section at the offsets asked for, and a byte written
through one is read through the other exactly where the offsets coincide, if and only if both
offsets are multiples of the page size. -/
theorem views_show_section_iff {p₁ p₂ q₁ q₂ : Process} {sec : Section}
    {n₁ n₂ off₁ off₂ want₁ want₂ : Nat} {free₁ free₂ : List Frame} {v₁ v₂ : MappedView}
    (hsec : sec.Wf) (hp₁ : Table.Ordered 512 4 p₁.table) (hp₂ : Table.Ordered 512 4 p₂.table)
    (hbase₁ : 4096 ∣ p₁.nextUserVa) (hbase₂ : 4096 ∣ p₂.nextUserVa)
    (h₁ : ntMapViewOfSection p₁ n₁ sec off₁ want₁ free₁ = some v₁)
    (h₂ : ntMapViewOfSection p₂ n₂ sec off₂ want₂ free₂ = some v₂)
    (hq₁ : q₁.Keeps v₁.proc) (hq₂ : q₂.Keeps v₂.proc) :
    ((∀ i < v₁.size, q₁.translate (v₁.base + i) = some (sec.addressOf (off₁ + i))) ∧
        (∀ j < v₂.size, q₂.translate (v₂.base + j) = some (sec.addressOf (off₂ + j))) ∧
        ∀ i < v₁.size, ∀ j < v₂.size, ∀ (mem : Nat → UInt8) (x : UInt8),
          q₂.read (q₁.write mem (v₁.base + i) x) (v₂.base + j) =
            some (if off₁ + i = off₂ + j then x else mem (sec.addressOf (off₂ + j)))) ↔
      4096 ∣ off₁ ∧ 4096 ∣ off₂ := by
  have haligned : ∀ {p q : Process} {n off want : Nat} {free : List Frame} {v : MappedView},
      Table.Ordered 512 4 p.table → 4096 ∣ p.nextUserVa →
      ntMapViewOfSection p n sec off want free = some v → q.Keeps v.proc →
      ((∀ i < v.size, q.translate (v.base + i) = some (sec.addressOf (off + i))) ↔ 4096 ∣ off) := by
    intro p q n off want free v hp hbase h hq
    constructor
    · intro hall
      have hfirst := (translate_view h hp hsec hbase hq (size_of_view h).1).symm.trans
        (hall 0 (size_of_view h).1)
      rw [Section.addressOf, some.injEq] at hfirst
      have hmod := (address_inj (by decide) (Nat.mod_lt _ (by decide)) hfirst).2
      exact Nat.dvd_of_mod_eq_zero hmod.symm
    · rintro ⟨m, rfl⟩ i hi
      rw [translate_view h hp hsec hbase hq hi, Section.addressOf, Nat.mul_add_mod,
        Nat.mul_add_div (by decide), Nat.mul_div_cancel_left _ (by decide)]
  rw [haligned hp₁ hbase₁ h₁ hq₁, haligned hp₂ hbase₂ h₂ hq₂]
  refine ⟨fun h => ⟨h.1, h.2.1⟩, fun h => ⟨h.1, h.2, fun i hi j hj mem x => ?_⟩⟩
  have hsize₁ := (size_of_view h₁).2
  have hsize₂ := (size_of_view h₂).2
  rw [Process.read, Process.write, (haligned hp₁ hbase₁ h₁ hq₁).2 h.1 i hi,
    (haligned hp₂ hbase₂ h₂ hq₂).2 h.2 j hj, map_some]
  have hinj := Section.addressOf_inj hsec (k := off₂ + j) (l := off₁ + i) (by omega) (by omega)
  dsimp only
  rw [Function.update_apply]
  by_cases he : off₁ + i = off₂ + j
  · rw [if_pos (hinj.2 he.symm), if_pos he]
  · rw [if_neg fun h => he (hinj.1 h).symm, if_neg he]

/-- A section of two pages in the frames 8 and 9. -/
def twoPages : Section := ⟨8192, [8, 9]⟩

/-- An address space with nothing mapped. -/
def emptySpace : Process := ⟨(⟨0, []⟩ : Node Frame (Table Frame 3)), userAllocBase, brkBase, []⟩

/-- The base of a view from byte 1 on is the address of byte 0. -/
theorem view_shows_other_byte :
    ((ntMapViewOfSection emptySpace 0 twoPages 1 0 [1, 2, 3]).bind fun v =>
        v.proc.translate v.base) = some (twoPages.addressOf 0) ∧
      twoPages.addressOf 0 ≠ twoPages.addressOf 1 := by
  decide +kernel

/-- All of the section in one address space, and its second page in another. -/
theorem views_show_section_second_page :
    ∃ v₁ v₂, ntMapViewOfSection emptySpace 0 twoPages 0 0 [1, 2, 3] = some v₁ ∧
      ntMapViewOfSection emptySpace 0 twoPages 4096 0 [1, 2, 3] = some v₂ ∧
      ∀ i < v₁.size, ∀ j < v₂.size, ∀ (mem : Nat → UInt8) (x : UInt8),
        v₂.proc.read (v₁.proc.write mem (v₁.base + i) x) (v₂.base + j) =
          some (if 0 + i = 4096 + j then x else mem (twoPages.addressOf (4096 + j))) := by
  have hord : Table.Ordered 512 4 emptySpace.table := ⟨.nil, nofun⟩
  obtain ⟨v₁, h₁⟩ := isSome_iff_exists.1
    (show (ntMapViewOfSection emptySpace 0 twoPages 0 0 [1, 2, 3]).isSome by decide +kernel)
  obtain ⟨v₂, h₂⟩ := isSome_iff_exists.1
    (show (ntMapViewOfSection emptySpace 0 twoPages 4096 0 [1, 2, 3]).isSome by decide +kernel)
  have hall := (views_show_section_iff ⟨by decide, by decide⟩ hord hord (by decide) (by decide) h₁
    h₂ ⟨(keeps_of_view h₁ hord).ordered, fun _ h => h⟩
    ⟨(keeps_of_view h₂ hord).ordered, fun _ h => h⟩).2 ⟨by decide, by decide⟩
  exact ⟨v₁, v₂, h₁, h₂, hall.2.2⟩

end Thos.Memory
