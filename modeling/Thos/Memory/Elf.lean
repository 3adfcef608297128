import Thos.Lib.Buffer
import Thos.Lib.Checked
import Thos.Memory.Image

/-!
# The ELF loader

`elf::load` with every slice, every sum and every page it maps checked. The frames do not run out;
a fault stands for a panic of the kernel. The pages that the kernel half maps already, also as parts
of huge pages, are a parameter.

What the loader needs is said once, for all headers together: each header and each part of a
segment that it copies is in the file, and the pages of all segments are canonical, apart from each
other and not mapped by the kernel.
-/

set_option autoImplicit false

namespace Thos.Memory

open Thos.Lib List Settles Yields

/-! ## Address spaces with their pages -/

/-- A mapped page of 4 KiB. -/
structure UserPage where
  content : Bytes
  (writable exec : Bool)

/-- An address space: what the kernel half maps, the pages mapped since, and the next free user
address. -/
structure Space where
  kernel : Nat → Bool
  pages : Nat → Option UserPage
  nextUserVa : Nat

/-- The errors of `elf::load` and `spawn_elevated`. -/
inductive ElfError
  /-- "not an ELF" -/
  | notElf
  /-- "not ELF64" -/
  | notElf64
  /-- "not little-endian" -/
  | notLittleEndian
  /-- "not ET_EXEC" -/
  | notExec
  /-- "not x86-64" -/
  | notX86
  /-- "quarantined by the native-exec gate" -/
  | quarantined
  deriving DecidableEq

def zeroPage : Bytes := List.replicate 4096 0

namespace Space

/-- `Process::new`: the lower half is empty. -/
def new (kernel : Nat → Bool) : Space := ⟨kernel, fun _ => none, userAllocBase⟩

/-- The mapper finds the page mapped, or a huge page on the way. -/
def taken (s : Space) (v : Nat) : Bool := (decide (2 ^ 35 ≤ v) && s.kernel v) || (s.pages v).isSome

/-- Write the entry of a page number. -/
def setPage (s : Space) (v : Nat) (page : UserPage) : Space :=
  { s with pages := Function.update s.pages v (some page) }

/-- `Process::map`, which panics when the mapper returns an error. -/
def map (s : Space) (virt : Nat) (page : UserPage) : Checked ElfError Space :=
  if canonical virt ∧ s.taken (pageOf virt) = false then
    .ok (s.setPage (pageOf virt) page)
  else .error .fault

/-- Fill and map the pages at the addresses in turn. -/
def mapPages (content : Nat → Checked ElfError Bytes) (exec : Bool) (as : List Nat) (s : Space) :
    Checked ElfError Space :=
  as.foldlM (fun s a => do
      let bytes ← content a
      s.map a ⟨bytes, true, exec⟩)
    s

end Space

/-! ## The loader -/

structure ProgramHeader where
  (flags offset vaddr filesz memsz : Nat)

/-- What `load` returns. -/
structure Image where
  (entry phdr phent phnum : Nat)

def u32le (b : Bytes) (o : Nat) : Checked ElfError Nat :=
  if o + 4 ≤ b.length then .ok (le32 b o) else .error .fault

def u64le (b : Bytes) (o : Nat) : Checked ElfError Nat :=
  if o + 8 ≤ b.length then .ok (le64 b o) else .error .fault

namespace ProgramHeader

/-- The fields of a `PT_LOAD` header. -/
def read (ph : Bytes) : Checked ElfError ProgramHeader := do
  let flags ← u32le ph 4
  let offset ← u64le ph 8
  let vaddr ← u64le ph 16
  let filesz ← u64le ph 32
  let memsz ← u64le ph 40
  return ⟨flags, offset, vaddr, filesz, memsz⟩

def exec (h : ProgramHeader) : Bool := h.flags % 2 = 1

/-- The content of one page of a segment: the part of the file that belongs there, and zeros. -/
def pageContent (image : Bytes) (h : ProgramHeader) (page : Nat) : Checked ElfError Bytes := do
  let copyLo := max page h.vaddr
  let pageEnd ← checkedAdd page 4096
  let fileEnd ← checkedAdd h.vaddr h.filesz
  let copyHi := min pageEnd fileEnd
  if copyLo < copyHi then do
    let src ← checkedAdd h.offset (copyLo - h.vaddr)
    let n := copyHi - copyLo
    let _ ← checkedAdd src n
    let data ← range image src n
    copyFrom zeroPage (copyLo - page) n data
  else return zeroPage

/-- `map_segment`. The step to the next page is the sum that `pageContent` checks. -/
def mapSegment (image : Bytes) (h : ProgramHeader) (s : Space) : Checked ElfError Space := do
  let vend ← checkedAdd h.vaddr h.memsz
  s.mapPages (h.pageContent image) h.exec (pagesUpTo (h.vaddr / 4096 * 4096) vend)

/-- Where the program headers are in memory: the segment that covers `e_phoff` says it. -/
def phdrVaddr (h : ProgramHeader) (phoff old : Nat) : Checked ElfError Nat :=
  if h.offset ≤ phoff then do
    let stop ← checkedAdd h.offset h.filesz
    if phoff < stop then checkedAdd h.vaddr (phoff - h.offset)
    else return old
  else return old

end ProgramHeader

open ProgramHeader

namespace Elf

def magic : Bytes := [0x7F, 0x45, 0x4C, 0x46]

variable (image : Bytes)

def phoff : Nat := le64 image 32

def phentsize : Nat := le16 image 54

def phnum : Nat := le16 image 56

/-- One round of the loop of `load`. The product of an index and a size of 16 bits fits. -/
def loadHeader (st : Space × Nat) (i : Nat) : Checked ElfError (Space × Nat) := do
  let off ← checkedAdd (phoff image) (i * phentsize image)
  let ph ← range image off (image.length - off)
  let type ← u32le ph 0
  if type ≠ 1 then return st
  else do
    let h ← read ph
    let phdr ← h.phdrVaddr (phoff image) st.2
    let s ← h.mapSegment image st.1
    return (s, phdr)

/-- `elf::load`. The fields of the file header are in the first 64 bytes. -/
def load (s : Space) (image : Bytes) : Checked ElfError (Space × Image) :=
  if image.length < 64 ∨ slice image 0 4 ≠ magic then .error (.err .notElf)
  else if byte image 4 ≠ 2 then .error (.err .notElf64)
  else if byte image 5 ≠ 1 then .error (.err .notLittleEndian)
  else if le16 image 16 ≠ 2 then .error (.err .notExec)
  else if le16 image 18 ≠ 0x3E then .error (.err .notX86)
  else do
    let st ← (List.range (phnum image)).foldlM (loadHeader image) (s, 0)
    return (st.1, ⟨le64 image 24, st.2, phentsize image, phnum image⟩)

end Elf

/-! ## Mapping -/

/-- The pages can be mapped one after another in an empty lower half. -/
structure Placed (kernel : Nat → Bool) (as : List Nat) : Prop where
  canonical : ∀ a ∈ as, canonical a
  kernel : ∀ a ∈ as, 2 ^ 35 ≤ pageOf a → kernel (pageOf a) = false
  nodup : (as.map pageOf).Nodup

/-- The pages at these addresses are mapped since the space is new. -/
structure Space.Holds (s : Space) (kernel : Nat → Bool) (va : Nat) (as : List Nat) : Prop where
  kernel : s.kernel = kernel
  va : s.nextUserVa = va
  pages : ∀ v, (s.pages v).isSome ↔ v ∈ as.map pageOf
  full : ∀ v p, s.pages v = some p → p.content.length = 4096

section

variable {kernel : Nat → Bool} {va : Nat} {as bs : List Nat} {s : Space}

theorem Placed.nil : Placed kernel [] := ⟨nofun, nofun, nodup_nil⟩

theorem Placed.left (h : Placed kernel (as ++ bs)) : Placed kernel as := by
  refine ⟨fun a ha => h.canonical a (mem_append_left _ ha),
    fun a ha => h.kernel a (mem_append_left _ ha), ?_⟩
  have := h.nodup
  rw [map_append] at this
  exact this.of_append_left

theorem placed_concat {a : Nat} (h : Placed kernel as) :
    Placed kernel (as ++ [a]) ↔ Memory.canonical a ∧
      (2 ^ 35 ≤ pageOf a → kernel (pageOf a) = false) ∧ pageOf a ∉ as.map pageOf := by
  have hnodup : ((as ++ [a]).map pageOf).Nodup ↔ pageOf a ∉ as.map pageOf := by
    rw [map_append, map_singleton, ← concat_eq_append, nodup_concat]
    exact ⟨fun h' => h'.1, fun h' => ⟨h', h.nodup⟩⟩
  constructor
  · intro h'
    exact ⟨h'.canonical a (by simp), h'.kernel a (by simp), hnodup.1 h'.nodup⟩
  · rintro ⟨hcanon, hker, hfresh⟩
    exact ⟨forall_mem_append.2 ⟨h.canonical, forall_mem_singleton.2 hcanon⟩,
      forall_mem_append.2 ⟨h.kernel, forall_mem_singleton.2 hker⟩, hnodup.2 hfresh⟩

theorem forall_placed_iff {β : Type} {l : List β} {g : β → List Nat} {K : β → Prop}
    (h : Placed kernel as) :
    (∀ pre b post, l = pre ++ b :: post → K b ∧ Placed kernel (as ++ pre.flatMap g ++ g b)) ↔
      (∀ b ∈ l, K b) ∧ Placed kernel (as ++ l.flatMap g) := by
  constructor
  · intro hall
    refine ⟨fun b hb => ?_, ?_⟩
    · obtain ⟨pre, post, hl⟩ := append_of_mem hb
      exact (hall pre b post hl).1
    · -- the last part comes after all the others
      rcases eq_nil_or_concat l with rfl | ⟨pre, b, rfl⟩
      · simpa using h
      · have := (hall pre b [] concat_eq_append).2
        simpa [append_assoc] using this
  · rintro ⟨hK, hplaced⟩ pre b post rfl
    refine ⟨hK b (by simp), ?_⟩
    rw [flatMap_append, flatMap_cons, ← append_assoc, ← append_assoc] at hplaced
    exact hplaced.left

theorem Space.Holds.setPage (h : s.Holds kernel va as) {v : Nat} {page : UserPage}
    (hpage : page.content.length = 4096)
    (hbs : ∀ u, u ∈ bs.map pageOf ↔ u = v ∨ u ∈ as.map pageOf) :
    (s.setPage v page).Holds kernel va bs := by
  have hself : (s.setPage v page).pages v = some page := Function.update_self ..
  have hother : ∀ u ≠ v, (s.setPage v page).pages u = s.pages u :=
    fun u hu => Function.update_of_ne hu ..
  refine ⟨h.kernel, h.va, fun u => ?_, fun u p hp => ?_⟩
  · rw [hbs]
    rcases eq_or_ne u v with rfl | hne
    · simp [hself]
    · rw [hother u hne, h.pages]
      simp [hne]
  · rcases eq_or_ne u v with rfl | hne
    · rw [hself] at hp
      exact Option.some.inj hp ▸ hpage
    · exact h.full u p (hother u hne ▸ hp)

theorem Space.Holds.map (h : s.Holds kernel va as) (has : Placed kernel as) {a : Nat}
    {page : UserPage} (hpage : page.content.length = 4096) :
    Settles (s.map a page) (Placed kernel (as ++ [a]))
      fun s' => s'.Holds kernel va (as ++ [a]) := by
  have htaken : s.taken (pageOf a) = false ↔
      (2 ^ 35 ≤ pageOf a → kernel (pageOf a) = false) ∧ pageOf a ∉ as.map pageOf := by
    rw [← h.pages, ← h.kernel, Space.taken]
    simp
  have hcond : (Memory.canonical a ∧ s.taken (pageOf a) = false) ↔ Placed kernel (as ++ [a]) := by
    rw [placed_concat has, htaken]
  refine ⟨fun hplaced => ⟨_, if_pos (hcond.2 hplaced), h.setPage hpage fun u => ?_⟩,
    fun hplaced => if_neg fun hc => hplaced (hcond.1 hc)⟩
  rw [map_append, mem_append, map_singleton, mem_singleton, or_comm]

theorem Space.Holds.mapPages (h : s.Holds kernel va as) (has : Placed kernel as)
    {content : Nat → Checked ElfError Bytes} {c : Nat → Prop}
    (hcont : ∀ a, Settles (content a) (c a) fun bytes => bytes.length = 4096) (exec : Bool)
    (l : List Nat) : Settles (s.mapPages content exec l) ((∀ a ∈ l, c a) ∧ Placed kernel (as ++ l))
      fun s' => s'.Holds kernel va (as ++ l) := by
  have hround : ∀ done (s : Space) a,
      (s.Holds kernel va (as ++ done) ∧ Placed kernel (as ++ done)) →
      Settles (content a >>= fun bytes => s.map a ⟨bytes, true, exec⟩)
        (c a ∧ Placed kernel (as ++ done ++ [a])) fun s' =>
          s'.Holds kernel va (as ++ (done ++ [a])) ∧ Placed kernel (as ++ (done ++ [a])) := by
    intro done s a hs
    rw [← append_assoc]
    by_cases hplaced : Placed kernel (as ++ done ++ [a])
    · exact (hcont a).bind fun _ bytes hbytes => (hs.1.map hs.2 hbytes).mono fun s' hs' =>
        ⟨hs', hplaced⟩
    · exact (hcont a).bind fun _ bytes hbytes => ⟨fun hp => absurd hp hplaced,
        (hs.1.map hs.2 hbytes).faults⟩
  have hloop := settles_foldlM (l := l) (a := s) (fun done s a _ => hround done s a)
    (by simpa using ⟨h, has⟩)
  have hiff := forall_placed_iff (l := l) (g := fun a => [a]) (K := c) has
  simp only [flatMap_singleton', append_assoc] at hiff
  simp only [append_assoc] at hloop
  exact (hloop.congr hiff).mono fun s' hs' => hs'.1

end

/-! ## What the loader needs -/

/-- The part of the file that goes to the page is in the file, and no address overflows. -/
structure ProgramHeader.PageOk (image : Bytes) (h : ProgramHeader) (page : Nat) : Prop where
  pageEnd : page + 4096 < 2 ^ 64
  fileEnd : h.vaddr + h.filesz < 2 ^ 64
  file : max page h.vaddr < min (page + 4096) (h.vaddr + h.filesz) →
    h.offset + (min (page + 4096) (h.vaddr + h.filesz) - h.vaddr) ≤ min image.length (2 ^ 64 - 1)

/-- The fields of the header at the offset `o`. -/
def ProgramHeader.parse (b : Bytes) (o : Nat) : ProgramHeader :=
  ⟨le32 b (o + 4), le64 b (o + 8), le64 b (o + 16), le64 b (o + 32), le64 b (o + 40)⟩

def ProgramHeader.addresses (h : ProgramHeader) : List Nat := Segment.addresses ⟨h.vaddr, h.memsz⟩

/-- A segment can be read, with `phoff` the place of the program headers in the file. -/
structure ProgramHeader.Fits (image : Bytes) (phoff : Nat) (h : ProgramHeader) : Prop where
  phdr : h.offset ≤ phoff → h.offset + h.filesz < 2 ^ 64 ∧
    (phoff < h.offset + h.filesz → h.vaddr + (phoff - h.offset) < 2 ^ 64)
  memory : h.vaddr + h.memsz < 2 ^ 64
  pages : ∀ page ∈ h.addresses, h.PageOk image page

namespace Elf

variable (image : Bytes)

def headerOff (i : Nat) : Nat := phoff image + i * phentsize image

/-- The program header `i`, if it is `PT_LOAD`. -/
def headerAt (i : Nat) : Option ProgramHeader :=
  let off := headerOff image i
  if le32 image off = 1 then some (.parse image off) else none

def pagesAt (i : Nat) : List Nat := ((headerAt image i).map ProgramHeader.addresses).getD []

/-- The program header `i` is in the file and can be loaded. -/
structure HeaderFits (image : Bytes) (i : Nat) : Prop where
  offset : headerOff image i < 2 ^ 64
  type : headerOff image i + 4 ≤ image.length
  segment : ∀ h, headerAt image i = some h →
    headerOff image i + 48 ≤ image.length ∧ h.Fits image (phoff image)

/-- The file header passes the tests of `load`. -/
structure Accepted (image : Bytes) : Prop where
  length : 64 ≤ image.length
  magic : slice image 0 4 = Elf.magic
  class64 : byte image 4 = 2
  littleEndian : byte image 5 = 1
  exec : le16 image 16 = 2
  machine : le16 image 18 = 0x3E

instance (image : Bytes) : Decidable (Accepted image) :=
  decidable_of_iff (64 ≤ image.length ∧ slice image 0 4 = Elf.magic ∧ byte image 4 = 2 ∧
      byte image 5 = 1 ∧ le16 image 16 = 2 ∧ le16 image 18 = 0x3E)
    ⟨fun ⟨h₁, h₂, h₃, h₄, h₅, h₆⟩ => ⟨h₁, h₂, h₃, h₄, h₅, h₆⟩,
      fun ⟨h₁, h₂, h₃, h₄, h₅, h₆⟩ => ⟨h₁, h₂, h₃, h₄, h₅, h₆⟩⟩

/-- The file as its memory is accounted for. -/
def ofBytes : Elf where
  wellFormed := decide (Accepted image)
  segments :=
    ((List.range (phnum image)).filterMap (headerAt image)).map fun h => ⟨h.vaddr, h.memsz⟩

theorem addresses_ofBytes (image : Bytes) :
    (ofBytes image).addresses = (List.range (phnum image)).flatMap (pagesAt image) := by
  rw [addresses, ofBytes, flatMap_map]
  induction List.range (phnum image) with
  | nil => rfl
  | cons i l ih =>
    rw [flatMap_cons, ← ih, pagesAt]
    cases hh : headerAt image i with
    | none => rw [filterMap_cons_none hh]; rfl
    | some h => rw [filterMap_cons_some hh, flatMap_cons]; rfl

/-- Every header can be loaded, and the pages of all segments can be mapped. -/
structure Loadable (kernel : Nat → Bool) (image : Bytes) : Prop where
  headers : ∀ i < phnum image, HeaderFits image i
  placed : Placed kernel (ofBytes image).addresses

end Elf

/-! ## Loading -/

variable {image : Bytes} {h : ProgramHeader}

theorem settles_u32le (b : Bytes) (o : Nat) :
    Settles (u32le b o) (o + 4 ≤ b.length) fun x => x = le32 b o :=
  ⟨fun h => ⟨_, if_pos h, rfl⟩, fun h => if_neg h⟩

theorem settles_u64le (b : Bytes) (o : Nat) :
    Settles (u64le b o) (o + 8 ≤ b.length) fun x => x = le64 b o :=
  ⟨fun h => ⟨_, if_pos h, rfl⟩, fun h => if_neg h⟩

theorem ProgramHeader.read_settles (ph : Bytes) :
    Settles (read ph) (48 ≤ ph.length) fun h => h = .parse ph 0 := by
  refine congr ((settles_u32le ph 4).bind_eq fun _ => (settles_u64le ph 8).bind_eq fun _ =>
    (settles_u64le ph 16).bind_eq fun _ => (settles_u64le ph 32).bind_eq fun _ =>
    (settles_u64le ph 40).bind_eq fun _ => settles (yields_pure rfl)) ?_
  simp only [and_true]
  omega

theorem ProgramHeader.copy_settles (image : Bytes) {lo hi page vaddr : Nat} (offset : Nat)
    (hlo : vaddr ≤ lo) (hlt : lo < hi) (hpage : page ≤ lo) (hhi : hi ≤ page + 4096) : Settles (do
        let src ← checkedAdd offset (lo - vaddr)
        let _ ← checkedAdd src (hi - lo)
        let data ← range image src (hi - lo)
        copyFrom zeroPage (lo - page) (hi - lo) data : Checked ElfError Bytes)
      (offset + (hi - vaddr) ≤ min image.length (2 ^ 64 - 1)) fun bytes => bytes.length = 4096 := by
  have hzero : zeroPage.length = 4096 := length_replicate
  refine congr ((settles_add offset (lo - vaddr)).bind_eq fun _ =>
    (settles_add (offset + (lo - vaddr)) (hi - lo)).bind_eq fun _ =>
    (settles_range image (offset + (lo - vaddr)) (hi - lo)).bind_eq fun hrange =>
    settles ((yields_copyFrom ?_ ?_).mono fun bytes hlen => hlen.trans hzero)) ?_
  · rw [hzero]
    omega
  · rw [length_take, length_drop]
    omega
  · rw [and_true]
    omega

theorem ProgramHeader.pageContent_settles (image : Bytes) (h : ProgramHeader) (page : Nat) :
    Settles (h.pageContent image page) (h.PageOk image page) fun bytes => bytes.length = 4096 := by
  by_cases hcopy : max page h.vaddr < min (page + 4096) (h.vaddr + h.filesz)
  · refine congr ((settles_add page 4096).bind_eq fun _ =>
      (settles_add h.vaddr h.filesz).bind_eq fun _ => ?_)
      (C := _ ∧ _ ∧ h.offset + (min (page + 4096) (h.vaddr + h.filesz) - h.vaddr) ≤
        min image.length (2 ^ 64 - 1)) ?_
    · rw [if_pos hcopy]
      exact copy_settles image h.offset (Nat.le_max_right ..) hcopy
        (Nat.le_max_left ..) (min_le_left ..)
    · exact ⟨fun ⟨h₁, h₂, h₃⟩ => ⟨h₁, h₂, fun _ => h₃⟩, fun hok =>
        ⟨hok.pageEnd, hok.fileEnd, hok.file hcopy⟩⟩
  · refine congr ((settles_add page 4096).bind_eq fun _ =>
      (settles_add h.vaddr h.filesz).bind_eq fun _ => ?_) (C := _ ∧ _ ∧ True) ?_
    · rw [if_neg hcopy]
      exact settles (yields_pure length_replicate)
    · exact ⟨fun ⟨h₁, h₂, _⟩ => ⟨h₁, h₂, fun h₃ => absurd h₃ hcopy⟩, fun hok =>
        ⟨hok.pageEnd, hok.fileEnd, trivial⟩⟩

theorem ProgramHeader.phdrVaddr_settles (h : ProgramHeader) (phoff old : Nat) :
    Settles (h.phdrVaddr phoff old) (h.offset ≤ phoff → h.offset + h.filesz < 2 ^ 64 ∧
      (phoff < h.offset + h.filesz → h.vaddr + (phoff - h.offset) < 2 ^ 64)) fun _ => True := by
  unfold phdrVaddr
  split
  · next hle =>
      refine congr ((settles_add h.offset h.filesz).bind_eq fun _ => ?_) (imp_iff_right hle).symm
      by_cases hlt : phoff < h.offset + h.filesz
      · rw [if_pos hlt]
        exact ((settles_add h.vaddr (phoff - h.offset)).mono fun _ _ => trivial).congr
          (imp_iff_right hlt).symm
      · rw [if_neg hlt]
        exact (settles (yields_pure trivial)).congr
          (iff_of_true trivial fun hlt' => absurd hlt' hlt)
  · next hgt =>
      exact (settles (yields_pure trivial)).congr (iff_of_true trivial fun hle => absurd hle hgt)

variable {kernel : Nat → Bool} {va : Nat} {as : List Nat} {s : Space} (hs : s.Holds kernel va as)
  (has : Placed kernel as)
include hs has

theorem ProgramHeader.mapSegment_settles (image : Bytes) (h : ProgramHeader) :
    Settles (h.mapSegment image s) ((h.vaddr + h.memsz < 2 ^ 64 ∧
        ∀ page ∈ h.addresses, h.PageOk image page) ∧ Placed kernel (as ++ h.addresses))
      fun s' => s'.Holds kernel va (as ++ h.addresses) := by
  by_cases hmemory : h.vaddr + h.memsz < 2 ^ 64
  · have hpages : pagesUpTo (h.vaddr / 4096 * 4096) (h.vaddr + h.memsz) = h.addresses := by
      rw [addresses, Segment.addresses, Nat.mod_eq_of_lt hmemory]
    have hmap := hs.mapPages has (h.pageContent_settles image) h.exec h.addresses
    refine congr ((settles_add h.vaddr h.memsz).bind_eq fun _ => ?_) and_assoc.symm
    rwa [hpages]
  · refine ⟨fun hC => absurd hC.1.1 hmemory, fun _ => ?_⟩
    rw [mapSegment, (settles_add h.vaddr h.memsz).faults hmemory]
    rfl

namespace Elf

theorem loadSegment_settles (old : Nat) {ph : Bytes} {h : ProgramHeader}
    (hparse : 48 ≤ ph.length → .parse ph 0 = h) : Settles (do
        let h ← read ph
        let phdr ← h.phdrVaddr (phoff image) old
        let s ← h.mapSegment image s
        return (s, phdr))
      (48 ≤ ph.length ∧ h.Fits image (phoff image) ∧ Placed kernel (as ++ h.addresses))
      fun st => st.1.Holds kernel va (as ++ h.addresses) := by
  have hread : Settles (read ph) (48 ≤ ph.length) fun h' => h' = h :=
    ⟨fun hlen => by rw [← hparse hlen]; exact (read_settles ph).yields hlen,
      (read_settles ph).faults⟩
  refine congr (hread.bind_eq fun _ => (h.phdrVaddr_settles (phoff image) old).bind
    fun _ phdr _ => (h.mapSegment_settles hs has image).bind fun _ s' hs' =>
      settles (yields_pure hs')) ?_
  constructor
  · rintro ⟨hlen, hphdr, ⟨⟨hmemory, hpages⟩, hplaced⟩, -⟩
    exact ⟨hlen, ⟨hphdr, hmemory, hpages⟩, hplaced⟩
  · rintro ⟨hlen, hfits, hplaced⟩
    exact ⟨hlen, hfits.phdr, ⟨⟨hfits.memory, hfits.pages⟩, hplaced⟩, trivial⟩

theorem loadRest_settles (old i : Nat) {ph : Bytes}
    (hph : ph = slice image (headerOff image i) (image.length - headerOff image i))
    (hoff : headerOff image i ≤ image.length) : Settles (do
        let type ← u32le ph 0
        if type ≠ 1 then return (s, old)
        else do
          let h ← ProgramHeader.read ph
          let phdr ← h.phdrVaddr (phoff image) old
          let s ← h.mapSegment image s
          return (s, phdr))
      ((headerOff image i + 4 ≤ image.length ∧ ∀ h, headerAt image i = some h →
        headerOff image i + 48 ≤ image.length ∧ h.Fits image (phoff image)) ∧
        Placed kernel (as ++ pagesAt image i))
      fun st => st.1.Holds kernel va (as ++ pagesAt image i) := by
  have hlen : ph.length = image.length - headerOff image i := by rw [hph, length_slice (by omega)]
  have htype : 0 + 4 ≤ ph.length → le32 ph 0 = le32 image (headerOff image i) := by
    intro hle
    rw [hph, le32_slice (by omega), add_zero]
  rw [pagesAt, headerAt]
  by_cases hload : le32 image (headerOff image i) = 1
  · have hparse : 48 ≤ ph.length → ProgramHeader.parse ph 0 = .parse image (headerOff image i) := by
      intro hle
      rw [hph, ProgramHeader.parse, le32_slice (by omega), le64_slice (by omega),
        le64_slice (by omega), le64_slice (by omega), le64_slice (by omega)]
      rfl
    rw [if_pos hload, Option.map_some, Option.getD_some]
    generalize ProgramHeader.parse image (headerOff image i) = h at hparse ⊢
    refine congr (C := 0 + 4 ≤ ph.length ∧ 48 ≤ ph.length ∧ h.Fits image (phoff image) ∧
      Placed kernel (as ++ h.addresses)) ((settles_u32le ph 0).bind_eq fun hle => ?_) ?_
    · rw [htype hle, if_neg (not_not.2 hload)]
      exact loadSegment_settles hs has old hparse
    · constructor
      · rintro ⟨hle, hle', hfits, hplaced⟩
        refine ⟨⟨by omega, fun h hh => ?_⟩, hplaced⟩
        cases hh
        exact ⟨by omega, hfits⟩
      · rintro ⟨⟨hle, hhead⟩, hplaced⟩
        obtain ⟨hle', hfits⟩ := hhead _ rfl
        exact ⟨by omega, by omega, hfits, hplaced⟩
  · rw [if_neg hload, Option.map_none, Option.getD_none, append_nil]
    refine congr ((settles_u32le ph 0).bind_eq fun hle => ?_) ?_ (C := _ ∧ True)
    · rw [htype hle, if_pos hload]
      exact settles (yields_pure hs)
    · constructor
      · rintro ⟨hle, -⟩
        exact ⟨⟨by omega, nofun⟩, has⟩
      · rintro ⟨⟨hle, -⟩, -⟩
        exact ⟨by omega, trivial⟩

theorem loadHeader_settles (image : Bytes) (old i : Nat) : Settles (loadHeader image (s, old) i)
      (HeaderFits image i ∧ Placed kernel (as ++ pagesAt image i))
      fun st => st.1.Holds kernel va (as ++ pagesAt image i) := by
  refine congr ((settles_add (phoff image) (i * phentsize image)).bind_eq fun _ =>
    (settles_range image (headerOff image i) (image.length - headerOff image i)).bind_eq fun hle =>
      loadRest_settles hs has old i rfl (by omega)) ?_
  constructor
  · rintro ⟨hoff, -, ⟨htype, hsegment⟩, hplaced⟩
    exact ⟨⟨hoff, htype, hsegment⟩, hplaced⟩
  · rintro ⟨hfits, hplaced⟩
    have htype := hfits.type
    exact ⟨hfits.offset, by omega, ⟨htype, hfits.segment⟩, hplaced⟩

omit hs has

theorem load_settles (h : Accepted image) (kernel : Nat → Bool) :
    Settles (load (.new kernel) image) (Loadable kernel image) fun r =>
      r.1.Holds kernel userAllocBase (ofBytes image).addresses ∧ r.2.entry = le64 image 24 := by
  have hnew : (Space.new kernel).Holds kernel userAllocBase [] :=
    ⟨rfl, rfl, fun v => by simp [Space.new], nofun⟩
  have hround : ∀ done (st : Space × Nat) i, (st.1.Holds kernel userAllocBase
      (done.flatMap (pagesAt image)) ∧ Placed kernel (done.flatMap (pagesAt image))) →
      Settles (loadHeader image st i)
        (HeaderFits image i ∧ Placed kernel (done.flatMap (pagesAt image) ++ pagesAt image i))
        fun st' => st'.1.Holds kernel userAllocBase ((done ++ [i]).flatMap (pagesAt image)) ∧
          Placed kernel ((done ++ [i]).flatMap (pagesAt image)) := by
    intro done st i hst
    rw [flatMap_append, flatMap_singleton]
    have hhead := loadHeader_settles hst.1 hst.2 image st.2 i
    exact ⟨fun hC => (hhead.yields hC).mono fun st' hst' => ⟨hst', hC.2⟩, hhead.faults⟩
  have hloop := settles_foldlM (l := List.range (phnum image)) (fun done st i _ => hround done st i)
    (a := (Space.new kernel, 0)) ⟨hnew, .nil⟩
  have hiff := forall_placed_iff (l := List.range (phnum image)) (g := pagesAt image)
    (K := HeaderFits image) (Placed.nil : Placed kernel [])
  simp only [nil_append, ← addresses_ofBytes, mem_range] at hiff hloop
  rw [load, if_neg (by simp [h.magic, h.length]), if_neg (by simp [h.class64]),
    if_neg (by simp [h.littleEndian]), if_neg (by simp [h.exec]), if_neg (by simp [h.machine])]
  refine congr (hloop.bind fun _ st hst => settles (yields_pure ⟨hst.1, rfl⟩)) ?_
  rw [and_true, hiff]
  exact ⟨fun ⟨hheaders, hplaced⟩ => ⟨hheaders, hplaced⟩, fun hok => ⟨hok.headers, hok.placed⟩⟩

theorem load_of_not_accepted (h : ¬ Accepted image) (s : Space) :
    ∃ e, load s image = .error (.err e) := by
  unfold load
  split_ifs with h₁ h₂ h₃ h₄ h₅
  · exact ⟨_, rfl⟩
  · exact ⟨_, rfl⟩
  · exact ⟨_, rfl⟩
  · exact ⟨_, rfl⟩
  · exact ⟨_, rfl⟩
  · rw [not_or, not_lt, not_not] at h₁
    exact absurd ⟨h₁.1, h₁.2, not_not.1 h₂, not_not.1 h₃, not_not.1 h₄, not_not.1 h₅⟩ h

end Elf

end Thos.Memory
