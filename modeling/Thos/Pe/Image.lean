import Thos.Lib.OrdMap
import Thos.Lib.Text

/-!
# PE images

The part of `pe.rs` that works on the bytes of one file: headers, sections, relocations,
the TLS directory, and the export table. A file is laid out and relocated in a buffer that
starts at RVA 0 (`stageImage`); nothing is mapped yet.

Every function is total. An `Err` carries the text of the source, and an index out of range
is a panic. Offsets are sums of 32-bit fields in 64-bit arithmetic, which cannot overflow.
-/

set_option autoImplicit false

namespace Thos.Pe

open Thos.Lib

/-- What can go wrong with a file: an `Err`, or a panic. -/
inductive Fault
  | err (msg : String)
  | panic
  deriving DecidableEq

def fail {α : Type} (msg : String) : Except Fault α := .error (.err msg)

/-- `if !c { return Err(msg) }`. -/
def ensure (c : Prop) [Decidable c] (msg : String) : Except Fault Unit :=
  if c then .ok () else fail msg

/-! ## Reading -/

/-- `b.get(o..o + n)`. -/
def getRange (b : Bytes) (o n : Nat) : Option Bytes :=
  if o + n ≤ b.length then some (slice b o n) else none

/-- `&b[o..o + n]`. -/
def index (b : Bytes) (o n : Nat) : Except Fault Bytes :=
  if o + n ≤ b.length then .ok (slice b o n) else .error .panic

/-- `b[o..o + x.len()].copy_from_slice(x)`. -/
def copyAt (b : Bytes) (o : Nat) (x : Bytes) : Except Fault Bytes :=
  if o + x.length ≤ b.length then .ok (splice b o x) else .error .panic

def rdU16 (img : Bytes) (off : Nat) : Except Fault Nat :=
  match getRange img off 2 with
  | some b => .ok (le16 b 0)
  | none => fail "PE: truncated (u16)"

def rdU32 (img : Bytes) (off : Nat) : Except Fault Nat :=
  match getRange img off 4 with
  | some b => .ok (le32 b 0)
  | none => fail "PE: truncated (u32)"

def rdU64 (img : Bytes) (off : Nat) : Except Fault Nat :=
  match getRange img off 8 with
  | some b => .ok (le64 b 0)
  | none => fail "PE: truncated (u64)"

/-- A NUL-terminated string of less than 256 bytes. -/
def cstrAt (img : Bytes) (off : Nat) : Except Fault Bytes :=
  if img.length < off then fail "PE: string out of range"
  else
    let s := slice img off (min (off + 256) img.length - off)
    if 0 ∉ s then fail "PE: unterminated string"
    else
      let s := s.takeWhile (· ≠ 0)
      if Utf8.valid s then .ok s else fail "PE: non-UTF8 import name"

/-! ## Names -/

/-- The part behind the last separator, in lower case, with an extension. -/
def normalizeDllName (raw : Bytes) : Bytes :=
  let trimmed := (raw.reverse.dropWhile (· == 0)).reverse
  let base := (trimmed.reverse.takeWhile fun c => !(c == 92 || c == 47)).reverse
  let s := toAsciiLowercase base
  if 46 ∈ s then s else s ++ ascii ".dll"

/-- `s.rsplit_once(c)`. -/
def rsplitOnce (c : UInt8) (s : Bytes) : Option (Bytes × Bytes) :=
  if c ∈ s then
    let tail := (s.reverse.takeWhile (· ≠ c)).reverse
    some (s.take (s.length - tail.length - 1), tail)
  else none

/-- `s.parse::<u16>()`. -/
def parseU16 (s : Bytes) : Option Nat :=
  let ds := if s.head? = some 43 then s.tail else s
  if ds = [] ∨ ¬ ds.all isDigit then none
  else if digitsValue ds < 65536 then some (digitsValue ds) else none

/-! ## Layout -/

def maxImageSize : Nat := 256 * 1024 * 1024

def maxSections : Nat := 96

def altBaseShift : Nat := 0x10000000

/-- The first address that is not in the lower half. -/
def userEnd : Nat := 0x800000000000

structure TlsInfo where
  (rawStartVa rawEndVa indexPtrVa callbacksVa zeroFill : Nat)
  deriving DecidableEq

/-- A section: where it is in the image, how much memory it takes, and whether it is code. -/
structure Seg where
  (rva memSize : Nat)
  exec : Bool
  deriving DecidableEq

structure StagedImage where
  (loadBase sizeOfImage entry hdrN : Nat)
  img : Bytes
  segs : List Seg
  (importRva importSize exportRva exportSize : Nat)
  tls : Option TlsInfo
  deriving DecidableEq

def relocEntry (delta p pageRva : Nat) (img : Bytes) (e : Nat) : Except Fault Bytes := do
  let raw := le16 (← index img (p + 8 + e * 2) 2) 0
  if raw / 4096 = 0 then .ok img
  else if raw / 4096 = 10 then
    let t := pageRva + raw % 4096
    match getRange img t 8 with
    | none => fail "PE: reloc target out of range"
    | some slot => .ok (splice img t (toLe64 ((le64 slot 0 + delta) % 2 ^ 64)))
  else fail "PE: unsupported relocation type"

/-- The loop over the relocation blocks; each is at least as long as its header. -/
def relocBlocks (delta fin p : Nat) (img : Bytes) : Except Fault Bytes :=
  if p + 8 ≤ fin then do
    let pageRva := le32 (← index img p 4) 0
    let blockSize := le32 (← index img (p + 4) 4) 0
    if blockSize < 8 ∨ fin < p + blockSize then fail "PE: bad .reloc block size"
    else do
      let img ← (List.range ((blockSize - 8) / 2)).foldlM (relocEntry delta p pageRva) img
      relocBlocks delta fin (p + blockSize) img
  else .ok img
termination_by fin - p

def applyRelocs (img : Bytes) (relocRva relocSize delta sizeOfImage : Nat) : Except Fault Bytes :=
  let fin := relocRva + relocSize
  if sizeOfImage < fin ∨ img.length < fin then fail "PE: .reloc out of range"
  else relocBlocks delta fin relocRva img

/-- The bytes of a section go to its place in the image. -/
def copySection (file img : Bytes) (vaddr rawPtr fsize : Nat) : Except Fault Bytes :=
  if 0 < fsize then do copyAt img vaddr (← index file rawPtr fsize) else .ok img

variable (file : Bytes)

/-- One section header. -/
def stageSection (sizeOfImage sectTbl : Nat) (st : Bytes × List Seg) (i : Nat) :
    Except Fault (Bytes × List Seg) := do
  let s := sectTbl + i * 40
  ensure (getRange file s 40 ≠ none) "PE: section table truncated"
  let vsize ← rdU32 file (s + 8)
  let vaddr ← rdU32 file (s + 12)
  let rawSize ← rdU32 file (s + 16)
  let rawPtr ← rdU32 file (s + 20)
  let chars ← rdU32 file (s + 36)
  let memSize := max vsize rawSize
  ensure (vaddr < sizeOfImage ∧ vaddr + memSize ≤ sizeOfImage) "PE: section outside the image"
  let img ← copySection file st.1 vaddr rawPtr (min (min rawSize vsize) (file.length - rawPtr))
  .ok (img, st.2 ++ [⟨vaddr, memSize, chars.testBit 29⟩])

/-- The fields of the headers that `stage_image` reads, once they are checked. -/
structure Headers where
  (numSections sectTbl entryRva imageBase sizeOfImage sizeOfHeaders dllChars : Nat)
  (tls exports imports relocs : Nat × Nat)
  deriving DecidableEq

/-- A data directory: where it is and how long. -/
def dataDir (dirs nDirs i : Nat) : Except Fault (Nat × Nat) :=
  if nDirs ≤ i then .ok (0, 0)
  else do .ok (← rdU32 file (dirs + i * 8), ← rdU32 file (dirs + i * 8 + 4))

/-- The first half of `stage_image`. -/
def readHeaders : Except Fault Headers := do
  ensure (getRange file 0 2 = some (ascii "MZ")) "PE: not an MZ image"
  let peOff ← rdU32 file 0x3C
  ensure (getRange file peOff 4 = some (ascii "PE" ++ [0, 0])) "PE: no PE signature"
  let coff := peOff + 4
  let machine ← rdU16 file coff
  ensure (machine = 0x8664) "PE: not x86-64 (Machine != 0x8664)"
  let numSections ← rdU16 file (coff + 2)
  ensure (numSections ≠ 0 ∧ numSections ≤ maxSections) "PE: absurd NumberOfSections"
  let optSize ← rdU16 file (coff + 16)
  let opt := coff + 20
  ensure (112 ≤ optSize) "PE: optional header too small"
  let magic ← rdU16 file opt
  ensure (magic = 0x20B) "PE: not PE32+ (Optional Magic != 0x20B)"
  let entryRva ← rdU32 file (opt + 16)
  let imageBase ← rdU64 file (opt + 24)
  let sectAlign ← rdU32 file (opt + 32)
  let sizeOfImage ← rdU32 file (opt + 56)
  let sizeOfHeaders ← rdU32 file (opt + 60)
  let dllChars ← rdU16 file (opt + 70)
  let nDirs ← rdU32 file (opt + 108)
  ensure (imageBase % 4096 = 0 ∧ imageBase ≠ 0 ∧ imageBase < userEnd) "PE: bad ImageBase"
  ensure (sizeOfImage ≠ 0 ∧ sizeOfImage ≤ maxImageSize) "PE: absurd SizeOfImage"
  ensure (0x1000 ≤ sectAlign ∧ sectAlign &&& (sectAlign - 1) = 0) "PE: bad SectionAlignment"
  ensure (entryRva < sizeOfImage) "PE: entry point outside the image"
  let dirs := opt + 112
  let tls ← dataDir file dirs nDirs 9
  let exports ← dataDir file dirs nDirs 0
  let imports ← dataDir file dirs nDirs 1
  let relocs ← dataDir file dirs nDirs 5
  .ok ⟨numSections, opt + optSize, entryRva, imageBase, sizeOfImage, sizeOfHeaders,
    dllChars, tls, exports, imports, relocs⟩

/-- Where the image goes: a DLL to the place the caller picked, an executable to its own base
or, if it can be relocated, a fixed way off. -/
def chooseBase (h : Headers) : Option Nat → Except Fault Nat
  | some b => .ok b
  | none =>
    if h.relocs.2 ≠ 0 ∧ h.dllChars.testBit 6 then
      if h.imageBase + altBaseShift + h.sizeOfImage < userEnd then
        .ok (h.imageBase + altBaseShift)
      else fail "PE: no room for an alternative base"
    else .ok h.imageBase

/-- Relocation, if the image is not at its own base. -/
def relocate (h : Headers) (img : Bytes) (delta : Nat) : Except Fault Bytes :=
  if delta = 0 then .ok img
  else if h.relocs.2 = 0 then fail "PE: needs relocation but has no .reloc"
  else applyRelocs img h.relocs.1 h.relocs.2 delta h.sizeOfImage

/-- The TLS directory of a relocated image. -/
def readTls (h : Headers) (img : Bytes) : Except Fault (Option TlsInfo) :=
  if h.tls.2 = 0 then .ok none
  else
    let d := h.tls.1
    if img.length < d + 40 then fail "PE: TLS directory out of range"
    else do
      .ok (some ⟨← rdU64 img d, ← rdU64 img (d + 8), ← rdU64 img (d + 16), ← rdU64 img (d + 24),
        ← rdU32 img (d + 32)⟩)

def stageImage (wantBase : Option Nat) : Except Fault StagedImage := do
  let h ← readHeaders file
  let hdrN := min (min h.sizeOfHeaders file.length) h.sizeOfImage
  let img ← copyAt (List.replicate h.sizeOfImage 0) 0 (← index file 0 hdrN)
  let (img, segs) ← (List.range h.numSections).foldlM
    (stageSection file h.sizeOfImage h.sectTbl) (img, [])
  let loadBase ← chooseBase h wantBase
  let img ← relocate h img ((loadBase + 2 ^ 64 - h.imageBase) % 2 ^ 64)
  let tls ← readTls h img
  .ok {
    loadBase := loadBase
    sizeOfImage := h.sizeOfImage
    entry := loadBase + h.entryRva
    hdrN := hdrN
    img := img
    segs := segs
    importRva := h.imports.1
    importSize := h.imports.2
    exportRva := h.exports.1
    exportSize := h.exports.2
    tls := tls }

def peekSizeOfImage : Except Fault Nat := do
  let peOff ← rdU32 file 0x3C
  ensure (getRange file peOff 4 = some (ascii "PE" ++ [0, 0])) "PE: no PE signature"
  let soi ← rdU32 file (peOff + 4 + 20 + 56)
  ensure (soi ≠ 0 ∧ soi ≤ maxImageSize) "PE: absurd SizeOfImage"
  .ok soi

/-! ## Exports -/

/-- One slot of an export table. -/
inductive Export
  | empty
  | addr (va : Nat)
  | forward (target : Bytes)
  deriving DecidableEq

/-- `(eat, ord_base, names)`. -/
structure ExportTable where
  eat : List Export
  ordBase : Nat
  names : List (Bytes × Nat)
  deriving DecidableEq

variable (img : Bytes)

/-- One slot of `AddressOfFunctions`. -/
def exportSlot (base exportRva exportSize eatRva i : Nat) : Except Fault Export := do
  let frva ← rdU32 img (eatRva + i * 4)
  if frva = 0 then .ok .empty
  else if exportRva ≤ frva ∧ frva < exportRva + exportSize then
    do .ok (.forward (← cstrAt img frva))
  else .ok (.addr (base + frva))

/-- One entry of `AddressOfNames` goes to the map of names; of two with one name the later
stays. -/
def exportName (enptRva ordsRva nFuncs : Nat) (names : List (Bytes × Nat)) (i : Nat) :
    Except Fault (List (Bytes × Nat)) := do
  let name ← cstrAt img (← rdU32 img (enptRva + i * 4))
  let idx ← rdU16 img (ordsRva + i * 2)
  .ok (if idx < nFuncs then OrdMap.insert name idx names else names)

/-- The export directory; the image has one. -/
def parseExportDir (base exportRva exportSize : Nat) : Except Fault ExportTable := do
  let ordBase ← rdU32 img (exportRva + 0x10)
  let nFuncs ← rdU32 img (exportRva + 0x14)
  let nNames ← rdU32 img (exportRva + 0x18)
  let eatRva ← rdU32 img (exportRva + 0x1C)
  let enptRva ← rdU32 img (exportRva + 0x20)
  let ordsRva ← rdU32 img (exportRva + 0x24)
  ensure (nFuncs ≤ 64 * 1024) "PE: absurd export count"
  let eat ← (List.range nFuncs).mapM (exportSlot img base exportRva exportSize eatRva)
  let names ← (List.range nNames).foldlM (exportName img enptRva ordsRva eat.length) []
  .ok ⟨eat, ordBase, names⟩

def parseExportTable (base exportRva exportSize : Nat) : Except Fault ExportTable :=
  if exportRva = 0 then .ok ⟨[], 1, []⟩ else parseExportDir img base exportRva exportSize

end Thos.Pe
