import Thos.Lib.Disk

/-!
# The ext2 driver

`ext2.rs` over a disk of bytes: mounting, the read side, the two bitmap allocators, the
layout of file data over direct and indirect blocks, directory records, and the calls
that create, overwrite, remove, and change files and directories. A function of the
source is a program over the disk; a `?` on an `Option` or a `Result` is a stop of that
program, and so is a slice index out of range.

Numbers that the source holds in `u32` and `u64` are natural numbers. Where it casts to a
narrower type, so does the model.
-/

set_option autoImplicit false

namespace Thos

open Thos.Lib

structure Ext2 where
  (blockSize inodeSize inodesPerGroup firstDataBlock blocksPerGroup blockCount : Nat)
  (filetype sparseSuper : Bool)
  deriving DecidableEq

namespace Ext2

/-- Why a call stops: `None`, an error text, or a panic. -/
inductive Stop
  | none
  | err (msg : String)
  | panic
  deriving DecidableEq

/-- A driver function. -/
abbrev M (α : Type) : Type := DiskProg Stop α

/-- `ok_or(msg)?` on an `Option`. -/
def okOr {α : Type} (msg : String) (p : M α) : M α :=
  p.mapErr fun
    | .none => .err msg
    | e => e

/-! ## Mounting -/

def sbOffset : Nat := 1024

def rootIno : Nat := 2

/-- `open`, on the bytes of the superblock. -/
def decodeSuper (sb : Bytes) : Except Stop Ext2 :=
  if le16 sb 56 ≠ 0xEF53 then .error (.err "ext2 magic not found")
  else .ok {
    blockSize := 1024 * 2 ^ le32 sb 24
    inodeSize := if 1 ≤ le32 sb 76 then le16 sb 88 else 128
    inodesPerGroup := le32 sb 40
    firstDataBlock := le32 sb 20
    blocksPerGroup := le32 sb 32
    blockCount := le32 sb 4
    filetype := (le32 sb 96).testBit 1
    sparseSuper := (le32 sb 100).testBit 0 }

/-- `open`. -/
def mount : M Ext2 := do
  let sb ← diskRange sbOffset 1024
  .ofExcept (decodeSuper sb)

/-! ## Inodes -/

/-- `struct Inode`; `block` is read below 15. -/
structure Inode where
  (mode size : Nat)
  block : Nat → Nat
  (uid gid : Nat)

/-- The fields of a raw inode that the driver reads. -/
def decodeInode (raw : Bytes) : Inode where
  mode := le16 raw 0
  size := le32 raw 4
  block := fun i => le32 raw (40 + i * 4)
  uid := le16 raw 2
  gid := le16 raw 24

def isDir (mode : Nat) : Bool := mode &&& 0xF000 = 0x4000

def isReg (mode : Nat) : Bool := mode &&& 0xF000 = 0x8000

/-- The block pointers of an inode, spliced in one after the other. -/
def setBlocks (raw : Bytes) (block : Nat → Nat) : Bytes :=
  (List.range 15).foldl (fun raw i => splice raw (40 + i * 4) (toLe32 (block i))) raw

def setInode (mode uid gid size links blocks512 : Nat) (block : Nat → Nat) (raw : Bytes) : Bytes :=
  let raw := splice raw 0 (toLe16 mode)
  let raw := splice raw 2 (toLe16 uid)
  let raw := splice raw 4 (toLe32 size)
  let raw := splice raw 24 (toLe16 gid)
  let raw := splice raw 26 (toLe16 links)
  let raw := splice raw 28 (toLe32 blocks512)
  setBlocks raw block

def round4 (n : Nat) : Nat := (n + 3) / 4 * 4

/-! ## Paths -/

def slash : UInt8 := 47

def components (path : Bytes) : List Bytes :=
  (path.splitOnP (· == slash)).filter fun s => !s.isEmpty

def splitParent (path : Bytes) : Option (Bytes × Bytes) :=
  let path := (path.reverse.dropWhile (· == slash)).reverse
  let name := (path.reverse.takeWhile (· != slash)).reverse
  -- `rfind` finds a slash unless the name is all there is
  if name.length = path.length then none
  else if name.isEmpty then none
  else
    let idx := path.length - name.length - 1
    some (if idx = 0 then [slash] else path.take idx, name)

variable (fs : Ext2)

/-! ## The read side -/

def block (n : Nat) : M Bytes := diskRange (n * fs.blockSize) fs.blockSize

def bgdOff (g : Nat) : Nat := (fs.firstDataBlock + 1) * fs.blockSize + g * 32

def readBgd (g : Nat) : M Bytes := diskRange (fs.bgdOff g) 32

def inodeOff (ino : Nat) : M Nat := do
  let bgd ← fs.readBgd ((ino - 1) / fs.inodesPerGroup)
  pure (le32 bgd 8 * fs.blockSize + (ino - 1) % fs.inodesPerGroup * fs.inodeSize)

def readInode (ino : Nat) : M Inode := do
  let off ← fs.inodeOff ino
  let raw ← diskRange off fs.inodeSize
  pure (decodeInode raw)

/-- The pointers in an indirect block. -/
def ptrs (c : Bytes) : List Nat := (List.range (c.length / 4)).map fun k => le32 c (4 * k)

/-- The number of blocks that `block_map` lists. -/
def mapLen (size : Nat) : Nat := max 1 ((size + fs.blockSize - 1) / fs.blockSize)

/-- The closure `single` of `block_map`: one indirect block's worth of pointers, or a run
of holes. -/
def single (nblocks bn : Nat) (out : List Nat) : M (List Nat) := do
  if nblocks ≤ out.length then pure out
  else
    let take := min (fs.blockSize / 4) (nblocks - out.length)
    if bn = 0 then pure (out ++ List.replicate take 0)
    else do
      let ind ← fs.block bn
      pure (out ++ (ptrs ind).take take)

/-- `single` over the pointers of a double-indirect block, until the list is full. -/
def singles (nblocks : Nat) : List Nat → List Nat → M (List Nat)
  | [], out => pure out
  | bn :: bns, out =>
    if nblocks ≤ out.length then pure out
    else do
      let out ← fs.single nblocks bn out
      singles nblocks bns out

def blockMap (node : Inode) : M (List Nat) := do
  let nblocks := fs.mapLen node.size
  let out := (List.range (min 12 nblocks)).map node.block
  let out ← if 12 < nblocks then fs.single nblocks (node.block 12) out else pure out
  if nblocks ≤ out.length then pure out
  else if node.block 13 = 0 then
    fs.singles nblocks (List.replicate (fs.blockSize / 4) 0) out
  else do
    let dind ← fs.block (node.block 13)
    fs.singles nblocks (ptrs dind) out

/-- The length of the run of consecutive numbers that the list starts with after `b`. The
sum is one of `u32`. -/
def runLen (b : Nat) : List Nat → Nat
  | [] => 0
  | c :: cs => if c = (b + 1) % 2 ^ 32 then runLen c cs + 1 else 0

/-- The loop of `read_file`: holes and runs of consecutive blocks, each in one read. -/
def readRuns : Nat → List Nat → Bytes → M Bytes
  | 0, _, out => pure out
  | _ + 1, [], out => pure out
  | fuel + 1, b :: bs, out =>
    if b = 0 then
      let k := (bs.takeWhile (· == 0)).length
      readRuns fuel (bs.drop k) (out ++ List.replicate ((k + 1) * fs.blockSize) 0)
    else do
      let k := runLen b bs
      let data ← diskRange (b * fs.blockSize) ((k + 1) * fs.blockSize)
      readRuns fuel (bs.drop k) (out ++ data)

def readFile (node : Inode) : M Bytes := do
  let blocks ← fs.blockMap node
  let out ← fs.readRuns blocks.length blocks []
  pure (out.take node.size)

/-- The loop of `lookup`. -/
def findEntry (data name : Bytes) : Nat → Nat → Option Nat
  | 0, _ => none
  | fuel + 1, off =>
    if data.length < off + 8 then none
    else
      let ino := le32 data off
      let recLen := le16 data (off + 4)
      let nameLen := byte data (off + 6)
      if recLen = 0 then none
      else if ino ≠ 0 ∧ off + 8 + nameLen ≤ data.length ∧ slice data (off + 8) nameLen = name then
        some ino
      else findEntry data name fuel (off + recLen)

def lookup (dirIno : Nat) (name : Bytes) : M (Option Nat) := do
  let node ← fs.readInode dirIno
  let data ← fs.readFile node
  pure (findEntry data name (data.length + 1) 0)

/-- The walk of `path_lookup`. -/
def walk : Nat → List Bytes → M (Option Nat)
  | ino, [] => pure (some ino)
  | ino, name :: names => do
    match ← fs.lookup ino name with
    | none => pure none
    | some ino => walk ino names

variable (path : Bytes)

def pathLookup : M (Option Nat) := fs.walk rootIno (components path)

def readPath : M (Option Bytes) := do
  match ← fs.pathLookup path with
  | none => pure none
  | some ino => do
    let node ← fs.readInode ino
    let data ← fs.readFile node
    pure (some data)

/-! ## The allocators -/

def writeBlock (n : Nat) (data : Bytes) : M Unit := diskWrite (n * fs.blockSize) data

def groupCount : Nat :=
  (fs.blockCount - fs.firstDataBlock + fs.blocksPerGroup - 1) / fs.blocksPerGroup

def sbAdd32 (off : Nat) (delta : Int) : M Unit := do
  let cur ← diskRange (sbOffset + off) 4
  diskWrite (sbOffset + off) (toLe32 ((le32 cur 0 + delta) % 2 ^ 32).toNat)

def bgdAdd16 (g off : Nat) (delta : Int) : M Unit := do
  let cur ← diskRange (fs.bgdOff g + off) 2
  diskWrite (fs.bgdOff g + off) (toLe16 ((le16 cur 0 + delta) % 2 ^ 16).toNat)

/-- The counts that a block given back or taken changes. -/
def countBlock (g : Nat) (delta : Int) : M Unit := do
  fs.bgdAdd16 g 12 delta
  sbAdd32 12 delta

/-- The counts that an inode given back or taken changes. -/
def countInode (g : Nat) (isDir : Bool) (delta : Int) : M Unit := do
  fs.bgdAdd16 g 14 delta
  sbAdd32 16 delta
  .when isDir (fs.bgdAdd16 g 16 (-delta))

def firstClear (bm : Bytes) (count : Nat) : Option Nat :=
  (List.range count).find? fun i => !bit bm i

def takeBit (bitmapBlk count : Nat) : M (Option Nat) := do
  let bm ← fs.block bitmapBlk
  match firstClear bm count with
  | none => pure none
  | some i =>
    -- past the bitmap the index of the byte is out of range
    if bm.length ≤ i / 8 then .stop .panic
    else do
      fs.writeBlock bitmapBlk (setBit bm i)
      pure (some i)

def inGroup (g : Nat) : Nat :=
  if g = fs.groupCount - 1 then fs.blockCount - fs.firstDataBlock - g * fs.blocksPerGroup
  else fs.blocksPerGroup

/-- The loop of `alloc_block`. -/
def allocBlockIn : List Nat → M Nat
  | [] => .stop .none
  | g :: gs => do
    let bgd ← fs.readBgd g
    if le16 bgd 12 = 0 then allocBlockIn gs
    else
      match ← fs.takeBit (le32 bgd 0) (fs.inGroup g) with
      | none => allocBlockIn gs
      | some i => do
        fs.countBlock g (-1)
        let bno := fs.firstDataBlock + g * fs.blocksPerGroup + i
        fs.writeBlock bno (List.replicate fs.blockSize 0)
        pure bno

def allocBlock : M Nat := fs.allocBlockIn (List.range fs.groupCount)

def freeBlock (bno : Nat) : M Unit :=
  if bno < fs.firstDataBlock then .stop .panic
  else do
    let rel := bno - fs.firstDataBlock
    let g := rel / fs.blocksPerGroup
    let i := rel % fs.blocksPerGroup
    let bgd ← fs.readBgd g
    let bmb := le32 bgd 0
    let bm ← fs.block bmb
    if bm.length ≤ i / 8 then .stop .panic
    else .when (bit bm i) do
      fs.writeBlock bmb (clearBit bm i)
      fs.countBlock g 1

def patchInode (ino : Nat) (f : Bytes → Bytes) : M Unit := do
  let off ← fs.inodeOff ino
  let raw ← diskRange off fs.inodeSize
  diskWrite off (f raw)

/-- The loop of `alloc_inode`. -/
def allocInodeIn (isDir : Bool) : List Nat → M Nat
  | [] => .stop .none
  | g :: gs => do
    let bgd ← fs.readBgd g
    if le16 bgd 14 = 0 then allocInodeIn isDir gs
    else
      match ← fs.takeBit (le32 bgd 4) fs.inodesPerGroup with
      | none => allocInodeIn isDir gs
      | some i => do
        fs.countInode g isDir (-1)
        let ino := g * fs.inodesPerGroup + i + 1
        fs.patchInode ino fun raw => List.replicate raw.length 0
        pure ino

def allocInode (isDir : Bool) : M Nat := fs.allocInodeIn isDir (List.range fs.groupCount)

/-- The patch of `bump_links`. -/
def addLinks (delta : Int) (raw : Bytes) : Bytes :=
  splice raw 26 (toLe16 ((le16 raw 26 + delta) % 2 ^ 16).toNat)

def bumpLinks (ino : Nat) (delta : Int) : M Unit := fs.patchInode ino (addLinks delta)

/-- The patch of `free_inode`: no links, a deletion time, no blocks. -/
def stampDeleted (raw : Bytes) : Bytes :=
  let raw := splice raw 26 (toLe16 0)
  let raw := splice raw 20 (toLe32 1735689600)
  splice raw 28 (toLe32 0)

def freeInode (ino : Nat) (isDir : Bool) : M Unit := do
  let g := (ino - 1) / fs.inodesPerGroup
  let i := (ino - 1) % fs.inodesPerGroup
  let bgd ← fs.readBgd g
  let bmb := le32 bgd 4
  let bm ← fs.block bmb
  if bm.length ≤ i / 8 then .stop .panic
  else do
    .when (bit bm i) do
      fs.writeBlock bmb (clearBit bm i)
      fs.countInode g isDir 1
    fs.patchInode ino stampDeleted

/-! ## The blocks of a file -/

/-- Frees the blocks of a list that are not holes. -/
def freeBlocks : List Nat → M Unit
  | [] => pure ()
  | b :: bs => do
    .when (b ≠ 0) (fs.freeBlock b)
    freeBlocks bs

/-- Frees the indirect blocks of a list with what they point to. -/
def freeIndirects : List Nat → M Unit
  | [] => pure ()
  | sib :: sibs => do
    .when (sib ≠ 0) do
      let c ← fs.block sib
      fs.freeBlocks (ptrs c)
      fs.freeBlock sib
    freeIndirects sibs

def freeAllBlocks (node : Inode) : M Unit := do
  fs.freeBlocks ((List.range 12).map node.block)
  fs.freeIndirects [node.block 12]
  .when (node.block 13 ≠ 0) do
    let c ← fs.block (node.block 13)
    fs.freeIndirects (ptrs c)
    fs.freeBlock (node.block 13)

variable (data : Bytes)

/-- The `i`-th block of the data, padded with zeros. -/
def chunk (i : Nat) : Bytes :=
  let v := slice data (i * fs.blockSize) fs.blockSize
  v ++ List.replicate (fs.blockSize - v.length) 0

/-- Allocates and fills `n` blocks of data from block `bi` on. -/
def layRun (data : Bytes) : Nat → Nat → M (List Nat)
  | 0, _ => pure []
  | n + 1, bi => do
    let b ← fs.allocBlock
    fs.writeBlock b (fs.chunk data bi)
    let bs ← layRun data n (bi + 1)
    pure (b :: bs)

/-- A block of pointers: the buffer that the loops fill from its start. -/
def ptrBlock (bs : List Nat) : Bytes :=
  bs.flatMap toLe32 ++ List.replicate (fs.blockSize - 4 * bs.length) 0

/-- An indirect block over the data from block `bi` on, `n` blocks at most. -/
def layIndirect (bi n : Nat) : M Nat := do
  let ind ← fs.allocBlock
  let bs ← fs.layRun data (min (fs.blockSize / 4) n) bi
  fs.writeBlock ind (fs.ptrBlock bs)
  pure ind

/-- The outer loop over the double-indirect tree: `j` more pointers, `n` more blocks. -/
def layIndirects (data : Bytes) : Nat → Nat → Nat → M (List Nat)
  | 0, _, _ => pure []
  | j + 1, bi, n =>
    if n = 0 then pure []
    else do
      let ind ← fs.layIndirect data bi n
      let inds ← layIndirects data j (bi + fs.blockSize / 4) (n - fs.blockSize / 4)
      pure (ind :: inds)

/-- The pointers of an inode: direct, indirect, double indirect. -/
def blockArray (direct : List Nat) (ind dind : Nat) (i : Nat) : Nat :=
  if i < 12 then direct.getD i 0 else if i = 12 then ind else if i = 13 then dind else 0

def layOutData : M ((Nat → Nat) × Nat) := do
  let per := fs.blockSize / 4
  let nblocks := (data.length + fs.blockSize - 1) / fs.blockSize
  let direct ← fs.layRun data (min 12 nblocks) 0
  if nblocks ≤ 12 then
    pure (blockArray direct 0 0, nblocks * (fs.blockSize / 512))
  else do
    let ind ← fs.layIndirect data 12 (nblocks - 12)
    if nblocks ≤ 12 + per then
      pure (blockArray direct ind 0, (nblocks + 1) * (fs.blockSize / 512))
    else do
      let dind ← fs.allocBlock
      let inds ← fs.layIndirects data per (12 + per) (nblocks - (12 + per))
      fs.writeBlock dind (fs.ptrBlock inds)
      if 12 + per + per * per < nblocks then .stop .none
      else
        pure (blockArray direct ind dind, (nblocks + (2 + inds.length)) * (fs.blockSize / 512))

/-! ## Directories -/

/-- The directory record at `no`: inode, record length, name. -/
def putRecord (blk : Bytes) (no child nrec : Nat) (ft : UInt8) (name : Bytes) : Bytes :=
  let blk := splice blk no (toLe32 child)
  let blk := splice blk (no + 4) (toLe16 nrec)
  let blk := splice blk (no + 6) [name.length.toUInt8]
  let blk := splice blk (no + 7) [ft]
  splice blk (no + 8) name

/-- What a scan for room in a directory block finds. -/
inductive Gap
  | none
  | panic
  | at (off used recLen : Nat)
  deriving DecidableEq

/-- The inner loop of `dir_insert`. -/
def findGap (blk : Bytes) (need : Nat) : Nat → Nat → Gap
  | 0, _ => .none
  | fuel + 1, off =>
    if blk.length < off + 8 then .none
    else
      let ino := le32 blk off
      let recLen := le16 blk (off + 4)
      let nameLen := byte blk (off + 6)
      if recLen = 0 ∨ blk.length < off + recLen then .none
      else
        let used := if ino = 0 then 0 else round4 (8 + nameLen)
        -- the subtraction is of unsigned numbers
        if recLen < used then .panic
        else if need ≤ recLen - used then .at off used recLen
        else findGap blk need fuel (off + recLen)

/-- The block with the record in the gap. -/
def fillGap (blk : Bytes) (off used recLen child : Nat) (ft : UInt8) (name : Bytes) : Bytes :=
  let blk := if used ≠ 0 then splice blk (off + 4) (toLe16 used) else blk
  putRecord blk (off + used) child (recLen - used) ft name

/-- The loop of `dir_insert` over the direct blocks; whether the record was placed. -/
def insertIn (name : Bytes) (child : Nat) (ft : UInt8) : List Nat → M Bool
  | [] => pure false
  | bno :: bnos =>
    if bno = 0 then insertIn name child ft bnos
    else do
      let blk ← fs.block bno
      match findGap blk (round4 (8 + name.length)) (fs.blockSize + 1) 0 with
      | .panic => .stop .panic
      | .none => insertIn name child ft bnos
      | .at off used recLen => do
        fs.writeBlock bno (fillGap blk off used recLen child ft name)
        pure true

/-- The patch of a directory's inode that gives it one more block. -/
def growDir (nb : Nat → Nat) (raw : Bytes) : Bytes :=
  let raw := splice raw 4 (toLe32 (le32 raw 4 + fs.blockSize))
  let raw := splice raw 28 (toLe32 (le32 raw 28 + fs.blockSize / 512))
  setBlocks raw nb

def fileType (isDir : Bool) : UInt8 := if !fs.filetype then 0 else if isDir then 2 else 1

def dirInsert (dirIno : Nat) (name : Bytes) (child : Nat) (isDir : Bool) : M Unit := do
  let ft := fs.fileType isDir
  let dir ← fs.readInode dirIno
  if ← fs.insertIn name child ft ((List.range 12).map dir.block) then pure ()
  else
    match (List.range 12).find? fun s => dir.block s = 0 with
    | none => .stop (.err "directory full")
    | some slot => do
      let bno ← okOr "no free block for dir" fs.allocBlock
      if fs.blockSize < 8 + name.length then .stop .panic
      else do
        let blk := putRecord (List.replicate fs.blockSize 0) 0 child fs.blockSize ft name
        fs.writeBlock bno blk
        fs.patchInode dirIno (fs.growDir (Function.update dir.block slot bno))

/-- What a scan for a name in a directory block finds. -/
inductive Found
  | none
  | panic
  | at (off : Nat) (prev : Option Nat) (recLen ino : Nat)
  deriving DecidableEq

/-- The inner loop of `dir_remove`. -/
def findName (blk name : Bytes) : Nat → Nat → Option Nat → Found
  | 0, _, _ => .none
  | fuel + 1, off, prev =>
    if blk.length < off + 8 then .none
    else
      let ino := le32 blk off
      let recLen := le16 blk (off + 4)
      let nameLen := byte blk (off + 6)
      if recLen = 0 ∨ blk.length < off + recLen then .none
      else if ino ≠ 0 ∧ nameLen = name.length ∧ blk.length < off + 8 + nameLen then .panic
      else if ino ≠ 0 ∧ nameLen = name.length ∧ slice blk (off + 8) nameLen = name then
        .at off prev recLen ino
      else findName blk name fuel (off + recLen) (some off)

/-- The block without the record: merged into the one before, or without its inode. -/
def cutRecord (blk : Bytes) (off : Nat) (prev : Option Nat) (recLen : Nat) : Bytes :=
  match prev with
  | some p => splice blk (p + 4) (toLe16 (le16 blk (p + 4) + recLen))
  | none => splice blk off (toLe32 0)

/-- The loop of `dir_remove`. -/
def removeIn (name : Bytes) : List Nat → M Nat
  | [] => .stop .none
  | bno :: bnos =>
    if bno = 0 then removeIn name bnos
    else do
      let blk ← fs.block bno
      match findName blk name (fs.blockSize + 1) 0 none with
      | .panic => .stop .panic
      | .none => removeIn name bnos
      | .at off prev recLen ino => do
        fs.writeBlock bno (cutRecord blk off prev recLen)
        pure ino

def dirRemove (dirIno : Nat) (name : Bytes) : M Nat := do
  let dir ← fs.readInode dirIno
  fs.removeIn name ((List.range 12).map dir.block)

/-! ## Backups -/

/-- The loop of `has_backup` for one base; a product past `u32` ends it. -/
def powerLoop (base g : Nat) : Nat → Nat → Bool
  | 0, p => p = g
  | fuel + 1, p =>
    if p < g then (if p * base < 2 ^ 32 then powerLoop base g fuel (p * base) else false)
    else p = g

def hasBackup (g : Nat) : Bool :=
  if !fs.sparseSuper || g ≤ 1 then true
  else [3, 5, 7].any fun base => powerLoop base g 32 base

/-- The loop of `sync_backups`. -/
def copyBackups (sb gdt : Bytes) : List Nat → M Unit
  | [] => pure ()
  | g :: gs => do
    .when (fs.hasBackup g) do
      let sbBlk := fs.firstDataBlock + g * fs.blocksPerGroup
      diskWrite (sbBlk * fs.blockSize) (splice sb 90 (toLe16 g))
      diskWrite ((sbBlk + 1) * fs.blockSize) gdt
    copyBackups sb gdt gs

def syncBackups : M Unit :=
  if fs.groupCount ≤ 1 then pure ()
  else do
    let sb ← diskRange sbOffset 1024
    let gdt ← diskRange (fs.bgdOff 0) (fs.groupCount * 32)
    fs.copyBackups sb gdt ((List.range (fs.groupCount - 1)).map (· + 1))

/-! ## Calls -/

/-- The first lines of every call that names a file in a directory. -/
def resolveParent : M (Nat × Bytes) :=
  match splitParent path with
  | none => .stop (.err "bad path")
  | some (parent, name) => do
    match ← fs.pathLookup parent with
    | none => .stop (.err "parent dir missing")
    | some parentIno => pure (parentIno, name)

/-- The arm of `write_path_owned` for a file that exists. The new blocks are committed
before the old ones are freed. -/
def overwrite (ino size blocks512 : Nat) (block : Nat → Nat) : M Unit := do
  let old ← fs.readInode ino
  fs.patchInode ino fun raw =>
    setInode old.mode old.uid old.gid size (le16 raw 26) blocks512 block raw
  fs.freeAllBlocks old

/-- The arm of `write_path_owned` for a new file. -/
def create (parentIno : Nat) (name : Bytes) (uid gid size blocks512 : Nat) (block : Nat → Nat) :
    M Unit := do
  let ino ← okOr "no free inode" (fs.allocInode false)
  fs.patchInode ino (setInode 0o100644 uid gid size 1 blocks512 block)
  fs.dirInsert parentIno name ino false

/-- The two arms of `write_path_owned`. -/
def store (parentIno : Nat) (name : Bytes) (uid gid size blocks512 : Nat) (block : Nat → Nat) :
    Option Nat → M Unit
  | some ino => fs.overwrite ino size blocks512 block
  | none => fs.create parentIno name uid gid size blocks512 block

def writePathOwned (path data : Bytes) (uid gid : Nat) : M Unit := do
  let (parentIno, name) ← fs.resolveParent path
  if 255 < name.length then .stop (.err "name too long")
  else do
    let (block, blocks512) ← okOr "no space / file too large" (fs.layOutData data)
    let found ← fs.lookup parentIno name
    fs.store parentIno name uid gid data.length blocks512 block found
    fs.syncBackups

def writePath (path data : Bytes) : M Unit := fs.writePathOwned path data 0 0

def dot : Bytes := [46]

def dotdot : Bytes := [46, 46]

/-- The first block of a new directory. -/
def newDirBlock (ino parentIno : Nat) : Bytes :=
  let blk := putRecord (List.replicate fs.blockSize 0) 0 ino 12 (fs.fileType true) dot
  putRecord blk 12 parentIno (fs.blockSize - 12) (fs.fileType true) dotdot

def mkdirPathOwned (uid gid : Nat) : M Unit := do
  let (parentIno, name) ← fs.resolveParent path
  match ← fs.lookup parentIno name with
  | some _ => .stop (.err "already exists")
  | none => do
    let ino ← okOr "no free inode" (fs.allocInode true)
    let bno ← okOr "no free block" fs.allocBlock
    fs.writeBlock bno (fs.newDirBlock ino parentIno)
    fs.patchInode ino
      (setInode 0o040755 uid gid fs.blockSize 2 (fs.blockSize / 512) (blockArray [bno] 0 0))
    fs.dirInsert parentIno name ino true
    fs.bumpLinks parentIno 1
    fs.syncBackups

/-- The end of `unlink_path`: the last link frees the file, another is only counted. -/
def dropLink (ino : Nat) (node : Inode) : M Unit := do
  let off ← fs.inodeOff ino
  let links ← diskRange (off + 26) 2
  if le16 links 0 ≤ 1 then do
    fs.freeAllBlocks node
    fs.freeInode ino false
  else fs.bumpLinks ino (-1)

def unlinkPath : M Unit := do
  let (parentIno, name) ← fs.resolveParent path
  match ← fs.lookup parentIno name with
  | none => .stop (.err "no such file")
  | some ino => do
    let node ← fs.readInode ino
    if isDir node.mode then .stop (.err "is a directory")
    else do
      let _ ← okOr "dirent vanished" (fs.dirRemove parentIno name)
      fs.dropLink ino node
      fs.syncBackups

/-- The loop of `rmdir_path`: whether the directory holds a name of its own. -/
def holdsName (data : Bytes) : Nat → Nat → Bool
  | 0, _ => false
  | fuel + 1, off =>
    if data.length < off + 8 then false
    else
      let ino := le32 data off
      let recLen := le16 data (off + 4)
      let nameLen := byte data (off + 6)
      if recLen = 0 then false
      else
        let name := slice data (off + 8) nameLen
        if ino ≠ 0 ∧ name ≠ dot ∧ name ≠ dotdot then true
        else holdsName data fuel (off + recLen)

def rmdirPath : M Unit := do
  let (parentIno, name) ← fs.resolveParent path
  match ← fs.lookup parentIno name with
  | none => .stop (.err "no such directory")
  | some ino => do
    let node ← fs.readInode ino
    if !isDir node.mode then .stop (.err "not a directory")
    else do
      let data ← fs.readFile node
      if holdsName data (data.length + 1) 0 then .stop (.err "directory not empty")
      else do
        let _ ← okOr "dirent vanished" (fs.dirRemove parentIno name)
        fs.freeAllBlocks node
        fs.freeInode ino true
        fs.bumpLinks parentIno (-1)
        fs.syncBackups

end Ext2

end Thos
