import Thos.Lib.Prog
import Thos.Pe.Image

/-!
# The PE loader

`Loader` and `load` of `pe.rs`: import tables are bound, and the DLLs that they name are
loaded from `C:\Windows\System32` on the way, each before its own imports are bound. A
function of the source is a program over the loader's state and the pages of the process.

`resolve_module`, `load_dll`, `bind_imports` and `resolve_export_idx` call each other. Here the
last three take what `resolve_module` does as an argument, and `resolveModule` ties the knot;
its first argument bounds how deep loads may nest in the model, and the loops that run until a
condition holds are given a number of steps. Both stop with `Stop.steps` when that does not
suffice.

Frames are taken to be there when they are asked for. A page has its contents where something
reads them: sections, headers, and the synthetic DLLs.
-/

set_option autoImplicit false

namespace Thos.Pe

open Thos.Lib

/-! ## Addresses -/

def ntStubBase : Nat := 0x7FF000000000

def ntStubStride : Nat := 16

def peDllArena : Nat := ntStubBase + 0x800000

def peDllArenaEnd : Nat := 0x7FF800000000

def peTebAddr : Nat := ntStubBase + 0x1000

def pePebAddr : Nat := ntStubBase + 0x2000

def peParamsAddr : Nat := ntStubBase + 0x3000

def peKernel32Addr : Nat := ntStubBase + 0x4000

def peNtdllAddr : Nat := ntStubBase + 0x5000

def peLdrdataAddr : Nat := ntStubBase + 0x6000

def peBootstrapAddr : Nat := ntStubBase + 0x7000

def peTlsAddr : Nat := ntStubBase + 0x8000

def peExcAddr : Nat := ntStubBase + 0x9000

def peKiuserAddr : Nat := ntStubBase + 0xA000

def peKiuserapcAddr : Nat := ntStubBase + 0xB000

def peThreadstartAddr : Nat := ntStubBase + 0xD000

def peMsvcrtAddr : Nat := ntStubBase + 0xE000

def peCrtAddr : Nat := ntStubBase + 0xF000

def peInittermAddr : Nat := ntStubBase + 0x10000

def peUser32Addr : Nat := ntStubBase + 0x11000

def peGdi32Addr : Nat := ntStubBase + 0x12000

def peCallbackReturnAddr : Nat := ntStubBase + 0x13000

def synthStubsOff : Nat := 0x180

def synthExpdirOff : Nat := 0x400

def maxDllDepth : Nat := 8

def maxTlsMods : Nat := 24

def tlsBlocksOff : Nat := 0x100

def maxFileLdrMods : Nat := 12

def ldrdataStrOff : Nat := 0x800

def bootstrapListOff : Nat := 0x400

def bootstrapEntryOff : Nat := 0x800

/-! ## State -/

structure LoadedModule where
  name : Bytes
  (base size entry : Nat)
  eat : List Export
  ordBase : Nat
  names : List (Bytes × Nat)
  isFile : Bool
  deriving DecidableEq

/-- A page of the process. -/
structure Page where
  va : Nat
  data : Bytes
  (writable exec : Bool)
  deriving DecidableEq

/-- `struct TlsBuild`; `used` says that there is a TLS page. -/
structure TlsBuild where
  used : Bool
  (nMods blkNext : Nat)
  deriving DecidableEq

/-- A module was asked for, by an import table or by a forwarder, while the imports of
`importer` (the executable, or a DLL) were bound. -/
structure Link where
  importer : Option Bytes
  target : Bytes
  forwarder : Bool
  deriving DecidableEq

/-- `struct Loader`, with the pages of the process. `links` is not in the source: it notes the
modules that were asked for. -/
structure Loader where
  arenaNext : Nat
  mods : List LoadedModule
  depth : Nat
  tls : TlsBuild
  tlsCbs : List (Nat × Nat)
  pages : List Page
  links : List Link
  deriving DecidableEq

/-- What is under `/Windows/System32`, and whether the file system can be mounted. -/
structure System32 where
  mounts : Bool
  file : Bytes → Option Bytes

/-- Why the loader stops; `steps` is of the model only. -/
inductive Stop
  | fault (f : Fault)
  | steps
  deriving DecidableEq

/-- A function of the loader. -/
abbrev LoadM (α : Type) : Type := Prog Loader Loader Stop α

/-- A computation on the bytes of a file. -/
def liftE {α : Type} : Except Fault α → LoadM α
  | .ok a => pure a
  | .error f => .stop (.fault f)

def getLoader : LoadM Loader := .read id

def modifyLoader (f : Loader → Loader) : LoadM Unit := .write f

def throwErr {α : Type} (msg : String) : LoadM α := .stop (.fault (.err msg))

def panicked {α : Type} : LoadM α := .stop (.fault .panic)

/-! ## The synthetic DLLs -/

def ntExports : List String :=
  ["ExitProcess", "GetStdHandle", "WriteFile", "GetLastError", "SetLastError", "CreateFileA",
    "ReadFile", "CloseHandle", "GetCommandLineA", "GetModuleHandleA", "VirtualAlloc",
    "VirtualFree", "VirtualProtect", "GetProcessHeap", "HeapAlloc", "HeapFree", "GetProcAddress",
    "LoadLibraryA", "CreateEventA", "WaitForSingleObject", "InitializeCriticalSection",
    "DeleteCriticalSection", "EnterCriticalSection", "LeaveCriticalSection", "TlsGetValue",
    "IsDBCSLeadByteEx", "MultiByteToWideChar", "WideCharToMultiByte",
    "SetUnhandledExceptionFilter", "VirtualQuery", "Sleep"]

def ntdllExports : List String :=
  ["NtClose", "NtWriteFile", "NtReadFile", "NtAllocateVirtualMemory", "NtFreeVirtualMemory",
    "NtProtectVirtualMemory", "NtTerminateProcess", "LdrGetProcedureAddress", "LdrLoadDll",
    "NtQueryInformationProcess", "NtQueryVirtualMemory", "NtSetInformationThread",
    "NtSetInformationProcess", "NtCreateEvent", "NtWaitForSingleObject", "NtSetEvent",
    "NtResetEvent", "NtContinue", "RtlAddVectoredExceptionHandler",
    "RtlRemoveVectoredExceptionHandler", "NtQueueApcThread", "NtTestAlert", "NtCreateKey",
    "NtOpenKey", "NtSetValueKey", "NtQueryValueKey", "NtDeleteKey", "NtCreateMutant",
    "NtReleaseMutant", "NtCreateSemaphore", "NtReleaseSemaphore", "NtWaitForMultipleObjects",
    "NtDelayExecution", "NtCreateThreadEx", "NtTerminateThread", "NtCreateSection",
    "NtMapViewOfSection", "NtEnumerateKey", "NtEnumerateValueKey", "NtUnmapViewOfSection",
    "NtFlushVirtualMemory", "NtCallbackReturn", "NtNotifyChangeKey"]

def msvcrtExports : List String :=
  ["memcpy", "memset", "strlen", "strncmp", "wcslen", "malloc", "calloc", "free", "exit", "abort",
    "_amsg_exit", "_cexit", "_initterm", "_onexit", "_lock", "_unlock", "__iob_func", "_errno",
    "__getmainargs", "__set_app_type", "__setusermatherr", "___lc_codepage_func",
    "___mb_cur_max_func", "localeconv", "signal", "strerror", "fwrite", "fputc", "fflush",
    "fprintf", "vfprintf", "__C_specific_handler", "_commode", "_fmode", "__initenv"]

def msvcrtDataExports : List Nat := [32, 33, 34]

def user32Exports : List String :=
  ["GetSystemMetrics", "GetDC", "ReleaseDC", "CallWindowProcA", "RegisterClassA",
    "CreateWindowExA", "ShowWindow", "UpdateWindow", "DefWindowProcA", "GetMessageA",
    "DispatchMessageA", "PostQuitMessage", "TranslateMessage", "PostMessageA"]

def gdi32Exports : List String :=
  ["GetStockObject", "CreateSolidBrush", "SelectObject", "SetPixel", "GetPixel", "Rectangle"]

/-- A module of the seed of `Loader::new`. -/
def synthModule (name : String) (base : Nat) (table : List String) : LoadedModule where
  name := ascii name
  base := base
  size := 0x1000
  entry := 0
  eat := (List.range table.length).map fun i => .addr (base + synthStubsOff + i * ntStubStride)
  ordBase := 1
  names := (table.zipIdx).foldl (fun names p => OrdMap.insert (ascii p.1) p.2 names) []
  isFile := false

/-- `_initterm` of `msvcrt` is a routine of its own. -/
def synthMsvcrt : LoadedModule :=
  let m := synthModule "msvcrt.dll" peMsvcrtAddr msvcrtExports
  { m with eat := m.eat.set 12 (.addr peInittermAddr) }

def synthModules : List LoadedModule :=
  [synthModule "kernel32.dll" peKernel32Addr ntExports,
    synthModule "ntdll.dll" peNtdllAddr ntdllExports,
    synthMsvcrt, synthModule "user32.dll" peUser32Addr user32Exports,
    synthModule "gdi32.dll" peGdi32Addr gdi32Exports]

/-- `Loader::new`, on the pages that the process has already. -/
def Loader.new (pages : List Page) : Loader where
  arenaNext := peDllArena
  mods := synthModules
  depth := 0
  tls := ⟨false, 0, tlsBlocksOff⟩
  tlsCbs := []
  pages := pages
  links := []

/-! ## Mapping -/

/-- Bits 47 to 63 are equal. -/
def canonical (va : Nat) : Prop := va < userEnd ∨ 2 ^ 64 - userEnd ≤ va

instance (va : Nat) : Decidable (canonical va) := inferInstanceAs (Decidable (_ ∨ _))

/-- `Process::map`: it panics on a page that is mapped or an address that is no address. -/
def mapPage (page : Page) : LoadM Unit := do
  let s ← getLoader
  if ¬ canonical page.va then panicked
  else if page.va ∈ s.pages.map Page.va then panicked
  else modifyLoader fun s => { s with pages := s.pages ++ [page] }

/-- One page of a segment. -/
def mapSegPage (img : Bytes) (vaddr imgOff fileSize : Nat) (exec : Bool) (k : Nat) :
    LoadM Unit := do
  let page := vaddr / 4096 * 4096 + 4096 * k
  let lo := max page vaddr
  let hi := min (page + 4096) (vaddr + fileSize)
  if lo < hi then
    match getRange img (imgOff + (lo - vaddr)) (hi - lo) with
    | none => throwErr "PE: image data out of range"
    | some chunk => mapPage ⟨page, splice (List.replicate 4096 0) (lo - page) chunk, true, exec⟩
  else mapPage ⟨page, List.replicate 4096 0, true, exec⟩

/-- The programs of a list, one after the other. -/
def forEach {α : Type} (f : α → LoadM Unit) : List α → LoadM Unit
  | [] => pure ()
  | a :: as => do
    f a
    forEach f as

def mapSeg (img : Bytes) (vaddr imgOff fileSize : Nat) (exec : Bool) : LoadM Unit :=
  let vend := vaddr + max fileSize 1
  if 2 ^ 64 ≤ vend then throwErr "PE: section vaddr overflow"
  else forEach (mapSegPage img vaddr imgOff fileSize exec)
    (List.range ((vend - vaddr / 4096 * 4096 + 4095) / 4096))

/-- The headers and the sections of an image. -/
def mapImage (staged : StagedImage) (img : Bytes) : LoadM Unit := do
  mapSeg img staged.loadBase 0 staged.hdrN false
  forEach
    (fun seg => mapSeg img (staged.loadBase + seg.rva) seg.rva seg.memSize seg.exec) staged.segs

/-! ## Static TLS -/

/-- The callbacks of a TLS directory, at most 64. -/
def tlsCallbacks (img : Bytes) : Nat → Nat → List Nat
  | 0, _ => []
  | n + 1, off =>
    match getRange img off 8 with
    | none => []
    | some b => if le64 b 0 = 0 then [] else le64 b 0 :: tlsCallbacks img n (off + 8)

/-- `tls_add_module`; it gives the image with the module's TLS index. -/
def tlsAddModule (base : Nat) (img : Bytes) (t : TlsInfo) : LoadM Bytes := do
  modifyLoader fun s => { s with tls := { s.tls with used := true } }
  let s ← getLoader
  if maxTlsMods ≤ s.tls.nMods then throwErr "PE: too many TLS modules"
  else if t.rawStartVa < base then throwErr "PE: TLS data before base"
  else if t.rawEndVa < t.rawStartVa then throwErr "PE: bad TLS range"
  else
    let rawLen := t.rawEndVa - t.rawStartVa
    let total := rawLen + t.zeroFill
    let blk := s.tls.blkNext
    -- `raw_len + zero_fill` and `blk + total` are 64-bit sums
    if 2 ^ 64 ≤ blk + total then panicked
    else if 4096 < blk + total then throwErr "PE: static TLS overflows its page"
    else if getRange img (t.rawStartVa - base) rawLen = none then
      throwErr "PE: TLS template out of range"
    else if t.indexPtrVa < base then throwErr "PE: TLS index ptr before base"
    else if getRange img (t.indexPtrVa - base) 4 = none then
      throwErr "PE: TLS index ptr out of range"
    else
      let img := splice img (t.indexPtrVa - base) (toLe32 s.tls.nMods)
      if t.callbacksVa ≠ 0 ∧ t.callbacksVa < base then throwErr "PE: TLS callbacks before base"
      else do
        let cbs := if t.callbacksVa = 0 then [] else tlsCallbacks img 64 (t.callbacksVa - base)
        modifyLoader fun s => { s with
          tls := { s.tls with nMods := s.tls.nMods + 1, blkNext := (blk + total + 15) / 16 * 16 }
          tlsCbs := s.tlsCbs ++ cbs.map fun fnva => (base, fnva) }
        pure img

/-- The TLS directory of an image, if it has one. -/
def addTls (staged : StagedImage) (img : Bytes) : LoadM Bytes :=
  match staged.tls with
  | some t => tlsAddModule staged.loadBase img t
  | none => pure img

/-! ## Exports -/

/-- `mods[midx]`. -/
def getModule (midx : Nat) : LoadM LoadedModule := do
  let s ← getLoader
  match s.mods[midx]? with
  | none => panicked
  | some m => pure m

def nameSlot (midx : Nat) (name : Bytes) : LoadM Nat := do
  let m ← getModule midx
  match OrdMap.get? name m.names with
  | none => throwErr "PE: name not exported"
  | some i => pure i

def ordinalSlot (midx ord : Nat) : LoadM Nat := do
  let m ← getModule midx
  if ord < m.ordBase then throwErr "PE: ordinal below Base" else pure (ord - m.ordBase)

/-- The slot that a forwarder names in the target module. -/
def forwardSlot (midx : Nat) (fn : Bytes) : LoadM Nat :=
  match fn with
  | 35 :: digits =>
    match parseU16 digits with
    | none => throwErr "PE: bad forwarder ordinal"
    | some ord => ordinalSlot midx ord
  | fn => nameSlot midx fn

section Resolver

-- `who` is the image whose imports are bound, for the notes
variable (resolve : Bytes → LoadM Nat) (who : Option Bytes)

/-- Finds a module, and notes that it was asked for. -/
def ask (dll : Bytes) (forwarder : Bool) : LoadM Nat := do
  let midx ← resolve dll
  modifyLoader fun s => { s with links := s.links ++ [⟨who, normalizeDllName dll, forwarder⟩] }
  pure midx

def resolveExportIdx : Nat → Nat → Nat → Nat → LoadM Nat
  | 0, _, _, _ => .stop .steps
  | n + 1, midx, i, depth =>
    if 8 < depth then throwErr "PE: forwarder chain too deep"
    else do
      let m ← getModule midx
      match m.eat[i]? with
      | none => throwErr "PE: ordinal out of range"
      | some (.addr a) => pure a
      | some .empty => throwErr "PE: empty export slot"
      | some (.forward target) =>
        match rsplitOnce 46 target with
        | none => throwErr "PE: bad forwarder"
        | some (dll, fn) => do
          let tmidx ← ask resolve who dll true
          let slot ← forwardSlot tmidx fn
          resolveExportIdx n tmidx slot (depth + 1)

def resolveExportName (midx : Nat) (name : Bytes) (depth : Nat) : LoadM Nat := do
  let slot ← nameSlot midx name
  resolveExportIdx resolve who 10 midx slot depth

def resolveExportOrdinal (midx ord depth : Nat) : LoadM Nat := do
  let slot ← ordinalSlot midx ord
  resolveExportIdx resolve who 10 midx slot depth

/-! ## Imports -/

/-- What one thunk is bound to. -/
def resolveThunk (img : Bytes) (midx thunk : Nat) : LoadM Nat :=
  if thunk.testBit 63 then resolveExportOrdinal resolve who midx (thunk % 65536) 0
  else do
    let func ← liftE (cstrAt img (thunk % 2 ^ 31 + 2))
    resolveExportName resolve who midx func 0

/-- The loop over the thunks of one DLL. -/
def bindThunks (size midx namesRva iatRva : Nat) : Nat → Nat → Bytes → LoadM Bytes
  | 0, _, _ => .stop .steps
  | n + 1, i, img =>
    let tOff := namesRva + i * 8
    let pOff := iatRva + i * 8
    if size < tOff + 8 ∨ img.length < tOff + 8 ∨ size < pOff + 8 ∨ img.length < pOff + 8 then
      throwErr "PE: import thunk out of range"
    else do
      let thunk := le64 (← liftE (index img tOff 8)) 0
      if thunk = 0 then pure img
      else do
        let addr ← resolveThunk resolve who img midx thunk
        let img ← liftE (copyAt img pOff (toLe64 addr))
        bindThunks size midx namesRva iatRva n (i + 1) img

/-- The loop over the import descriptors. -/
def bindDescriptors (size : Nat) : Nat → Nat → Bytes → LoadM Bytes
  | 0, _, _ => .stop .steps
  | n + 1, idt, img =>
    if size < idt + 20 ∨ img.length < idt + 20 then throwErr "PE: import table truncated"
    else do
      let iltRva := le32 (← liftE (index img idt 4)) 0
      let nameRva := le32 (← liftE (index img (idt + 12) 4)) 0
      let iatRva := le32 (← liftE (index img (idt + 16) 4)) 0
      if nameRva = 0 ∧ iatRva = 0 then pure img
      else do
        let dll ← liftE (cstrAt img nameRva)
        let midx ← ask resolve who dll false
        let namesRva := if iltRva ≠ 0 then iltRva else iatRva
        let img ← bindThunks resolve who size midx namesRva iatRva (size / 8 + 2) 0 img
        bindDescriptors size n (idt + 20) img

def bindImports (img : Bytes) (importRva size : Nat) : LoadM Bytes :=
  bindDescriptors resolve who size (size / 20 + 2) importRva img

/-- The imports of an image, if it has any. -/
def bindStaged (staged : StagedImage) : LoadM Bytes :=
  if staged.importSize ≠ 0 then
    bindImports resolve who staged.img staged.importRva staged.sizeOfImage
  else pure staged.img

/-- The imports and the TLS of an image, after which it is mapped. -/
def bindAndMap (staged : StagedImage) : LoadM Unit := do
  let img ← bindStaged resolve who staged
  let img ← addTls staged img
  mapImage staged img

end Resolver

/-! ## DLLs -/

def arenaAlloc (sizeOfImage : Nat) : LoadM Nat := do
  let s ← getLoader
  let fin := s.arenaNext + (sizeOfImage + 0xFFFF) / 0x10000 * 0x10000
  if fin < peDllArenaEnd then do
    modifyLoader fun s => { s with arenaNext := fin }
    pure s.arenaNext
  else throwErr "PE: DLL arena exhausted"

/-- The module that a staged DLL is registered as. -/
def fileModule (name : Bytes) (base : Nat) (staged : StagedImage) (table : ExportTable) :
    LoadedModule where
  name := name
  base := base
  size := staged.sizeOfImage
  entry := if staged.entry ≠ base then staged.entry else 0
  eat := table.eat
  ordBase := table.ordBase
  names := table.names
  isFile := true

/-- `load_dll`: the module is registered before its imports are bound. -/
def loadDll (resolve : Bytes → LoadM Nat) (name bytes : Bytes) : LoadM Nat := do
  let base ← arenaAlloc (← liftE (peekSizeOfImage bytes))
  let staged ← liftE (stageImage bytes (some base))
  let table ← liftE (parseExportTable staged.img base staged.exportRva staged.exportSize)
  let s ← getLoader
  modifyLoader fun s => { s with mods := s.mods ++ [fileModule name base staged table] }
  bindAndMap resolve (some name) staged
  pure s.mods.length

/-- `resolve_module`. An error goes up to `load`, which drops the loader. -/
def resolveModule (sys : System32) : Nat → Bytes → LoadM Nat
  | 0, _ => .stop .steps
  | n + 1, rawName => do
    let name := normalizeDllName rawName
    let s ← getLoader
    match s.mods.findIdx? fun m => m.name = name with
    | some i => pure i
    | none =>
      if maxDllDepth ≤ s.depth then throwErr "PE: DLL dependency chain too deep"
      else if sys.mounts = false then throwErr "PE: cannot mount fs for DLL load"
      else
        match sys.file name with
        | none => throwErr "PE: DLL not found in System32"
        | some bytes => do
          modifyLoader fun s => { s with depth := s.depth + 1 }
          let idx ← loadDll (resolveModule sys n) name bytes
          modifyLoader fun s => { s with depth := s.depth - 1 }
          pure idx

end Thos.Pe
