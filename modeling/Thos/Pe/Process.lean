import Thos.Pe.Loader

/-!
# A PE process

`load` of `pe.rs`: the executable is staged, bound and mapped, then the pages that every PE
process has, and last the page that runs the entry points of the DLLs.
-/

set_option autoImplicit false

namespace Thos.Pe

open Thos.Lib

/-! ## The pages of the synthetic DLLs -/

/-- The selector of the first NT call. -/
def ntBase : Nat := 0x4E540000

/-- `mov eax, sel; mov r10, rcx; syscall; ret`. -/
def synthStub (sel : Nat) : Bytes := [0xB8] ++ toLe32 sel ++ [0x49, 0x89, 0xCA, 0x0F, 0x05, 0xC3]

/-- One export: its slot, its name, and the ordinal of the name. -/
def synthExport (eat enpt ords : Nat) (st : Bytes × Nat) (e : String × Nat) :
    Except Fault (Bytes × Nat) := do
  let (page, cur) := st
  let page ← copyAt page (eat + e.2 * 4) (toLe32 (synthStubsOff + e.2 * ntStubStride))
  let page ← copyAt page (enpt + e.2 * 4) (toLe32 cur)
  let page ← copyAt page (ords + e.2 * 2) (toLe16 e.2)
  let page ← copyAt page cur (ascii e.1)
  .ok (page, cur + (ascii e.1).length + 1)

/-- The page that `map_synth_dll` maps. -/
def synthPage (imageBase : Nat) (dllName : String) (table : List String) (selFlag : Nat)
    (dataExports : List Nat) : Except Fault Bytes := do
  let page ← copyAt (List.replicate 4096 0) 0 (ascii "MZ")
  let page ← copyAt page 0x3C (toLe32 0x40)
  let page ← copyAt page 0x40 (ascii "PE" ++ [0, 0])
  let coff := 0x44
  let page ← copyAt page coff (toLe16 0x8664)
  let page ← copyAt page (coff + 2) (toLe16 0)
  let page ← copyAt page (coff + 16) (toLe16 0xF0)
  let page ← copyAt page (coff + 18) (toLe16 0x2022)
  let opt := coff + 20
  let page ← copyAt page opt (toLe16 0x20B)
  let page ← copyAt page (opt + 24) (toLe64 imageBase)
  let page ← copyAt page (opt + 32) (toLe32 0x1000)
  let page ← copyAt page (opt + 36) (toLe32 0x200)
  let page ← copyAt page (opt + 56) (toLe32 0x1000)
  let page ← copyAt page (opt + 60) (toLe32 0x200)
  let page ← copyAt page (opt + 68) (toLe16 3)
  let page ← copyAt page (opt + 108) (toLe32 16)
  let n := table.length
  let page ← (List.range n).foldlM (fun page idx =>
    if idx ∈ dataExports then .ok page
    else copyAt page (synthStubsOff + idx * ntStubStride)
      (synthStub (ntBase ||| selFlag ||| idx))) page
  let expdir := synthExpdirOff
  let eat := expdir + 0x28
  let enpt := eat + n * 4
  let ords := enpt + n * 4
  let nameRva := ords + n * 2
  let page ← copyAt page nameRva (ascii dllName)
  let (page, cur) ← table.zipIdx.foldlM (synthExport eat enpt ords)
    (page, nameRva + (ascii dllName).length + 1)
  if 4096 < cur then fail "PE: synthetic DLL overflows its page"
  else do
    let page ← copyAt page (expdir + 0x0C) (toLe32 nameRva)
    let page ← copyAt page (expdir + 0x10) (toLe32 1)
    let page ← copyAt page (expdir + 0x14) (toLe32 n)
    let page ← copyAt page (expdir + 0x18) (toLe32 n)
    let page ← copyAt page (expdir + 0x1C) (toLe32 eat)
    let page ← copyAt page (expdir + 0x20) (toLe32 enpt)
    let page ← copyAt page (expdir + 0x24) (toLe32 ords)
    let page ← copyAt page (opt + 112) (toLe32 expdir)
    copyAt page (opt + 116) (toLe32 (cur - expdir))

def mapSynthDll (imageBase : Nat) (dllName : String) (table : List String) (selFlag : Nat)
    (dataExports : List Nat) : LoadM Unit := do
  let page ← liftE (synthPage imageBase dllName table selFlag dataExports)
  mapPage ⟨imageBase, page, !dataExports.isEmpty, true⟩

/-! ## Pages of every process -/

/-- A page of code or data that nothing here reads. -/
def otherPage (va : Nat) (writable exec : Bool) : Page :=
  ⟨va, List.replicate 4096 0, writable, exec⟩

/-- The pages from `map_kernel32_page` to `map_thread_start_page`. -/
def mapSystemPages : LoadM Unit := do
  mapSynthDll peKernel32Addr "KERNEL32.DLL" ntExports 0 []
  mapSynthDll peNtdllAddr "NTDLL.DLL" ntdllExports 0x8000 []
  mapSynthDll peMsvcrtAddr "msvcrt.dll" msvcrtExports 0x4000 msvcrtDataExports
  mapSynthDll peUser32Addr "USER32.DLL" user32Exports 0x2000 []
  mapSynthDll peGdi32Addr "GDI32.DLL" gdi32Exports 0x1000 []
  mapPage (otherPage peCallbackReturnAddr false true)
  mapPage (otherPage peCrtAddr true false)
  mapPage (otherPage peInittermAddr false true)
  mapPage (otherPage peExcAddr true false)
  mapPage (otherPage peKiuserAddr false true)
  mapPage (otherPage peKiuserapcAddr false true)
  mapPage (otherPage peThreadstartAddr false true)

/-- The number of UTF-16 units of a UTF-8 string. -/
def utf16Len (s : Bytes) : Nat :=
  s.countP (fun b => b < 0x80 ∨ 0xC0 ≤ b) + s.countP fun b => 0xF0 ≤ b

/-- A UTF-16 string goes into the back half of the page of DLL entries; the next free offset. -/
def wput (scur : Nat) (s : Bytes) : Except Fault Nat :=
  let n := 2 * utf16Len s
  if scur + n + 2 ≤ 4096 then .ok ((scur + n + 2 + 1) / 2 * 2) else .error .panic

/-- The names of one DLL. -/
def wputModule (scur : Nat) (m : LoadedModule) : Except Fault Nat := do
  let scur ← wput scur (ascii "C:\\Windows\\System32\\" ++ m.name)
  wput scur m.name

/-- The thread block: the stack, the block itself, the TLS array, and the process block. -/
def tebPage (stackTop tlsPtr : Nat) : Bytes :=
  let t := List.replicate 4096 0
  let t := splice t 0x08 (toLe64 stackTop)
  let t := splice t 0x10 (toLe64 (stackTop - 64 * 1024))
  let t := splice t 0x30 (toLe64 peTebAddr)
  let t := splice t 0x58 (toLe64 tlsPtr)
  splice t 0x60 (toLe64 pePebAddr)

/-- `map_teb_peb`, but for what stands in the pages of the process parameters and of the module
entries. -/
def mapTebPeb (stackTop : Nat) (fileMods : List LoadedModule) (tlsPtr : Nat) : LoadM Unit := do
  mapPage ⟨peTebAddr, tebPage stackTop tlsPtr, true, false⟩
  mapPage (otherPage pePebAddr true false)
  mapPage (otherPage peParamsAddr true false)
  if (fileMods.take maxFileLdrMods).isEmpty then pure ()
  else do
    let _ ← liftE ((fileMods.take maxFileLdrMods).foldlM wputModule ldrdataStrOff)
    mapPage (otherPage peLdrdataAddr true false)

/-! ## The entry points of the DLLs -/

/-- The DLLs whose entry points are called, in order: the last registered is first. -/
def dllMains (s : Loader) : List LoadedModule :=
  (s.mods.filter LoadedModule.isFile).reverse.filter fun m => m.entry ≠ 0

/-- The list of the bootstrap page: TLS callbacks, then the entry points of the DLLs. -/
def initList (s : Loader) : List (Nat × Nat) :=
  s.tlsCbs ++ (dllMains s).map fun m => (m.base, m.entry)

/-- The list and the entry point of the executable as the bootstrap code reads them. -/
def bootstrapPage (init : List (Nat × Nat)) (exeEntry : Nat) : Bytes :=
  let page := splice (List.replicate 4096 0) bootstrapListOff
    (init.flatMap fun p => toLe64 p.1 ++ toLe64 p.2)
  splice page bootstrapEntryOff (toLe64 exeEntry)

def mapBootstrap (init : List (Nat × Nat)) (exeEntry : Nat) : LoadM Unit :=
  -- the pairs are written before their number is checked
  if 4096 < bootstrapListOff + 16 * init.length then panicked
  else if bootstrapEntryOff < bootstrapListOff + 16 * init.length + 16 then
    throwErr "PE: too many init routines for the bootstrap page"
  else mapPage ⟨peBootstrapAddr, bootstrapPage init exeEntry, false, true⟩

/-! ## Loading -/

structure PeImage where
  (entry teb base size : Nat)
  deriving DecidableEq

/-- The rest of `load`, once the executable is mapped. -/
def finishLoad (staged : StagedImage) (stackTop : Nat) : LoadM PeImage := do
  mapSystemPages
  let s ← getLoader
  .when s.tls.used (mapPage (otherPage peTlsAddr true false))
  mapTebPeb stackTop (s.mods.filter LoadedModule.isFile) (if s.tls.used then peTlsAddr else 0)
  if initList s = [] then pure ⟨staged.entry, peTebAddr, staged.loadBase, staged.sizeOfImage⟩
  else do
    mapBootstrap (initList s) staged.entry
    pure ⟨peBootstrapAddr, peTebAddr, staged.loadBase, staged.sizeOfImage⟩

/-- `load` on a loader that is new; `steps` bounds how deep loads may nest in the model. -/
def load (sys : System32) (steps : Nat) (file : Bytes) (stackTop : Nat) : LoadM PeImage := do
  let staged ← liftE (stageImage file none)
  bindAndMap (resolveModule sys steps) none staged
  finishLoad staged stackTop

end Thos.Pe
