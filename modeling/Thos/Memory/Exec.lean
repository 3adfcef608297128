import Thos.Memory.Elf

/-!
# Starting an image

`execve` and `spawn_elevated` load an ELF file into a new address space, map a stack of 64 KiB and
lay out the arguments at its top. `execve` panics on a file that `elf::load` rejects, nothing
compares the size of the arguments with that of the stack, and nothing looks at the entry point.
-/

set_option autoImplicit false

namespace Thos.Memory

open Thos.Lib List Space Yields Settles Elf

/-! ## The stack -/

namespace Space

/-- The content of a page of the stack. -/
def blank (_ : Nat) : Checked ElfError Bytes := .ok zeroPage

variable (s : Space)

/-- `new_user_stack`, with the top of the stack. -/
def newUserStack : Checked ElfError (Space × Nat) := do
  let base := s.nextUserVa
  let s := { s with nextUserVa := (base + (userStackSize + 0x1000)) % 2 ^ 64 }
  let s ← s.mapPages blank false (pagesUpTo base (base + userStackSize))
  return (s, base + userStackSize)

/-- `translate`, for an address of the user half, with the panic of `write_user`. -/
def translate (virt : Nat) : Checked ElfError UserPage :=
  match s.pages (pageOf virt) with
  | some page => .ok page
  | none => .error .fault

/-- The loop of `write_user`; a round writes at least one byte. -/
def writeLoop : Nat → Space → Nat → Bytes → Checked ElfError Space
  | 0, s, _, _ => .ok s
  | fuel + 1, s, virt, data =>
    if data.isEmpty then .ok s
    else do
      let page ← s.translate virt
      let off := virt % 4096
      let n := min (4096 - off) data.length
      let content ← copyFrom page.content off n (data.take n)
      writeLoop fuel (s.setPage (pageOf virt) { page with content }) (virt + n) (data.drop n)

def writeUser (virt : Nat) (data : Bytes) : Checked ElfError Space :=
  writeLoop data.length s virt data

/-- `push` of `init_stack`. -/
def push (bytes : Bytes) (cur : Nat) : Checked ElfError (Space × Nat) := do
  let cur ← checkedSub cur bytes.length
  let s ← s.writeUser cur bytes
  return (s, cur)

/-- Push strings with their terminating zeros, and collect where they are. -/
def pushStrings (s : Space) : List Bytes → Nat → List Nat →
    Checked ElfError (Space × Nat × List Nat)
  | [], cur, ptrs => .ok (s, cur, ptrs)
  | str :: strs, cur, ptrs => do
    let r ← s.push (str ++ [0]) cur
    r.1.pushStrings strs r.2 (ptrs ++ [r.2])

/-- The auxiliary vector. -/
def auxv (img : Image) (randAddr execfn : Nat) : List (Nat × Nat) :=
  [(3, img.phdr), (4, img.phent), (5, img.phnum), (6, 4096), (9, img.entry), (25, randAddr),
    (31, execfn), (0, 0)]

/-- The words of the block: `argc`, the pointers with a zero after each list, and the pairs of the
auxiliary vector. -/
def blockWords (argc : Nat) (argPtrs envPtrs : List Nat) (aux : List (Nat × Nat)) : List Nat :=
  [argc] ++ argPtrs ++ [0] ++ envPtrs ++ [0] ++ aux.flatMap fun p => [p.1, p.2]

/-- The block of words below the strings, aligned to 16 bytes. -/
def pushBlock (cur : Nat) (words : List Nat) : Checked ElfError (Space × Nat) := do
  let blockBytes := words.length * 8
  let below ← checkedSub cur blockBytes
  let cur ← checkedSub cur (below % 16)
  let rsp ← checkedSub cur blockBytes
  let s ← s.writeUser rsp (words.flatMap toLe64)
  return (s, rsp)

/-- `init_stack`, with the initial `rsp`. -/
def initStack (stackTop : Nat) (argv envp : List Bytes) (img : Image) :
    Checked ElfError (Space × Nat) := do
  let rand ← s.push (List.replicate 16 0x5A) stackTop
  let args ← rand.1.pushStrings argv rand.2 []
  let envs ← args.1.pushStrings envp args.2.1 []
  let aux := auxv img rand.2 (args.2.2.headD 0)
  envs.1.pushBlock envs.2.1 (blockWords argv.length args.2.2 envs.2.2 aux)

end Space

/-! ## Starting -/

/-- The verdict of the native-exec gate. -/
inductive Verdict
  | allow
  | quarantine
  deriving DecidableEq

/-- How `execve` ends: the calling task ends, or it runs the new image. -/
inductive Started
  | exited (status : Nat)
  | running (space : Space) (entry rsp : Nat)

variable (kernel : Nat → Bool)

/-- The `iretq` of `thos_user_resume` and `thos_user_thread_start`. To an address that is not
canonical it is a general protection fault in ring 0, on which the kernel halts. -/
def enterUser (space : Space) (entry rsp : Nat) : Checked ElfError Started :=
  if canonical entry then .ok (.running space entry rsp) else .error .fault

/-- The new address space with the image, the stack and the arguments, up to the first instruction
of the image. -/
def startImage (bytes : Bytes) (argv envp : List Bytes) : Checked ElfError Started := do
  let r ← load (.new kernel) bytes
  let stack ← r.1.newUserStack
  let init ← stack.1.initStack stack.2 argv envp r.2
  enterUser init.1 r.2.entry init.2

/-- `execve`: an error of `elf::load` is a panic. -/
def execve (gate : Verdict) (bytes : Bytes) (argv envp : List Bytes) : Checked ElfError Started :=
  match gate with
  | .quarantine => .ok (.exited 126)
  | .allow =>
    match startImage kernel bytes argv envp with
    | .ok started => .ok started
    | .error _ => .error .fault

def spawnElevated (gate : Verdict) (bytes : Bytes) (argv envp : List Bytes) :
    Checked ElfError Started :=
  match gate with
  | .quarantine => .error (.err .quarantined)
  | .allow => startImage kernel bytes argv envp

/-! ## What the arguments need -/

/-- The address is on one of the pages. -/
def OnPages (as : List Nat) (a : Nat) : Prop := pageOf a ∈ as.map pageOf

/-- The bytes of the strings, with their terminating zeros. -/
def stringsSize (strs : List Bytes) : Nat := (strs.map fun str => str.length + 1).sum

/-- The bytes of `AT_RANDOM` and the strings. -/
def textSize (argv envp : List Bytes) : Nat := 16 + stringsSize argv + stringsSize envp

/-- The bytes of the block of `argc`, the pointers and the auxiliary vector. -/
def blockSize (argv envp : List Bytes) : Nat := (19 + argv.length + envp.length) * 8

/-- Every byte of the arguments is on one of the pages `as`, below `top`. -/
structure ArgsFit (as : List Nat) (top : Nat) (argv envp : List Bytes) : Prop where
  size : textSize argv envp + blockSize argv envp ≤ top
  text : ∀ a, top - textSize argv envp ≤ a → a < top → OnPages as a
  block : let rsp := (top - textSize argv envp - blockSize argv envp) / 16 * 16
    ∀ a, rsp ≤ a → a < rsp + blockSize argv envp → OnPages as a

section

variable {kernel : Nat → Bool} {va : Nat} {as : List Nat} {s : Space}

theorem onPages_congr {a b : Nat} (h : a / 4096 = b / 4096) : OnPages as a ↔ OnPages as b := by
  rw [OnPages, OnPages, pageOf, pageOf, h]

section

variable (h : s.Holds kernel va as)
include h

theorem Space.Holds.translate (virt : Nat) :
    Settles (s.translate virt) (OnPages as virt) fun page =>
      s.pages (pageOf virt) = some page ∧ page.content.length = 4096 := by
  rw [Space.translate, OnPages, ← h.pages]
  cases hpage : s.pages (pageOf virt) with
  | none => exact ⟨nofun, fun _ => rfl⟩
  | some page => exact ⟨fun _ => ⟨page, rfl, rfl, h.full _ _ hpage⟩, fun hC => absurd rfl hC⟩

theorem Space.Holds.rewrite {virt : Nat} (hvirt : OnPages as virt) (page : UserPage)
    (hpage : page.content.length = 4096) : (s.setPage (pageOf virt) page).Holds kernel va as := by
  refine h.setPage hpage fun u => ⟨.inr, ?_⟩
  rintro (rfl | hu)
  · exact hvirt
  · exact hu

theorem Space.Holds.writeLoop {fuel : Nat} (virt : Nat) (data : Bytes)
    (hfuel : data.length ≤ fuel) : Settles (writeLoop fuel s virt data)
      (∀ a, virt ≤ a → a < virt + data.length → OnPages as a) fun s' => s'.Holds kernel va as := by
  induction fuel generalizing s virt data with
  | zero => exact (settles ⟨s, rfl, h⟩).congr (iff_of_true trivial fun a ha ha' => by omega)
  | succ fuel ih =>
    rw [writeLoop]
    by_cases hdata : data.isEmpty
    · rw [if_pos hdata]
      have hlen : data.length = 0 := by simpa using hdata
      exact (settles ⟨s, rfl, h⟩).congr (iff_of_true trivial fun a ha ha' => by omega)
    · rw [if_neg hdata]
      dsimp only
      have hlen : 0 < data.length := by simpa [length_pos_iff] using hdata
      -- one round writes to the end of the page, or to the end of the data
      generalize hn : min (4096 - virt % 4096) data.length = n
      have hwrite : ∀ page : UserPage, page.content.length = 4096 →
          Yields (copyFrom page.content (virt % 4096) n (data.take n) : Checked ElfError Bytes)
            fun bytes => bytes.length = 4096 := by
        intro page hpage
        refine (yields_copyFrom ?_ ?_).mono fun bytes hbytes => hbytes.trans hpage
        · omega
        · rw [length_take]
          omega
      refine congr ((h.translate virt).bind fun hvirt page hpage =>
        (hwrite page hpage.2).settles.bind fun _ bytes hbytes =>
          ih (h.rewrite hvirt { page with content := bytes } hbytes) (virt + n)
            (data.drop n) (by rw [length_drop]; omega)) ?_
      rw [length_drop]
      constructor
      · rintro ⟨hvirt, -, hrest⟩ a ha ha'
        rcases lt_or_ge a (virt + n) with hlt | hge
        · exact (onPages_congr (by omega)).1 hvirt
        · exact hrest a hge (by omega)
      · intro hall
        exact ⟨hall virt (le_rfl) (by omega), trivial, fun a ha ha' => hall a (by omega) (by omega)⟩

theorem Space.Holds.writeUser (virt : Nat) (data : Bytes) :
    Settles (s.writeUser virt data) (∀ a, virt ≤ a → a < virt + data.length → OnPages as a)
      fun s' => s'.Holds kernel va as :=
  h.writeLoop virt data (le_rfl)

theorem Space.Holds.push (bytes : Bytes) (cur : Nat) : Settles (s.push bytes cur)
      (bytes.length ≤ cur ∧ ∀ a, cur - bytes.length ≤ a → a < cur → OnPages as a)
      fun r => r.1.Holds kernel va as ∧ r.2 = cur - bytes.length := by
  refine congr ((settles_sub cur bytes.length).bind_eq fun _ =>
    (h.writeUser (cur - bytes.length) bytes).bind fun _ s' hs' =>
      settles (yields_pure ⟨hs', rfl⟩)) ?_
  rw [and_true]
  constructor
  · rintro ⟨hle, hall⟩
    exact ⟨hle, fun a ha ha' => hall a ha (by omega)⟩
  · rintro ⟨hle, hall⟩
    exact ⟨hle, fun a ha ha' => hall a ha (by omega)⟩

theorem Space.Holds.pushStrings (strs : List Bytes) (cur : Nat) (ptrs : List Nat) :
    Settles (s.pushStrings strs cur ptrs)
      (stringsSize strs ≤ cur ∧ ∀ a, cur - stringsSize strs ≤ a → a < cur → OnPages as a)
      fun r => r.1.Holds kernel va as ∧ r.2.1 = cur - stringsSize strs ∧
        r.2.2.length = ptrs.length + strs.length := by
  induction strs generalizing s cur ptrs with
  | nil =>
    exact (settles ⟨_, rfl, h, rfl, rfl⟩).congr
      (iff_of_true trivial ⟨Nat.zero_le _, fun a ha ha' => by
        rw [stringsSize] at ha
        simp at ha
        omega⟩)
  | cons str strs ih =>
    have hsize : stringsSize (str :: strs) = (str ++ [0]).length + stringsSize strs := by
      simp [stringsSize]
    rw [pushStrings, hsize]
    generalize hlen : (str ++ [0]).length = len
    have hpush := h.push (str ++ [0]) cur
    rw [hlen] at hpush
    refine (congr (hpush.bind fun _ r hr => by
      rw [hr.2]
      exact ih hr.1 (cur - len) (ptrs ++ [cur - len])) ?_).mono fun r hr => ?_
    · constructor
      · rintro ⟨⟨hle, hpages⟩, hle', hpages'⟩
        refine ⟨by omega, fun a ha ha' => ?_⟩
        rcases Nat.lt_or_ge a (cur - len) with hlt | hge
        · exact hpages' a (by omega) hlt
        · exact hpages a hge ha'
      · rintro ⟨hle, hpages⟩
        exact ⟨⟨by omega, fun a ha ha' => hpages a (by omega) ha'⟩, by omega,
          fun a ha ha' => hpages a (by omega) (by omega)⟩
    · obtain ⟨hs', hcur, hptrs⟩ := hr
      refine ⟨hs', by omega, ?_⟩
      rw [hptrs, length_append, length_singleton, length_cons]
      omega

end

theorem length_flatMap_toLe64 (xs : List Nat) : (xs.flatMap toLe64).length = xs.length * 8 := by
  induction xs with
  | nil => rfl
  | cons x xs ih =>
    rw [flatMap_cons, length_append, ih, length_cons]
    show 8 + _ = _
    omega

theorem Space.Holds.pushBlock (h : s.Holds kernel va as) (cur : Nat) (words : List Nat) :
    Settles (s.pushBlock cur words) (words.length * 8 ≤ cur ∧
        ∀ a, (cur - words.length * 8) / 16 * 16 ≤ a →
          a < (cur - words.length * 8) / 16 * 16 + words.length * 8 → OnPages as a)
      fun _ => True := by
  generalize hsize : words.length * 8 = size
  have hlen : (words.flatMap toLe64).length = size := by rw [length_flatMap_toLe64, hsize]
  have hrsp : cur - (cur - size) % 16 - size = (cur - size) / 16 * 16 := by omega
  have hwrite := h.writeUser ((cur - size) / 16 * 16) (words.flatMap toLe64)
  rw [hlen] at hwrite
  rw [Space.pushBlock, hsize]
  refine congr ((settles_sub cur size).bind_eq fun _ =>
    (settles_sub cur ((cur - size) % 16)).bind_eq fun _ =>
    (settles_sub (cur - (cur - size) % 16) size).bind_eq fun _ => by
      rw [hrsp]
      exact hwrite.bind fun _ s' _ => settles (yields_pure trivial)) ?_
  constructor
  · rintro ⟨hle, -, -, hpages, -⟩
    exact ⟨hle, hpages⟩
  · rintro ⟨hle, hpages⟩
    exact ⟨hle, by omega, by omega, hpages, trivial⟩

theorem length_blockWords {argv envp : List Bytes} {argPtrs envPtrs : List Nat}
    (hargs : argPtrs.length = argv.length) (henvs : envPtrs.length = envp.length) (argc : Nat)
    (img : Image) (randAddr execfn : Nat) :
    (blockWords argc argPtrs envPtrs (auxv img randAddr execfn)).length * 8 =
      blockSize argv envp := by
  simp only [blockWords, auxv, blockSize, length_append, length_cons,
    length_nil, flatMap_cons, flatMap_nil, hargs, henvs]
  omega

theorem Space.Holds.initStack (h : s.Holds kernel va as) (top : Nat) (argv envp : List Bytes)
    (img : Image) :
    Settles (s.initStack top argv envp img) (ArgsFit as top argv envp) fun _ => True := by
  have hrandom := h.push (List.replicate 16 0x5A) top
  rw [length_replicate] at hrandom
  refine congr (hrandom.bind fun _ rand hrand => by
    obtain ⟨s₁, cur₁⟩ := rand
    obtain ⟨hs₁, rfl⟩ := hrand
    exact (hs₁.pushStrings argv (top - 16) []).bind fun _ args hargs => by
      obtain ⟨s₂, cur₂, argPtrs⟩ := args
      obtain ⟨hs₂, rfl, hargPtrs⟩ := hargs
      exact (hs₂.pushStrings envp (top - 16 - stringsSize argv) []).bind fun _ envs henvs => by
        obtain ⟨s₃, cur₃, envPtrs⟩ := envs
        obtain ⟨hs₃, rfl, henvPtrs⟩ := henvs
        have hblock := hs₃.pushBlock (top - 16 - stringsSize argv - stringsSize envp)
          (blockWords argv.length argPtrs envPtrs
            (auxv img (top - 16) (argPtrs.headD 0)))
        rw [length_blockWords (by simpa using hargPtrs) (by simpa using henvPtrs)] at hblock
        exact hblock) ?_
  have htext : top - 16 - stringsSize argv - stringsSize envp = top - textSize argv envp := by
    rw [textSize]
    omega
  rw [htext]
  constructor
  · rintro ⟨⟨hrand, hrandPages⟩, ⟨hargs, hargPages⟩, ⟨henvs, henvPages⟩, hblock, hblockPages⟩
    refine ⟨by rw [textSize] at *; omega, fun a ha ha' => ?_, hblockPages⟩
    rcases lt_or_ge a (top - 16 - stringsSize argv) with hlt | hge
    · exact henvPages a (htext ▸ ha) hlt
    · rcases lt_or_ge a (top - 16) with hlt' | hge'
      · exact hargPages a hge hlt'
      · exact hrandPages a hge' ha'
  · intro hfit
    have hsize := hfit.size
    have htextPages := hfit.text
    rw [textSize] at hsize htextPages
    exact ⟨⟨by omega, fun a ha ha' => htextPages a (by omega) ha'⟩,
      ⟨by omega, fun a ha ha' => htextPages a (by omega) (by omega)⟩,
      ⟨by omega, fun a ha ha' => htextPages a (by omega) (by omega)⟩,
      by rw [textSize]; omega, hfit.block⟩

/-! ## Starting an image -/

/-- The pages of the stack of a new address space, and its top. -/
def firstStack : List Nat := pagesUpTo userAllocBase (userAllocBase + userStackSize)

def firstTop : Nat := userAllocBase + userStackSize

theorem Space.Holds.newUserStack (h : s.Holds kernel userAllocBase as) (has : Placed kernel as) :
    Settles s.newUserStack (Placed kernel (as ++ firstStack)) fun r =>
      (∃ va, r.1.Holds kernel va (as ++ firstStack)) ∧ r.2 = firstTop := by
  have hreserved : ({ s with nextUserVa :=
      (s.nextUserVa + (userStackSize + 0x1000)) % 2 ^ 64 } : Space).Holds kernel _ as :=
    ⟨h.kernel, rfl, h.pages, h.full⟩
  have hblank : ∀ a, Settles (Space.blank a) True fun bytes => bytes.length = 4096 :=
    fun _ => settles ⟨_, rfl, length_replicate⟩
  have hmap := hreserved.mapPages has hblank false firstStack
  rw [Space.newUserStack, h.va] at *
  refine congr (hmap.bind fun _ s' hs' => settles (yields_pure ⟨⟨_, hs'⟩, rfl⟩)) ?_
  simp

/-- The image can be started with these arguments. -/
structure Startable (kernel : Nat → Bool) (bytes : Bytes) (argv envp : List Bytes) : Prop where
  accepted : Elf.Accepted bytes
  headers : ∀ i < phnum bytes, Elf.HeaderFits bytes i
  placed : Placed kernel ((ofBytes bytes).addresses ++ firstStack)
  args : ArgsFit ((ofBytes bytes).addresses ++ firstStack) firstTop argv envp
  entry : canonical (le64 bytes 24)

theorem enterUser_settles (space : Space) (entry rsp : Nat) :
    Settles (enterUser space entry rsp) (canonical entry) fun _ => True where
  yields h := ⟨_, if_pos h, trivial⟩
  faults h := if_neg h

theorem startImage_settles {bytes : Bytes} (h : Elf.Accepted bytes) (kernel : Nat → Bool)
    (argv envp : List Bytes) :
    Settles (startImage kernel bytes argv envp) (Startable kernel bytes argv envp)
      fun _ => True := by
  refine congr ((load_settles h kernel).bind fun hload r hr =>
    (hr.1.newUserStack hload.placed).bind fun _ stack hstack => by
      obtain ⟨⟨va, hs⟩, htop⟩ := hstack
      rw [htop, hr.2]
      exact (hs.initStack firstTop argv envp r.2).bind fun _ init _ => enterUser_settles ..) ?_
  constructor
  · rintro ⟨hload, hplaced, hargs, hentry⟩
    exact ⟨h, hload.headers, hplaced, hargs, hentry⟩
  · intro hstart
    exact ⟨⟨hstart.headers, hstart.placed.left⟩, hstart.placed, hstart.args, hstart.entry⟩

/-- No panic: `elf::load` returns, and `execve` and `spawn_elevated` start the image, report an
error or end the calling task. -/
structure NeverPanics (kernel : Nat → Bool) (gate : Verdict) (bytes : Bytes)
    (argv envp : List Bytes) : Prop where
  load : load (.new kernel) bytes ≠ .error .fault
  execve : execve kernel gate bytes argv envp ≠ .error .fault
  elevated : spawnElevated kernel gate bytes argv envp ≠ .error .fault

theorem startImage_of_not_accepted {bytes : Bytes} (h : ¬ Elf.Accepted bytes) (kernel : Nat → Bool)
    (argv envp : List Bytes) : ∃ e, startImage kernel bytes argv envp = .error (.err e) := by
  obtain ⟨e, he⟩ := load_of_not_accepted h (.new kernel)
  refine ⟨e, ?_⟩
  rw [startImage, he]
  rfl

theorem load_ne_fault_iff (kernel : Nat → Bool) (bytes : Bytes) :
    load (.new kernel) bytes ≠ .error .fault ↔
      (Elf.Accepted bytes → Elf.Loadable kernel bytes) := by
  by_cases h : Elf.Accepted bytes
  · rw [(load_settles h kernel).ne_fault_iff, imp_iff_right h]
  · obtain ⟨e, he⟩ := load_of_not_accepted h (.new kernel)
    rw [he]
    exact iff_of_true nofun fun h' => absurd h' h

theorem execve_ne_fault_iff (kernel : Nat → Bool) (bytes : Bytes) (argv envp : List Bytes) :
    execve kernel .allow bytes argv envp ≠ .error .fault ↔ Startable kernel bytes argv envp := by
  by_cases h : Elf.Accepted bytes
  · have hstart := startImage_settles h kernel argv envp
    refine ⟨fun hne => ?_, fun hstartable => ?_⟩
    · by_contra hnot
      refine hne ?_
      rw [execve, hstart.faults hnot]
    · obtain ⟨r, hr, -⟩ := hstart.yields hstartable
      rw [execve, hr]
      nofun
  · -- the loader's error is the panic of `expect`
    obtain ⟨e, he⟩ := startImage_of_not_accepted h kernel argv envp
    refine iff_of_false (fun hne => hne ?_) fun hstartable => h hstartable.accepted
    rw [execve, he]

theorem spawnElevated_ne_fault {bytes : Bytes} {argv envp : List Bytes} {kernel : Nat → Bool}
    (h : Startable kernel bytes argv envp) :
    spawnElevated kernel .allow bytes argv envp ≠ .error .fault := by
  obtain ⟨r, hr, -⟩ := (startImage_settles h.accepted kernel argv envp).yields h
  rw [spawnElevated, hr]
  nofun

/-- The kernel does not panic if and only if a file with an accepted header can be loaded, and a
file that the gate lets through can be started with its arguments. -/
theorem neverPanics_iff (kernel : Nat → Bool) (gate : Verdict) (bytes : Bytes)
    (argv envp : List Bytes) :
    NeverPanics kernel gate bytes argv envp ↔ (Elf.Accepted bytes → Elf.Loadable kernel bytes) ∧
        (gate = .allow → Startable kernel bytes argv envp) := by
  cases gate with
  | quarantine =>
    refine ⟨fun h => ⟨(load_ne_fault_iff kernel bytes).1 h.load, nofun⟩, fun h => ?_⟩
    exact ⟨(load_ne_fault_iff kernel bytes).2 h.1, nofun, nofun⟩
  | allow =>
    constructor
    · intro h
      exact ⟨(load_ne_fault_iff kernel bytes).1 h.load,
        fun _ => (execve_ne_fault_iff kernel bytes argv envp).1 h.execve⟩
    · rintro ⟨hload, hstart⟩
      exact ⟨(load_ne_fault_iff kernel bytes).2 hload,
        (execve_ne_fault_iff kernel bytes argv envp).2 (hstart rfl),
        spawnElevated_ne_fault (hstart rfl)⟩

end

/-- A file header of 64 bytes that `elf::load` accepts, with the given entry point, and place and
number of program headers. -/
def fileHeader (entry phoff phnum : Nat) : Bytes :=
  magic ++ [2, 1] ++ List.replicate 10 0 ++ toLe16 2 ++ toLe16 0x3E ++ List.replicate 4 0 ++
    toLe64 entry ++ toLe64 phoff ++ List.replicate 14 0 ++ toLe16 56 ++ toLe16 phnum ++
    List.replicate 6 0

theorem not_startable_long_args :
    ¬ Startable (fun _ => false) (fileHeader 0 64 0) (List.replicate 17 (List.replicate 4096 65))
      [] := by
  intro h
  have hpages : (ofBytes (fileHeader 0 64 0)).addresses = [] := by decide +kernel
  have htext : textSize (List.replicate 17 (List.replicate 4096 65)) [] = 69665 := by
    rw [textSize, stringsSize, map_replicate, length_replicate]
    rfl
  have hbelow := h.args.text (userAllocBase - 1)
  rw [hpages, htext] at hbelow
  have hpage : ¬ OnPages ([] ++ firstStack) (userAllocBase - 1) := by
    unfold OnPages
    decide +kernel
  exact hpage (hbelow (by decide) (by decide))

/-- An empty file, a program header beyond the end of the file, 17 arguments of 4096 bytes, and an
entry point that is not canonical. -/
theorem execve_panics : execve (fun _ => false) .allow [] [] [] = .error .fault ∧
      load (.new fun _ => false) (fileHeader 0 64 1) = .error .fault ∧
      execve (fun _ => false) .allow (fileHeader 0 64 0)
        (List.replicate 17 (List.replicate 4096 65)) [] = .error .fault ∧
      execve (fun _ => false) .allow (fileHeader (2 ^ 47) 64 0) [] [] = .error .fault := by
  refine ⟨eq_of_faults (by decide +kernel), eq_of_faults (by decide +kernel), ?_, ?_⟩
  · by_contra hne
    exact not_startable_long_args ((execve_ne_fault_iff ..).1 hne)
  · by_contra hne
    exact absurd ((execve_ne_fault_iff ..).1 hne).entry (by decide +kernel)

end Thos.Memory
