import Thos.Console.SecureAttention

/-!
# Who gets uid 0

A task gets its uid when it is made and keeps it. `Task::new` stamps the uid of the session on it,
whoever the parent is, and only `spawn_elevated` takes another one. It is called from `sys_elevate`,
after a check of the password of the caller, and from `sak_finish`, with the line typed after
Ctrl+Alt+Delete.

Nothing is assumed of the exec gate, of the ELF and PE loaders and of the key derivation
(`Kernel`), nor of what is on the disk, which may change at any time, the stored credential
included.

The address space, the descriptors and the threads of a task are left out; a thread is not a task.
-/

set_option autoImplicit false

namespace Thos.Process

open Thos.Lib

/-! ## The credential store -/

/-- `s.split_once(c)`. -/
def splitOnce (c : UInt8) (s : Bytes) : Option (Bytes × Bytes) :=
  if c ∈ s then some (s.takeWhile (· ≠ c), (s.dropWhile (· ≠ c)).tail) else none

/-- `to_digit(16)`. -/
def hexDigit (b : UInt8) : Option UInt8 :=
  if 48 ≤ b ∧ b ≤ 57 then some (b - 48)
  else if 97 ≤ b ∧ b ≤ 102 then some (b - 87)
  else if 65 ≤ b ∧ b ≤ 70 then some (b - 55)
  else none

def unhexPairs : Bytes → Option Bytes
  | hi :: lo :: rest => do
    let h ← hexDigit hi
    let l ← hexDigit lo
    let bytes ← unhexPairs rest
    some ((h <<< 4 ||| l) :: bytes)
  | [] => some []
  | [_] => none

/-- `unhex` into `n` bytes. -/
def unhex (n : Nat) (s : Bytes) : Option Bytes := if s.length = n * 2 then unhexPairs s else none

structure Cred where
  (name salt hash : Bytes)
  deriving DecidableEq

/-- What `Cred::parse` has found so far. -/
structure Fields where
  name : Option Bytes := none
  salt : Option Bytes := none
  hash : Option Bytes := none

def Fields.readLine (f : Fields) (line : Bytes) : Fields :=
  match splitOnce 61 line with
  | none => f
  | some (key, v) =>
    if key = ascii "name" then { f with name := some v }
    else if key = ascii "salt" then { f with salt := unhex 16 v }
    else if key = ascii "hash" then { f with hash := unhex 32 v }
    else f

namespace Cred

def parse (bytes : Bytes) : Option Cred :=
  if Utf8.valid bytes then
    let f := (lines bytes).foldl Fields.readLine {}
    do some ⟨← f.name, ← f.salt, ← f.hash⟩
  else none

def storePath : Bytes := ascii "/etc/thos/admin.cred"

def load (readPath : Bytes → Option Bytes) : Option Cred := (readPath storePath).bind parse

def verify (pbkdf2 : Bytes → Bytes → Bytes) (c : Cred) (name password : Bytes) : Bool :=
  decide (pbkdf2 password c.salt = c.hash) && decide (name = c.name)

end Cred

def adminUid : UInt32 := 1000

/-! ## Tasks -/

structure Task where
  (pid ppid : Nat)
  (uid gid : UInt32)
  /-- The program it runs. -/
  image : Bytes
  deriving DecidableEq

/-- What a task never changes. -/
def Task.ids (t : Task) : Nat × Nat × UInt32 × UInt32 := (t.pid, t.ppid, t.uid, t.gid)

/-- `tasks` has every task that was made: one that its parent has waited for may still have threads
that run. `disk` is what `read_path` gives, if the file system opens. -/
structure System where
  sessionUid : UInt32
  nextPid : Nat
  tasks : List Task
  disk : Option (Bytes → Option Bytes)
  console : Console.Input

/-- What is not modelled: whether the exec gate lets a program pass, whether it loads, and the key
derivation. -/
structure Kernel where
  (gate elf pe : Bytes → Bool)
  pbkdf2 : Bytes → Bytes → Bytes

namespace System

def start (disk : Option (Bytes → Option Bytes)) (console : Console.Input) : System :=
  ⟨0, 1, [], disk, console⟩

variable (s : System)

def newWithIds (ppid : Nat) (image : Bytes) (uid gid : UInt32) : System :=
  { s with nextPid := s.nextPid + 1, tasks := s.tasks ++ [⟨s.nextPid, ppid, uid, gid, image⟩] }

/-- `Task::new`. -/
def newTask (ppid : Nat) (image : Bytes) : System :=
  s.newWithIds ppid image s.sessionUid s.sessionUid

def setSession (uid : UInt32) : System := { s with sessionUid := uid }

/-- The task that makes a call. -/
def task (pid : Nat) : Option Task := s.tasks.find? (·.pid = pid)

/-- The task goes on with another program. -/
def setImage (pid : Nat) (image : Bytes) : System :=
  { s with tasks := s.tasks.map fun t => if t.pid = pid then { t with image } else t }

/-- The tasks that were made between two states. -/
def created (s s' : System) : List Task := s'.tasks.drop s.tasks.length

end System

namespace Kernel

variable (k : Kernel) (s : System)

def spawnElevated (ppid : Nat) (bytes : Bytes) (uid gid : UInt32) : System :=
  if k.gate bytes && k.elf bytes then s.newWithIds ppid bytes uid gid else s

/-- But for the descriptors, this is `spawn_elevated`. -/
def spawnWithFds (ppid : Nat) (bytes : Bytes) (uid gid : UInt32) : System :=
  k.spawnElevated s ppid bytes uid gid

/-- There is no exec gate here. -/
def spawnInit (bytes : Bytes) : System := if k.elf bytes then s.newTask 0 bytes else s

def spawnPe (bytes : Bytes) : System := if k.gate bytes && k.pe bytes then s.newTask 0 bytes else s

def fork (pid : Nat) : System :=
  match s.task pid with
  | none => s
  | some parent => s.newTask parent.pid parent.image

/-- A program that the gate stops ends the thread, and the task stays what it was. -/
def execve (pid : Nat) (bytes : Bytes) : System :=
  if k.gate bytes && k.elf bytes then s.setImage pid bytes else s

def sysElevate (pid : Nat) (path password : Bytes) : System :=
  match s.task pid with
  | none => s
  | some caller =>
    if caller.uid ≠ adminUid then s
    else
      match s.disk with
      | none => s
      | some readPath =>
        match Cred.load readPath with
        | none => s
        | some stored =>
          if stored.verify k.pbkdf2 stored.name password then
            match readPath path with
            | none => s
            | some bytes => k.spawnElevated s caller.pid bytes 0 0
          else s

def elevatedCheck : Bytes := ascii "/elevated-check"

/-- `sak_finish` with the line that was typed. -/
def sakFinish (line : Bytes) : System :=
  match s.disk with
  | none => s
  | some readPath =>
    match Cred.load readPath with
    | none => s
    | some stored =>
      if Utf8.valid line && stored.verify k.pbkdf2 stored.name line then
        match readPath elevatedCheck with
        | none => s
        | some bytes => k.spawnElevated s 0 bytes 0 0
      else s

/-- A keyboard report, with the reads of the console during it. -/
def report (r : Console.Report) (ns : Vector (List Nat) 6) : System :=
  let console := s.console.feedReport r ns
  (console.lines.drop s.console.lines.length).foldl k.sakFinish { s with console }

end Kernel

/-! ## Runs -/

/-- What makes tasks before the login. -/
inductive Boot
  | spawn (bytes : Bytes)
  | spawnPe (bytes : Bytes)
  | spawnWithFds (ppid : Nat) (bytes : Bytes) (uid gid : UInt32)

/-- What happens after the login. -/
inductive Event
  | spawn (bytes : Bytes)
  | spawnPe (bytes : Bytes)
  | fork (pid : Nat)
  | execve (pid : Nat) (bytes : Bytes)
  | createThread (pid : Nat)
  | elevate (pid : Nat) (path password : Bytes)
  | report (r : Console.Report) (ns : Vector (List Nat) 6)
  | read (n : Nat)
  | changeDisk (disk : Option (Bytes → Option Bytes))

namespace Kernel

variable (k : Kernel) (s : System)

def bootStep : Boot → System
  | .spawn bytes => k.spawnInit s bytes
  | .spawnPe bytes => k.spawnPe s bytes
  | .spawnWithFds ppid bytes uid gid => k.spawnWithFds s ppid bytes uid gid

def boot (boots : List Boot) : System := boots.foldl k.bootStep s

def step : Event → System
  | .spawn bytes => k.spawnInit s bytes
  | .spawnPe bytes => k.spawnPe s bytes
  | .fork pid => fork s pid
  | .execve pid bytes => k.execve s pid bytes
  | .createThread _ => s
  | .elevate pid path password => k.sysElevate s pid path password
  | .report r ns => k.report s r ns
  | .read n => { s with console := s.console.read n }
  | .changeDisk disk => { s with disk }

def run (es : List Event) : System := es.foldl k.step s

/-- The password is that of the stored credential. -/
def Verifies (readPath : Bytes → Option Bytes) (password : Bytes) : Prop :=
  s.disk = some readPath ∧
    ∃ stored, Cred.load readPath = some stored ∧ stored.verify k.pbkdf2 stored.name password

/-- The event makes the task with `spawn_elevated`, after a check: of the caller and their password,
or of the line that this report has completed. -/
def Elevates (t : Task) : Event → Prop
  | .elevate pid path password =>
    ∃ caller, s.task pid = some caller ∧ caller.uid = adminUid ∧
      ∃ readPath bytes, k.Verifies s readPath password ∧ readPath path = some bytes ∧
        t ∈ s.created (k.spawnElevated s caller.pid bytes 0 0)
  | .report r ns =>
    ∃ line, (s.console.feedReport r ns).lines = s.console.lines ++ [line] ∧
      ∃ readPath bytes, k.Verifies s readPath line ∧ readPath elevatedCheck = some bytes ∧
        t ∈ s.created (k.spawnElevated
          { s with console := s.console.feedReport r ns } 0 bytes 0 0)
  | _ => False

end Kernel

/-! ## What a call makes -/

/-- The call made no task and changed no ids, or it made one task. -/
inductive Makes (s : System) : Option Task → System → Prop
  | none {s' : System} (ids : s'.tasks.map Task.ids = s.tasks.map Task.ids)
      (session : s'.sessionUid = s.sessionUid) : Makes s none s'
  | one {s' : System} {t : Task} (tasks : s'.tasks = s.tasks ++ [t])
      (session : s'.sessionUid = s.sessionUid) : Makes s (some t) s'

variable {s s' : System}

namespace Makes

theorem refl (s : System) : Makes s Option.none s := .none rfl rfl

theorem newWithIds (s : System) (ppid : Nat) (image : Bytes) (uid gid : UInt32) :
    Makes s (some ⟨s.nextPid, ppid, uid, gid, image⟩) (s.newWithIds ppid image uid gid) :=
  .one rfl rfl

variable {o : Option Task}

theorem session_eq (h : Makes s o s') : s'.sessionUid = s.sessionUid := by
  cases h <;> assumption

theorem of_eq {s₀ : System} (h : Makes s₀ o s') (htasks : s₀.tasks = s.tasks)
    (hsession : s₀.sessionUid = s.sessionUid) : Makes s o s' := by
  cases h with
  | none ids session => exact .none (htasks ▸ ids) (session.trans hsession)
  | one tasks session => exact .one (htasks ▸ tasks) (session.trans hsession)

theorem created_eq (h : Makes s o s') : s.created s' = o.toList := by
  cases h with
  | none ids =>
    have hlen : s'.tasks.length = s.tasks.length := by simpa using congrArg List.length ids
    simp [System.created, hlen]
  | one tasks => simp [System.created, tasks]

theorem ids_kept (h : Makes s o s') :
    (s'.tasks.take s.tasks.length).map Task.ids = s.tasks.map Task.ids := by
  cases h with
  | none ids =>
    have hlen : s'.tasks.length = s.tasks.length := by simpa using congrArg List.length ids
    rw [← hlen, List.take_length, ids]
  | one tasks => simp [tasks]

end Makes

namespace Kernel

variable (k : Kernel)

section

variable (s : System)

theorem makes_spawnElevated (ppid : Nat) (bytes : Bytes) (uid gid : UInt32) :
    ∃ o, Makes s o (k.spawnElevated s ppid bytes uid gid) := by
  rw [spawnElevated]
  split_ifs
  · exact ⟨_, .newWithIds s ppid bytes uid gid⟩
  · exact ⟨_, .refl s⟩

theorem makes_setImage (pid : Nat) (image : Bytes) : Makes s none (s.setImage pid image) := by
  refine .none ?_ rfl
  rw [System.setImage, List.map_map]
  refine List.map_congr_left fun t _ => ?_
  by_cases h : t.pid = pid <;> simp [h, Task.ids]

theorem sysElevate_cases (pid : Nat) (path password : Bytes) :
    k.sysElevate s pid path password = s ∨
      ∃ caller, s.task pid = some caller ∧ caller.uid = adminUid ∧
        ∃ readPath bytes, k.Verifies s readPath password ∧ readPath path = some bytes ∧
          k.sysElevate s pid path password = k.spawnElevated s caller.pid bytes 0 0 := by
  cases hcall : s.task pid with
  | none => simp [sysElevate, hcall]
  | some caller =>
  by_cases huid : caller.uid = adminUid
  case neg => simp [sysElevate, hcall, huid]
  cases hdisk : s.disk with
  | none => simp [sysElevate, hcall, hdisk]
  | some readPath =>
  cases hsto : Cred.load readPath with
  | none => simp [sysElevate, hcall, hdisk, hsto]
  | some stored =>
  by_cases hver : stored.verify k.pbkdf2 stored.name password
  case neg => simp [sysElevate, hcall, hdisk, hsto, hver]
  cases hbytes : readPath path with
  | none => simp [sysElevate, hcall, hdisk, hsto, hver, hbytes]
  | some bytes =>
    refine .inr ⟨caller, rfl, huid, readPath, bytes, ⟨hdisk, stored, hsto, hver⟩, hbytes, ?_⟩
    simp [sysElevate, hcall, huid, hdisk, hsto, hver, hbytes]

theorem sakFinish_cases (line : Bytes) : k.sakFinish s line = s ∨
      ∃ readPath bytes, k.Verifies s readPath line ∧ readPath elevatedCheck = some bytes ∧
        k.sakFinish s line = k.spawnElevated s 0 bytes 0 0 := by
  cases hdisk : s.disk with
  | none => simp [sakFinish, hdisk]
  | some readPath =>
  cases hsto : Cred.load readPath with
  | none => simp [sakFinish, hdisk, hsto]
  | some stored =>
  by_cases hver : Utf8.valid line && stored.verify k.pbkdf2 stored.name line
  case neg => exact .inl (by simp only [sakFinish, hdisk, hsto, if_neg hver])
  cases hbytes : readPath elevatedCheck with
  | none => exact .inl (by simp only [sakFinish, hdisk, hsto, if_pos hver, hbytes])
  | some bytes =>
    have hpassword := (Bool.and_eq_true_iff.1 hver).2
    refine .inr ⟨readPath, bytes, ⟨hdisk, stored, hsto, hpassword⟩, hbytes, ?_⟩
    simp only [sakFinish, hdisk, hsto, if_pos hver, hbytes]

theorem report_cases (r : Console.Report) (ns : Vector (List Nat) 6) :
    k.report s r ns = { s with console := s.console.feedReport r ns } ∨
      ∃ line, (s.console.feedReport r ns).lines = s.console.lines ++ [line] ∧
        k.report s r ns = k.sakFinish { s with console := s.console.feedReport r ns } line := by
  rcases s.console.lines_feedReport r ns with hlines | ⟨line, hlines⟩
  · exact .inl (by simp [report, hlines])
  · exact .inr ⟨line, hlines, by simp [report, hlines]⟩

end

/-! ## After the login -/

/-- The event makes at most one task and changes no ids, and a task with uid 0 it makes by
`spawn_elevated`. -/
def Confined (s : System) (e : Event) : Prop :=
  ∃ o, Makes s o (k.step s e) ∧ ∀ t, o = some t → t.uid = 0 → k.Elevates s t e

variable {k} {e : Event}

theorem Confined.quiet (hstep : k.step s e = s') (h : Makes s none s') : k.Confined s e :=
  ⟨none, hstep ▸ h, nofun⟩

theorem Confined.newTask (hsession : s.sessionUid ≠ 0) (ppid : Nat) (image : Bytes)
    (h : k.step s e = s.newTask ppid image) : k.Confined s e := by
  have hmakes := Makes.newWithIds s ppid image s.sessionUid s.sessionUid
  rw [← System.newTask, ← h] at hmakes
  refine ⟨_, hmakes, ?_⟩
  rintro t ⟨⟩ huid
  exact absurd huid hsession

theorem Confined.elevated {s₀ : System} (htasks : s₀.tasks = s.tasks)
    (hsession : s₀.sessionUid = s.sessionUid) {ppid : Nat} {bytes : Bytes}
    (h : k.step s e = k.spawnElevated s₀ ppid bytes 0 0)
    (hallowed : ∀ t ∈ s₀.created (k.spawnElevated s₀ ppid bytes 0 0), k.Elevates s t e) :
    k.Confined s e := by
  obtain ⟨o, ho⟩ := k.makes_spawnElevated s₀ ppid bytes 0 0
  refine ⟨o, h ▸ ho.of_eq htasks hsession, fun t ht _ => hallowed t ?_⟩
  rw [ho.created_eq, ht]
  exact List.mem_singleton_self t

theorem confined_step (k : Kernel) (hsession : s.sessionUid ≠ 0) (e : Event) : k.Confined s e := by
  cases e with
  | spawn bytes =>
    by_cases hload : k.elf bytes
    · exact .newTask hsession 0 bytes (if_pos hload)
    · exact .quiet (if_neg hload) (.refl s)
  | spawnPe bytes =>
    by_cases hload : k.gate bytes && k.pe bytes
    · exact .newTask hsession 0 bytes (if_pos hload)
    · exact .quiet (if_neg hload) (.refl s)
  | fork pid =>
    cases hpar : s.task pid with
    | none => exact .quiet (by simp [step, fork, hpar]) (.refl s)
    | some parent => exact .newTask hsession parent.pid parent.image (by simp [step, fork, hpar])
  | execve pid bytes =>
    by_cases hload : k.gate bytes && k.elf bytes
    · exact .quiet (if_pos hload) (makes_setImage s pid bytes)
    · exact .quiet (if_neg hload) (.refl s)
  | createThread pid => exact .quiet rfl (.refl s)
  | elevate pid path password =>
    rcases k.sysElevate_cases s pid path password with
      hquiet | ⟨caller, hcall, huid, readPath, bytes, hver, hbytes, hspawn⟩
    · exact .quiet hquiet (.refl s)
    · exact .elevated rfl rfl hspawn fun t ht =>
        ⟨caller, hcall, huid, readPath, bytes, hver, hbytes, ht⟩
  | report r ns =>
    rcases k.report_cases s r ns with hrep | ⟨line, hline, hrep⟩
    · exact .quiet hrep (.none rfl rfl)
    · rcases k.sakFinish_cases _ line with hquiet | ⟨readPath, bytes, hver, hbytes, hspawn⟩
      · exact .quiet (hrep.trans hquiet) (.none rfl rfl)
      · refine .elevated ?_ ?_ (hrep.trans hspawn) fun t ht =>
          ⟨line, hline, readPath, bytes, hver, hbytes, ht⟩
        · rfl
        · rfl
  | read n | changeDisk disk => exact .quiet rfl (.none rfl rfl)

theorem sessionUid_run (k : Kernel) (hsession : s.sessionUid ≠ 0) (es : List Event) :
    (k.run s es).sessionUid ≠ 0 := by
  induction es generalizing s with
  | nil => exact hsession
  | cons e es ih =>
    obtain ⟨o, hmakes, -⟩ := confined_step k hsession e
    exact ih (hmakes.session_eq ▸ hsession)

end Kernel

/-- After any boot and a login with another uid than 0, and after any events: the next event leaves
the ids of the tasks there are as they were, and a task with uid 0 that it makes comes from
`spawn_elevated`, called after a check of the password. A fork is no such event. -/
theorem uid_zero_only_by_elevation (k : Kernel) (disk : Option (Bytes → Option Bytes))
    (console : Console.Input) (boots : List Boot) (uid : UInt32) (huid : uid ≠ 0) (es : List Event)
    (e : Event) : let s := k.run ((k.boot (.start disk console) boots).setSession uid) es
    ((k.step s e).tasks.take s.tasks.length).map Task.ids = s.tasks.map Task.ids ∧
      (∀ t ∈ s.created (k.step s e), t.uid = 0 → k.Elevates s t e) ∧
      ∀ pid, e = .fork pid → ∀ t ∈ s.created (k.step s e), t.uid ≠ 0 := by
  intro s
  have hsession : s.sessionUid ≠ 0 :=
    Kernel.sessionUid_run k (s := (k.boot (.start disk console) boots).setSession uid) huid es
  obtain ⟨o, hmakes, helevates⟩ := Kernel.confined_step k hsession e
  have hcreated : ∀ t ∈ s.created (k.step s e), t.uid = 0 → k.Elevates s t e := by
    intro t ht
    rw [hmakes.created_eq, Option.mem_toList] at ht
    exact helevates t ht
  refine ⟨hmakes.ids_kept, hcreated, ?_⟩
  rintro pid rfl t ht hzero
  exact hcreated t ht hzero

/-- A kernel that loads everything and derives the same key from every password. -/
def lenient : Kernel := ⟨fun _ => true, fun _ => true, fun _ => true,
      fun _ _ => List.replicate 32 0⟩

def lenientDisk (path : Bytes) : Option Bytes :=
  if path = Cred.storePath then
    some (ascii "name=a\nsalt=" ++ List.replicate 32 48 ++ ascii "\nhash=" ++ List.replicate 64 48)
  else some []

/-- The administrator's shell elevates a program, which forks. -/
theorem uid_zero_only_by_elevation_admin :
    let s := lenient.run ((lenient.boot (.start (some lenientDisk) .new) []).setSession
      1000) [.spawn []]
    let s' := lenient.step s (.elevate 1 [] [])
    (s.created s').map Task.ids = [(2, 1, 0, 0)] ∧
      (∀ t ∈ s.created s', lenient.Elevates s t (.elevate 1 [] [])) ∧
      (s'.created (lenient.step s' (.fork 2))).map Task.ids = [(3, 2, 1000, 1000)] := by
  have hcreated := (uid_zero_only_by_elevation lenient (some lenientDisk) .new [] 1000 (by decide)
    [.spawn []] (.elevate 1 [] [])).2.1
  refine ⟨by decide +kernel, fun t ht => hcreated t ht ?_, by decide +kernel⟩
  revert t ht
  decide +kernel

end Thos.Process
