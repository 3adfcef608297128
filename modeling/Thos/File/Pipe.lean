import Thos.Lib.Condition
import Thos.Lib.Run
import Thos.Lib.Text

/-!
# A pipe

The pipe of `file.rs`: a bounded buffer under a lock of its own, the numbers of read and write
ends as atomics, and one wait queue for readers and writers. An end is one object however many
descriptors share it; it is dropped with the last of them, or with the last call on it that is
still under way, and the thread that does so counts it down.

Any number of threads read, write, share and close. Each section under the lock of the buffer,
each access to a counter, and each section under the lock of the queue that no other step can cut
in two is one step; the check of `wait_if` is two steps with the lock of the queue held.

The fields at the end of the state are not in the source: the bytes that each thread appended, the
bytes that each thread took, both in order, and what the calls of each thread returned.
-/

set_option autoImplicit false

namespace Thos.File

open Thos.Lib Function List Option

/-! ## State -/

def pipeCap : Nat := 64 * 1024

/-- The two kinds of ends, with the counters `readers` and `writers`. -/
inductive End
  | read
  | write
  deriving DecidableEq

/-- A call of `read` with a buffer of `n` bytes, or of `write`, of whose data `done` bytes are
appended. -/
inductive Call
  | read (n : Nat)
  | write (data : Bytes) (done : Nat)
  deriving DecidableEq

namespace Call

def own : Call → End
  | .read _ => .read
  | .write _ _ => .write

def other : Call → End
  | .read _ => .write
  | .write _ _ => .read

def Stuck (buf : Bytes) : Call → Prop
  | .read _ => buf = []
  | .write _ _ => buf.length = pipeCap

/-- What holds of a call: the buffer of a `read` is not empty, and `write` is not past its data. -/
def Valid : Call → Prop
  | .read n => 0 < n
  | .write data done => done ≤ data.length

instance (buf : Bytes) : ∀ k : Call, Decidable (k.Stuck buf)
  | .read _ => inferInstanceAs (Decidable (buf = []))
  | .write _ _ => inferInstanceAs (Decidable (buf.length = pipeCap))

end Call

/-- What a call returns: the bytes read, or the number from `write`. -/
inductive Result
  | read (bytes : Bytes)
  | write (n : Int)
  deriving DecidableEq

def ePipe : Int := -32

/-- What follows a `wake_all`. -/
inductive Next
  | retry (k : Call)
  | finish (k : Call) (r : Result)
  | leave
  deriving DecidableEq

/-- The step that a thread takes next. -/
inductive Pc
  | outside
  /-- The top of the loop. -/
  | top (k : Call)
  /-- `write` has seen a reader. -/
  | append (data : Bytes) (done : Nat)
  /-- About to lock the queue in `wait_if`. -/
  | lock (k : Call)
  /-- About to look at the buffer, with the queue locked. -/
  | checkBuf (k : Call)
  /-- About to look at the other end, with the queue locked. -/
  | checkEnds (k : Call)
  /-- Enqueued. -/
  | asleep (k : Call)
  /-- About to take all threads off the queue, in `wake_all`. -/
  | wake (next : Next)
  /-- Unblocking them. -/
  | unblock (next : Next)
  /-- The call has its result and drops its reference to the end. -/
  | returned (k : Call) (r : Result)
  /-- In the `drop` of an end. -/
  | dropping (e : End)
  deriving DecidableEq

def Next.pc : Next → Pc
  | .retry k => .top k
  | .finish k r => .returned k r
  | .leave => .outside

/-- `table` is the number of references to an end outside of calls, `users` are the threads in a
call on it, which have one each. -/
structure Pipe (T : Type) where
  buf : Bytes
  ends : End → UInt64
  wq : Condition T
  pc : T → Pc
  table : End → Nat
  users : End → List T
  appends : List (T × Bytes)
  log : List (T × Bytes)
  results : T → List (Call × Result)

variable {T : Type}

namespace Pipe

section Steps

variable [DecidableEq T]

/-- `pipe`, with one descriptor for each end. -/
def new : Pipe T where
  buf := []
  ends _ := 1
  wq := .new
  pc _ := .outside
  table _ := 1
  users _ := []
  appends := []
  log := []
  results _ := []

variable (s : Pipe T)

def appended : Bytes := s.appends.flatMap Prod.snd

def taken : Bytes := s.log.flatMap Prod.snd

variable (t : T)

def goto (p : Pc) : Pipe T := { s with pc := update s.pc t p }

/-- The thread goes on, or is in the `drop` of an end if it had the last reference to it. -/
def unref (e : End) : Pipe T :=
  s.goto t (if s.table e = 0 ∧ s.users e = [] then .dropping e else .outside)

/-! ## Steps -/

/-- The top of the loop: `read` with the buffer locked, `write` before that. -/
def loopTop : Call → Pipe T
  | .read n =>
    if s.buf ≠ [] then
      { s with buf := s.buf.drop n, log := s.log ++ [(t, s.buf.take n)] }.goto t
        (.wake (.finish (.read n) (.read (s.buf.take n))))
    else if s.ends .write = 0 then s.goto t (.returned (.read n) (.read []))
    else s.goto t (.lock (.read n))
  | .write data done =>
    if data.length ≤ done then s.goto t (.returned (.write data done) (.write done))
    else if s.ends .read = 0 then
      s.goto t (.returned (.write data done) (.write (if done = 0 then ePipe else done)))
    else s.goto t (.append data done)

/-- `write` with the buffer locked. -/
def doAppend (data : Bytes) (done : Nat) : Pipe T :=
  let space := pipeCap - s.buf.length
  if 0 < space then
    let n := min space (data.length - done)
    let bytes := (data.drop done).take n
    { s with buf := s.buf ++ bytes, appends := s.appends ++ [(t, bytes)] }.goto t
      (.wake (.retry (.write data (done + n))))
  else s.goto t (.lock (.write data done))

/-- The next step of a thread that is in a call or in a `drop`. -/
def advance : Option (Pipe T) :=
  match s.pc t with
  | .outside => none
  | .top k => some (s.loopTop t k)
  | .append data done => some (s.doAppend t data done)
  | .lock k => (s.wq.acquire t).map fun wq => { s with wq }.goto t (.checkBuf k)
  | .checkBuf k =>
    if k.Stuck s.buf then some (s.goto t (.checkEnds k))
    else some ({ s with wq := s.wq.release }.goto t (.top k))
  | .checkEnds k =>
    if s.ends k.other ≠ 0 then some ({ s with wq := s.wq.enqueue t }.goto t (.asleep k))
    else some ({ s with wq := s.wq.release }.goto t (.top k))
  | .asleep k => if s.wq.ready t then some (s.goto t (.top k)) else none
  | .wake next => (s.wq.drain t).map fun wq => { s with wq }.goto t (.unblock next)
  | .unblock next =>
    if s.wq.draining t = [] then some (s.goto t next.pc)
    else some { s with wq := s.wq.unblock t }
  | .returned k r =>
    some (unref { s with
      users := update s.users k.own ((s.users k.own).erase t)
      results := update s.results t (s.results t ++ [(k, r)]) } t k.own)
  | .dropping e => some ({ s with ends := update s.ends e (s.ends e - 1) }.goto t (.wake .leave))

/-- What can happen. -/
inductive Act (T : Type)
  /-- A thread calls `read` with a buffer that is not empty. -/
  | read (t : T) (n : Nat)
  | write (t : T) (data : Bytes)
  /-- A thread that is in a call takes its next step. -/
  | next (t : T)
  /-- A thread makes another descriptor for an end. -/
  | share (t : T) (e : End)
  /-- A thread closes a descriptor. -/
  | close (t : T) (e : End)

def begin (k : Call) : Option (Pipe T) :=
  if s.pc t = .outside ∧ 0 < s.table k.own then
    some ({ s with users := update s.users k.own (t :: s.users k.own) }.goto t (.top k))
  else none

def step : Act T → Option (Pipe T)
  | .read t n => if 0 < n then s.begin t (.read n) else none
  | .write t data => s.begin t (.write data 0)
  | .next t => s.advance t
  | .share t e =>
    if s.pc t = .outside ∧ 0 < s.table e then
      some ({ s with table := update s.table e (s.table e + 1) }.goto t .outside)
    else none
  | .close t e =>
    if s.pc t = .outside ∧ 0 < s.table e then
      some (unref { s with table := update s.table e (s.table e - 1) } t e)
    else none

end Steps

end Pipe

/-! ## Where the threads are -/

namespace Pc

def call : Pc → Option Call
  | .top k | .lock k | .checkBuf k | .checkEnds k | .asleep k | .returned k _ => some k
  | .append data done => some (.write data done)
  | .wake (.retry k) | .wake (.finish k _) | .unblock (.retry k) | .unblock (.finish k _) => some k
  | _ => none

def result : Pc → Option (Call × Result)
  | .returned k r | .wake (.finish k r) | .unblock (.finish k r) => some (k, r)
  | _ => none

def drops : Pc → Option End
  | .dropping e => some e
  | _ => none

theorem drops_eq_some {p : Pc} {e : End} : p.drops = some e ↔ p = .dropping e := by
  cases p <;> simp [drops]

def locks : Pc → Bool
  | .checkBuf _ | .checkEnds _ => true
  | _ => false

def unblocks : Pc → Bool
  | .unblock _ => true
  | _ => false

end Pc

def bytesRead : List (Call × Result) → List Bytes :=
  filterMap fun
    | (_, .read bytes) => if bytes = [] then none else some bytes
    | _ => none

def bytesWritten : List (Call × Result) → Bytes :=
  flatMap fun
    | (.write data _, .write n) => data.take n.toNat
    | _ => []

def Pc.taken (p : Pc) : List Bytes := bytesRead p.result.toList

def Pc.sent (p : Pc) : Bytes :=
  match p.call with
  | some (.write data done) => data.take done
  | _ => []

/-- Another step of the same call or `drop`, with no more bytes taken. -/
structure Pc.Same (p p' : Pc) : Prop where
  call : p'.call = p.call
  drops : p'.drops = p.drops
  taken : p'.taken = p.taken

namespace Pipe

def Gone (s : Pipe T) (e : End) : Prop :=
  s.table e = 0 ∧ s.users e = [] ∧ ∀ t, (s.pc t).drops ≠ some e

def WakeDue (s : Pipe T) : Prop := ∃ t next, s.pc t = .wake next

def Justified (s : Pipe T) : Call → Result → Prop
  | .read n, .read bytes => bytes.length ≤ n ∧ (bytes = [] → s.ends .write = 0 ∧ s.buf = [])
  | .write data done, .write n =>
    (n = done ∨ n = ePipe ∧ done = 0) ∧ (n = data.length ∨ s.ends .read = 0)
  | _, _ => False

def Calm (s s' : Pipe T) : Prop :=
  s'.buf = s.buf ∧ s'.ends = s.ends ∧ (s.WakeDue → s'.WakeDue) ∨ s'.WakeDue

def MaySleep (s : Pipe T) (k : Call) : Prop := k.Stuck s.buf ∧ s.ends k.other ≠ 0 ∨ s.WakeDue

variable {s s' : Pipe T} {k : Call}

theorem Calm.checked (h : Calm s s') (hk : k.Stuck s.buf ∨ s.WakeDue) :
    k.Stuck s'.buf ∨ s'.WakeDue := by
  rcases h with ⟨hbuf, -, hdue⟩ | hdue
  · exact hk.imp (hbuf ▸ id) hdue
  · exact .inr hdue

theorem Calm.maySleep (h : Calm s s') (hk : s.MaySleep k) : s'.MaySleep k := by
  rcases h with ⟨hbuf, hends, hdue⟩ | hdue
  · rw [MaySleep, hbuf, hends]
    exact hk.imp_right hdue
  · exact .inr hdue

variable {t u : T}

theorem wakeDue_of_ne (hp : ∀ next, s.pc t ≠ .wake next) (hpc : ∀ u ≠ t, s'.pc u = s.pc u)
    (h : s.WakeDue) : s'.WakeDue := by
  obtain ⟨u, next, hu⟩ := h
  have hut : u ≠ t := by
    rintro rfl
    exact hp next hu
  exact ⟨u, next, (hpc u hut).trans hu⟩

variable [DecidableEq T]

def own (log : List (T × Bytes)) (t : T) : List Bytes :=
  log.filterMap fun x => if x.1 = t then some x.2 else none

/-- What holds of a thread that is at `p`. -/
structure At (s : Pipe T) (t : T) (p : Pc) : Prop where
  call : ∀ k ∈ p.call, t ∈ s.users k.own ∧ k.Valid
  result : ∀ x ∈ s.results t ++ p.result.toList, s.Justified x.1 x.2
  took : own s.log t = bytesRead (s.results t) ++ p.taken
  put : (own s.appends t).flatten = bytesWritten (s.results t) ++ p.sent
  dropping : ∀ e, p = .dropping e → s.table e = 0 ∧ s.users e = []
  locked : p.locks = true → s.wq.lock = some t
  drained : p.unblocks = false → s.wq.draining t = []
  checked : ∀ k, p = .checkEnds k → k.Stuck s.buf ∨ s.WakeDue

/-- A step of `t` leaves the others alone. -/
structure Frame (s s' : Pipe T) (t : T) : Prop where
  pc : ∀ u ≠ t, s'.pc u = s.pc u
  users : ∀ u ≠ t, ∀ e, u ∈ s.users e → u ∈ s'.users e
  closed : ∀ e, s.table e = 0 → s.users e = [] → s'.table e = 0 ∧ s'.users e = []
  ends : ∀ e, s.ends e = 0 → s'.ends e = 0
  eof : s.ends .write = 0 → s.buf = [] → s'.buf = []
  log : ∀ u ≠ t, own s'.log u = own s.log u
  appends : ∀ u ≠ t, own s'.appends u = own s.appends u
  results : ∀ u ≠ t, s'.results u = s.results u
  lock : ∀ u ≠ t, s.wq.lock = some u → s'.wq.lock = some u
  draining : ∀ u ≠ t, s'.wq.draining u = s.wq.draining u
  calm : s.wq.lock ≠ none → Calm s s'

theorem own_concat_self (log : List (T × Bytes)) (t : T) (bytes : Bytes) :
    own (log ++ [(t, bytes)]) t = own log t ++ [bytes] := by
  simp [own, filterMap_append]

theorem own_concat_of_ne (log : List (T × Bytes)) (hu : u ≠ t) (bytes : Bytes) :
    own (log ++ [(t, bytes)]) u = own log u := by
  simp [own, filterMap_append, hu.symm]

omit [DecidableEq T] in
theorem Justified.mono {r : Result} (hends : ∀ e, s.ends e = 0 → s'.ends e = 0)
    (heof : s.ends .write = 0 → s.buf = [] → s'.buf = []) (h : s.Justified k r) :
    s'.Justified k r := by
  cases k with
  | read n =>
    cases r with
    | write m => exact h
    | read bytes =>
      refine ⟨h.1, fun hnil => ?_⟩
      obtain ⟨hgone, hbuf⟩ := h.2 hnil
      exact ⟨hends _ hgone, heof hgone hbuf⟩
  | write data done =>
    cases r with
    | read bytes => exact h
    | write m => exact ⟨h.1, h.2.imp_right (hends _)⟩

theorem At.frame (h : At s u (s.pc u)) (hu : u ≠ t) (hframe : Frame s s' t) :
    At s' u (s'.pc u) := by
  rw [hframe.pc u hu]
  refine ⟨fun k hk => ⟨hframe.users u hu _ (h.call k hk).1, (h.call k hk).2⟩, ?_, ?_, ?_,
    fun e he => ?_, fun hl => hframe.lock u hu (h.locked hl),
    fun hd => (hframe.draining u hu).trans (h.drained hd), fun k hk => ?_⟩
  · rw [hframe.results u hu]
    exact fun x hx => (h.result x hx).mono hframe.ends hframe.eof
  · rw [hframe.log u hu, hframe.results u hu, h.took]
  · rw [hframe.appends u hu, hframe.results u hu, h.put]
  · obtain ⟨htable, husers⟩ := h.dropping e he
    exact hframe.closed e htable husers
  · have hlock := h.locked (by rw [hk]; rfl)
    exact (hframe.calm (by simp [hlock])).checked (h.checked k hk)

/-! ## The invariant -/

def Asleep (s : Pipe T) (t : T) : Prop := ∃ k, s.pc t = .asleep k

def RightlyAsleep (s : Pipe T) (t : T) : Prop := ∀ k, s.pc t = .asleep k → s.MaySleep k

structure Inv (s : Pipe T) : Prop where
  fifo : s.appended = s.taken ++ s.buf
  cap : s.buf.length ≤ pipeCap
  ends : ∀ e, s.Gone e ∧ s.ends e = 0 ∨ ¬ s.Gone e ∧ s.ends e = 1
  once : ∀ t u e, s.pc t = .dropping e → s.pc u = .dropping e → t = u
  thread : ∀ t, At s t (s.pc t)
  watched : s.wq.Watched s.Asleep s.RightlyAsleep

theorem Inv.at_pc {p : Pc} (h : Inv s) (ht : s.pc t = p) : At s t p := ht ▸ h.thread t

theorem Inv.ends_eq_zero_iff (h : Inv s) (e : End) : s.ends e = 0 ↔ s.Gone e := by
  rcases h.ends e with ⟨hgone, hends⟩ | ⟨hgone, hends⟩
  · exact iff_of_true hends hgone
  · exact iff_of_false (by rw [hends]; decide) hgone

theorem Inv.ends_of_open (h : Inv s) {e : End} (hopen : 0 < s.table e ∨ s.users e ≠ []) :
    s.ends e = 1 := by
  rcases h.ends e with ⟨⟨htable, husers, -⟩, -⟩ | ⟨-, hends⟩
  · exact absurd hopen (by simp [htable, husers])
  · exact hends

theorem Inv.step_of_frame (h : Inv s) (hframe : Frame s s' t)
    (hfifo : s'.appended = s'.taken ++ s'.buf) (hcap : s'.buf.length ≤ pipeCap)
    (hends : ∀ e, s'.Gone e ∧ s'.ends e = 0 ∨ ¬ s'.Gone e ∧ s'.ends e = 1)
    (honce : ∀ e, s'.pc t = .dropping e → ∀ u ≠ t, s.pc u ≠ .dropping e)
    (hthr : At s' t (s'.pc t)) (hwatch : s'.wq.Watched s'.Asleep s'.RightlyAsleep) : Inv s' := by
  refine ⟨hfifo, hcap, hends, once_of_step (R := fun p e => p = .dropping e) h.once hframe.pc honce,
    fun u => ?_, hwatch⟩
  by_cases hut : u = t
  · exact hut ▸ hthr
  · exact (h.thread u).frame hut hframe

theorem inv_new : Inv (new : Pipe T) where
  fifo := rfl
  cap := Nat.zero_le _
  ends _ := .inr ⟨fun hgone => absurd hgone.1 Nat.one_ne_zero, rfl⟩
  once _ _ _ ht := by cases ht
  thread t := ⟨nofun, nofun, rfl, rfl, nofun, nofun, fun _ => rfl, nofun⟩
  watched _ h := by
    obtain ⟨k, ⟨⟩⟩ := h

/-- What callers can rely on. -/
structure Correct (s : Pipe T) : Prop where
  /-- What was read and what is in the buffer is what was written, in order. -/
  fifo : s.appended = s.taken ++ s.buf
  cap : s.buf.length ≤ pipeCap
  /-- What a thread took is what its reads returned, one by one, and the one about to return. -/
  read : ∀ t, own s.log t = bytesRead (s.results t) ++ (s.pc t).taken
  /-- What a thread appended is what its writes returned, and what the one under way has done. -/
  write : ∀ t, (own s.appends t).flatten = bytesWritten (s.results t) ++ (s.pc t).sent
  /-- A read returns nothing only at the end of the file, and not more than it was asked for. -/
  eof : ∀ t n bytes, (.read n, .read bytes) ∈ s.results t ++ (s.pc t).result.toList →
    bytes.length ≤ n ∧ (bytes = [] → s.Gone .write ∧ s.taken = s.appended)
  /-- A write returns the number of bytes it appended; that is all its data, or there is no
  reader. -/
  short : ∀ t data (done : Nat) (n : Int),
    (.write data done, .write n) ∈ s.results t ++ (s.pc t).result.toList →
    (n = (done : Int) ∨ n = ePipe ∧ done = 0) ∧ (n = data.length ∨ s.Gone .read)
  /-- The counter of an end is down if and only if it has no descriptor and no call, and no drop of
  it is under way. -/
  ends : ∀ e, s.ends e = 0 ↔ s.table e = 0 ∧ s.users e = [] ∧ ∀ t, s.pc t ≠ .dropping e
  /-- Nobody sleeps who could go on, unless a wake is under way. -/
  asleep : ∀ t k, s.pc t = .asleep k →
    k.Stuck s.buf ∧ ¬ s.Gone k.other ∨ s.wq.Waking t ∨ t ∈ s.wq.waiting ∧ s.WakeDue

theorem Inv.correct (h : Inv s) : Correct s where
  fifo := h.fifo
  cap := h.cap
  read t := (h.thread t).took
  write t := (h.thread t).put
  eof t n bytes hmem := by
    obtain ⟨hlen, heof⟩ := (h.thread t).result _ hmem
    refine ⟨hlen, fun hnil => ?_⟩
    obtain ⟨hgone, hbuf⟩ := heof hnil
    exact ⟨(h.ends_eq_zero_iff _).1 hgone, by rw [h.fifo, hbuf, append_nil]⟩
  short t data done n hmem := by
    obtain ⟨hdone, hshort⟩ := (h.thread t).result _ hmem
    exact ⟨hdone, hshort.imp_right (h.ends_eq_zero_iff _).1⟩
  ends e := by
    rw [h.ends_eq_zero_iff]
    exact and_congr_right' (and_congr_right' (forall_congr' fun t => not_congr Pc.drops_eq_some))
  asleep t k ht := by
    rcases h.watched t ⟨k, ht⟩ with hwaking | ⟨hmem, hgood⟩
    · exact .inr (.inl hwaking)
    · rcases hgood k ht with ⟨hstuck, hends⟩ | hdue
      · exact .inl ⟨hstuck, fun hgone => hends ((h.ends_eq_zero_iff _).2 hgone)⟩
      · exact .inr (.inr ⟨hmem, hdue⟩)

theorem Inv.watched_of_calm (h : Inv s) {q : Condition T}
    (hq : s.wq.Watched s.Asleep s.RightlyAsleep → q.Watched s.Asleep s.RightlyAsleep)
    (hcalm : Calm s s') (hpc : ∀ u k, s'.pc u = .asleep k → s.pc u = .asleep k) :
    q.Watched s'.Asleep s'.RightlyAsleep :=
  (hq h.watched).mono (fun u ⟨k, hk⟩ => ⟨k, hpc u k hk⟩)
    fun u _ hgood k hk => hcalm.maySleep (hgood k (hpc u k hk))

variable {p : Pc} {e : End}

theorem goto_pc_of_ne (s : Pipe T) (hu : u ≠ t) : (s.goto t p).pc u = s.pc u := update_of_ne hu ..

@[simp]
theorem goto_pc_self (s : Pipe T) : (s.goto t p).pc t = p := update_self _ _ _

theorem asleep_of_goto (t : T) (p : Pc) (hp : ∀ k, p ≠ .asleep k) (s : Pipe T) (u : T) (k : Call)
    (h : (s.goto t p).pc u = .asleep k) : s.pc u = .asleep k := by
  by_cases hut : u = t
  · subst hut
    rw [goto_pc_self] at h
    exact absurd h (hp k)
  · exact (goto_pc_of_ne s hut).symm.trans h

theorem calm_goto (p : Pc) (hwake : ∀ next, s.pc t ≠ .wake next) (wq : Condition T) :
    Calm s ({ s with wq }.goto t p) :=
  .inl ⟨rfl, rfl, wakeDue_of_ne hwake fun _ hu => goto_pc_of_ne _ hu⟩

theorem gone_iff (hpc : ∀ u ≠ t, s'.pc u = s.pc u) : s'.Gone e ↔
      (s'.table e = 0 ∧ s'.users e = [] ∧ (s'.pc t).drops ≠ some e) ∧
        ∀ u ≠ t, (s.pc u).drops ≠ some e := by
  constructor
  · rintro ⟨htable, husers, hdrops⟩
    exact ⟨⟨htable, husers, hdrops t⟩, fun u hu => hpc u hu ▸ hdrops u⟩
  · rintro ⟨⟨htable, husers, hself⟩, hothers⟩
    refine ⟨htable, husers, fun u => ?_⟩
    by_cases hu : u = t
    · exact hu ▸ hself
    · exact (hpc u hu).symm ▸ hothers u hu

theorem Inv.ends_congr (h : Inv s) (hpc : ∀ u ≠ t, s'.pc u = s.pc u)
    (ht : (s'.pc t).drops = (s.pc t).drops) (htable : s'.table = s.table)
    (husers : s'.users = s.users) (hends : s'.ends = s.ends) (e : End) :
    s'.Gone e ∧ s'.ends e = 0 ∨ ¬ s'.Gone e ∧ s'.ends e = 1 := by
  have hgone : s'.Gone e ↔ s.Gone e := by
    rw [gone_iff hpc, gone_iff (s := s) fun _ _ => rfl, ht, htable, husers]
  rw [hgone, hends]
  exact h.ends e

variable {wq : Condition T}

theorem Inv.pass (h : Inv s) (hlock : ∀ u ≠ t, s.wq.lock = some u → wq.lock = some u)
    (hdrain : ∀ u ≠ t, wq.draining u = s.wq.draining u)
    (hwake : s.wq.lock ≠ none → ∀ next, s.pc t ≠ .wake next) (hsame : (s.pc t).Same p)
    (hres : ∀ x ∈ p.result, s.Justified x.1 x.2)
    (hlocked : p.locks = true → wq.lock = some t)
    (hdrained : p.unblocks = false → wq.draining t = [])
    (hcheck : ∀ k, p = .checkEnds k → k.Stuck s.buf)
    (hwatch : wq.Watched ({ s with wq }.goto t p).Asleep ({ s with wq }.goto t p).RightlyAsleep) :
    Inv ({ s with wq }.goto t p) := by
  have hat := h.thread t
  have hpc : ∀ u ≠ t, ({ s with wq }.goto t p).pc u = s.pc u := fun u hu => goto_pc_of_ne _ hu
  have hdropping : ∀ e, p = .dropping e → s.pc t = .dropping e := fun e he =>
    Pc.drops_eq_some.1 (hsame.drops ▸ Pc.drops_eq_some.2 he)
  refine h.step_of_frame (t := t) ⟨hpc, fun u _ e hu => hu, fun e ht hu => ⟨ht, hu⟩, fun e he => he,
    fun _ hb => hb, fun _ _ => rfl, fun _ _ => rfl, fun _ _ => rfl, hlock, hdrain,
    fun hl => .inl ⟨rfl, rfl, wakeDue_of_ne (hwake hl) hpc⟩⟩ h.fifo h.cap
    (h.ends_congr hpc ((congrArg _ (goto_pc_self _)).trans hsame.drops) rfl rfl rfl) ?_ ?_ hwatch
  · intro e he u hu hdrop
    rw [goto_pc_self] at he
    exact hu (h.once u t e hdrop (hdropping e he))
  · rw [goto_pc_self]
    refine ⟨fun k hk => hat.call k (hsame.call ▸ hk), fun x hx => ?_, ?_, ?_,
      fun e he => hat.dropping e (hdropping e he), hlocked, hdrained,
      fun k hk => .inl (hcheck k hk)⟩
    · rcases mem_append.1 hx with hx | hx
      · exact hat.result x (mem_append_left _ hx)
      · exact hres x (mem_toList.1 hx)
    · rw [hsame.taken]
      exact hat.took
    · rw [Pc.sent, hsame.call]
      exact hat.put

theorem Inv.quiet (h : Inv s) (hwake : ∀ next, s.pc t ≠ .wake next)
    (hsame : (s.pc t).Same p) (hres : ∀ x ∈ p.result, s.Justified x.1 x.2)
    (hlocked : p.locks = true → s.wq.lock = some t)
    (hdrained : s.wq.draining t = []) (hcheck : ∀ k, p = .checkEnds k → k.Stuck s.buf)
    (hslp : ∀ k, p ≠ .asleep k) : Inv (s.goto t p) := by
  refine h.pass (fun _ _ hu => hu) (fun _ _ => rfl) (fun _ => hwake) hsame hres hlocked
    (fun _ => hdrained) hcheck (h.watched_of_calm id (calm_goto p hwake _)
      (asleep_of_goto t p hslp s))

variable {next : Next}

theorem Inv.change (h : Inv s) {buf : Bytes} {ends : End → UInt64} {appends log : List (T × Bytes)}
    (hfifo : appends.flatMap Prod.snd = log.flatMap Prod.snd ++ buf) (hcap : buf.length ≤ pipeCap)
    (happends : ∀ u ≠ t, own appends u = own s.appends u)
    (hlog : ∀ u ≠ t, own log u = own s.log u) (hdown : ∀ e, s.ends e = 0 → ends e = 0)
    (hends : ∀ e, ({ s with buf, ends, appends, log }.goto t (.wake next)).Gone e ∧ ends e = 0 ∨
      ¬ ({ s with buf, ends, appends, log }.goto t (.wake next)).Gone e ∧ ends e = 1)
    (heof : s.ends .write = 0 → s.buf = [] → buf = [])
    (hcall : ∀ k ∈ (Pc.wake next).call, t ∈ s.users k.own ∧ k.Valid)
    (hres : ∀ x ∈ (Pc.wake next).result, ({ s with buf, ends } : Pipe T).Justified x.1 x.2)
    (htook : own log t = bytesRead (s.results t) ++ (Pc.wake next).taken)
    (hput : (own appends t).flatten = bytesWritten (s.results t) ++ (Pc.wake next).sent)
    (hdrained : s.wq.draining t = []) :
    Inv ({ s with buf, ends, appends, log }.goto t (.wake next)) := by
  have hcalm : Calm s ({ s with buf, ends, appends, log }.goto t (.wake next)) :=
    .inr ⟨t, next, goto_pc_self _⟩
  refine h.step_of_frame (t := t) ⟨fun u hu => goto_pc_of_ne _ hu, fun u _ e hu => hu,
    fun e ht hu => ⟨ht, hu⟩, hdown, heof, hlog, happends, fun _ _ => rfl, fun u _ hu => hu,
    fun u _ => rfl, fun _ => hcalm⟩ hfifo hcap hends (by simp) ?_
    (h.watched_of_calm id hcalm (asleep_of_goto t (.wake next) nofun _))
  rw [goto_pc_self]
  refine ⟨hcall, fun x hx => ?_, htook, hput, nofun, nofun, fun _ => hdrained, nofun⟩
  rcases mem_append.1 hx with hx | hx
  · exact ((h.thread t).result x (mem_append_left _ hx)).mono hdown heof
  · exact hres x (mem_toList.1 hx)

theorem Inv.refs (h : Inv s) {table : End → Nat} {users : End → List T}
    {results : T → List (Call × Result)} (hwake : ∀ next, s.pc t ≠ .wake next)
    (hdrops : (s.pc t).drops = none) (hdrained : s.wq.draining t = [])
    (hkept : ∀ u ≠ t, ∀ e, u ∈ s.users e → u ∈ users e)
    (hopen : ∀ e, table e = 0 ∧ users e = [] ∧ p.drops ≠ some e ↔ s.table e = 0 ∧ s.users e = [])
    (hresults : ∀ u ≠ t, results u = s.results u)
    (hres : ∀ x ∈ results t ++ p.result.toList, s.Justified x.1 x.2)
    (htook : own s.log t = bytesRead (results t) ++ p.taken)
    (hput : (own s.appends t).flatten = bytesWritten (results t) ++ p.sent)
    (hp : p = .outside ∨ (∃ e, p = .dropping e ∧ table e = 0 ∧ users e = []) ∨
      ∃ k, p = .top k ∧ t ∈ users k.own ∧ k.Valid) :
    Inv ({ s with table, users, results }.goto t p) := by
  have hpc : ∀ u ≠ t, ({ s with table, users, results }.goto t p).pc u = s.pc u :=
    fun u hu => goto_pc_of_ne _ hu
  have hcalm : Calm s ({ s with table, users, results }.goto t p) :=
    .inl ⟨rfl, rfl, wakeDue_of_ne hwake hpc⟩
  have hat : At ({ s with table, users, results }.goto t p) t p := by
    rcases hp with rfl | ⟨e', rfl, htable, husers⟩ | ⟨k, rfl, hmem, hvalid⟩
    · exact ⟨nofun, hres, htook, hput, nofun, nofun, fun _ => hdrained, nofun⟩
    · refine ⟨nofun, hres, htook, hput, ?_, nofun, fun _ => hdrained, nofun⟩
      rintro e ⟨⟩
      exact ⟨htable, husers⟩
    · refine ⟨?_, hres, htook, hput, nofun, nofun, fun _ => hdrained, nofun⟩
      rintro k' ⟨⟩
      exact ⟨hmem, hvalid⟩
  refine h.step_of_frame (t := t) ⟨hpc, hkept, fun e ht hu => ?_, fun e he => he, fun _ hb => hb,
    fun _ _ => rfl, fun _ _ => rfl, hresults, fun u _ hu => hu, fun u _ => rfl, fun _ => hcalm⟩
    h.fifo h.cap (fun e => ?_) ?_ (by rwa [goto_pc_self])
    (h.watched_of_calm id hcalm (asleep_of_goto t p ?_ _))
  · have hgone := (hopen e).2 ⟨ht, hu⟩
    exact ⟨hgone.1, hgone.2.1⟩
  · have hgone : ({ s with table, users, results }.goto t p).Gone e ↔ s.Gone e := by
      rw [gone_iff hpc, goto_pc_self, gone_iff (s := s) fun _ _ => rfl, hdrops]
      refine and_congr_left' ((hopen e).trans ?_)
      simp
    rw [hgone]
    exact h.ends e
  · intro e he u hu hdrop
    rw [goto_pc_self] at he
    -- whoever is dropping the end already had the last reference
    exact ((hopen e).2 ((h.thread u).dropping e hdrop)).2.2 (Pc.drops_eq_some.2 he)
  · rintro k rfl
    simp at hp

/-! ## The steps keep it -/

section

variable (h : Inv s)
include h

theorem Inv.loopTop (ht : s.pc t = .top k) : Inv (s.loopTop t k) := by
  have hat := h.at_pc ht
  obtain ⟨huser, hvalid⟩ := hat.call k rfl
  have hdrained := hat.drained rfl
  have hquiet : ∀ p : Pc, (Pc.top k).Same p → (∀ x ∈ p.result, s.Justified x.1 x.2) →
      p.locks = false → (∀ k, p ≠ .asleep k) → Inv (s.goto t p) := by
    intro p hsame hres hlocks hslp
    refine h.quiet (by simp [ht]) (ht ▸ hsame) hres (by simp [hlocks]) hdrained ?_ hslp
    rintro k' rfl
    cases hlocks
  cases k with
  | read n =>
    simp only [Pipe.loopTop]
    split_ifs with hbuf hends
    · have hne : s.buf.take n ≠ [] := by simpa [hbuf] using Nat.pos_iff_ne_zero.1 hvalid
      refine h.change ?_ ?_ (fun _ _ => rfl) (fun u hu => own_concat_of_ne _ hu _) (fun _ he => he)
        (h.ends_congr (fun u hu => goto_pc_of_ne _ hu) (by simp [ht, Pc.drops]) rfl rfl rfl)
        (fun _ hb => absurd hb hbuf) ?_ ?_ ?_ hat.put hdrained
      · rw [flatMap_append, append_assoc]
        exact h.fifo.trans (by simp [taken])
      · exact (drop_sublist n s.buf).length_le.trans h.cap
      · rintro k' ⟨⟩
        exact ⟨huser, hvalid⟩
      · rintro x ⟨⟩
        exact ⟨length_take_le .., fun hnil => absurd hnil hne⟩
      · rw [own_concat_self, hat.took]
        simp [Pc.taken, Pc.result, bytesRead, hne]
    · refine hquiet _ ⟨rfl, rfl, rfl⟩ ?_ rfl nofun
      rintro x ⟨⟩
      exact ⟨Nat.zero_le _, fun _ => ⟨hends, not_not.1 hbuf⟩⟩
    · exact hquiet _ ⟨rfl, rfl, rfl⟩ nofun rfl nofun
  | write data done =>
    simp only [Pipe.loopTop]
    split_ifs with hdone hends hzero
    · refine hquiet _ ⟨rfl, rfl, rfl⟩ ?_ rfl nofun
      rintro x ⟨⟩
      exact ⟨.inl rfl, .inl (by exact_mod_cast le_antisymm hvalid hdone)⟩
    · refine hquiet _ ⟨rfl, rfl, rfl⟩ ?_ rfl nofun
      rintro x ⟨⟩
      exact ⟨.inr ⟨rfl, hzero⟩, .inr hends⟩
    · refine hquiet _ ⟨rfl, rfl, rfl⟩ ?_ rfl nofun
      rintro x ⟨⟩
      exact ⟨.inl rfl, .inr hends⟩
    · exact hquiet _ ⟨rfl, rfl, rfl⟩ nofun rfl nofun

theorem Inv.doAppend {data : Bytes} {done : Nat} (ht : s.pc t = .append data done) :
    Inv (s.doAppend t data done) := by
  have hat := h.at_pc ht
  obtain ⟨huser, hvalid⟩ := hat.call _ rfl
  have hdone : done ≤ data.length := hvalid
  have hdrained := hat.drained rfl
  simp only [Pipe.doAppend]
  split_ifs with hspace
  · refine h.change ?_ ?_ (fun u hu => own_concat_of_ne _ hu _) (fun _ _ => rfl) (fun _ he => he)
      (h.ends_congr (fun u hu => goto_pc_of_ne _ hu) (by simp [ht, Pc.drops]) rfl rfl rfl)
      ?_ ?_ nofun hat.took ?_ hdrained
    · rw [flatMap_append]
      exact (congrArg (· ++ _) h.fifo).trans (by simp [taken])
    · rw [length_append, length_take]
      omega
    · -- the end of the writer itself is open
      intro hgone
      have hone := h.ends_of_open (e := .write) (.inr (ne_nil_of_mem huser))
      rw [hone] at hgone
      exact absurd hgone (by decide)
    · rintro k ⟨⟩
      refine ⟨huser, ?_⟩
      simp only [Call.Valid]
      omega
    · rw [own_concat_self, flatten_append, hat.put]
      simp [Pc.sent, Pc.call, take_add]
  · exact h.quiet (by simp [ht]) (by rw [ht]; exact ⟨rfl, rfl, rfl⟩) nofun nofun hdrained nofun
      nofun

theorem Inv.lockQueue (ht : s.pc t = .lock k) (hwq : s.wq.acquire t = some wq) :
    Inv ({ s with wq }.goto t (.checkBuf k)) := by
  have hat := h.at_pc ht
  have hnone : ∀ u ≠ t, s.wq.lock = some u → wq.lock = some u := by
    intro u _ hu
    simp [Condition.acquire, hu] at hwq
  have hwake : ∀ next, s.pc t ≠ .wake next := by simp [ht]
  have hwatch := h.watched_of_calm (·.acquire hwq) (calm_goto (.checkBuf k) hwake wq)
    (asleep_of_goto t (.checkBuf k) nofun _)
  obtain ⟨-, ⟨⟩⟩ := ite_none_right_eq_some.1 hwq
  exact h.pass hnone (fun u _ => rfl) (fun _ => hwake) (by rw [ht]; exact ⟨rfl, rfl, rfl⟩) nofun
    (fun _ => rfl) (fun _ => hat.drained rfl) nofun hwatch

theorem Inv.unlockQueue (ht : s.pc t = .checkBuf k ∨ s.pc t = .checkEnds k) :
    Inv ({ s with wq := s.wq.release }.goto t (.top k)) := by
  have hat := h.thread t
  have hwake : ∀ next, s.pc t ≠ .wake next := by rcases ht with ht | ht <;> simp [ht]
  have hlocks : (s.pc t).locks = true := by rcases ht with ht | ht <;> rw [ht] <;> rfl
  refine h.pass (Condition.lock_of_ne (hat.locked hlocks)) (fun u _ => rfl) (fun _ => hwake) ?_
    nofun nofun (fun _ => hat.drained ?_) nofun (h.watched_of_calm (·.release)
      (calm_goto (.top k) hwake _) (asleep_of_goto t (.top k) nofun _))
  · rcases ht with ht | ht <;> rw [ht] <;> exact ⟨rfl, rfl, rfl⟩
  · rcases ht with ht | ht <;> rw [ht] <;> rfl

theorem Inv.fallAsleep (ht : s.pc t = .checkEnds k) (hends : s.ends k.other ≠ 0) :
    Inv ({ s with wq := s.wq.enqueue t }.goto t (.asleep k)) := by
  have hat := h.at_pc ht
  have hwake : ∀ next, s.pc t ≠ .wake next := by simp [ht]
  have hcalm := calm_goto (.asleep k) hwake (s.wq.enqueue t)
  have hmay : s.MaySleep k := (hat.checked k rfl).imp_left fun hstuck => ⟨hstuck, hends⟩
  refine h.pass (Condition.lock_of_ne (hat.locked rfl)) (fun u _ => rfl) (fun _ => hwake)
    (by rw [ht]; exact ⟨rfl, rfl, rfl⟩) nofun nofun (fun _ => hat.drained rfl) nofun
    (h.watched.fallAsleep (fun k' hk' => ?_) (fun u hut ⟨k', hk'⟩ => ?_)
      fun u hut hgood k' hk' => ?_)
  · -- `t` has checked both conditions with the queue locked
    rw [goto_pc_self] at hk'
    cases hk'
    exact hcalm.maySleep hmay
  · exact ⟨k', (goto_pc_of_ne _ hut).symm.trans hk'⟩
  · exact hcalm.maySleep (hgood k' ((goto_pc_of_ne _ hut).symm.trans hk'))

theorem Inv.drainQueue (ht : s.pc t = .wake next) (hwq : s.wq.drain t = some wq) :
    Inv ({ s with wq }.goto t (.unblock next)) := by
  have hat := h.at_pc ht
  have hmono : s.wq.Watched ({ s with wq }.goto t (.unblock next)).Asleep s.RightlyAsleep :=
    h.watched.mono (fun u ⟨k, hk⟩ => ⟨k, asleep_of_goto t (.unblock next) nofun _ u k hk⟩)
      fun _ _ hgood => hgood
  have hwatch : wq.Watched ({ s with wq }.goto t (.unblock next)).Asleep
      ({ s with wq }.goto t (.unblock next)).RightlyAsleep :=
    hmono.drain hwq (hat.drained rfl)
  obtain ⟨hnone, ⟨⟩⟩ := ite_none_right_eq_some.1 hwq
  refine h.pass (fun u _ hu => hu) (fun u hu => update_of_ne hu ..)
    (fun hl => absurd hnone hl) ?_ (fun x hx => ?_) nofun nofun nofun hwatch
  · rw [ht]
    cases next <;> exact ⟨rfl, rfl, rfl⟩
  · exact hat.result x (mem_append_right _ (mem_toList.2 (by cases next <;> exact hx)))

theorem Inv.unblockNext (ht : s.pc t = .unblock next) : Inv { s with wq := s.wq.unblock t } := by
  have hself : { s with wq := s.wq.unblock t } = { s with wq := s.wq.unblock t }.goto t
    (.unblock next) := by
    simp [goto, ← ht]
  have hat := h.at_pc ht
  have hwake : ∀ next, s.pc t ≠ .wake next := by simp [ht]
  rw [hself]
  exact h.pass (fun u _ hu => (s.wq.lock_unblock t).trans hu) (fun u hu => s.wq.draining_unblock hu)
    (fun _ => hwake) (by rw [ht]; exact ⟨rfl, rfl, rfl⟩)
    (fun x hx => hat.result x (mem_append_right _ (mem_toList.2 hx)))
    nofun nofun nofun (h.watched_of_calm (·.unblock t) (calm_goto (.unblock next) hwake _)
      (asleep_of_goto t (.unblock next) nofun _))

theorem Inv.afterWake (ht : s.pc t = .unblock next) (hdrained : s.wq.draining t = []) :
    Inv (s.goto t next.pc) := by
  have hat := h.at_pc ht
  refine h.quiet (by simp [ht]) ?_ (fun x hx => hat.result x ?_) ?_ hdrained ?_ ?_
  · rw [ht]
    cases next <;> exact ⟨rfl, rfl, rfl⟩
  · exact mem_append_right _ (mem_toList.2 (by cases next <;> exact hx))
  all_goals cases next <;> exact nofun

theorem Inv.unref {table : End → Nat} {users : End → List T} {results : T → List (Call × Result)}
    (hwake : ∀ next, s.pc t ≠ .wake next) (hdrops : (s.pc t).drops = none)
    (hdrained : s.wq.draining t = []) (hopen : 0 < s.table e ∨ s.users e ≠ [])
    (hkept : ∀ u ≠ t, ∀ e, u ∈ s.users e → u ∈ users e)
    (hothers : ∀ e' ≠ e, table e' = s.table e' ∧ users e' = s.users e')
    (hresults : ∀ u ≠ t, results u = s.results u)
    (hres : ∀ x ∈ results t, s.Justified x.1 x.2) (htook : own s.log t = bytesRead (results t))
    (hput : (own s.appends t).flatten = bytesWritten (results t)) :
    Inv (Pipe.unref { s with table, users, results } t e) := by
  rw [← append_nil (results t)] at hres
  rw [← append_nil (bytesRead _)] at htook
  rw [← append_nil (bytesWritten _)] at hput
  rw [Pipe.unref]
  split
  · next hlast =>
    refine h.refs hwake hdrops hdrained hkept (fun e' => ?_) hresults hres htook hput
      (.inr (.inl ⟨e, rfl, hlast⟩))
    by_cases he : e' = e
    · subst he
      simp only [Pc.drops, ne_eq, not_true, and_false, false_iff]
      rintro ⟨htable, husers⟩
      simp [htable, husers] at hopen
    · rw [(hothers e' he).1, (hothers e' he).2]
      simp [Pc.drops, Ne.symm he]
  · next hlast =>
    refine h.refs hwake hdrops hdrained hkept (fun e' => ?_) hresults hres htook hput (.inl rfl)
    by_cases he : e' = e
    · subst he
      refine iff_of_false (fun hgone => hlast ⟨hgone.1, hgone.2.1⟩) ?_
      rintro ⟨htable, husers⟩
      simp [htable, husers] at hopen
    · rw [(hothers e' he).1, (hothers e' he).2]
      simp [Pc.drops]

theorem Inv.return {r : Result} (ht : s.pc t = .returned k r) :
    Inv (Pipe.unref { s with
      users := update s.users k.own ((s.users k.own).erase t)
      results := update s.results t (s.results t ++ [(k, r)]) } t k.own) := by
  have hat := h.at_pc ht
  obtain ⟨huser, -⟩ := hat.call k rfl
  refine h.unref (by simp [ht]) (by rw [ht]; rfl) (hat.drained rfl) (.inr (ne_nil_of_mem huser))
    ?_ (fun e' he => ⟨rfl, update_of_ne he ..⟩) (fun u hu => update_of_ne hu ..) ?_ ?_ ?_
  · intro u hu e hmem
    by_cases he : e = k.own
    · subst he
      simpa using (mem_erase_of_ne hu).2 hmem
    · simpa [update_of_ne he] using hmem
  · rw [update_self]
    exact hat.result
  · rw [update_self, hat.took, bytesRead, filterMap_append]
    rfl
  · -- the number that `write` returns is the number of bytes it appended
    rw [update_self, hat.put, bytesWritten, flatMap_append]
    have hjust := hat.result (k, r) (mem_append_right _ (mem_singleton_self _))
    cases k with
    | read n =>
      cases r with
      | read bytes => rfl
      | write m => exact hjust.elim
    | write data done =>
      cases r with
      | read bytes => exact hjust.elim
      | write m =>
        rcases hjust.1 with rfl | ⟨rfl, rfl⟩
        · simp [Pc.sent, Pc.call]
        · rfl

theorem Inv.drop (ht : s.pc t = .dropping e) :
    Inv ({ s with ends := update s.ends e (s.ends e - 1) }.goto t (.wake .leave)) := by
  have hat := h.at_pc ht
  obtain ⟨htable, husers⟩ := hat.dropping e rfl
  have hone : s.ends e = 1 := by
    rcases h.ends e with ⟨hgone, -⟩ | ⟨-, hone⟩
    · exact absurd (by rw [ht]; rfl) (hgone.2.2 t)
    · exact hone
  have hpc : ∀ u ≠ t, ({ s with ends := update s.ends e (s.ends e - 1) }.goto t
      (.wake .leave)).pc u = s.pc u := fun u hu => goto_pc_of_ne _ hu
  refine h.change h.fifo h.cap (fun _ _ => rfl) (fun _ _ => rfl) (fun e' he' => ?_) (fun e' => ?_)
    (fun _ hb => hb) nofun nofun hat.took hat.put (hat.drained rfl)
  · have hne : e' ≠ e := by
      rintro rfl
      rw [hone] at he'
      exact absurd he' (by decide)
    exact (update_of_ne hne ..).trans he'
  · rw [gone_iff hpc, goto_pc_self]
    by_cases he : e' = e
    · subst he
      refine .inl ⟨⟨⟨htable, husers, nofun⟩, fun u hu hdrop => ?_⟩, by simp [hone]⟩
      exact hu (h.once u t e' (Pc.drops_eq_some.1 hdrop) ht)
    · rw [update_of_ne he]
      have hold := h.ends e'
      rw [gone_iff (s := s) (t := t) fun _ _ => rfl, ht] at hold
      simpa [goto, Pc.drops, Ne.symm he] using hold

theorem Inv.begin (hvalid : k.Valid) (hsent : (Pc.top k).sent = [])
    (hs : s.begin t k = some s') : Inv s' := by
  obtain ⟨⟨ht, htable⟩, ⟨⟩⟩ := ite_none_right_eq_some.1 hs
  have hat := h.at_pc ht
  refine h.refs (by simp [ht]) (by rw [ht]; rfl) (hat.drained rfl) ?_ (fun e => ?_) (fun _ _ => rfl)
    hat.result hat.took (by rw [hsent]; exact hat.put) (.inr (.inr ⟨k, rfl, by simp, hvalid⟩))
  · intro u _ e hmem
    by_cases he : e = k.own
    · subst he
      simpa using .inr hmem
    · simpa [update_of_ne he] using hmem
  · by_cases he : e = k.own
    · subst he
      simp [htable.ne']
    · simp [update_of_ne he, Pc.drops]

theorem Inv.share (ht : s.pc t = .outside) (hopen : 0 < s.table e) :
    Inv ({ s with table := update s.table e (s.table e + 1) }.goto t .outside) := by
  have hat := h.at_pc ht
  refine h.refs (by simp [ht]) (by rw [ht]; rfl) (hat.drained rfl) (fun _ _ _ hmem => hmem)
    (fun e' => ?_) (fun _ _ => rfl) hat.result hat.took hat.put (.inl rfl)
  by_cases he : e' = e
  · subst he
    simp [hopen.ne']
  · simp [update_of_ne he, Pc.drops]

theorem Inv.close (ht : s.pc t = .outside) (hopen : 0 < s.table e) :
    Inv (Pipe.unref { s with table := update s.table e (s.table e - 1) } t e) := by
  have hat := h.at_pc ht
  exact h.unref (by simp [ht]) (by rw [ht]; rfl) (hat.drained rfl) (.inl hopen)
    (fun _ _ _ hmem => hmem) (fun e' he => ⟨update_of_ne he .., rfl⟩) (fun _ _ => rfl)
    (fun x hx => hat.result x (mem_append_left _ hx)) (hat.took.trans (append_nil _))
    (hat.put.trans (append_nil _))

theorem Inv.advance (hs : s.advance t = some s') : Inv s' := by
  rw [Pipe.advance] at hs
  split at hs
  next => cases hs
  next k ht =>
    cases hs
    exact h.loopTop ht
  next data done ht =>
    cases hs
    exact h.doAppend ht
  next k ht =>
    obtain ⟨wq, hwq, rfl⟩ := map_eq_some_iff.1 hs
    exact h.lockQueue ht hwq
  next k ht =>
    split at hs
    · next hstuck =>
      cases hs
      have hat := h.at_pc ht
      refine h.quiet (by simp [ht]) (by rw [ht]; exact ⟨rfl, rfl, rfl⟩) nofun
        (fun _ => hat.locked rfl) (hat.drained rfl) ?_ nofun
      rintro k' ⟨⟩
      exact hstuck
    · cases hs
      exact h.unlockQueue (.inl ht)
  next k ht =>
    split at hs
    · next hends =>
      cases hs
      exact h.fallAsleep ht hends
    · cases hs
      exact h.unlockQueue (.inr ht)
  next k ht =>
    obtain ⟨-, ⟨⟩⟩ := ite_none_right_eq_some.1 hs
    have hat := h.at_pc ht
    exact h.quiet (by simp [ht]) (by rw [ht]; exact ⟨rfl, rfl, rfl⟩) nofun nofun (hat.drained rfl)
      nofun nofun
  next next ht =>
    obtain ⟨wq, hwq, rfl⟩ := map_eq_some_iff.1 hs
    exact h.drainQueue ht hwq
  next next ht =>
    split at hs
    · next hdrained =>
      cases hs
      exact h.afterWake ht hdrained
    · cases hs
      exact h.unblockNext ht
  next k r ht =>
    cases hs
    exact h.return ht
  next e ht =>
    cases hs
    exact h.drop ht

theorem Inv.step (a : Act T) (hs : s.step a = some s') : Inv s' := by
  cases a with
  | read t n =>
    obtain ⟨hn, hs⟩ := ite_none_right_eq_some.1 hs
    exact h.begin (k := .read n) hn rfl hs
  | write t data => exact h.begin (k := .write data 0) (Nat.zero_le _) rfl hs
  | next t => exact h.advance hs
  | share t e =>
    obtain ⟨⟨ht, hopen⟩, ⟨⟩⟩ := ite_none_right_eq_some.1 hs
    exact h.share ht hopen
  | close t e =>
    obtain ⟨⟨ht, hopen⟩, ⟨⟩⟩ := ite_none_right_eq_some.1 hs
    exact h.close ht hopen

end

/-! ## Main result -/

/-- The pipe is correct in every state that any threads can bring it to. -/
theorem pipe_correct {s : Pipe T} (h : Reach step new s) : Correct s :=
  (h.invariant (fun _ a _ hinv _ hs => hinv.step a hs) inv_new).correct

def readWoken : List (Act (Fin 2)) :=
  [.read 0 4, .next 0, .next 0, .next 0, .next 0,
    .write 1 [104], .next 1, .next 1, .next 1, .next 1, .next 1, .next 1, .next 1,
    .next 0, .next 0, .next 0, .next 0, .next 0,
    .read 0 4, .next 0, .next 0, .next 0, .next 0,
    .close 1 .write, .next 1, .next 1, .next 1, .next 1, .next 0, .next 0, .next 0]

theorem pipe_correct_readWoken : ∃ s : Pipe (Fin 2), Reach step new s ∧
    s.results 0 = [(.read 4, .read [104]), (.read 4, .read [])] ∧
    s.results 1 = [(.write [104] 1, .write 1)] ∧ s.ends .write = 0 ∧ Correct s := by
  obtain ⟨s, hreach, hread, hwrite, hends⟩ : ∃ s, Reach step new s ∧
      s.results 0 = [(.read 4, .read [104]), (.read 4, .read [])] ∧
      s.results 1 = [(.write [104] 1, .write 1)] ∧ s.ends .write = 0 :=
    exists_reach readWoken (by decide +kernel)
  exact ⟨s, hreach, hread, hwrite, hends, pipe_correct hreach⟩

end Pipe

end Thos.File
