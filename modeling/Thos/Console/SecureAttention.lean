import Thos.Lib.Text

/-!
# The console and the secure attention key

`console.rs` decodes keyboard reports and queues bytes for readers. Ctrl+Alt+Delete starts a
period in which keys go to a buffer of their own, up to and including the report that has
Enter. The lock of the queue is held for one byte at a time, so a read may come between two keys
of one report.

What readers get, and the queue, do not depend on what was typed in such a period
(`secure_input_unreadable`): two runs that differ only there are related by `Alike`, which says
nothing about the buffer, and about the held keys only outside a period.

What is echoed on the serial line is left out.
-/

set_option autoImplicit false

namespace Thos.Console

open Thos.Lib

/-! ## Keys -/

/-- The three meanings of a key, plain, with Shift, and with AltGr; 0 is none. -/
def layout (code : UInt8) : Option (UInt8 × UInt8 × UInt8) :=
  -- the letters, of which Y, Z and Q are special
  if code = 0x1C then some (122, 90, 0)
  else if code = 0x1D then some (121, 89, 0)
  else if code = 0x14 then some (113, 81, 64)
  else if 0x04 ≤ code ∧ code ≤ 0x1D then some (97 + (code - 0x04), 97 + (code - 0x04) - 32, 0)
  else if code = 0x1E then some (49, 33, 0)
  else if code = 0x1F then some (50, 34, 0)
  else if code = 0x20 then some (51, 0, 0)
  else if code = 0x21 then some (52, 36, 0)
  else if code = 0x22 then some (53, 37, 0)
  else if code = 0x23 then some (54, 38, 0)
  else if code = 0x24 then some (55, 47, 123)
  else if code = 0x25 then some (56, 40, 91)
  else if code = 0x26 then some (57, 41, 93)
  else if code = 0x27 then some (48, 61, 125)
  else if code = 0x2D then some (0, 63, 92)
  else if code = 0x2E then some (0, 0, 0)
  else if code = 0x28 then some (10, 10, 0)
  else if code = 0x2A then some (8, 8, 0)
  else if code = 0x2B then some (9, 9, 0)
  else if code = 0x2C then some (32, 32, 0)
  else if code = 0x2F then some (0, 0, 0)
  else if code = 0x30 then some (43, 42, 126)
  else if code = 0x31 then some (35, 39, 0)
  else if code = 0x33 then some (0, 0, 0)
  else if code = 0x34 then some (0, 0, 0)
  else if code = 0x35 then some (0, 0, 0)
  else if code = 0x36 then some (44, 59, 0)
  else if code = 0x37 then some (46, 58, 0)
  else if code = 0x38 then some (45, 95, 0)
  else if code = 0x64 then some (60, 62, 124)
  else none

/-- The `ascii` of `console.rs`: the byte of a key. -/
def asciiOf (code : UInt8) (shift altgr : Bool) : UInt8 :=
  match layout code with
  | none => 0
  | some (lo, hi, ag) => if altgr then ag else if shift then hi else lo

def kcDelete : UInt8 := 0x4C

/-- A keyboard report: modifiers, a reserved byte, and the keys that are down. -/
structure Report where
  (modifiers reserved : UInt8)
  keys : Vector UInt8 6
  deriving DecidableEq

variable (r : Report)

def Report.shift : Bool := r.modifiers &&& 0x22 ≠ 0

def Report.altgr : Bool := r.modifiers &&& 0x40 ≠ 0

def Report.ctrl : Bool := r.modifiers &&& 0x11 ≠ 0

def Report.alt : Bool := r.modifiers &&& 0x44 ≠ 0

/-! ## State -/

/-- The statics of `console.rs`. `got` notes what the reads have returned, and `lines` the lines
that `sak_finish` was called with. -/
structure Input where
  queue : Bytes
  prev : List UInt8
  lineLen : Nat
  sakActive : Bool
  sakBuf : Bytes
  (got lines : List Bytes)
  deriving DecidableEq

namespace Input

variable (c : Input)

/-- `read` into a buffer of `n` bytes. -/
def read (n : Nat) : Input := { c with queue := c.queue.drop n, got := c.got ++ [c.queue.take n] }

/-- Reads one after the other. -/
def reads (ns : List Nat) : Input := ns.foldl read c

variable (r : Report)

/-- A key that goes down with this report: none, or the byte of the key. -/
def pressed (k : UInt8) : UInt8 := if k = 0 ∨ k ∈ c.prev then 0 else asciiOf k r.shift r.altgr

/-- One key in `feed_report`. -/
def typeKey (c : Input) (k : UInt8) : Input :=
  let ch := c.pressed r k
  if ch = 0 then c
  else if ch = 0x08 then
    if 0 < c.lineLen then { c with lineLen := c.lineLen - 1, queue := c.queue.dropLast } else c
  else { c with queue := c.queue ++ [ch], lineLen := if ch = 10 then 0 else c.lineLen + 1 }

/-- The keys of a report, each after the reads that come before it. -/
def typeKeys (c : Input) (ks : List (UInt8 × List Nat)) : Input :=
  ks.foldl (fun c k => typeKey r (c.reads k.2) k.1) c

def sakBegin : Input := { c with sakActive := true, sakBuf := [] }

/-- `sak_finish`, but for the check of the line. -/
def sakFinish : Input := { c with sakBuf := [], sakActive := false, lines := c.lines ++ [c.sakBuf] }

/-- The loop of `sak_feed`. Reads go on when it returns early. -/
def sakKeys (r : Report) : Input → List (UInt8 × List Nat) → Input
  | c, [] => { c with prev := r.keys.toList }
  | c, (k, ns) :: ks =>
    let c := c.reads ns
    let ch := c.pressed r k
    if ch = 0 then sakKeys r c ks
    else if ch = 0x08 then sakKeys r { c with sakBuf := c.sakBuf.dropLast } ks
    else if ch = 10 then (sakFinish { c with prev := r.keys.toList }).reads (ks.flatMap Prod.snd)
    else sakKeys r { c with sakBuf := c.sakBuf ++ [ch] } ks

/-- The report starts a period. -/
def Triggers : Prop :=
  c.sakActive = false ∧ r.ctrl ∧ r.alt ∧ kcDelete ∈ r.keys.toList ∧ kcDelete ∉ c.prev

instance (c : Input) (r : Report) : Decidable (c.Triggers r) := inferInstanceAs (Decidable (_ ∧ _))

/-- `feed_report`, with the reads that come before each key. -/
def feedReport (ns : Vector (List Nat) 6) : Input :=
  let ks := r.keys.toList.zip ns.toList
  if c.Triggers r then (sakBegin { c with prev := r.keys.toList }).reads (ks.flatMap Prod.snd)
  else if c.sakActive then sakKeys r c ks
  else { typeKeys r c ks with prev := r.keys.toList }

end Input

variable {c c' : Input}

open Input

/-! ## Runs -/

/-- A report, with the reads during it, or a read between reports. -/
inductive Event
  | report (r : Report) (ns : Vector (List Nat) 6)
  | read (n : Nat)
  deriving DecidableEq

def Input.step (c : Input) : Event → Input
  | .report r ns => c.feedReport r ns
  | .read n => c.read n

def Input.run (c : Input) (es : List Event) : Input := es.foldl step c

/-- Where an event is with respect to the secure attention periods. -/
inductive Mark
  | outside
  | begins
  | inside
  | ends
  deriving DecidableEq

def Input.mark (c : Input) : Event → Mark
  | .read _ => .outside
  | .report r ns =>
    if c.Triggers r then .begins
    else if c.sakActive then if (c.feedReport r ns).sakActive then .inside else .ends
    else .outside

/-- The periods of a run. -/
def Input.marks (c : Input) : List Event → List Mark
  | [] => []
  | e :: es => c.mark e :: (c.step e).marks es

/-- What two runs must have in common of an event: the report, if it is outside the periods or the
last of one, and in any case the reads. -/
def Mark.public (m : Mark) : Event → Option Report × (Vector (List Nat) 6 ⊕ Nat)
  | .read n => (none, .inr n)
  | .report r ns => (if m = .outside ∨ m = .ends then some r else none, .inl ns)

/-- What two runs must have in common of all events. -/
def Input.publics (c : Input) : List Event → List (Option Report × (Vector (List Nat) 6 ⊕ Nat))
  | [] => []
  | e :: es => (c.mark e).public e :: (c.step e).publics es

/-! ## What is in sight -/

namespace Input

/-- The queue, the length of the line, and what was read. -/
def view (c : Input) : Bytes × Nat × List Bytes := (c.queue, c.lineLen, c.got)

theorem view_read (h : c.view = c'.view) (n : Nat) : (c.read n).view = (c'.read n).view := by
  obtain ⟨hq, hl, hg⟩ : c.queue = c'.queue ∧ c.lineLen = c'.lineLen ∧ c.got = c'.got := by
    simpa [view] using h
  simp only [view, read, hq, hl, hg]

theorem view_reads (h : c.view = c'.view) (ns : List Nat) :
    (c.reads ns).view = (c'.reads ns).view := by
  induction ns generalizing c c' with
  | nil => exact h
  | cons n ns ih => exact ih (view_read h n)

theorem reads_append (c : Input) (ns ms : List Nat) : c.reads (ns ++ ms) = (c.reads ns).reads ms :=
  List.foldl_append

theorem reads_frame (c : Input) (ns : List Nat) :
    (c.reads ns).prev = c.prev ∧ (c.reads ns).sakActive = c.sakActive := by
  induction ns generalizing c with
  | nil => exact ⟨rfl, rfl⟩
  | cons n ns ih => exact ih (c.read n)

section

variable (r : Report) (c : Input) (ks : List (UInt8 × List Nat))

theorem view_sakKeys : (sakKeys r c ks).view = (c.reads (ks.flatMap Prod.snd)).view := by
  induction ks generalizing c with
  | nil => rfl
  | cons k ks ih =>
    rw [List.flatMap_cons, reads_append]
    simp only [sakKeys]
    split_ifs
    · exact ih _
    · refine (ih _).trans (view_reads ?_ _)
      rfl
    · refine view_reads ?_ _
      rfl
    · refine (ih _).trans (view_reads ?_ _)
      rfl

theorem prev_sakKeys : (sakKeys r c ks).prev = r.keys.toList := by
  induction ks generalizing c with
  | nil => rfl
  | cons k ks ih =>
    simp only [sakKeys]
    split_ifs
    · exact ih _
    · exact ih _
    · exact (reads_frame ..).1
    · exact ih _

theorem lines_reads (ns : List Nat) : (c.reads ns).lines = c.lines := by
  induction ns generalizing c with
  | nil => rfl
  | cons n ns ih => exact ih (c.read n)

theorem lines_sakKeys :
    (sakKeys r c ks).lines = c.lines ∨ ∃ line, (sakKeys r c ks).lines = c.lines ++ [line] := by
  induction ks generalizing c with
  | nil => exact .inl rfl
  | cons k ks ih =>
    rw [← lines_reads c k.2]
    simp only [sakKeys]
    split_ifs
    · exact ih _
    · exact ih { c.reads k.2 with sakBuf := (c.reads k.2).sakBuf.dropLast }
    · exact .inr ⟨_, lines_reads ..⟩
    · exact ih { c.reads k.2 with sakBuf
        := (c.reads k.2).sakBuf ++ [(c.reads k.2).pressed r k.1] }

theorem lines_typeKeys : (typeKeys r c ks).lines = c.lines := by
  induction ks generalizing c with
  | nil => rfl
  | cons k ks ih =>
    refine (ih _).trans (Eq.trans ?_ (lines_reads c k.2))
    simp only [typeKey]
    split_ifs <;> rfl

theorem lines_feedReport (c : Input) (r : Report) (ns : Vector (List Nat) 6) :
    (c.feedReport r ns).lines = c.lines ∨
      ∃ line, (c.feedReport r ns).lines = c.lines ++ [line] := by
  simp only [feedReport]
  split_ifs
  · exact .inl (lines_reads ..)
  · exact lines_sakKeys r c _
  · exact .inl (lines_typeKeys r c _)

theorem typeKey_frame (k : UInt8) :
    (typeKey r c k).prev = c.prev ∧ (typeKey r c k).sakActive = c.sakActive := by
  simp only [typeKey]
  split_ifs <;> exact ⟨rfl, rfl⟩

theorem view_typeKey {c c' : Input} (h : c.view = c'.view) (hprev : c.prev = c'.prev) (r : Report)
    (k : UInt8) : (typeKey r c k).view = (typeKey r c' k).view := by
  obtain ⟨hq, hl, hg⟩ : c.queue = c'.queue ∧ c.lineLen = c'.lineLen ∧ c.got = c'.got := by
    simpa [view] using h
  simp only [typeKey, pressed, hprev, hl]
  split_ifs <;> simp only [view, hq, hl, hg]

theorem typeKeys_frame : (typeKeys r c ks).sakActive = c.sakActive := by
  induction ks generalizing c with
  | nil => rfl
  | cons k ks ih => exact (ih _).trans ((typeKey_frame r _ k.1).2.trans (reads_frame c k.2).2)

end

theorem view_typeKeys (h : c.view = c'.view) (hprev : c.prev = c'.prev) (r : Report)
    (ks : List (UInt8 × List Nat)) : (typeKeys r c ks).view = (typeKeys r c' ks).view := by
  induction ks generalizing c c' with
  | nil => exact h
  | cons k ks ih =>
    have hprev' : (c.reads k.2).prev = (c'.reads k.2).prev := by
      rw [(reads_frame c k.2).1, (reads_frame c' k.2).1, hprev]
    refine ih (view_typeKey (view_reads h k.2) hprev' r k.1) ?_
    rw [(typeKey_frame r _ k.1).1, (typeKey_frame r _ k.1).1, hprev']

/-! ## Reports of a period -/

theorem flatMap_zip_snd (r : Report) (ns : Vector (List Nat) 6) :
    (r.keys.toList.zip ns.toList).flatMap Prod.snd = ns.toList.flatten := by
  rw [List.flatMap, List.map_snd_zip (by simp)]

theorem view_of_mark {r : Report} {ns : Vector (List Nat) 6}
    (hmark : c.mark (.report r ns) ≠ .outside) :
    (c.feedReport r ns).view = (c.reads ns.toList.flatten).view ∧
      (c.feedReport r ns).prev = r.keys.toList := by
  simp only [mark] at hmark
  simp only [feedReport, ← flatMap_zip_snd r ns]
  split_ifs at hmark ⊢ with htrig hact hafter
  · refine ⟨view_reads ?_ _, (reads_frame ..).1⟩
    rfl
  · exact ⟨view_sakKeys r c _, prev_sakKeys r c _⟩
  · exact ⟨view_sakKeys r c _, prev_sakKeys r c _⟩
  · exact absurd rfl hmark

theorem feedReport_of_outside {r : Report} {ns : Vector (List Nat) 6}
    (hmark : c.mark (.report r ns) = .outside) :
    c.sakActive = false ∧ c.feedReport r ns = { typeKeys r c
        (r.keys.toList.zip ns.toList) with prev := r.keys.toList } := by
  simp only [mark] at hmark
  split_ifs at hmark with htrig hact
  · exact ⟨by simpa using hact, by simp only [feedReport, if_neg htrig, if_neg hact]⟩

theorem sakActive_feedReport (c : Input) (r : Report) (ns : Vector (List Nat) 6) :
    (c.feedReport r ns).sakActive =
    decide (c.mark (.report r ns) = .begins ∨ c.mark (.report r ns) = .inside) := by
  by_cases htrig : c.Triggers r
  · simp [feedReport, mark, htrig, (reads_frame ..).2, sakBegin]
  · by_cases hact : c.sakActive
    · by_cases hafter : (c.feedReport r ns).sakActive <;> simp [mark, htrig, hact, hafter]
    · simp [feedReport, mark, htrig, hact, typeKeys_frame]

end Input

/-! ## Two runs -/

/-- The two consoles have the same in sight and are in the same mode; outside a period they hold
the same keys. -/
structure Alike (c c' : Input) : Prop where
  view : c.view = c'.view
  active : c.sakActive = c'.sakActive
  prev : c.sakActive = false → c.prev = c'.prev

theorem Alike.refl (c : Input) : Alike c c := ⟨rfl, rfl, fun _ => rfl⟩

theorem Alike.step (h : Alike c c') {e e' : Event} (hmark : c.mark e = c'.mark e')
    (hpub : (c.mark e).public e = (c'.mark e').public e') : Alike (c.step e) (c'.step e') := by
  cases e with
  | read n =>
    cases e' with
    | report r' ns' => simp [Mark.public] at hpub
    | read n' =>
      obtain rfl : n = n' := by simpa [Mark.public] using hpub
      exact ⟨Input.view_read h.view n, h.active, h.prev⟩
  | report r ns =>
    cases e' with
    | read n' => simp [Mark.public] at hpub
    | report r' ns' =>
      rw [← hmark] at hpub
      obtain ⟨hrep, rfl⟩ : (c.mark (.report r ns) = .outside ∨ c.mark (.report r ns) =
        .ends → r = r') ∧ ns = ns' := by
        simp only [Mark.public, Prod.mk.injEq, Sum.inl.injEq] at hpub
        refine ⟨fun hor => ?_, hpub.2⟩
        simpa [hor] using hpub.1
      have hact : (c.feedReport r ns).sakActive = (c'.feedReport r' ns).sakActive := by
        rw [Input.sakActive_feedReport, Input.sakActive_feedReport, hmark]
      by_cases hout : c.mark (.report r ns) = .outside
      · obtain rfl := hrep (.inl hout)
        obtain ⟨hoff, hfeed⟩ := Input.feedReport_of_outside hout
        obtain ⟨-, hfeed'⟩ := Input.feedReport_of_outside (hmark ▸ hout)
        refine ⟨?_, hact, fun _ => ?_⟩
        · simp only [Input.step, hfeed, hfeed']
          exact Input.view_typeKeys h.view (h.prev hoff) r _
        · simp only [Input.step, hfeed, hfeed']
      · obtain ⟨hview, hprev⟩ := Input.view_of_mark hout
        obtain ⟨hview', hprev'⟩ := Input.view_of_mark (hmark ▸ hout)
        refine ⟨hview.trans ((Input.view_reads h.view _).trans hview'.symm), hact, fun hend => ?_⟩
        -- no period after this report, so it is the last of one
        have hends : c.mark (.report r ns) = .ends := by
          have hnot := Input.sakActive_feedReport c r ns
          rw [show (c.feedReport r ns).sakActive = false from hend] at hnot
          cases hm : c.mark (.report r ns) <;> simp_all
        rw [Input.step, Input.step, hprev, hprev', hrep (.inr hends)]

theorem Alike.run (h : Alike c c') {es es' : List Event} (hmarks : c.marks es = c'.marks es')
    (hpublics : c.publics es = c'.publics es') : Alike (c.run es) (c'.run es') := by
  induction es generalizing c c' es' with
  | nil =>
    cases es' with
    | nil => exact h
    | cons e' es' => cases hmarks
  | cons e es ih =>
    cases es' with
    | nil => cases hmarks
    | cons e' es' =>
      obtain ⟨hmark, hmarks⟩ := List.cons.inj hmarks
      obtain ⟨hpub, hpublics⟩ := List.cons.inj hpublics
      exact ih (h.step hmark hpub) hmarks hpublics

/-- Two runs from the same console whose secure attention periods are at the same places, which have
the same reports outside the periods and at the end of each, and the same reads: readers get the
same bytes, and the queue is the same. No report of a period puts anything into the queue. -/
theorem secure_input_unreadable (c : Input) (es : List Event) :
    (∀ es', c.marks es = c.marks es' → c.publics es = c.publics es' →
      (c.run es).got = (c.run es').got ∧ (c.run es).queue = (c.run es').queue) ∧
    ∀ pre r ns post, es = pre ++ .report r ns :: post → (c.run pre).mark (.report r ns) ≠ .outside →
      (c.run (pre ++ [.report r ns])).queue = ((c.run pre).reads ns.toList.flatten).queue := by
  constructor
  · intro es' hmarks hpublics
    have hview := ((Alike.refl c).run hmarks hpublics).view
    simp only [view, Prod.mk.injEq] at hview
    exact ⟨hview.2.2, hview.1⟩
  · intro pre r ns post _ hmark
    have hview := (view_of_mark hmark).1
    simp only [view, Prod.mk.injEq] at hview
    rw [run, List.foldl_append]
    exact hview.1

/-- The console at boot. -/
def Input.new : Input := ⟨[], [0, 0, 0, 0, 0, 0], 0, false, [], [], []⟩

/-- A report with one key down and no reads during it. -/
def keyDown (modifiers key : UInt8) : Event :=
  .report ⟨modifiers, 0, #v[key, 0, 0, 0, 0, 0]⟩ #v[[], [], [], [], [], []]

/-- Ctrl+Alt+Delete, one secret key, Enter, and then `c`, which is read. -/
def secretLine (key : UInt8) : List Event :=
  [keyDown 0x05 kcDelete, keyDown 0 key, keyDown 0 0x28, keyDown 0 0x06, .read 1]

theorem secure_input_unreadable_line :
    new.marks (secretLine 0x04) = [.begins, .inside, .ends, .outside, .outside] ∧
      (new.run (secretLine 0x04)).lines ≠ (new.run (secretLine 0x05)).lines ∧
      (new.run (secretLine 0x04)).got = (new.run (secretLine 0x05)).got :=
  ⟨by decide, by decide,
    ((secure_input_unreadable new (secretLine 0x04)).1 (secretLine 0x05) (by decide)
      (by decide)).1⟩

end Thos.Console
