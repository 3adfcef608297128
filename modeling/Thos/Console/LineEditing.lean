import Thos.Console.SecureAttention

/-!
# Line editing on the console

`LINE_LEN` is what `feed_report` goes by when it takes a backspace. Reads do not lower it, so it
may count bytes that are no longer in the queue. The reference editor keeps the unread bytes of
the earlier lines and of the current line apart, and a backspace takes from the current line
only. The queue and what readers get are those of the editor (`console_edits_lines`): where
`LINE_LEN` counts too much, the queue has no byte of an earlier line.
-/

set_option autoImplicit false

namespace Thos.Console

open Thos.Lib List Input

/-- A key, with its byte or 0, or a read. -/
inductive Edit
  | key (ch : UInt8)
  | read (n : Nat)

/-- The reference editor: the unread bytes of the earlier lines and of the current line, and what
the reads have returned. -/
structure Editor where
  (earlier line : Bytes)
  got : List Bytes

def Editor.edit (e : Editor) : Edit → Editor
  | .key ch =>
    if ch = 0 then e
    else if ch = 0x08 then { e with line := e.line.dropLast }
    else if ch = 10 then { e with earlier := e.earlier ++ e.line ++ [ch], line := [] }
    else { e with line := e.line ++ [ch] }
  | .read n =>
    { earlier := e.earlier.drop n
      line := e.line.drop (n - e.earlier.length)
      got := e.got ++ [(e.earlier ++ e.line).take n] }

def Editor.run (e : Editor) (es : List Edit) : Editor := es.foldl edit e

/-- The keys of a report that go down, each after the reads that come before it. -/
def Input.keyEdits (c : Input) (r : Report) (ks : List (UInt8 × List Nat)) : List Edit :=
  ks.flatMap fun k => k.2.map .read ++ [.key (c.pressed r k.1)]

/-- What an event is for the editor. The keys of a secure attention period are not for it. -/
def Input.edits (c : Input) : Event → List Edit
  | .read n => [.read n]
  | .report r ns =>
    if c.mark (.report r ns) = .outside then c.keyEdits r (r.keys.toList.zip ns.toList)
    else ns.toList.flatten.map .read

def Input.editsOf (c : Input) : List Event → List Edit
  | [] => []
  | ev :: evs => c.edits ev ++ (c.step ev).editsOf evs

/-- The console shows what the editor has. If `LINE_LEN` is more than the length of the line, the
line is all there is. -/
structure Shows (c : Input) (e : Editor) : Prop where
  queue : c.queue = e.earlier ++ e.line
  got : c.got = e.got
  len : e.line.length = c.lineLen ∨ e.line.length ≤ c.lineLen ∧ e.earlier = []

namespace Shows

variable {c c' : Input} {e : Editor} (h : Shows c e)
include h

theorem of_view (hv : c'.view = c.view) : Shows c' e := by
  obtain ⟨hq, hl, hg⟩ : c'.queue = c.queue ∧ c'.lineLen = c.lineLen ∧ c'.got = c.got := by
    simpa [view] using hv
  exact ⟨hq.trans h.queue, hg.trans h.got, hl ▸ h.len⟩

theorem read (n : Nat) : Shows (c.read n) (e.edit (.read n)) := by
  refine ⟨?_, ?_, ?_⟩
  · exact (congrArg (drop n) h.queue).trans drop_append
  · simp only [Input.read, Editor.edit, h.queue, h.got]
  · simp only [Input.read, Editor.edit, length_drop]
    by_cases hn : n ≤ e.earlier.length
    · rw [Nat.sub_eq_zero_of_le hn]
      exact h.len.imp_right fun hl => ⟨hl.1, by rw [hl.2, drop_nil]⟩
    · have hle : e.line.length ≤ c.lineLen := h.len.elim le_of_eq And.left
      exact .inr ⟨by omega, drop_eq_nil_of_le (by omega)⟩

theorem reads (ns : List Nat) : Shows (c.reads ns) (e.run (ns.map .read)) := by
  induction ns generalizing c e with
  | nil => exact h
  | cons n ns ih => exact ih (h.read n)

theorem typeKey (r : Report) (k : UInt8) :
    Shows (typeKey r c k) (e.edit (.key (c.pressed r k))) := by
  simp only [Input.typeKey, Editor.edit]
  generalize c.pressed r k = ch
  have hle : e.line.length ≤ c.lineLen := h.len.elim le_of_eq And.left
  split_ifs with h0 h8 hl h10
  · exact h
  · refine ⟨?_, h.got, ?_⟩
    · rcases eq_or_ne e.line [] with hnil | hne
      · -- bytes counted and gone: the queue is empty
        have hearl : e.earlier = [] := (h.len.resolve_left (by simp [hnil]; omega)).2
        simp [h.queue, hnil, hearl]
      · rw [h.queue, dropLast_append_of_ne_nil hne]
    · rw [length_dropLast]
      exact h.len.imp (congrArg (· - 1)) fun hr => ⟨Nat.sub_le_sub_right hr.1 1, hr.2⟩
  · have hnil : e.line = [] := length_eq_zero_iff.1 (by omega)
    exact ⟨by rw [h.queue, hnil]; rfl, h.got, by simpa [hnil] using h.len⟩
  · exact ⟨by rw [h.queue, append_nil], h.got, .inl rfl⟩
  · refine ⟨by rw [h.queue, append_assoc], h.got, ?_⟩
    simpa using h.len

theorem typeKeys (r : Report) (hprev : c.prev = c'.prev) (ks : List (UInt8 × List Nat)) :
    Shows (typeKeys r c ks) (e.run (c'.keyEdits r ks)) := by
  induction ks generalizing c e with
  | nil => exact h
  | cons k ks ih =>
    have hreads := (reads_frame c k.2).1.trans hprev
    have hkey := (h.reads k.2).typeKey r k.1
    rw [pressed, hreads] at hkey
    have hrest := ih hkey ((typeKey_frame ..).1.trans hreads)
    rw [keyEdits, flatMap_cons, Editor.run, foldl_append, foldl_append]
    exact hrest

theorem step (ev : Event) : Shows (c.step ev) (e.run (c.edits ev)) := by
  cases ev with
  | read n => exact h.read n
  | report r ns =>
    rw [edits]
    split_ifs with hout
    · rw [Input.step, (feedReport_of_outside hout).2]
      exact (h.typeKeys r rfl _).of_view rfl
    · exact (h.reads _).of_view (view_of_mark hout).1

theorem run (evs : List Event) : Shows (c.run evs) (e.run (c.editsOf evs)) := by
  induction evs generalizing c e with
  | nil => exact h
  | cons ev evs ih =>
    rw [editsOf, Editor.run, foldl_append]
    exact ih (h.step ev)

end Shows

/-- After any reports and reads, and the first keys of another report, the queue holds what the
reference editor has unread, and the reads have returned what it returned. -/
theorem console_edits_lines (evs : List Event) (r : Report) (ks : List (UInt8 × List Nat)) :
    let c := typeKeys r (new.run evs) ks
    let e := Editor.run ⟨[], [], []⟩ (new.editsOf evs ++ (new.run evs).keyEdits r ks)
    c.queue = e.earlier ++ e.line ∧ c.got = e.got := by
  have hnew : Shows new ⟨[], [], []⟩ := ⟨rfl, rfl, .inl rfl⟩
  have hkeys := (hnew.run evs).typeKeys r rfl ks
  rw [Editor.run, foldl_append]
  exact ⟨hkeys.queue, hkeys.got⟩

/-- The keys `a`, `b`, Backspace, `c` and Enter, one report each, and a read. -/
def typed : List Event :=
  [0x04, 0x05, 0x2A, 0x06, 0x28].map (keyDown 0) ++ [.read 8]

theorem console_edits_lines_typed : (new.run typed).got = [[97, 99, 10]] ∧
    (Editor.run ⟨[], [], []⟩ (new.editsOf typed)).got = [[97, 99, 10]] := by
  have hgot : (new.run typed).got = [[97, 99, 10]] := by decide +kernel
  refine ⟨hgot, ?_⟩
  have hsame := (console_edits_lines typed ⟨0, 0, .replicate 6 0⟩ []).2
  rw [keyEdits, flatMap_nil, append_nil, typeKeys, foldl_nil, hgot] at hsame
  exact hsame.symm

end Thos.Console
