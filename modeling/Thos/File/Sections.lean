import Thos.File.Descriptors

/-!
# Sections backed by a file

`NtCreateSection` fills the frames of a section with what the handle still has to read, from its
position to the end. `Section::flush`, which `NtFlushVirtualMemory` and the unmapping of a view
call, goes to the start of the file and writes the frames there. So the bytes go back to where
they came from exactly if the position was at the start or there was nothing to read
(`flush_writes_back_iff`).

Programs change the bytes of the frames through their views, one at a time here. A failed store
leaves the contents on disk as they were.
-/

set_option autoImplicit false

namespace Thos.File

open Thos.Lib List

/-! ## Creating and flushing -/

/-- `CAP`, the largest section. -/
def sectionCap : Nat := 16 * 1024 * 1024

/-- A section whose frames were filled from an open file, and the contents of that file on disk. -/
structure FileSection where
  size : Nat
  frames : List Bytes
  file : Ext2File
  disk : Bytes
  deriving DecidableEq

/-- The loop of `NtCreateSection` that reads the file by pieces; `none` above `CAP`. -/
def readAll (f : Ext2File) (buf : Bytes) : Option (Bytes × Ext2File) :=
  if _hread : (f.read 4096).1 = [] then some (buf, (f.read 4096).2)
  else if sectionCap < (buf ++ (f.read 4096).1).length then none
  else readAll (f.read 4096).2 (buf ++ (f.read 4096).1)
termination_by f.buf.length - f.pos
decreasing_by
  have hpos := length_pos_of_ne_nil _hread
  simp only [Ext2File.read, length_take, length_drop] at hpos ⊢
  omega

/-- Frame `i` of a section: its part of the data, and zeros. -/
def pageBytes (init : Bytes) (i : Nat) : Bytes :=
  slice init (i * 4096) 4096 ++ List.replicate (4096 - (slice init (i * 4096) 4096).length) 0

namespace FileSection

/-- `Section::new`: one frame at least. -/
def new (init : Bytes) (file : Ext2File) (disk : Bytes) : FileSection :=
  ⟨init.length, (List.range (max ((init.length + 4095) / 4096) 1)).map (pageBytes init), file, disk⟩

/-- The loop of `flush`: whether all writes succeed, the open file and the contents on disk. The
list says which stores succeed. -/
def flushFrames (f : Ext2File) (disk : Bytes) (remaining : Nat) :
    List Bytes → List Bool → Bool × Ext2File × Bytes
  | [], _ => (true, f, disk)
  | frame :: frames, stored =>
    let n := min remaining 4096
    if stored.headD true then
      flushFrames (f.fill (frame.take n)) (persisted (f.fill (frame.take n)).buf) (remaining - n)
        frames stored.tail
    else (false, f.fill (frame.take n), disk)

def flush (s : FileSection) (stored : List Bool) : Bool × FileSection :=
  match s.file.seek 0 0 with
  | none => (false, s)
  | some f =>
    let r := flushFrames f s.disk s.size s.frames stored
    (r.1, { s with file := r.2.1, disk := r.2.2 })

def bytes (s : FileSection) : Bytes := s.frames.flatten.take s.size

end FileSection

open FileSection

/-- `NtCreateSection` for an open file. -/
def ntCreateSection (f : Ext2File) (disk : Bytes) : Option FileSection :=
  (readAll f []).map fun r => .new r.1 r.2 disk

/-- What can happen to a section: a program writes a byte through a view, or a view is flushed or
unmapped. -/
inductive SectionAct
  | store (k : Nat) (x : UInt8)
  | flush (stored : List Bool)

def SectionAct.IsFlush : SectionAct → Prop
  | .store _ _ => False
  | .flush _ => True

namespace FileSection

def step (s : FileSection) : SectionAct → FileSection
  | .store k x => { s with frames := s.frames.modify (k / 4096) (·.set (k % 4096) x) }
  | .flush stored => (s.flush stored).2

def run (s : FileSection) (acts : List SectionAct) : FileSection := acts.foldl step s

/-- A section filled from position `pos` of a file writes back: as long as no byte is changed
the contents on disk stay, and a flush that succeeds changes them from that position on to the
bytes of the section. -/
def WritesBack (sec : FileSection) (data : Bytes) (pos : Nat) : Prop :=
  ∀ acts, ((∀ a ∈ acts, SectionAct.IsFlush a) → (sec.run acts).disk = data) ∧
    ∀ stored, ((sec.run acts).flush stored).1 = true →
      ((sec.run acts).flush stored).2.disk = data.take pos ++ (sec.run acts).bytes

end FileSection

/-! ## What is read -/

theorem readAll_eq (f : Ext2File) (buf : Bytes)
    (hcap : buf.length + (f.buf.length - f.pos) ≤ sectionCap) :
    readAll f buf = some (buf ++ f.buf.drop f.pos, { f with pos := max f.pos f.buf.length }) := by
  fun_induction readAll f buf with
  | case1 f buf hread =>
    have hend : f.buf.length ≤ f.pos := by simpa [Ext2File.read] using hread
    simp [Ext2File.read, drop_of_length_le hend, Nat.max_eq_left hend]
  | case2 f buf hread hlarge =>
    simp only [Ext2File.read, length_append, length_take, length_drop] at hlarge
    omega
  | case3 f buf hread hsmall ih =>
    have hpiece : f.buf.drop f.pos =
        (f.read 4096).1 ++ f.buf.drop (f.pos + (f.read 4096).1.length) := by
      rw [← drop_drop]
      exact prefix_append_drop <| take_prefix 4096 _
    have hpos := length_pos_of_ne_nil hread
    rw [ih, hpiece, ← append_assoc]
    · simp only [Ext2File.read, length_take, length_drop] at hpos ⊢
      congr 3
      omega
    · simp only [Ext2File.read, length_append, length_take, length_drop] at hpos ⊢
      omega

theorem length_pageBytes (init : Bytes) (i : Nat) : (pageBytes init i).length = 4096 := by
  simp only [pageBytes, slice, length_append, length_replicate, length_take]
  omega

theorem bytes_new (init : Bytes) (file : Ext2File) (disk : Bytes) :
    (new init file disk).bytes = init := by
  refine ext_getElem? fun k => ?_
  rw [bytes, new, getElem?_take]
  by_cases hk : k < init.length
  · have hpage : k % 4096 < (slice init (k / 4096 * 4096) 4096).length := by
      simp only [slice, length_take, length_drop]
      omega
    rw [if_pos hk, ← flatMap_def,
      getElem?_flatMap_range (fun i _ => length_pageBytes init i) (by omega), pageBytes,
      getElem?_append_left hpage, getElem?_slice, if_pos (Nat.mod_lt _ (by decide)),
      Nat.div_add_mod']
  · rw [if_neg hk, getElem?_eq_none (Nat.le_of_not_lt hk)]

/-! ## What is written -/

namespace FileSection

theorem take_flatten_cons {frame : Bytes} (hframe : frame.length = 4096) (frames : List Bytes)
    (remaining : Nat) : (frame :: frames).flatten.take remaining =
      frame.take (min remaining 4096) ++ frames.flatten.take (remaining - min remaining 4096) := by
  have hhead : frame.take remaining = frame.take (min remaining 4096) := by
    rw [← hframe, ← take_take, take_length]
  rw [flatten_cons, take_append, hframe, hhead, show
    remaining - 4096 = remaining - min remaining 4096 by omega]

/-- After the loop the copy has some first part of the bytes, and the disk has such a part or is
as it was; it has all of them if every store succeeded. -/
theorem flushFrames_spec {frames : List Bytes} {f : Ext2File} {disk : Bytes} {remaining : Nat}
    {stored : List Bool} (hfrs : ∀ frame ∈ frames, frame.length = 4096)
    (hsize : f.buf.length < 2 ^ 32) (hfits : f.pos + remaining ≤ f.buf.length)
    (hdisk : frames = [] → disk = f.buf) {r : Bool × Ext2File × Bytes}
    (hr : flushFrames f disk remaining frames stored = r) :
    (∃ w, w <+: frames.flatten.take remaining ∧ r.2.1.buf = splice f.buf f.pos w) ∧
      (r.2.2 = disk ∨ ∃ w, w <+: frames.flatten.take remaining ∧ r.2.2 = splice f.buf f.pos w) ∧
      (r.1 = true → r.2.2 = splice f.buf f.pos (frames.flatten.take remaining)) := by
  induction frames generalizing f disk remaining stored r with
  | nil =>
    subst hr
    refine ⟨⟨[], nil_prefix, (splice_nil ..).symm⟩, .inl rfl, fun _ => ?_⟩
    rw [flatten_nil, take_nil, splice_nil]
    exact hdisk rfl
  | cons frame frames ih =>
    have hframe : frame.length = 4096 := hfrs frame (.head _)
    rw [take_flatten_cons hframe]
    have hlen : (frame.take (min remaining 4096)).length = min remaining 4096 := by
      rw [length_take]
      omega
    simp only [flushFrames] at hr
    generalize frame.take (min remaining 4096) = src at hlen hr ⊢
    have hfit : f.pos + src.length ≤ f.buf.length := by omega
    have hbuf : (f.fill src).buf = splice f.buf f.pos src := by rw [Ext2File.fill_eq_splice hfit]
    split_ifs at hr with hsto
    · have hsame := length_splice hfit
      rw [hbuf, persisted_eq (by rwa [hsame]), Ext2File.fill_eq_splice hfit] at hr
      obtain ⟨⟨w, hw, hcopy⟩, hthere, hdone⟩ := ih (fun fr hfr => hfrs fr (.tail _ hfr))
        (by rwa [hsame]) (by dsimp only; omega) (fun _ => rfl) hr
      -- what the later writes add comes right after this one
      have hjoin {w : Bytes} (hw : w <+: frames.flatten.take (remaining - min remaining 4096)) :
          splice (splice f.buf f.pos src) (f.pos + src.length) w =
            splice f.buf f.pos (src ++ w) := by
        have hle := hw.length_le
        rw [length_take] at hle
        exact splice_splice_adjacent (by omega)
      have hpre {w : Bytes} (hw : w <+: frames.flatten.take (remaining - min remaining 4096)) :
          src ++ w <+: src ++ frames.flatten.take (remaining - min remaining 4096) :=
        (prefix_append_right_inj src).2 hw
      refine ⟨⟨_, hpre hw, hcopy.trans (hjoin hw)⟩, .inr ?_, fun hr => ?_⟩
      · rcases hthere with hthere | ⟨w, hw, hthere⟩
        · exact ⟨src, prefix_append .., hthere⟩
        · exact ⟨_, hpre hw, hthere.trans (hjoin hw)⟩
      · exact (hdone hr).trans (hjoin (prefix_refl _))
    · subst hr
      exact ⟨⟨src, prefix_append .., hbuf⟩, .inl rfl, nofun⟩

/-- The section of a file with these contents: its frames are whole, it is not larger than the
file, and what the open file has after it is as it was. -/
structure Over (data : Bytes) (s : FileSection) : Prop where
  frames : ∀ frame ∈ s.frames, frame.length = 4096
  some_frame : s.frames ≠ []
  room : s.size ≤ 4096 * s.frames.length
  small : data.length ≤ sectionCap
  length : s.file.buf.length = data.length
  inside : s.size ≤ data.length
  rest : s.file.buf.drop s.size = data.drop s.size

variable {data : Bytes} {s : FileSection}

section

variable (h : Over data s)
include h

theorem Over.length_bytes : s.bytes.length = s.size := by
  have hflat : s.frames.flatten.length = 4096 * s.frames.length := by
    rw [length_flatten, map_congr_left h.frames, map_const', sum_replicate_nat, mul_comm]
  have hroom := h.room
  rw [bytes, length_take, hflat]
  omega

theorem Over.flush_spec (stored : List Bool) :
    (∃ w, w <+: s.bytes ∧ (s.flush stored).2.file.buf = splice s.file.buf 0 w) ∧
      ((s.flush stored).2.disk = s.disk ∨
        ∃ w, w <+: s.bytes ∧ (s.flush stored).2.disk = splice s.file.buf 0 w) ∧
      ((s.flush stored).1 = true → (s.flush stored).2.disk = splice s.file.buf 0 s.bytes) := by
  have hsmall := h.small
  have hlength := h.length
  have hinside := h.inside
  rw [sectionCap] at hsmall
  have hseek : s.file.seek 0 0 = some { s.file with pos := 0 } := rfl
  rw [flush, hseek]
  exact flushFrames_spec h.frames (by dsimp only; omega) (by dsimp only; omega)
    (fun hnil => absurd hnil h.some_frame) rfl

theorem Over.step (a : SectionAct) : Over data (s.step a) ∧ (s.step a).size = s.size := by
  cases a with
  | store k x =>
    refine ⟨{ h with frames := ?_, some_frame := ?_, room := ?_ }, rfl⟩
    · intro frame hframe
      obtain ⟨j, hj⟩ := mem_iff_getElem?.1 hframe
      simp only [FileSection.step, getElem?_modify] at hj
      obtain ⟨old, hold, rfl⟩ := Option.map_eq_some_iff.1 hj
      have hlen := h.frames old (mem_of_getElem? hold)
      split_ifs
      · rw [length_set, hlen]
      · exact hlen
    · exact fun hnil => h.some_frame (modify_eq_nil_iff.1 hnil)
    · exact (length_modify ..).symm ▸ h.room
  | flush stored =>
    obtain ⟨⟨w, hw, hbuf⟩, -, -⟩ := h.flush_spec stored
    have hsame : (s.flush stored).2.size = s.size ∧ (s.flush stored).2.frames = s.frames := by
      rw [flush]
      split
      · exact ⟨rfl, rfl⟩
      · exact ⟨rfl, rfl⟩
    have hle : w.length ≤ s.size := h.length_bytes ▸ hw.length_le
    have hlen := h.length
    have hinside := h.inside
    refine ⟨⟨?_, ?_, ?_, h.small, ?_, ?_, ?_⟩, hsame.1⟩
    all_goals simp only [FileSection.step, hsame]
    · exact h.frames
    · exact h.some_frame
    · exact h.room
    · rw [hbuf, length_splice (by omega), hlen]
    · exact hinside
    · rw [hbuf, splice_zero, drop_append, drop_of_length_le hle, nil_append,
        drop_drop, Nat.add_sub_cancel' hle]
      exact h.rest

theorem Over.run (acts : List SectionAct) :
    Over data (s.run acts) ∧ (s.run acts).size = s.size := by
  induction acts generalizing s with
  | nil => exact ⟨h, rfl⟩
  | cons a acts ih =>
    obtain ⟨hstep, hsize⟩ := h.step a
    obtain ⟨hrun, hsize'⟩ := ih hstep
    exact ⟨hrun, hsize'.trans hsize⟩

theorem Over.disk_flush {stored : List Bool} (hdone : (s.flush stored).1 = true) :
    (s.flush stored).2.disk = s.bytes ++ data.drop s.size := by
  rw [(h.flush_spec stored).2.2 hdone, splice_zero, h.length_bytes, h.rest]

end

theorem flush_stored (s : FileSection) : (s.flush []).1 = true := by
  have hloop (frames : List Bytes) : ∀ (f : Ext2File) (disk : Bytes) (remaining : Nat),
      (flushFrames f disk remaining frames []).1 = true := by
    induction frames with
    | nil => exact fun _ _ _ => rfl
    | cons frame frames ih => exact fun _ _ _ => ih _ _ _
  exact hloop ..

theorem Over.getElem?_store (h : Over data s) (hpos : 0 < s.size) (x : UInt8) :
    (s.step (.store 0 x)).bytes[0]? = some x := by
  obtain ⟨frame, frames, hfrs⟩ := exists_cons_of_ne_nil h.some_frame
  have hlen := h.frames frame (hfrs ▸ .head _)
  obtain ⟨y, frame, rfl⟩ := exists_cons_of_length_pos (hlen ▸ (by decide : 0 < 4096))
  simp only [bytes, FileSection.step, hfrs, getElem?_take, if_pos hpos]
  rfl

theorem Over.run_flushes (h : Over data s) (hbytes : s.bytes <+: data) (hbuf : s.file.buf = data)
    (hdisk : s.disk = data) {acts : List SectionAct} (hacts : ∀ a ∈ acts, SectionAct.IsFlush a) :
    (s.run acts).disk = data := by
  have hkeep {w : Bytes} (hw : w <+: s.bytes) : splice data 0 w = data := by
    rw [splice_zero, ← prefix_append_drop (hw.trans hbytes)]
  induction acts generalizing s with
  | nil => exact hdisk
  | cons a acts ih =>
    cases a with
    | store k x => exact absurd (hacts _ (.head _)) id
    | flush stored =>
      obtain ⟨⟨w, hw, hcopy⟩, hthere, -⟩ := h.flush_spec stored
      have hsame : (s.flush stored).2.bytes = s.bytes := by
        rw [flush]
        split
        · rfl
        · rfl
      refine ih (h.step (.flush stored)).1 (hsame ▸ hbytes) ?_ ?_
        (fun a ha => hacts a (.tail _ ha)) (fun hw => hkeep (hsame ▸ hw))
      · exact hcopy.trans (hbuf ▸ hkeep hw)
      · rcases hthere with hthere | ⟨w, hw, hthere⟩
        · exact hthere.trans hdisk
        · exact hthere.trans (hbuf ▸ hkeep hw)

end FileSection

theorem ntCreateSection_eq (path data : Bytes) (pos : Nat) (hcap : data.length ≤ sectionCap) :
    ∃ sec, ntCreateSection ⟨path, data, pos⟩ data = some sec ∧ FileSection.Over data sec ∧
      sec.size = data.length - pos ∧ sec.bytes = data.drop pos ∧ sec.file.buf = data ∧
      sec.disk = data := by
  have hread := readAll_eq ⟨path, data, pos⟩ [] (by rw [length_nil]; dsimp only; omega)
  refine ⟨_, congrArg (Option.map _) hread, ?_, length_drop, bytes_new .., rfl, rfl⟩
  have hsize : (data.drop pos).length ≤ data.length := by rw [length_drop]; omega
  constructor
  · intro frame hframe
    obtain ⟨i, -, rfl⟩ := mem_map.1 hframe
    exact length_pageBytes _ i
  · intro hnil
    have hlen := congrArg length hnil
    simp only [new, length_map, length_range, length_nil] at hlen
    omega
  · simp only [new, nil_append, length_map, length_range]
    omega
  · exact hcap
  · rfl
  · exact hsize
  · rfl

/-- For every file of at most 16 MiB and every position of the handle, a section made from it
writes back exactly if the handle was at the start, or at the end of the file or after it. -/
theorem flush_writes_back_iff (path data : Bytes) (pos : Nat) (hcap : data.length ≤ sectionCap) :
    ∃ sec, ntCreateSection ⟨path, data, pos⟩ data = some sec ∧
      (sec.WritesBack data pos ↔ pos = 0 ∨ data.length ≤ pos) := by
  obtain ⟨sec, hsec, hover, hsize, hbytes, hbuf, hdisk⟩ := ntCreateSection_eq path data pos hcap
  refine ⟨sec, hsec, ?_, ?_⟩
  · intro hback
    by_contra hpos
    rw [not_or, Nat.not_le] at hpos
    -- the first byte of the section is changed, and goes to the first byte of the file
    obtain ⟨y, rest, rfl⟩ := exists_cons_of_length_pos (Nat.zero_lt_of_lt hpos.2)
    have hfirst := hover.getElem?_store (by omega) (y + 1)
    obtain ⟨hstore, -⟩ := hover.step (.store 0 (y + 1))
    have hflush := (hback [.store 0 (y + 1)]).2 [] (flush_stored _)
    have heq := congrArg (·[0]?) ((hstore.disk_flush (flush_stored _)).symm.trans hflush)
    obtain ⟨n, rfl⟩ := Nat.exists_eq_succ_of_ne_zero hpos.1
    obtain ⟨hlt, -⟩ := List.getElem?_eq_some_iff.1 hfirst
    rw [getElem?_append_left hlt, hfirst, take_succ_cons, cons_append,
      getElem?_cons_zero, Option.some.injEq] at heq
    exact absurd heq (by simp)
  · intro hpos acts
    obtain ⟨hrun, hrunSize⟩ := hover.run acts
    have hprefix : sec.bytes <+: data := by
      rw [hbytes]
      rcases hpos with rfl | hend
      · exact prefix_refl _
      · rw [drop_of_length_le hend]
        exact nil_prefix
    refine ⟨hover.run_flushes hprefix hbuf hdisk, fun stored hdone => ?_⟩
    rw [hrun.disk_flush hdone, hrunSize, hsize]
    rcases hpos with rfl | hend
    · rw [Nat.sub_zero, drop_length, append_nil, take_zero, nil_append]
    · have hnil : (sec.run acts).bytes = [] := by
        rw [← length_eq_zero_iff, hrun.length_bytes, hrunSize, hsize]
        omega
      rw [hnil, nil_append, append_nil, Nat.sub_eq_zero_of_le hend, drop_zero,
        take_of_length_le hend]

theorem flush_writes_back_start : ∃ sec, ntCreateSection ⟨[], [1, 2], 0⟩ [1, 2] = some sec ∧
    sec.WritesBack [1, 2] 0 := by
  obtain ⟨sec, hsec, hiff⟩ := flush_writes_back_iff [] [1, 2] 0 (by decide)
  exact ⟨sec, hsec, hiff.2 (.inl rfl)⟩

/-- After one byte was read from the handle, flushing the unchanged section writes the second byte
of the file over the first. -/
theorem flush_moves_bytes : (ntCreateSection ⟨[], [1, 2], 1⟩ [1, 2]).map
    (fun sec => (sec.bytes, (sec.flush []).1, (sec.flush []).2.disk)) =
      some ([2], true, [2, 2]) := by
  rw [ntCreateSection, readAll_eq _ _ (by decide)]
  decide +kernel

end Thos.File
