import Thos.Lib.Buffer
import Thos.Lib.Run

/-!
# Descriptors of one file

`Ext2File` of `file.rs`: every open reads the whole file into a buffer of its own, and every
`write` changes that buffer and stores all of it under the path. So a write through one
descriptor puts back whatever the descriptor has not seen (`stale_write_reverts`).

The disk is a map from the paths of regular files to their contents; a store replaces the
contents or fails and leaves them. Calls are atomic. `log`, `version` and `stamp` are not in the
source: the writes made so far, the number of stores under a path, and that number when a
descriptor was opened or last stored.

In every run in which each write is made through a descriptor that has seen all stores under its
path, no update is lost (`no_lost_updates`).
-/

set_option autoImplicit false

namespace Thos.File

open Thos.Lib Function List Option

/-! ## One descriptor -/

/-- An open regular file, with its copy of the contents. -/
structure Ext2File where
  (path buf : Bytes)
  pos : Nat
  deriving DecidableEq

namespace Ext2File

variable (f : Ext2File)

/-- `read`: the bytes, and the file with the position moved. -/
def read (n : Nat) : Bytes × Ext2File :=
  let bytes := (f.buf.drop f.pos).take n
  (bytes, { f with pos := f.pos + bytes.length })

/-- The copy grown so that `n` bytes fit at the position, as `resize` does. -/
def grown (n : Nat) : Bytes := f.buf ++ List.replicate (f.pos + n - f.buf.length) 0

/-- The part of `write` before the store. -/
def fill (src : Bytes) : Ext2File :=
  { f with buf := splice (f.grown src.length) f.pos src, pos := f.pos + src.length }

/-- `seek`; `none` is `EINVAL`. The sum is one of 64-bit integers. -/
def seek (offset : Int) (whence : UInt32) : Option Ext2File :=
  let go (base : Nat) : Option Ext2File :=
    let np := ((base : Int) + offset).bmod (2 ^ 64)
    if np < 0 then none else some { f with pos := np.toNat }
  if whence = 0 then go 0
  else if whence = 1 then go f.pos
  else if whence = 2 then go f.buf.length
  else none

theorem length_grown (n : Nat) : f.pos + n ≤ (f.grown n).length := by
  simp only [grown, length_append, length_replicate]
  omega

theorem fill_eq_splice {f : Ext2File} {src : Bytes} (h : f.pos + src.length ≤ f.buf.length) :
    f.fill src = { f with buf := splice f.buf f.pos src, pos := f.pos + src.length } := by
  rw [fill, grown, Nat.sub_eq_zero_of_le h, replicate_zero, append_nil]

theorem getElem?_fill_of_mem (src : Bytes) {j : Nat} (hj : j < src.length) :
    (f.fill src).buf[f.pos + j]? = src[j]? := by
  rw [fill, getElem?_splice (f.length_grown _), if_pos ⟨by omega, by omega⟩]
  congr 1
  omega

theorem getElem?_fill_of_apart (src : Bytes) {i : Nat} {b : UInt8}
    (hi : i < f.pos ∨ f.pos + src.length ≤ i) (hb : f.buf[i]? = some b) :
    (f.fill src).buf[i]? = some b := by
  rw [fill, getElem?_splice (f.length_grown _), if_neg (by omega), grown,
    getElem?_append_left (List.getElem?_eq_some_iff.1 hb).1]
  exact hb

theorem seek_keeps {g : Ext2File} {offset : Int} {whence : UInt32}
    (h : (f.seek offset whence).getD f = g) : g.path = f.path ∧ g.buf = f.buf := by
  subst h
  simp only [seek]
  split_ifs <;> exact ⟨rfl, rfl⟩

end Ext2File

open Ext2File

/-! ## One descriptor alone

As long as no other descriptor touches the path, an open file should be a byte array with a
position. It is one in every run in which each write is stored, of a size that the heap and the
32 bits of the inode can hold, and no seek goes past the largest `i64`. A write that is not stored
has already changed the copy and the position. -/

def eio : Int := -5

def einval : Int := -22

/-- A call on an open file. Of `write`, `room` is the largest buffer that the heap can give, and
`stored` whether `write_path` succeeds. -/
inductive FileCall
  | read (n : Nat)
  | write (src : Bytes) (room : Nat) (stored : Bool)
  | seek (offset : Int64) (whence : UInt32)

/-- An open file and its contents on disk. -/
structure Alone where
  file : Ext2File
  disk : Bytes
  deriving DecidableEq

open Alone

/-- What `write_path` stores: the size is one of 32 bits. -/
def persisted (data : Bytes) : Bytes := data.take (data.length % 2 ^ 32)

theorem persisted_eq {data : Bytes} (h : data.length < 2 ^ 32) : persisted data = data := by
  rw [persisted, Nat.mod_eq_of_lt h, take_length]

/-- The number and the bytes that a call returns, and the state after it; `none` is a panic in
`resize`. -/
def Alone.call (s : Alone) : FileCall → Option ((Int × Bytes) × Alone)
  | .read n =>
    some (((s.file.read n).1.length, (s.file.read n).1), { s with file := (s.file.read n).2 })
  | .write src room stored =>
    if s.file.buf.length < s.file.pos + src.length ∧ room < s.file.pos + src.length then none
    else if stored then
      some ((src.length, []), ⟨s.file.fill src, persisted (s.file.fill src).buf⟩)
    else some ((eio, []), { s with file := s.file.fill src })
  | .seek offset whence =>
    match s.file.seek offset.toInt whence with
    | none => some ((einval, []), s)
    | some f => some ((f.pos, []), { s with file := f })

/-- Calls one after the other, with what they return. -/
def Alone.run : Alone → List FileCall → Option (List (Int × Bytes) × Alone)
  | s, [] => some ([], s)
  | s, c :: cs => (s.call c).bind fun r => (r.2.run cs).map fun q => (r.1 :: q.1, q.2)

/-- A byte array with a position. -/
structure Cursor where
  bytes : Bytes
  pos : Nat

namespace Cursor

/-- The array after a write at the position; a gap is zeros. -/
def put (a : Cursor) (src : Bytes) : Bytes :=
  (List.range (max a.bytes.length (a.pos + src.length))).map fun i =>
    if a.pos ≤ i ∧ i < a.pos + src.length then src.getD (i - a.pos) 0 else a.bytes.getD i 0

/-- What a seek counts from. -/
def base (a : Cursor) (whence : UInt32) : Option Nat :=
  if whence = 0 then some 0
  else if whence = 1 then some a.pos
  else if whence = 2 then some a.bytes.length
  else none

/-- A call that fails changes nothing. -/
def call (a : Cursor) : FileCall → (Int × Bytes) × Cursor
  | .read n =>
    let bytes := (a.bytes.drop a.pos).take n
    ((bytes.length, bytes), { a with pos := a.pos + bytes.length })
  | .write src _ stored =>
    if stored then ((src.length, []), ⟨a.put src, a.pos + src.length⟩) else ((eio, []), a)
  | .seek offset whence =>
    match a.base whence with
    | none => ((einval, []), a)
    | some b =>
      if b + offset.toInt < 0 then ((einval, []), a)
      else ((b + offset.toInt, []), { a with pos := (b + offset.toInt).toNat })

def run : Cursor → List FileCall → List (Int × Bytes) × Cursor
  | a, [] => ([], a)
  | a, c :: cs => ((a.call c).1 :: ((a.call c).2.run cs).1, ((a.call c).2.run cs).2)

end Cursor

/-- The array that the open file stands for. -/
def Alone.cursor (s : Alone) : Cursor := ⟨s.file.buf, s.file.pos⟩

/-- The call is one that the open file handles like the array. -/
def Alone.Fine (s : Alone) : FileCall → Prop
  | .read _ => True
  | .write src room stored =>
    (s.file.pos + src.length ≤ s.file.buf.length ∨ s.file.pos + src.length ≤ room) ∧
      max s.file.buf.length (s.file.pos + src.length) < 2 ^ 32 ∧
      (stored = true ∨ src = [] ∧ s.file.pos ≤ s.file.buf.length)
  | .seek offset whence => ∀ b ∈ s.cursor.base whence, b + offset.toInt < 2 ^ 63

/-- Every call of the run is. -/
def Alone.FineRun : Alone → List FileCall → Prop
  | _, [] => True
  | s, c :: cs => s.Fine c ∧ ∀ r, s.call c = some r → r.2.FineRun cs

theorem fill_eq_put (f : Ext2File) (src : Bytes) :
    (f.fill src).buf = Cursor.put ⟨f.buf, f.pos⟩ src := by
  refine ext_getElem? fun i => ?_
  rw [fill, getElem?_splice (f.length_grown _), grown, Cursor.put, getElem?_map]
  by_cases hi : i < max f.buf.length (f.pos + src.length)
  · rw [getElem?_range hi, map_some]
    by_cases hin : f.pos ≤ i ∧ i < f.pos + src.length
    · rw [if_pos hin, if_pos hin, getD_eq_getElem?_getD, getElem?_eq_getElem (by omega)]
      rfl
    · rw [if_neg hin, if_neg hin, getD_eq_getElem?_getD]
      by_cases hold : i < f.buf.length
      · rw [getElem?_append_left hold, getElem?_eq_getElem hold]
        rfl
      · rw [getElem?_append_right (by omega), getElem?_replicate, if_pos (by omega),
          getElem?_eq_none (Nat.le_of_not_lt hold)]
        rfl
  · rw [if_neg (by omega), getElem?_eq_none (by simp; omega), getElem?_eq_none (by simpa using hi)]
    rfl

theorem length_put (a : Cursor) (src : Bytes) :
    (a.put src).length = max a.bytes.length (a.pos + src.length) := by
  simp [Cursor.put]

theorem seek_eq (s : Alone) (offset : Int64) (whence : UInt32)
    (hfine : ∀ b ∈ s.cursor.base whence, b + offset.toInt < 2 ^ 63) :
    s.file.seek offset.toInt whence = (s.cursor.base whence).bind fun b =>
        if b + offset.toInt < 0 then none
        else some { s.file with pos := (b + offset.toInt).toNat } := by
  have hbase : s.file.seek offset.toInt whence = (s.cursor.base whence).bind fun b =>
      if ((b : Int) + offset.toInt).bmod (2 ^ 64) < 0 then none
      else some { s.file with pos := (((b : Int) + offset.toInt).bmod (2 ^ 64)).toNat } := by
    unfold seek Cursor.base
    split_ifs <;> rfl
  rw [hbase]
  cases hb : s.cursor.base whence with
  | none => rfl
  | some b =>
    have hlt := hfine b hb
    have hge := offset.le_toInt
    rw [bind_some, bind_some, Int.bmod_eq_of_le (by omega) (by omega)]

theorem Alone.call_eq (s : Alone) (c : FileCall) (hdisk : s.disk = s.file.buf) (hfine : s.Fine c) :
    ∃ s', s.call c = some ((s.cursor.call c).1, s') ∧ s'.cursor = (s.cursor.call c).2 ∧
      s'.disk = s'.file.buf := by
  cases c with
  | read n => exact ⟨_, rfl, rfl, hdisk⟩
  | write src room stored =>
    obtain ⟨hroom, hsize, hsto⟩ := hfine
    have hpanic : ¬ (s.file.buf.length < s.file.pos + src.length ∧
        room < s.file.pos + src.length) := by omega
    cases stored with
    | true =>
      refine ⟨_, by simp only [call, if_neg hpanic]; rfl, ?_, ?_⟩
      · simp only [Cursor.call, cursor, fill_eq_put]
        rfl
      · have hlen : (s.file.fill src).buf.length < 2 ^ 32 := by
          rw [fill_eq_put, length_put]
          exact hsize
        exact persisted_eq hlen
    | false =>
      -- nothing to write, within the file
      obtain ⟨rfl, hpos⟩ := hsto.resolve_left (by simp)
      have hkeep : s.file.fill [] = s.file := by
        rw [fill_eq_splice (by simpa using hpos), splice_nil]
        rfl
      refine ⟨_, by simp only [call, if_neg hpanic]; rfl, ?_, ?_⟩
      · simp [Cursor.call, cursor, hkeep]
      · change s.disk = (s.file.fill []).buf
        rw [hkeep, hdisk]
  | seek offset whence =>
    simp only [call, seek_eq s offset whence hfine, Cursor.call]
    cases s.cursor.base whence with
    | none => exact ⟨s, rfl, rfl, hdisk⟩
    | some b =>
      simp only [bind_some]
      split_ifs with hneg
      · exact ⟨s, rfl, rfl, hdisk⟩
      · refine ⟨{ s with file := { s.file with pos := (b + offset.toInt).toNat } }, ?_, rfl, hdisk⟩
        dsimp only
        rw [Int.toNat_of_nonneg (not_lt.1 hneg)]

/-- In every run of fine calls an open file is a byte array with a position, which is on disk. -/
theorem ext2File_is_array (path data : Bytes) (calls : List FileCall)
    (hfine : Alone.FineRun ⟨⟨path, data, 0⟩, data⟩ calls) :
    ∃ s, run ⟨⟨path, data, 0⟩, data⟩ calls = some ((Cursor.run ⟨data, 0⟩ calls).1, s) ∧
      s.cursor = (Cursor.run ⟨data, 0⟩ calls).2 ∧
      s.disk = (Cursor.run ⟨data, 0⟩ calls).2.bytes := by
  have hrun : ∀ (calls : List FileCall) (s : Alone), s.disk = s.file.buf → s.FineRun calls →
      ∃ s', s.run calls = some ((s.cursor.run calls).1, s') ∧
        s'.cursor = (s.cursor.run calls).2 ∧ s'.disk = s'.file.buf := by
    intro calls
    induction calls with
    | nil => exact fun s hdisk _ => ⟨s, rfl, rfl, hdisk⟩
    | cons c cs ih =>
      rintro s hdisk ⟨hc, hcs⟩
      obtain ⟨s₁, hcall, hcursor, hdisk₁⟩ := s.call_eq c hdisk hc
      obtain ⟨s₂, hrest, hcursor₂, hdisk₂⟩ := ih s₁ hdisk₁ (hcs _ hcall)
      refine ⟨s₂, ?_, ?_, hdisk₂⟩
      · rw [run, hcall, bind_some, hrest, map_some, Cursor.run, hcursor]
      · rw [hcursor₂, hcursor, Cursor.run]
  obtain ⟨s, hs, hcursor, hdisk⟩ := hrun calls _ rfl hfine
  exact ⟨s, hs, hcursor, hdisk.trans (congrArg Cursor.bytes hcursor)⟩

theorem ext2File_is_array_reread :
    ∃ s, run ⟨⟨[], [7], 0⟩, [7]⟩ [.write [8, 9] 2 true, .seek (-1) 2, .read 4] =
        some ([(2, []), (1, []), (1, [9])], s) ∧ s.disk = [8, 9] := by
  have hfine : Alone.FineRun ⟨⟨[], [7], 0⟩, [7]⟩ [.write [8, 9] 2 true, .seek (-1) 2, .read 4] := by
    refine ⟨⟨.inr (by decide), by decide, .inl rfl⟩, ?_⟩
    rintro _ ⟨⟩
    refine ⟨?_, fun _ _ => ⟨trivial, fun _ _ => trivial⟩⟩
    rintro b ⟨⟩
    decide
  obtain ⟨s, hs, -, hdisk⟩ := ext2File_is_array [] [7] _ hfine
  exact ⟨s, hs, hdisk⟩

/-- A write that fails with `EIO` leaves its bytes in the copy and has moved the position; one far
beyond the end panics. -/
theorem failed_write_changes_array :
    run ⟨⟨[], [0], 0⟩, [0]⟩ [.write [1] 9 false, .seek 0 0, .read 1] =
        some ([(eio, []), (0, []), (1, [1])], ⟨⟨[], [1], 1⟩, [0]⟩) ∧
      (Cursor.run ⟨[0], 0⟩ [.write [1] 9 false, .seek 0 0, .read 1]).1 =
        [(eio, []), (0, []), (1, [0])] ∧
      run ⟨⟨[], [0], 0⟩, [0]⟩ [.seek (2 ^ 62) 0, .write [1] (2 ^ 40) true] = none := by
  decide +kernel

/-! ## The system -/

/-- A call of `write`, and whether it succeeded. -/
structure WriteCall where
  path : Bytes
  off : Nat
  src : Bytes
  ok : Bool
  deriving DecidableEq

/-- The offset is in the range of the call. -/
def WriteCall.Covers (c : WriteCall) (i : Nat) : Prop := c.off ≤ i ∧ i < c.off + c.src.length

/-- The files on disk and the open files; `D` names the open files. -/
structure Files (D : Type) where
  disk : Bytes → Option Bytes
  opened : D → Option Ext2File
  log : List WriteCall
  version : Bytes → Nat
  stamp : D → Nat

/-- What can happen. In `write`, `stored` says whether the store under the path succeeds. -/
inductive FileAct (D : Type)
  | openFile (d : D) (path : Bytes)
  | read (d : D) (n : Nat)
  | seek (d : D) (offset : Int) (whence : UInt32)
  | write (d : D) (src : Bytes) (stored : Bool)
  | close (d : D)

namespace Files

variable {D : Type} [DecidableEq D]

def new (disk : Bytes → Option Bytes) : Files D := ⟨disk, fun _ => none, [], fun _ => 0, fun _ => 0⟩

variable (s : Files D)

def set (d : D) (f : Option Ext2File) : Files D := { s with opened := update s.opened d f }

/-- The store of a `write` through `d`, after which the descriptor has seen everything. -/
def store (d : D) (f : Ext2File) : Files D :=
  { s with
    disk := update s.disk f.path (some f.buf)
    version := update s.version f.path (s.version f.path + 1)
    stamp := update s.stamp d (s.version f.path + 1) }

/-- The part of a `write` through `d` before the store. -/
def filled (d : D) (f : Ext2File) (src : Bytes) (stored : Bool) : Files D :=
  { s.set d (some (f.fill src)) with log := s.log ++ [⟨f.path, f.pos, src, stored⟩] }

def write (d : D) (f : Ext2File) (src : Bytes) (stored : Bool) : Files D :=
  if stored then (s.filled d f src stored).store d (f.fill src) else s.filled d f src stored

def step : FileAct D → Option (Files D)
  | .openFile d path =>
    match s.opened d, s.disk path with
    | none, some data =>
      some { s.set d (some (Ext2File.mk path data 0)) with
        stamp := update s.stamp d (s.version path) }
    | _, _ => none
  | .read d n => (s.opened d).map fun f => s.set d (some (f.read n).2)
  | .seek d offset whence =>
    (s.opened d).map fun f => s.set d (some ((f.seek offset whence).getD f))
  | .write d src stored => (s.opened d).map fun f => s.write d f src stored
  | .close d => (s.opened d).map fun _ => s.set d none

def Seen (d : D) : Prop := ∀ f, s.opened d = some f → s.stamp d = s.version f.path

/-- Writes are made through descriptors that have seen all stores. -/
def WritesSeen : FileAct D → Prop
  | .write d _ _ => s.Seen d
  | _ => True

instance (s : Files D) (d : D) : Decidable (s.Seen d) :=
  decidable_of_iff ((s.opened d).all fun f => s.stamp d = s.version f.path) (by
    cases h : s.opened d <;> simp [Seen, h])

instance (s : Files D) : ∀ a, Decidable (s.WritesSeen a)
  | .write d _ _ => inferInstanceAs (Decidable (s.Seen d))
  | .openFile .. | .read .. | .seek .. | .close .. => isTrue trivial

/-! ## No lost updates -/

/-- Every successful write under the path is in `data`, except where a later write went. -/
def Holds (log : List WriteCall) (path : Bytes) (data : Bytes) : Prop :=
  ∀ pre c post, log = pre ++ c :: post → c.path = path → c.ok = true →
    ∀ j, j < c.src.length → (∀ c' ∈ post, c'.path = path → ¬ c'.Covers (c.off + j)) →
      data[c.off + j]? = c.src[j]?

theorem holds_nil (path data : Bytes) : Holds [] path data := by
  intro pre c post hlog
  simp at hlog

theorem log_concat {log pre post : List WriteCall} {c c' : WriteCall}
    (h : log ++ [c] = pre ++ c' :: post) :
    (c' = c ∧ post = []) ∨ ∃ post', post = post' ++ [c] ∧ log = pre ++ c' :: post' := by
  rcases post.eq_nil_or_concat with rfl | ⟨post', last, rfl⟩
  · exact .inl ⟨(append_inj' h rfl).2 |> singleton_inj.1 |>.symm, rfl⟩
  · rw [concat_eq_append, ← cons_append, ← append_assoc] at h
    obtain ⟨hlog, hlast⟩ := append_inj' h rfl
    rw [concat_eq_append, singleton_inj.1 hlast]
    exact .inr ⟨post', rfl, hlog⟩

theorem Holds.keep {log : List WriteCall} {path data : Bytes} (h : Holds log path data)
    {c : WriteCall} (hc : c.path = path → c.ok = false) : Holds (log ++ [c]) path data := by
  intro pre c' post hlog hpath hok j hj hlater
  obtain ⟨rfl, -⟩ | ⟨post', rfl, hbef⟩ := log_concat hlog
  · simp [hc hpath] at hok
  · exact h pre c' post' hbef hpath hok j hj fun c'' hmem =>
      hlater c'' (mem_append_left _ hmem)

theorem Holds.fill {log : List WriteCall} {f : Ext2File} (h : Holds log f.path f.buf) (src : Bytes)
    (stored : Bool) : Holds (log ++ [⟨f.path, f.pos, src, stored⟩]) f.path (f.fill src).buf := by
  intro pre c post hlog hpath hok j hj hlater
  obtain ⟨rfl, -⟩ | ⟨post', rfl, hbef⟩ := log_concat hlog
  · exact f.getElem?_fill_of_mem src hj
  · -- an earlier call: the new one does not cover its byte, which is still in the copy
    have hold := h pre c post' hbef hpath hok j hj fun c' hmem =>
      hlater c' (mem_append_left _ hmem)
    have hapart : ¬ (f.pos ≤ c.off + j ∧ c.off + j < f.pos + src.length) :=
      hlater _ (mem_append_right _ (mem_singleton_self _)) rfl
    rw [getElem?_eq_getElem hj] at hold ⊢
    exact f.getElem?_fill_of_apart src (by omega) hold

/-- All successful writes are on disk, and in the copies that have seen all stores. -/
structure Inv (s : Files D) : Prop where
  disk : ∀ path data, s.disk path = some data → Holds s.log path data
  copies : ∀ d f, s.opened d = some f → s.stamp d = s.version f.path → Holds s.log f.path f.buf
  stamps : ∀ d f, s.opened d = some f → s.stamp d ≤ s.version f.path
  opened : ∀ d f, s.opened d = some f → (s.disk f.path).isSome
  logged : ∀ c ∈ s.log, (s.disk c.path).isSome

variable {s s' : Files D} {d d' : D} {f g : Ext2File} {f' : Option Ext2File}

omit [DecidableEq D] in
theorem inv_new (disk : Bytes → Option Bytes) : Inv (new disk : Files D) where
  disk path data _ := holds_nil path data
  copies _ _ h := nomatch h
  stamps _ _ h := nomatch h
  opened _ _ h := nomatch h
  logged _ h := nomatch h

theorem opened_set (hg : (s.set d f').opened d' = some g) :
    (d' = d ∧ f' = some g) ∨ (d' ≠ d ∧ s.opened d' = some g) := by
  simp only [set, update_apply] at hg
  split at hg
  · next heq => exact .inl ⟨heq, hg⟩
  · next hne => exact .inr ⟨hne, hg⟩

section

variable (h : Inv s)
include h

section

variable (hf : s.opened d = some f)
include hf

theorem Inv.set (hf' : ∀ g, f' = some g → g.path = f.path ∧ g.buf = f.buf) : Inv (s.set d f') := by
  have hopened : ∀ d' g, (s.set d f').opened d' = some g →
      ∃ g', s.opened d' = some g' ∧ g.path = g'.path ∧ g.buf = g'.buf := by
    intro d' g hg
    obtain ⟨rfl, hg'⟩ | ⟨-, hg⟩ := opened_set hg
    · exact ⟨f, hf, hf' g hg'⟩
    · exact ⟨g, hg, rfl, rfl⟩
  refine { h with copies := ?_, stamps := ?_, opened := ?_ }
  · intro d' g hg
    obtain ⟨g', hg', hpath, hbuf⟩ := hopened d' g hg
    rw [hpath, hbuf]
    exact h.copies d' g' hg'
  · intro d' g hg
    obtain ⟨g', hg', hpath, -⟩ := hopened d' g hg
    rw [hpath]
    exact h.stamps d' g' hg'
  · intro d' g hg
    obtain ⟨g', hg', hpath, -⟩ := hopened d' g hg
    rw [hpath]
    exact h.opened d' g' hg'

omit hf in
theorem Inv.openFile {path data : Bytes} (hdata : s.disk path = some data) :
    Inv { s.set d (some (Ext2File.mk path data 0)) with
      stamp := update s.stamp d (s.version path) } := by
  have hpres : (s.disk path).isSome := by simp [hdata]
  refine { h with copies := ?_, stamps := ?_, opened := ?_ }
  · intro d' g hg hstamp
    obtain ⟨rfl, ⟨⟩⟩ | ⟨hne, hg⟩ := opened_set hg
    · exact h.disk path data hdata
    · exact h.copies d' g hg ((update_of_ne hne ..).symm.trans hstamp)
  · intro d' g hg
    obtain ⟨rfl, ⟨⟩⟩ | ⟨hne, hg⟩ := opened_set hg
    · exact (update_self d' _ s.stamp).le
    · exact (update_of_ne hne _ s.stamp).trans_le (h.stamps d' g hg)
  · intro d' g hg
    obtain ⟨rfl, ⟨⟩⟩ | ⟨-, hg⟩ := opened_set hg
    · exact hpres
    · exact h.opened d' g hg

theorem Inv.logged_filled {src : Bytes} {stored : Bool}
    {c : WriteCall} (hc : c ∈ (s.filled d f src stored).log) : (s.disk c.path).isSome :=
  forall_mem_append.2 ⟨h.logged, forall_mem_singleton.2 (h.opened d f hf)⟩ c hc

theorem Inv.write_failed (hseen : s.Seen d) (src : Bytes) : Inv (s.filled d f src false) := by
  refine ⟨?_, ?_, ?_, ?_, fun c => h.logged_filled hf⟩
  · intro path data hdata
    exact (h.disk path data hdata).keep fun _ => rfl
  · intro d' g hg hstamp
    obtain ⟨rfl, ⟨⟩⟩ | ⟨-, hg⟩ := opened_set hg
    · exact (h.copies d' f hf (hseen f hf)).fill src false
    · exact (h.copies d' g hg hstamp).keep fun _ => rfl
  · intro d' g hg
    obtain ⟨rfl, ⟨⟩⟩ | ⟨-, hg⟩ := opened_set hg
    · exact h.stamps d' f hf
    · exact h.stamps d' g hg
  · intro d' g hg
    obtain ⟨rfl, ⟨⟩⟩ | ⟨-, hg⟩ := opened_set hg
    · exact h.opened d' f hf
    · exact h.opened d' g hg

/-- A write whose store succeeds, through a descriptor that has seen all stores: the other copies
of the file have not seen this one. -/
theorem Inv.write_stored (hseen : s.Seen d) (src : Bytes) :
    Inv ((s.filled d f src true).store d (f.fill src)) := by
  have hfill := (h.copies d f hf (hseen f hf)).fill src true
  have hdisk : ∀ path, (s.disk path).isSome →
      (update s.disk f.path (some (f.fill src).buf) path).isSome := by
    intro path hpath
    rw [update_apply]
    split
    · rfl
    · exact hpath
  refine ⟨?_, ?_, ?_, ?_, fun c hc => hdisk _ (h.logged_filled hf hc)⟩
  · intro path data hdata
    rcases eq_or_ne path f.path with rfl | hne
    · have hbuf : some (f.fill src).buf = some data :=
        (update_self f.path _ s.disk).symm.trans hdata
      exact some.inj hbuf ▸ hfill
    · exact (h.disk path data ((update_of_ne hne ..).symm.trans hdata)).keep
        fun heq => absurd heq.symm hne
  · intro d' g hg hstamp
    obtain ⟨rfl, ⟨⟩⟩ | ⟨hne, hg⟩ := opened_set hg
    · exact hfill
    · have hstamp' : s.stamp d' = update s.version f.path (s.version f.path + 1) g.path :=
        (update_of_ne hne ..).symm.trans hstamp
      have hle := h.stamps d' g hg
      rcases eq_or_ne g.path f.path with heq | hpath
      · -- the stamp of another copy is at most the count before the store
        rw [heq, update_self] at hstamp'
        rw [heq] at hle
        omega
      · rw [update_of_ne hpath] at hstamp'
        exact (h.copies d' g hg hstamp').keep fun heq => absurd heq.symm hpath
  · intro d' g hg
    obtain ⟨rfl, ⟨⟩⟩ | ⟨hne, hg⟩ := opened_set hg
    · show update s.stamp d' _ d' ≤ update s.version f.path _ f.path
      rw [update_self, update_self]
    · have hle := h.stamps d' g hg
      show update s.stamp d _ d' ≤ update s.version f.path _ g.path
      rw [update_of_ne hne, update_apply]
      split
      · next heq =>
          rw [heq] at hle
          exact Nat.le_succ_of_le hle
      · exact hle
  · intro d' g hg
    obtain ⟨rfl, ⟨⟩⟩ | ⟨-, hg⟩ := opened_set hg
    · exact hdisk _ (h.opened d' f hf)
    · exact hdisk _ (h.opened d' g hg)

end

theorem Inv.step (a : FileAct D) (hok : s.WritesSeen a) (hstep : s.step a = some s') : Inv s' := by
  cases a with
  | openFile d path =>
    simp only [Files.step] at hstep
    split at hstep
    · next hdata =>
        cases hstep
        exact h.openFile hdata
    · cases hstep
  | read d n =>
    obtain ⟨f, hf, rfl⟩ := map_eq_some_iff.1 hstep
    exact h.set hf fun g hg => some.inj hg ▸ ⟨rfl, rfl⟩
  | seek d offset whence =>
    obtain ⟨f, hf, rfl⟩ := map_eq_some_iff.1 hstep
    exact h.set hf fun g hg => f.seek_keeps (some.inj hg)
  | write d src stored =>
    obtain ⟨f, hf, rfl⟩ := map_eq_some_iff.1 hstep
    cases stored with
    | false => exact h.write_failed hf hok src
    | true => exact h.write_stored hf hok src
  | close d =>
    obtain ⟨f, hf, rfl⟩ := map_eq_some_iff.1 hstep
    exact h.set hf fun g hg => nomatch hg

end

def NoLostUpdate (s : Files D) : Prop :=
  ∀ pre c post, s.log = pre ++ c :: post → c.ok = true → ∀ j, j < c.src.length →
    (∀ c' ∈ post, c'.path = c.path → ¬ c'.Covers (c.off + j)) →
      ∃ data, s.disk c.path = some data ∧ data[c.off + j]? = c.src[j]?

/-- In every run whose writes all go through descriptors that have seen all stores under their
paths, no update is lost. -/
theorem no_lost_updates (disk : Bytes → Option Bytes) (s : Files D)
    (hrun : Run step WritesSeen (new disk) s) : NoLostUpdate s := by
  have hinv : Inv s := hrun.invariant (fun _ a _ h => h.step a) (inv_new disk)
  intro pre c post hlog hok j hj hlater
  have hmem : c ∈ s.log := by simp [hlog]
  obtain ⟨data, hdata⟩ := isSome_iff_exists.1 (hinv.logged c hmem)
  exact ⟨data, hdata, hinv.disk c.path data hdata pre c post hlog rfl hok j hj hlater⟩

/-! ### Two runs -/

def oneFile (path : Bytes) : Option Bytes := if path = [47, 102] then some [0, 0, 0, 0] else none

def openedAfter : List (FileAct Bool) :=
  [.openFile false [47, 102], .write false [1, 1] true, .openFile true [47, 102], .seek true 2 0,
    .write true [2, 2] true]

theorem no_lost_updates_in_turn : ∃ s : Files Bool, Run step WritesSeen (new oneFile) s ∧
      s.disk [47, 102] = some [1, 1, 2, 2] ∧ NoLostUpdate s := by
  obtain ⟨s, hreach, hdisk⟩ : ∃ s, Run step WritesSeen (new oneFile) s ∧
      s.disk [47, 102] = some [1, 1, 2, 2] := exists_run openedAfter (by decide +kernel)
  exact ⟨s, hreach, hdisk, no_lost_updates oneFile s hreach⟩

def openedBefore : List (FileAct Bool) :=
  [.openFile false [47, 102], .openFile true [47, 102], .write false [1, 1] true, .seek true 2 0,
    .write true [2, 2] true]

/-- The write of the second descriptor to the bytes 2 and 3 puts back the bytes 0 and 1, which the
first had written. -/
theorem stale_write_reverts : ∃ s : Files Bool, Reach step (new oneFile) s ∧
      s.log = [⟨[47, 102], 0, [1, 1], true⟩, ⟨[47, 102], 2, [2, 2], true⟩] ∧
      s.disk [47, 102] = some [0, 0, 2, 2] ∧ ¬ NoLostUpdate s := by
  obtain ⟨s, hreach, hlog, hdisk⟩ : ∃ s, Reach step (new oneFile) s ∧
      s.log = [⟨[47, 102], 0, [1, 1], true⟩, ⟨[47, 102], 2, [2, 2], true⟩] ∧
      s.disk [47, 102] = some [0, 0, 2, 2] := exists_reach openedBefore (by decide +kernel)
  refine ⟨s, hreach, hlog, hdisk, fun hno => ?_⟩
  obtain ⟨data, hdata, hbyte⟩ := hno [] _ _ hlog rfl 0 (by decide) (by simp [WriteCall.Covers])
  obtain rfl := some.inj (hdisk.symm.trans hdata)
  simp at hbyte

end Files

end Thos.File
