import Thos.Lib.Buffer
import Thos.Lib.Prog

/-!
# A disk of bytes that is written by sectors

Reads and writes of byte ranges, as read-modify-write of whole sectors: a range that
spans several sectors is written one sector after the other, and the device can be cut
off between any two. A disk cut up into disjoint named regions is a map from regions to
their contents; a write inside one region changes that region's contents and no other.
-/

set_option autoImplicit false

namespace Thos.Lib

open Function List Prog Nat

/-- The contents of a disk. -/
def Disk : Type := Nat → UInt8

/-- The size of a sector. -/
def sector : Nat := 512

/-! ## Ranges -/

def readRange (d : Disk) (off len : Nat) : Bytes := (List.range len).map fun i => d (off + i)

def writeRange (d : Disk) (off : Nat) (x : Bytes) : Disk := fun a =>
  if off ≤ a ∧ a < off + x.length then x.getD (a - off) 0 else d a

variable (d : Disk) {len n o off : Nat} {x : Bytes}

@[simp] theorem length_readRange (off len : Nat) : (readRange d off len).length = len := by
  simp [readRange]

theorem getElem?_readRange (off len i : Nat) :
    (readRange d off len)[i]? = if i < len then some (d (off + i)) else none := by
  rw [readRange, getElem?_map]
  split_ifs with hi
  · rw [getElem?_range hi]
    rfl
  · rw [getElem?_eq_none (by simpa using hi)]
    rfl

theorem slice_readRange {d : Disk} (h : o + n ≤ len) :
    slice (readRange d off len) o n = readRange d (off + o) n := by
  refine ext_getElem? fun i => ?_
  rw [getElem?_slice, getElem?_readRange, getElem?_readRange]
  by_cases hi : i < n
  · rw [if_pos hi, if_pos hi, if_pos (by omega), add_assoc]
  · rw [if_neg hi, if_neg hi]

theorem readRange_append (off m n : Nat) :
    readRange d off (m + n) = readRange d off m ++ readRange d (off + m) n := by
  refine ext_getElem? fun i => ?_
  rw [getElem?_readRange]
  by_cases hi : i < m
  · rw [getElem?_append_left (by simpa using hi), getElem?_readRange, if_pos hi, if_pos (by omega)]
  · rw [getElem?_append_right (by simpa using hi), getElem?_readRange, length_readRange]
    by_cases hn : i < m + n
    · rw [if_pos hn, if_pos (by omega)]
      congr 2
      omega
    · rw [if_neg hn, if_neg (by omega)]

theorem readRange_writeRange_of_apart {d : Disk} {p : Nat}
    (h : off + len ≤ p ∨ p + x.length ≤ off) :
    readRange (writeRange d p x) off len = readRange d off len := by
  refine map_congr_left fun i hi => ?_
  rw [mem_range] at hi
  rw [writeRange, if_neg (by omega)]

theorem readRange_writeRange_of_within {d : Disk} (h : o + x.length ≤ len) :
    readRange (writeRange d (off + o) x) off len = splice (readRange d off len) o x := by
  refine ext_getElem? fun i => ?_
  rw [getElem?_splice (by simpa using h), getElem?_readRange, getElem?_readRange]
  by_cases hi : i < len
  · rw [if_pos hi, if_pos hi, writeRange]
    by_cases hin : o ≤ i ∧ i < o + x.length
    · rw [if_pos (by omega), if_pos hin, getD_eq_getElem?_getD,
        getElem?_eq_getElem (by omega), getElem?_eq_getElem (by omega)]
      simp only [Option.getD_some, Option.some.injEq]
      congr 1
      omega
    · rw [if_neg (by omega), if_neg hin]
  · rw [if_neg hi, if_neg hi, if_neg (by omega)]

theorem writeRange_nil (off : Nat) : writeRange d off [] = d :=
  funext fun _ => if_neg (by simp)

theorem writeRange_append (off : Nat) (x y : Bytes) :
    writeRange (writeRange d off x) (off + x.length) y = writeRange d off (x ++ y) := by
  funext a
  simp only [writeRange, length_append, getD_eq_getElem?_getD]
  by_cases hy : off + x.length ≤ a ∧ a < off + x.length + y.length
  · rw [if_pos hy, if_pos (by omega), getElem?_append_right (by omega)]
    congr 2
    omega
  · rw [if_neg hy]
    by_cases hx : off ≤ a ∧ a < off + x.length
    · rw [if_pos hx, if_pos (by omega), getElem?_append_left (by omega)]
    · rw [if_neg hx, if_neg (by omega)]

/-! ## Access by sectors -/

/-- A program over a disk: its atomic steps read and write one sector each. -/
abbrev DiskProg (ε α : Type) : Type := Prog Disk Bytes ε α

section Sectors

variable {ε : Type}

def readSector (lba : Nat) : DiskProg ε Bytes := .read fun d => readRange d (lba * sector) sector

def writeSector (lba : Nat) (x : Bytes) : DiskProg ε Unit :=
  .write fun d => writeRange d (lba * sector) x

/-- Reads `n` sectors, one after the other. -/
def readSectors : Nat → Nat → DiskProg ε Bytes
  | _, 0 => pure []
  | lba, n + 1 => do
    let x ← readSector lba
    let rest ← readSectors (lba + 1) n
    pure (x ++ rest)

/-- Writes the first `n` sectors of `raw`, one after the other. -/
def writeSectors : Nat → Bytes → Nat → DiskProg ε Unit
  | _, _, 0 => pure ()
  | lba, raw, n + 1 => do
    writeSector lba (raw.take sector)
    writeSectors (lba + 1) (raw.drop sector) n

def diskRange (off len : Nat) : DiskProg ε Bytes := do
  let startLba := off / sector
  let endLba := (off + len + sector - 1) / sector
  let raw ← readSectors startLba (endLba - startLba)
  pure (slice raw (off - startLba * sector) len)

/-- Writes a range of bytes: the sectors it touches are read, patched and written. -/
def diskWrite (off : Nat) (data : Bytes) : DiskProg ε Unit :=
  if data.isEmpty then pure ()
  else do
    let startLba := off / sector
    let endLba := (off + data.length + sector - 1) / sector
    let raw ← readSectors startLba (endLba - startLba)
    writeSectors startLba (splice raw (off - startLba * sector) data) (endLba - startLba)

theorem readSectors_run (lba n : Nat) (d : Disk) : (readSectors lba n : DiskProg ε Bytes).run d =
      ⟨.ok (readRange d (lba * sector) (n * sector)), d, []⟩ := by
  induction n generalizing lba with
  | zero =>
    rw [zero_mul]
    rfl
  | succ n ih =>
    rw [readSectors, readSector, bind_of_read (read_run _ d), bind_of_read (ih (lba + 1)),
      pure_run, succ_mul n, add_comm (n * sector), readRange_append, succ_mul]

/-- The disks after each of `n` sectors of `raw` has been written from sector `lba` on. -/
def sectorTrace (d : Disk) (lba : Nat) (raw : Bytes) (n : Nat) : List Disk :=
  (List.range n).map fun j => writeRange d (lba * sector) (raw.take (sector * (j + 1)))

theorem writeSectors_run (lba : Nat) (raw : Bytes) (n : Nat) (d : Disk)
    (hlen : n * sector ≤ raw.length) : (writeSectors lba raw n : DiskProg ε Unit).run d =
      ⟨.ok (), writeRange d (lba * sector) (raw.take (n * sector)), sectorTrace d lba raw n⟩ := by
  induction n generalizing lba raw d with
  | zero =>
    rw [zero_mul, take_zero, writeRange_nil]
    rfl
  | succ n ih =>
    have htake : (raw.take sector).length = sector := by
      rw [length_take]
      rw [succ_mul] at hlen
      omega
    -- the first sector, then the others behind it
    have hnext : ∀ m, writeRange (writeRange d (lba * sector) (raw.take sector))
      ((lba + 1) * sector)
        ((raw.drop sector).take m) = writeRange d (lba * sector) (raw.take (sector + m)) := by
      intro m
      have h := writeRange_append d (lba * sector) (raw.take sector) ((raw.drop sector).take m)
      rwa [htake, ← succ_mul, ← take_add] at h
    have hrest : n * sector ≤ (raw.drop sector).length := by
      rw [length_drop]
      rw [succ_mul] at hlen
      omega
    rw [writeSectors, writeSector, bind_run, write_run]
    simp only [ih (lba + 1) _ _ hrest, hnext, Result.mk.injEq, true_and]
    refine ⟨?_, ?_⟩
    · rw [succ_mul, add_comm]
    · simp only [sectorTrace, hnext, range_succ_eq_map, map_cons, map_map,
        singleton_append, zero_add, mul_one, cons.injEq, true_and]
      refine map_congr_left fun j _ => ?_
      rw [comp, mul_succ sector (j + 1), add_comm]

theorem sectors_hold (off len : Nat) : off / sector * sector + (off - off / sector * sector) = off ∧
    off - off / sector * sector + len ≤
      ((off + len + sector - 1) / sector - off / sector) * sector := by
  simp only [sector]
  omega

theorem diskRange_run (off len : Nat) (d : Disk) :
    (diskRange off len : DiskProg ε Bytes).run d = ⟨.ok (readRange d off len), d, []⟩ := by
  obtain ⟨hoff, hin⟩ := sectors_hold off len
  rw [diskRange, bind_of_read (readSectors_run _ _ d), pure_run, slice_readRange hin, hoff]

theorem quiet_diskRange (off len : Nat) : (diskRange off len : DiskProg ε Bytes).Quiet :=
  fun d => ⟨_, diskRange_run off len d⟩

end Sectors

/-- Sectors that were read, patched at `off` and written up to byte `m` leave what a write
of the first bytes of the patch alone leaves. -/
theorem writeRange_splice_take (base m : Nat) {data : Bytes} (hlen : o + data.length ≤ len) :
    writeRange d base ((splice (readRange d base len) o data).take m) =
      writeRange d (base + o) (data.take (m - o)) := by
  have hl : (splice (readRange d base len) o data).length = len := by
    rw [length_splice (by simpa using hlen), length_readRange]
  funext a
  simp only [writeRange, length_take, hl, getD_eq_getElem?_getD, getElem?_take]
  by_cases hin : base + o ≤ a ∧ a < base + o + min (m - o) data.length
  · rw [if_pos (by omega), if_pos hin, if_pos (by omega), if_pos (by omega),
      getElem?_splice (by simpa using hlen), if_pos (by omega)]
    congr 2
    omega
  · rw [if_neg hin]
    by_cases hb : base ≤ a ∧ a < base + min m len
    · rw [if_pos hb, if_pos (by omega), getElem?_splice (by simpa using hlen), if_neg (by omega),
        getElem?_readRange, if_pos (by omega), Option.getD_some]
      congr 1
      omega
    · rw [if_neg hb]

section Write

variable {ε : Type} {data : Bytes} (d : Disk)

theorem diskWrite_run (hne : data ≠ []) : (diskWrite off data : DiskProg ε Unit).run d =
      ⟨.ok (), writeRange d off data,
        (List.range ((off + data.length + sector - 1) / sector - off / sector)).map fun j =>
          writeRange d off (data.take (sector * (j + 1) - (off - off / sector * sector)))⟩ := by
  obtain ⟨hoff, hlen⟩ := sectors_hold off data.length
  have hraw : (splice (readRange d (off / sector * sector)
      (((off + data.length + sector - 1) / sector - off / sector) * sector))
      (off - off / sector * sector) data).length =
        ((off + data.length + sector - 1) / sector - off / sector) * sector := by
    rw [length_splice (by simpa using hlen), length_readRange]
  rw [diskWrite, if_neg (by simpa using hne), bind_of_read (readSectors_run _ _ d),
    writeSectors_run _ _ _ _ hraw.ge]
  simp only [sectorTrace, writeRange_splice_take d _ _ hlen, hoff, Result.mk.injEq,
    and_true, true_and]
  rw [take_of_length_le (by omega)]

theorem diskWrite_nil_run : (diskWrite off [] : DiskProg ε Unit).run d = ⟨.ok (), d, []⟩ := rfl

variable (off data)

theorem state_diskWrite : ((diskWrite off data : DiskProg ε Unit).run d).out = .ok () ∧
      ((diskWrite off data : DiskProg ε Unit).run d).state = writeRange d off data := by
  by_cases hnil : data = []
  · subst hnil
    exact ⟨rfl, (writeRange_nil d off).symm⟩
  · rw [diskWrite_run d hnil]
    exact ⟨rfl, rfl⟩

theorem stops_diskWrite (P : ε → Prop) : (diskWrite off data : DiskProg ε Unit).Stops P := by
  intro d e he
  rw [(state_diskWrite off data d).1] at he
  cases he

variable {off data d}

theorem mem_trace_diskWrite {t : Disk}
    (ht : t ∈ ((diskWrite off data : DiskProg ε Unit).run d).trace) :
    ∃ k, (data.length ≤ k ∨ sector ∣ off + k) ∧ t = writeRange d off (data.take k) := by
  by_cases hnil : data = []
  · subst hnil
    rw [diskWrite_nil_run] at ht
    cases ht
  rw [diskWrite_run d hnil] at ht
  obtain ⟨j, -, rfl⟩ := mem_map.1 ht
  have hle := div_mul_le_self off sector
  refine ⟨_, ?_, rfl⟩
  -- the sectors written so far end inside the range or past it
  right
  refine ⟨off / sector + (j + 1), ?_⟩
  simp only [sector]
  omega

end Write

/-! ## Regions -/

/-- Disjoint named ranges of a disk. -/
structure Regions (ρ : Type) where
  addr : ρ → Nat
  size : ρ → Nat
  valid : ρ → Prop
  apart : ∀ r r', valid r → valid r' → r ≠ r' → addr r + size r ≤ addr r' ∨
    addr r' + size r' ≤ addr r

namespace Regions

variable {ρ ε : Type} {G : Regions ρ} {d : Disk} {m : ρ → Bytes} {r : ρ}

/-- The disk holds these contents. -/
def Holds (G : Regions ρ) (d : Disk) (m : ρ → Bytes) : Prop :=
  ∀ r, G.valid r → readRange d (G.addr r) (G.size r) = m r

variable (h : G.Holds d m)
include h

variable (hr : G.valid r)
include hr

theorem Holds.length : (m r).length = G.size r := by
  rw [← h r hr, length_readRange]

theorem Holds.readRange (hn : o + n ≤ G.size r) :
    readRange d (G.addr r + o) n = slice (m r) o n := by
  rw [← h r hr, slice_readRange hn]

theorem Holds.diskRange (hn : o + n ≤ G.size r) :
    (diskRange (G.addr r + o) n : DiskProg ε Bytes).run d = ⟨.ok (slice (m r) o n), d, []⟩ := by
  rw [diskRange_run, h.readRange hr hn]

theorem Holds.diskRange_all :
    (Lib.diskRange (G.addr r) (G.size r) : DiskProg ε Bytes).run d = ⟨.ok (m r), d, []⟩ := by
  have hrun := h.diskRange (ε := ε) hr (o := 0) (zero_add _).le
  rwa [slice_all (h.length hr)] at hrun

variable [DecidableEq ρ]

theorem Holds.writeRange (hx : o + x.length ≤ G.size r) :
    G.Holds (writeRange d (G.addr r + o) x) (update m r (splice (m r) o x)) := by
  intro r' hr'
  by_cases hrr : r' = r
  · subst hrr
    rw [update_self, readRange_writeRange_of_within hx, h r' hr']
  · rw [update_of_ne hrr]
    rcases G.apart r r' hr hr' (Ne.symm hrr) with hle | hle
    · rw [readRange_writeRange_of_apart (by omega), h r' hr']
    · rw [readRange_writeRange_of_apart (by omega), h r' hr']

omit h

theorem meets_diskWrite (hx : o + x.length ≤ G.size r)
    {Q : Unit → (ρ → Bytes) → Prop} {E : ε → (ρ → Bytes) → Prop} {C : (ρ → Bytes) → Prop}
    (hQ : Q () (update m r (splice (m r) o x))) (hC : C (update m r (splice (m r) o x)))
    (hcut : ∀ k, k < x.length → sector ∣ G.addr r + o + k →
      C (update m r (splice (m r) o (x.take k)))) :
    Meets G.Holds G.Holds m (diskWrite (G.addr r + o) x) Q E C := by
  intro d hd
  obtain ⟨hout, hstate⟩ := state_diskWrite (ε := ε) (G.addr r + o) x d
  rw [hout, hstate]
  refine ⟨⟨_, hd.writeRange hr hx, hQ⟩, fun t ht => ?_⟩
  obtain ⟨k, hk, rfl⟩ := mem_trace_diskWrite ht
  by_cases hlt : k < x.length
  · refine ⟨_, hd.writeRange hr ?_, hcut k hlt (hk.resolve_left (by omega))⟩
    rw [length_take]
    omega
  · rw [take_of_length_le (by omega)]
    exact ⟨_, hd.writeRange hr hx, hC⟩

theorem meets_diskWrite_all (hx : x.length = G.size r) {Q : Unit → (ρ → Bytes) → Prop}
    {E : ε → (ρ → Bytes) → Prop} {C : (ρ → Bytes) → Prop} (hQ : Q () (update m r x))
    (hC : C (update m r x)) (hcut : ∀ k, k < x.length → sector ∣ G.addr r + k →
      C (update m r (splice (m r) 0 (x.take k)))) :
    Meets G.Holds G.Holds m (diskWrite (G.addr r) x) Q E C := by
  refine Meets.assume (fun d hd => hd.length hr) fun hlen => ?_
  have hall : splice (m r) 0 x = x := splice_all (hx.trans hlen.symm)
  exact meets_diskWrite hr (o := 0) (by omega) (by rwa [hall]) (by rwa [hall]) hcut

end Regions

end Thos.Lib
