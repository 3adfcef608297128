import Thos.Lib.Disk

/-!
# Chunked access to the disk

`disk_range` and `disk_write` as the driver runs them: the device takes up to 64 sectors at a
time, into or out of one buffer. A range reads as the bytes of the disk and a write changes these
bytes alone, as with the programs that go sector by sector, which the rest of the driver is
modelled with.
-/

set_option autoImplicit false

namespace Thos.Ext2.Chunked

open Thos.Lib List Nat

/-- The loop that fills `raw` with the sectors from `lba` on. -/
def readLoop (d : Disk) (lba sectors done : Nat) (raw : Bytes) : Bytes :=
  if done < sectors then
    let n := min (sectors - done) 64
    readLoop d lba sectors (done + n)
      (splice raw (done * sector) (readRange d ((lba + done) * sector) (n * sector)))
  else raw
termination_by sectors - done

/-- The loop that writes `raw` to the sectors from `lba` on. -/
def writeLoop (raw : Bytes) (lba sectors done : Nat) (d : Disk) : Disk :=
  if done < sectors then
    let n := min (sectors - done) 64
    writeLoop raw lba sectors (done + n)
      (writeRange d ((lba + done) * sector) (slice raw (done * sector) (n * sector)))
  else d
termination_by sectors - done

def readAll (d : Disk) (lba sectors : Nat) : Bytes :=
  readLoop d lba sectors 0 (List.replicate (sectors * sector) 0)

def diskRange (d : Disk) (off len : Nat) : Bytes :=
  let startLba := off / sector
  let endLba := (off + len + sector - 1) / sector
  slice (readAll d startLba (endLba - startLba)) (off - startLba * sector) len

def diskWrite (d : Disk) (off : Nat) (data : Bytes) : Disk :=
  if data.isEmpty then d
  else
    let startLba := off / sector
    let endLba := (off + data.length + sector - 1) / sector
    let raw := readAll d startLba (endLba - startLba)
    writeLoop (splice raw (off - startLba * sector) data) startLba (endLba - startLba) 0 d

variable {d : Disk} {lba sectors done : Nat} {raw : Bytes}

theorem readLoop_eq (hdone : done ≤ sectors) (hlen : raw.length = sectors * sector)
    (hread : raw.take (done * sector) = readRange d (lba * sector) (done * sector)) :
    readLoop d lba sectors done raw = readRange d (lba * sector) (sectors * sector) := by
  fun_induction readLoop d lba sectors done raw with
  | case1 done raw hlt n ih =>
    have hn : done + n ≤ sectors := by omega
    have hle := mul_le_mul_right sector hn
    rw [add_mul] at hle
    refine ih hn (by rw [length_splice (by rw [length_readRange]; omega), hlen]) ?_
    rw [splice, take_left' (by simp [add_mul]; omega), hread, add_mul, add_mul, readRange_append]
  | case2 done raw hlt =>
    obtain rfl := hdone.antisymm (not_lt.1 hlt)
    rwa [take_of_length_le hlen.le] at hread

theorem readAll_eq (d : Disk) (lba sectors : Nat) :
    readAll d lba sectors = readRange d (lba * sector) (sectors * sector) :=
  readLoop_eq (zero_le _) length_replicate (by simp [readRange])

theorem writeLoop_eq (hdone : done ≤ sectors) (hlen : raw.length = sectors * sector) {d₀ : Disk}
    (hwr : d = writeRange d₀ (lba * sector) (raw.take (done * sector))) :
    writeLoop raw lba sectors done d = writeRange d₀ (lba * sector) raw := by
  fun_induction writeLoop raw lba sectors done d with
  | case1 done d hlt n ih =>
    have hn : done + n ≤ sectors := by omega
    have hle := mul_le_mul_right sector hdone
    have happend := writeRange_append d₀ (lba * sector) (raw.take (done * sector))
      (slice raw (done * sector) (n * sector))
    rw [length_take_of_le (by omega), ← hwr, ← add_mul, slice, ← take_add, ← add_mul] at happend
    exact ih hn happend
  | case2 done d hlt =>
    obtain rfl := hdone.antisymm (not_lt.1 hlt)
    rw [hwr, take_of_length_le hlen.le]

theorem diskRange_eq (d : Disk) (off len : Nat) : diskRange d off len = readRange d off len := by
  obtain ⟨hoff, hin⟩ := sectors_hold off len
  rw [diskRange, readAll_eq, slice_readRange hin, hoff]

theorem diskWrite_eq (d : Disk) (off : Nat) (data : Bytes) :
    diskWrite d off data = writeRange d off data := by
  rw [diskWrite]
  split_ifs with hnil
  · rw [isEmpty_iff.1 hnil, writeRange_nil]
  · obtain ⟨hoff, hin⟩ := sectors_hold off data.length
    simp only [readAll_eq]
    generalize (off + data.length + sector - 1) / sector - off / sector = n at hin ⊢
    have hlen : (splice (readRange d (off / sector * sector) (n * sector))
        (off - off / sector * sector) data).length = n * sector := by
      rw [length_splice (by rwa [length_readRange]), length_readRange]
    have htake := writeRange_splice_take d (off / sector * sector) (n * sector) hin
    rw [take_of_length_le hlen.le, hoff, take_of_length_le (by omega)] at htake
    rw [writeLoop_eq (zero_le _) hlen (by rw [zero_mul, take_zero, writeRange_nil]), htake]

/-- The programs that go sector by sector do the same. -/
theorem run_eq {ε : Type} (d : Disk) (off len : Nat) (data : Bytes) :
    ((Lib.diskRange off len : DiskProg ε Bytes).run d).out = .ok (diskRange d off len) ∧
      ((Lib.diskWrite off data : DiskProg ε Unit).run d).state = diskWrite d off data := by
  rw [diskRange_run, diskRange_eq, diskWrite_eq]
  exact ⟨rfl, (state_diskWrite off data d).2⟩

/-- A range reads as the bytes of the disk. What is written is read back, and no other byte of the
disk is changed. -/
theorem disk_write_reads_back (d : Disk) (off : Nat) (data : Bytes) :
    (∀ off len, diskRange d off len = (List.range len).map fun i => d (off + i)) ∧
      diskRange (diskWrite d off data) off data.length = data ∧
      ∀ a, a < off ∨ off + data.length ≤ a → diskWrite d off data a = d a := by
  refine ⟨diskRange_eq d, ?_, fun a ha => ?_⟩
  · have hread := @readRange_writeRange_of_within _ 0 off _ d (zero_add data.length).le
    rwa [splice_all (length_readRange ..).symm, ← diskRange_eq, add_zero, ← diskWrite_eq] at hread
  · rw [diskWrite_eq, writeRange, if_neg (by omega)]

end Thos.Ext2.Chunked
