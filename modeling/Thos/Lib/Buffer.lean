import Mathlib.Data.Nat.Bitwise
import Mathlib.Data.UInt

/-!
# Byte buffers

A buffer is a list of bytes. Fields are little-endian numbers at byte offsets; a write
into a buffer splices a run of bytes in place. The rules here say that a splice is read
back where it was made and is not seen anywhere else, and the same for single bits of a
bitmap.
-/

set_option autoImplicit false

namespace Thos.Lib

open List Nat

abbrev Bytes := List UInt8

/-! ## Bytes and fields -/

variable (b : Bytes)

def byte (i : Nat) : Nat := (b.getD i 0).toNat

def le16 (o : Nat) : Nat := byte b o + 256 * byte b (o + 1)

def le32 (o : Nat) : Nat := le16 b o + 65536 * le16 b (o + 2)

def le64 (o : Nat) : Nat := le32 b o + 4294967296 * le32 b (o + 4)

def toLe16 (x : Nat) : Bytes := [x.toUInt8, (x / 256).toUInt8]

def toLe32 (x : Nat) : Bytes := toLe16 x ++ toLe16 (x / 65536)

def toLe64 (x : Nat) : Bytes := toLe32 x ++ toLe32 (x / 4294967296)

@[simp] theorem length_toLe16 (x : Nat) : (toLe16 x).length = 2 := rfl

@[simp] theorem length_toLe32 (x : Nat) : (toLe32 x).length = 4 := rfl

theorem byte_lt (b : Bytes) (i : Nat) : byte b i < 256 := UInt8.toNat_lt _

theorem le16_lt (b : Bytes) (o : Nat) : le16 b o < 65536 := by
  have h₀ := byte_lt b o
  have h₁ := byte_lt b (o + 1)
  unfold le16
  omega

theorem le32_lt (b : Bytes) (o : Nat) : le32 b o < 4294967296 := by
  have h₀ := le16_lt b o
  have h₁ := le16_lt b (o + 2)
  unfold le32
  omega

theorem le16_toLe16 (x : Nat) : le16 (toLe16 x) 0 = x % 65536 := by
  simp only [le16, byte, toLe16, getD_cons_zero, getD_cons_succ, toUInt8_eq, UInt8.toNat_ofNat']
  omega

theorem le32_toLe32 (x : Nat) : le32 (toLe32 x) 0 = x % 4294967296 := by
  simp only [le32, le16, byte, toLe32, toLe16, cons_append, nil_append,
    getD_cons_zero, getD_cons_succ, toUInt8_eq, UInt8.toNat_ofNat']
  omega

/-! ## Splices -/

/-- `b[o .. o + x.len()].copy_from_slice(x)`. -/
def splice (o : Nat) (x : Bytes) : Bytes := b.take o ++ x ++ b.drop (o + x.length)

variable {b x : Bytes}

theorem splice_nil (b : Bytes) (o : Nat) : splice b o [] = b := by
  rw [splice, append_nil, length_nil, add_zero, take_append_drop]

theorem splice_zero (b x : Bytes) : splice b 0 x = x ++ b.drop x.length := by
  rw [splice, take_zero, nil_append, zero_add]

theorem splice_all (h : x.length = b.length) : splice b 0 x = x := by
  rw [splice_zero, drop_of_length_le (by omega), append_nil]

variable {o : Nat}

theorem length_splice (h : o + x.length ≤ b.length) : (splice b o x).length = b.length := by
  simp only [splice, length_append, length_take, length_drop]
  omega

theorem getElem?_splice (h : o + x.length ≤ b.length) (i : Nat) :
    (splice b o x)[i]? = if o ≤ i ∧ i < o + x.length then x[i - o]? else b[i]? := by
  have hlen : (b.take o).length = o := by
    rw [length_take]
    omega
  rcases lt_or_ge i o with hlt | hge
  · rw [splice, append_assoc, getElem?_append_left (by omega), getElem?_take,
      if_pos hlt, if_neg (by omega)]
  · rw [splice, append_assoc, getElem?_append_right (by omega), hlen]
    rcases lt_or_ge i (o + x.length) with hin | hout
    · rw [getElem?_append_left (by omega), if_pos ⟨hge, hin⟩]
    · rw [getElem?_append_right (by omega), getElem?_drop, if_neg (by omega)]
      congr 1
      omega

theorem splice_splice_adjacent {y : Bytes} (h : o + x.length + y.length ≤ b.length) :
    splice (splice b o x) (o + x.length) y = splice b o (x ++ y) := by
  have hx : o + x.length ≤ b.length := by omega
  have hy : o + x.length + y.length ≤ (splice b o x).length := by rwa [length_splice hx]
  have hxy : o + (x ++ y).length ≤ b.length := by
    rw [length_append]
    omega
  refine ext_getElem? fun i => ?_
  rw [getElem?_splice hy, getElem?_splice hx, getElem?_splice hxy, length_append]
  rcases lt_or_ge i (o + x.length) with hlt | hge
  · rw [if_neg (by omega)]
    split_ifs with h1 h2 h2
    · rw [getElem?_append_left (by omega)]
    · omega
    · omega
    · rfl
  · rw [if_neg (by omega : ¬ (o ≤ i ∧ i < o + x.length))]
    split_ifs with h1 h2 h2
    · rw [getElem?_append_right (by omega)]
      congr 1
      omega
    · omega
    · omega
    · rfl

theorem byte_splice (h : o + x.length ≤ b.length) (i : Nat) :
    byte (splice b o x) i = if o ≤ i ∧ i < o + x.length then byte x (i - o) else byte b i := by
  simp only [byte, getD_eq_getElem?_getD, getElem?_splice h]
  split_ifs <;> rfl

variable {p i : Nat}

section

variable (h : p + x.length ≤ b.length)
include h

theorem byte_splice_of_apart (hi : i < p ∨ p + x.length ≤ i) :
    byte (splice b p x) i = byte b i := by
  rw [byte_splice h, if_neg (by omega)]

theorem le16_splice_of_apart (ho : o + 2 ≤ p ∨ p + x.length ≤ o) :
    le16 (splice b p x) o = le16 b o := by
  rw [le16, le16, byte_splice_of_apart h (by omega), byte_splice_of_apart h (by omega)]

theorem le32_splice_of_apart (ho : o + 4 ≤ p ∨ p + x.length ≤ o) :
    le32 (splice b p x) o = le32 b o := by
  rw [le32, le32, le16_splice_of_apart h (by omega), le16_splice_of_apart h (by omega)]

end

section

variable (h : o + x.length ≤ b.length)
include h

theorem byte_splice_add (hi : i < x.length) : byte (splice b o x) (o + i) = byte x i := by
  rw [byte_splice h, if_pos (by omega), Nat.add_sub_cancel_left]

theorem le16_splice_add (hi : i + 2 ≤ x.length) : le16 (splice b o x) (o + i) = le16 x i := by
  rw [le16, le16, byte_splice_add h (by omega), add_assoc, byte_splice_add h (by omega)]

theorem le32_splice_add (hi : i + 4 ≤ x.length) : le32 (splice b o x) (o + i) = le32 x i := by
  rw [le32, le32, le16_splice_add h (by omega), add_assoc, le16_splice_add h (by omega)]

end

theorem le16_splice_self {x : Nat} (h : o + 2 ≤ b.length) :
    le16 (splice b o (toLe16 x)) o = x % 65536 := by
  have hlen : o + (toLe16 x).length ≤ b.length := h
  rw [← le16_toLe16]
  exact le16_splice_add (i := 0) hlen (by simp)

theorem le32_splice_self {x : Nat} (h : o + 4 ≤ b.length) :
    le32 (splice b o (toLe32 x)) o = x % 4294967296 := by
  have hlen : o + (toLe32 x).length ≤ b.length := h
  rw [← le32_toLe32]
  exact le32_splice_add (i := 0) hlen (by simp)

/-! ## Tables of numbers -/

variable {a : Bytes}

theorem byte_append_left (hi : i < a.length) : byte (a ++ b) i = byte a i := by
  rw [byte, byte, getD_append _ _ _ _ hi]

theorem byte_append_right (a b : Bytes) (i : Nat) : byte (a ++ b) (a.length + i) = byte b i := by
  rw [byte, byte, getD_append_right _ _ _ _ (by omega), Nat.add_sub_cancel_left]

theorem le16_append_left (ho : o + 2 ≤ a.length) : le16 (a ++ b) o = le16 a o := by
  rw [le16, le16, byte_append_left (by omega), byte_append_left (by omega)]

theorem le16_append_right (a b : Bytes) (o : Nat) : le16 (a ++ b) (a.length + o) = le16 b o := by
  rw [le16, le16, byte_append_right, add_assoc, byte_append_right]

theorem le32_append_left (ho : o + 4 ≤ a.length) : le32 (a ++ b) o = le32 a o := by
  rw [le32, le32, le16_append_left (by omega), le16_append_left (by omega)]

theorem le32_append_right (a b : Bytes) (o : Nat) : le32 (a ++ b) (a.length + o) = le32 b o := by
  rw [le32, le32, le16_append_right, add_assoc, le16_append_right]

theorem byte_zeros (n i : Nat) : byte (List.replicate n 0) i = 0 := by
  rw [byte, getD_eq_getElem?_getD, getElem?_replicate]
  split_ifs <;> rfl

theorem le16_zeros (n o : Nat) : le16 (List.replicate n 0) o = 0 := by
  rw [le16, byte_zeros, byte_zeros]

theorem le32_zeros (n o : Nat) : le32 (List.replicate n 0) o = 0 := by
  rw [le32, le16_zeros, le16_zeros]

theorem getElem?_flatMap_range {f : Nat → Bytes} {w n : Nat} (hf : ∀ i < n, (f i).length = w)
    {k : Nat} (hk : k < n * w) : ((List.range n).flatMap f)[k]? = (f (k / w))[k % w]? := by
  induction n with
  | zero => simp at hk
  | succ n ih =>
    have hlen : ((List.range n).flatMap f).length = n * w := by
      rw [length_flatMap, map_congr_left fun i hi =>
        hf i (Nat.lt_succ_of_lt (mem_range.1 hi))]
      simp
    rw [range_succ, flatMap_append, flatMap_singleton]
    by_cases hlt : k < n * w
    · rw [getElem?_append_left (by omega), ih (fun i hi => hf i (by omega)) hlt]
    · rw [Nat.succ_mul] at hk
      have hdiv : k / w = n := Nat.div_eq_of_lt_le (by omega) (by rw [Nat.succ_mul]; omega)
      have hmod := Nat.div_add_mod k w
      rw [hdiv, Nat.mul_comm] at hmod
      rw [getElem?_append_right (by omega), hlen, hdiv, show k % w = k - n * w by omega]

theorem length_flatMap_toLe32 (xs : List Nat) : (xs.flatMap toLe32).length = 4 * xs.length := by
  induction xs with
  | nil => rfl
  | cons x xs ih =>
    rw [flatMap_cons, length_append, ih, length_toLe32, length_cons]
    omega

theorem le32_table {xs : List Nat} (hxs : ∀ x ∈ xs, x < 4294967296) (n k : Nat) :
    le32 (xs.flatMap toLe32 ++ List.replicate n 0) (4 * k) = xs.getD k 0 := by
  induction xs generalizing k with
  | nil => simp [le32_zeros]
  | cons x xs ih =>
    rw [flatMap_cons, append_assoc]
    cases k with
    | zero =>
      rw [mul_zero, le32_append_left (by simp), le32_toLe32, getD_cons_zero,
        mod_eq_of_lt (hxs x mem_cons_self)]
    | succ k =>
      rw [show 4 * (k + 1) = (toLe32 x).length + 4 * k by rw [length_toLe32]; omega,
        le32_append_right, ih (fun y hy => hxs y (mem_cons_of_mem _ hy)), getD_cons_succ]

variable {k : Nat}

theorem le32_words (pre post : Bytes) {xs : List Nat} (hxs : ∀ x ∈ xs, x < 4294967296)
    (hk : k < xs.length) :
    le32 (pre ++ (xs.flatMap toLe32 ++ post)) (pre.length + 4 * k) = xs[k] := by
  have htable := le32_table hxs 0 k
  rw [replicate_zero, append_nil] at htable
  rw [le32_append_right, le32_append_left (by rw [length_flatMap_toLe32]; omega), htable,
    getD_eq_getElem _ _ hk]

/-! ## Slices -/

/-- `b[o .. o + n]`. -/
def slice (b : Bytes) (o n : Nat) : Bytes := (b.drop o).take n

variable {n : Nat}

theorem length_slice (h : o + n ≤ b.length) : (slice b o n).length = n := by
  rw [slice, length_take, length_drop]
  omega

theorem getElem?_slice (b : Bytes) (o n i : Nat) :
    (slice b o n)[i]? = if i < n then b[o + i]? else none := by
  rw [slice, getElem?_take, getElem?_drop]

theorem byte_slice (hi : i < n) : byte (slice b o n) i = byte b (o + i) := by
  rw [byte, byte, getD_eq_getElem?_getD, getD_eq_getElem?_getD, getElem?_slice, if_pos hi]

theorem le16_slice (hi : i + 2 ≤ n) : le16 (slice b o n) i = le16 b (o + i) := by
  rw [le16, le16, byte_slice (by omega), byte_slice (by omega), add_assoc]

theorem le32_slice (hi : i + 4 ≤ n) : le32 (slice b o n) i = le32 b (o + i) := by
  rw [le32, le32, le16_slice (by omega), le16_slice (by omega), add_assoc]

theorem le64_slice (hi : i + 8 ≤ n) : le64 (slice b o n) i = le64 b (o + i) := by
  rw [le64, le64, le32_slice (by omega), le32_slice (by omega), add_assoc]

theorem slice_all (h : b.length = n) : slice b 0 n = b := by
  rw [slice, drop_zero, take_of_length_le (by omega)]

theorem slice_splice_of_apart (h : p + x.length ≤ b.length) (ho : o + n ≤ p ∨ p + x.length ≤ o) :
    slice (splice b p x) o n = slice b o n := by
  refine ext_getElem? fun i => ?_
  rw [getElem?_slice, getElem?_slice]
  split_ifs
  · rw [getElem?_splice h, if_neg (by omega)]
  · rfl

theorem slice_splice_self (h : p + x.length ≤ b.length) : slice (splice b p x) p x.length = x := by
  refine ext_getElem? fun i => ?_
  rw [getElem?_slice, getElem?_splice h]
  by_cases hi : i < x.length
  · rw [if_pos hi, if_pos (by omega), Nat.add_sub_cancel_left]
  · rw [if_neg hi, getElem?_eq_none (by omega)]

/-! ## Bits -/

def bit (b : Bytes) (i : Nat) : Bool := (byte b (i / 8)).testBit (i % 8)

/-- `1 << k` as a byte. -/
def bitMask (k : Nat) : UInt8 := (2 ^ k).toUInt8

/-- `b[i / 8] |= 1 << (i % 8)`. -/
def setBit (b : Bytes) (i : Nat) : Bytes := b.set (i / 8) (b.getD (i / 8) 0 ||| bitMask (i % 8))

/-- `b[i / 8] &= !(1 << (i % 8))`. -/
def clearBit (b : Bytes) (i : Nat) : Bytes :=
  b.set (i / 8) (b.getD (i / 8) 0 &&& ~~~ bitMask (i % 8))

@[simp] theorem length_setBit (b : Bytes) (i : Nat) : (setBit b i).length = b.length := length_set

@[simp] theorem length_clearBit (b : Bytes) (i : Nat) : (clearBit b i).length = b.length :=
  length_set

theorem testBit_bitMask (hk : k < 8) (j : Nat) : (bitMask k).toNat.testBit j = decide (k = j) := by
  have hlt : 2 ^ k < 2 ^ 8 := Nat.pow_lt_pow_right (by omega) hk
  rw [bitMask, Nat.toUInt8_eq, UInt8.toNat_ofNat', Nat.mod_eq_of_lt hlt, Nat.testBit_two_pow]

theorem testBit_or_bitMask (x : UInt8) (hk : k < 8) (j : Nat) :
    (x ||| bitMask k).toNat.testBit j = (decide (k = j) || x.toNat.testBit j) := by
  rw [UInt8.toNat_or, testBit_or, testBit_bitMask hk, Bool.or_comm]

theorem testBit_and_not_bitMask (x : UInt8) {j : Nat} (hk : k < 8) (hj : j < 8) :
    (x &&& ~~~ bitMask k).toNat.testBit j = (!decide (k = j) && x.toNat.testBit j) := by
  have hnot : (~~~ bitMask k).toNat.testBit j = !decide (k = j) := by
    have hlt := (bitMask k).toNat_lt
    have hsub : UInt8.size - 1 - (bitMask k).toNat = 2 ^ 8 - ((bitMask k).toNat + 1) := by
      simp only [UInt8.size]
      omega
    rw [UInt8.toNat_not, hsub, testBit_two_pow_sub_succ hlt, testBit_bitMask hk]
    simp [hj]
  rw [UInt8.toNat_and, testBit_and, hnot, Bool.and_comm]

theorem byte_set (b : Bytes) (hk : k < b.length) (x : UInt8) (i : Nat) :
    byte (b.set k x) i = if k = i then x.toNat else byte b i := by
  rw [byte, getD_eq_getElem?_getD, getElem?_set]
  split_ifs with hki
  · subst hki
    simp
  · rw [byte, getD_eq_getElem?_getD]

theorem splice_take_set {j : Nat} (x : UInt8) (k : Nat) :
    splice b 0 ((b.set j x).take k) = if j < k then b.set j x else b := by
  have hlen : 0 + ((b.set j x).take k).length ≤ b.length := by
    rw [length_take, length_set]
    omega
  refine ext_getElem? fun i => ?_
  rw [getElem?_splice hlen, length_take, length_set, Nat.sub_zero, getElem?_take]
  split_ifs with h1 h2 h3 h3
  · rfl
  · rw [getElem?_set_ne (by omega)]
  · omega
  · omega
  · by_cases hi : i < b.length
    · rw [getElem?_set_ne (by omega)]
    · rw [getElem?_eq_none (by omega), getElem?_eq_none (by rw [length_set]; omega)]
  · rfl

theorem bit_setBit (hi : i / 8 < b.length) (j : Nat) :
    bit (setBit b i) j = (decide (j = i) || bit b j) := by
  rw [bit, setBit, byte_set b hi]
  split_ifs with hij
  · rw [testBit_or_bitMask _ (by omega), bit, hij, byte]
    congr 2
    exact propext ⟨fun h => by omega, fun h => by omega⟩
  · have hne : j ≠ i := fun h => hij (by rw [h])
    simp [bit, hne]

theorem bit_clearBit (hi : i / 8 < b.length) (j : Nat) :
    bit (clearBit b i) j = (!decide (j = i) && bit b j) := by
  rw [bit, clearBit, byte_set b hi]
  split_ifs with hij
  · rw [testBit_and_not_bitMask _ (by omega) (by omega), bit, hij, byte]
    congr 3
    exact propext ⟨fun h => by omega, fun h => by omega⟩
  · have hne : j ≠ i := fun h => hij (by rw [h])
    simp [bit, hne]

end Thos.Lib
