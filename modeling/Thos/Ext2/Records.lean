import Thos.Ext2.Model

/-!
# Directory records

The records of a directory block: each has an inode, a length that leads to the next, and
a name. Records tile a block when the lengths lead exactly to its end. On tiled blocks the
scanning loops of the driver are searches in the list of records, and its two ways of
editing a block add or remove one entry of that list.
-/

set_option autoImplicit false

namespace Thos.Ext2

open Thos.Lib List

/-- A record of a directory. -/
structure Rec where
  (ino len : Nat)
  name : Bytes

/-- A name in a directory and the inode it stands for. -/
structure Entry where
  ino : Nat
  name : Bytes
  deriving DecidableEq

/-- The bytes of a record that are in use. -/
def Rec.used (r : Rec) : Nat := if r.ino = 0 then 0 else round4 (8 + r.name.length)

/-- The record at an offset; the name of a record that is not in use does not count. -/
def recAt (c : Bytes) (off : Nat) : Rec where
  ino := le32 c off
  len := le16 c (off + 4)
  name := if le32 c off = 0 then [] else slice c (off + 8) (byte c (off + 6))

/-- The record at an offset keeps to its length. -/
structure GoodAt (c : Bytes) (off : Nat) : Prop where
  ge : 8 ≤ (recAt c off).len
  aligned : (recAt c off).len % 4 = 0
  within : off + (recAt c off).len ≤ c.length
  fits : le32 c off ≠ 0 → round4 (8 + byte c (off + 6)) ≤ (recAt c off).len

/-- The records `rs` tile the bytes from one offset to another. -/
inductive Tiled (c : Bytes) : Nat → List Rec → Nat → Prop
  | nil (off : Nat) : Tiled c off [] off
  | cons {off stop : Nat} {rs : List Rec} (hgood : GoodAt c off)
      (hrest : Tiled c (off + (recAt c off).len) rs stop) : Tiled c off (recAt c off :: rs) stop

/-- The records of a block. -/
def records (c : Bytes) : Nat → Nat → List Rec
  | 0, _ => []
  | fuel + 1, off =>
    if c.length < off + 8 ∨ le16 c (off + 4) = 0 then []
    else recAt c off :: records c fuel (off + le16 c (off + 4))

/-- The records of a block from its start. -/
def dirRecords (c : Bytes) : List Rec := records c (c.length + 1) 0

/-- The entries among the records. -/
def entriesOf (rs : List Rec) : List Entry :=
  (rs.filter fun r => r.ino ≠ 0).map fun r => ⟨r.ino, r.name⟩

theorem entriesOf_cons_of_free {r : Rec} (h0 : r.ino = 0) (rs : List Rec) :
    entriesOf (r :: rs) = entriesOf rs := by
  simp [entriesOf, h0]

theorem entriesOf_cons_of_used {r : Rec} (h0 : r.ino ≠ 0) (rs : List Rec) :
    entriesOf (r :: rs) = ⟨r.ino, r.name⟩ :: entriesOf rs := by
  simp [entriesOf, h0]

theorem entriesOf_append (rs rs' : List Rec) : entriesOf (rs ++ rs') = entriesOf rs ++
    entriesOf rs' := by
  simp [entriesOf]

/-! ## Tilings -/

section

variable {c c' : Bytes} {off stop : Nat} {rs rs' : List Rec}

theorem le_round4 (n : Nat) : n ≤ round4 n := by
  unfold round4
  omega

theorem GoodAt.length_name (h : GoodAt c off) (h0 : le32 c off ≠ 0) :
    (slice c (off + 8) (byte c (off + 6))).length = byte c (off + 6) := by
  have h1 := (le_round4 _).trans (h.fits h0)
  have h2 := h.within
  exact length_slice (by omega)

theorem GoodAt.used_le (h : GoodAt c off) : (recAt c off).used ≤ (recAt c off).len := by
  rw [Rec.used]
  split_ifs with h0
  · omega
  · have h0 : le32 c off ≠ 0 := h0
    have hname : (recAt c off).name.length = byte c (off + 6) := by
      rw [recAt, if_neg h0, h.length_name h0]
    rw [hname]
    exact h.fits h0

theorem Tiled.cons_of_eq {r : Rec} (hr : recAt c off = r) (hgood : GoodAt c off)
    (h : Tiled c (off + r.len) rs stop) : Tiled c off (r :: rs) stop := by
  subst hr
  exact .cons hgood h

theorem Tiled.le (h : Tiled c off rs stop) : off ≤ stop := by
  induction h with
  | nil => exact le_rfl
  | cons hgood _ ih => omega

theorem Tiled.append {mid : Nat} (h : Tiled c off rs mid) (h' : Tiled c mid rs' stop) :
    Tiled c off (rs ++ rs') stop := by
  induction h with
  | nil => exact h'
  | cons hgood _ ih => exact .cons hgood (ih h')

theorem Tiled.length_le (h : Tiled c off rs stop) : off + 8 * rs.length ≤ stop := by
  induction h with
  | nil => simp
  | cons hgood _ ih =>
    have := hgood.ge
    rw [length_cons]
    omega

theorem Tiled.records (h : Tiled c off rs c.length) {fuel : Nat} (hfuel : rs.length ≤ fuel) :
    records c (fuel + 1) off = rs := by
  induction rs generalizing off fuel with
  | nil =>
    cases h
    rw [Ext2.records, if_pos (.inl (by omega))]
  | cons r rs ih =>
    rw [length_cons] at hfuel
    obtain ⟨fuel, rfl⟩ : ∃ k, fuel = k + 1 := ⟨fuel - 1, by omega⟩
    cases h with
    | cons hgood hrest =>
      have h1 : 8 ≤ le16 c (off + 4) := hgood.ge
      have h2 : off + le16 c (off + 4) ≤ c.length := hgood.within
      rw [Ext2.records, if_neg (by omega)]
      exact congrArg _ (ih hrest (by omega))

theorem Tiled.dirRecords (h : Tiled c 0 rs c.length) : dirRecords c = rs := by
  have := h.length_le
  exact h.records (by omega)

end

/-! ## Bytes that agree -/

/-- Two buffers agree from one offset to another. -/
def Agree (c c' : Bytes) (lo hi : Nat) : Prop := ∀ i, lo ≤ i → i < hi → c'[i]? = (c)[i]?

section

variable {c c' : Bytes} {lo hi off stop i : Nat} {rs : List Rec}

section

variable (h : Agree c c' lo hi)
include h

theorem Agree.byte (h1 : lo ≤ i) (h2 : i < hi) : byte c' i = byte c i := by
  rw [Lib.byte, Lib.byte, getD_eq_getElem?_getD, getD_eq_getElem?_getD, h i h1 h2]

theorem Agree.le16 (h1 : lo ≤ i) (h2 : i + 2 ≤ hi) : le16 c' i = le16 c i := by
  rw [Lib.le16, Lib.le16, h.byte h1 (by omega), h.byte (by omega) (by omega)]

theorem Agree.le32 (h1 : lo ≤ i) (h2 : i + 4 ≤ hi) : le32 c' i = le32 c i := by
  rw [Lib.le32, Lib.le32, h.le16 h1 (by omega), h.le16 (by omega) (by omega)]

theorem Agree.slice {n : Nat} (h1 : lo ≤ i) (h2 : i + n ≤ hi) : slice c' i n = slice c i n := by
  refine ext_getElem? fun k => ?_
  rw [getElem?_slice, getElem?_slice]
  split_ifs
  · exact h _ (by omega) (by omega)
  · rfl

end

theorem GoodAt.congr (hgood : GoodAt c off) (h : Agree c c' off (off + (recAt c off).len))
    (hlen : c.length ≤ c'.length) : GoodAt c' off ∧ recAt c' off = recAt c off := by
  have hge := hgood.ge
  have hino := h.le32 (i := off) le_rfl (by omega)
  have hl := h.le16 (i := off + 4) (by omega) (by omega)
  have hb := h.byte (i := off + 6) (by omega) (by omega)
  have hlen' : (recAt c' off).len = (recAt c off).len := hl
  have hrec : recAt c' off = recAt c off := by
    by_cases h0 : Lib.le32 c off = 0
    · simp [recAt, hino, hl, h0]
    · have hfit := (le_round4 _).trans (hgood.fits h0)
      simp only [recAt, hino, hl, if_neg h0, hb]
      rw [h.slice (by omega) (by omega)]
  refine ⟨⟨?_, ?_, ?_, ?_⟩, hrec⟩
  · rw [hlen']
    exact hge
  · rw [hlen']
    exact hgood.aligned
  · have := hgood.within
    rw [hlen']
    omega
  · rw [hino, hb, hlen']
    exact hgood.fits

theorem Tiled.congr (h : Tiled c off rs stop) (hagree : Agree c c' off stop)
    (hlen : c.length ≤ c'.length) : Tiled c' off rs stop := by
  induction h with
  | nil => exact .nil _
  | @cons off stop rs hgood hrest ih =>
    have hle := hrest.le
    obtain ⟨hgood', hrec⟩ := hgood.congr (fun i h1 h2 => hagree i h1 (by omega)) hlen
    exact .cons_of_eq hrec hgood' (ih fun i h1 h2 => hagree i (by omega) h2)

end

variable {c : Bytes} {off child hi lo : Nat} {rs : List Rec}

theorem Tiled.shift {stop : Nat} (h : Tiled c off rs stop) (p : Bytes) :
    Tiled (p ++ c) (p.length + off) rs (p.length + stop) := by
  induction h with
  | nil => exact .nil _
  | @cons off stop rs hgood hrest ih =>
    have e1 : le32 (p ++ c) (p.length + off) = le32 c off := le32_append_right p c off
    have e2 : le16 (p ++ c) (p.length + off + 4) = le16 c (off + 4) := by
      rw [add_assoc, le16_append_right]
    have e3 : byte (p ++ c) (p.length + off + 6) = byte c (off + 6) := by
      rw [add_assoc, byte_append_right]
    have e4 : ∀ n, slice (p ++ c) (p.length + off + 8) n = slice c (off + 8) n := fun n => by
      rw [add_assoc, slice, slice, ← drop_drop, drop_left]
    have hrec : recAt (p ++ c) (p.length + off) = recAt c off := by
      simp only [recAt, e1, e2, e3, e4]
    have hgood' : GoodAt (p ++ c) (p.length + off) := by
      refine ⟨?_, ?_, ?_, ?_⟩ <;> rw [hrec]
      · exact hgood.ge
      · exact hgood.aligned
      · have := hgood.within
        rw [length_append]
        omega
      · rw [e1, e3]
        exact hgood.fits
    have hnext : p.length + off + (recAt c off).len =
      p.length + (off + (recAt c off).len) := by omega
    exact .cons_of_eq hrec hgood' (hnext ▸ ih)

theorem tiled_flatMap {α : Type} (f : α → Bytes) (xs : List α)
    (h : ∀ x ∈ xs, Tiled (f x) 0 (dirRecords (f x)) (f x).length) :
    Tiled (xs.flatMap f) 0 (xs.flatMap fun x => dirRecords (f x)) (xs.flatMap f).length := by
  induction xs with
  | nil => exact .nil 0
  | cons x xs ih =>
    rw [flatMap_cons, flatMap_cons, length_append]
    have h1 : Tiled (f x ++ xs.flatMap f) 0 (dirRecords (f x)) (f x).length :=
      (h x mem_cons_self).congr (fun i _ hi => getElem?_append_left hi) (by simp)
    exact h1.append ((ih fun y hy => h y (mem_cons_of_mem _ hy)).shift (f x))

/-! ## Scans -/

section

variable {fuel : Nat}

theorem GoodAt.bounds (h : GoodAt c off) :
    8 ≤ le16 c (off + 4) ∧ off + le16 c (off + 4) ≤ c.length ∧
      (le32 c off ≠ 0 → off + 8 + byte c (off + 6) ≤ off + le16 c (off + 4)) := by
  refine ⟨h.ge, h.within, fun h0 => ?_⟩
  have : 8 + byte c (off + 6) ≤ le16 c (off + 4) := (le_round4 _).trans (h.fits h0)
  omega

theorem findEntry_eq (h : Tiled c off rs c.length) (hfuel : rs.length ≤ fuel) (name : Bytes) :
    findEntry c name (fuel + 1) off =
      ((entriesOf rs).find? fun e => e.name = name).map Entry.ino := by
  induction rs generalizing off fuel with
  | nil =>
    cases h
    rw [findEntry, if_pos (by omega)]
    rfl
  | cons r rs ih =>
    rw [length_cons] at hfuel
    obtain ⟨fuel, rfl⟩ : ∃ k, fuel = k + 1 := ⟨fuel - 1, by omega⟩
    cases h with
    | cons hgood hrest =>
      obtain ⟨h1, h2, h3⟩ := hgood.bounds
      have ih := ih hrest (show rs.length ≤ fuel by omega)
      rw [findEntry, if_neg (by omega)]
      simp only
      rw [if_neg (by omega)]
      by_cases h0 : le32 c off = 0
      · rw [if_neg fun h => h.1 h0, entriesOf_cons_of_free (show (recAt c off).ino = 0 from h0)]
        exact ih
      · have h3 := h3 h0
        have hcons : entriesOf (recAt c off :: rs) =
            ⟨le32 c off, slice c (off + 8) (byte c (off + 6))⟩ :: entriesOf rs := by
          rw [entriesOf_cons_of_used (show (recAt c off).ino ≠ 0 from h0)]
          simp only [recAt, if_neg h0]
        rw [hcons, find?_cons]
        by_cases hname : slice c (off + 8) (byte c (off + 6)) = name
        · rw [if_pos ⟨h0, by omega, hname⟩]
          simp [hname]
        · rw [if_neg fun h => hname h.2.2]
          simp only [hname, decide_false]
          exact ih

theorem findGap_eq (h : Tiled c off rs c.length) (hfuel : rs.length ≤ fuel) (need : Nat) :
    (findGap c need (fuel + 1) off = .none ∧ ∀ r ∈ rs, r.len - r.used < need) ∨
      ∃ rs₁ r rs₂ off', rs = rs₁ ++ r :: rs₂ ∧ Tiled c off rs₁ off' ∧ recAt c off' = r ∧
        GoodAt c off' ∧ Tiled c (off' + r.len) rs₂ c.length ∧ need ≤ r.len - r.used ∧
        findGap c need (fuel + 1) off = .at off' r.used r.len := by
  induction rs generalizing off fuel with
  | nil =>
    cases h
    exact .inl ⟨by rw [findGap, if_pos (by omega)], nofun⟩
  | cons r rs ih =>
    rw [length_cons] at hfuel
    obtain ⟨fuel, rfl⟩ : ∃ k, fuel = k + 1 := ⟨fuel - 1, by omega⟩
    cases h with
    | cons hgood hrest =>
      obtain ⟨h1, h2, h3⟩ := hgood.bounds
      have ih := ih hrest (show rs.length ≤ fuel by omega)
      have hused : (if le32 c off = 0 then 0 else round4 (8 + byte c (off + 6))) =
          (recAt c off).used := by
        by_cases h0 : le32 c off = 0
        · simp [Rec.used, recAt, h0]
        · simp only [Rec.used, recAt, if_neg h0, hgood.length_name h0]
      have hle : (recAt c off).used ≤ le16 c (off + 4) := hgood.used_le
      rw [findGap, if_neg (by omega)]
      simp only
      rw [if_neg (by omega), hused, if_neg (by omega)]
      by_cases hroom : need ≤ le16 c (off + 4) - (recAt c off).used
      · rw [if_pos hroom]
        exact .inr ⟨[], recAt c off, rs, off, rfl, .nil off, rfl, hgood, hrest, hroom, rfl⟩
      · rw [if_neg hroom]
        rcases ih with ⟨ih, hno⟩ | ⟨rs₁, r, rs₂, off', rfl, h4, h5, h6, h7, h8, h9⟩
        · exact .inl ⟨ih, forall_mem_cons.2 ⟨Nat.lt_of_not_le hroom, hno⟩⟩
        · exact .inr ⟨recAt c off :: rs₁, r, rs₂, off', rfl, .cons hgood h4, h5, h6, h7, h8, h9⟩

end

/-! ## Edits -/

theorem agree_splice {x : Bytes} {o : Nat} (h : o + x.length ≤ c.length)
    (hapart : hi ≤ o ∨ o + x.length ≤ lo) : Agree c (splice c o x) lo hi := by
  intro i h1 h2
  rw [getElem?_splice h, if_neg (by omega)]

theorem Agree.trans {c' c'' : Bytes} (h : Agree c c' lo hi)
    (h' : Agree c' c'' lo hi) : Agree c c'' lo hi := fun i h1 h2 => (h' i h1 h2).trans (h i h1 h2)

/-- The bytes of a record. -/
def recBytes (child nrec : Nat) (ft : UInt8) (name : Bytes) : Bytes :=
  toLe32 child ++ (toLe16 nrec ++ ([name.length.toUInt8] ++ ([ft] ++ name)))

theorem length_recBytes (child nrec : Nat) (ft : UInt8) (name : Bytes) :
    (recBytes child nrec ft name).length = 8 + name.length := by
  simp only [recBytes, length_append, length_toLe32, length_toLe16, length_singleton]
  omega

section

variable {name : Bytes} {no nrec : Nat} {ft : UInt8} (hroom : no + 8 + name.length ≤ c.length)
include hroom

theorem putRecord_eq :
    putRecord c no child nrec ft name = splice c no (recBytes child nrec ft name) := by
  simp only [putRecord, recBytes]
  rw [show no + 4 = no + (toLe32 child).length from rfl, splice_splice_adjacent (by simp; omega),
    show no + 6 = no + (toLe32 child ++ toLe16 nrec).length from rfl,
    splice_splice_adjacent (by simp; omega),
    show no + 7 = no + (toLe32 child ++ toLe16 nrec ++ [name.length.toUInt8]).length from rfl,
    splice_splice_adjacent (by simp; omega),
    show no + 8 = no + (toLe32 child ++ toLe16 nrec ++ [name.length.toUInt8] ++
      [ft]).length from rfl, splice_splice_adjacent (by simp; omega)]
  simp

theorem length_putRecord : (putRecord c no child nrec ft name).length = c.length := by
  rw [putRecord_eq hroom, length_splice (by rw [length_recBytes]; omega)]

theorem agree_putRecord (h : hi ≤ no ∨ no + 8 + name.length ≤ lo) :
    Agree c (putRecord c no child nrec ft name) lo hi := by
  rw [putRecord_eq hroom]
  exact agree_splice (by rw [length_recBytes]; omega) (by rw [length_recBytes]; omega)

theorem recAt_putRecord (ft : UInt8) (hchild : child < 4294967296) (h0 : child ≠ 0)
    (hnrec : nrec < 65536) (hname : name.length < 256) (h4 : nrec % 4 = 0)
    (hfit : round4 (8 + name.length) ≤ nrec) (hin : no + nrec ≤ c.length) :
    recAt (putRecord c no child nrec ft name) no = ⟨child, nrec, name⟩ ∧
      GoodAt (putRecord c no child nrec ft name) no := by
  have hput : putRecord c no child nrec ft name = splice c no (recBytes child nrec ft name) :=
    putRecord_eq hroom
  have hlen := length_recBytes child nrec ft name
  have hspl : no + (recBytes child nrec ft name).length ≤ c.length := by omega
  have hino : le32 (putRecord c no child nrec ft name) no = child := by
    rw [hput]
    calc
      _ = le32 (recBytes child nrec ft name) 0 := le32_splice_add (i := 0) hspl (by omega)
      _ = le32 (toLe32 child) 0 := le32_append_left (by simp)
      _ = child := by rw [le32_toLe32, Nat.mod_eq_of_lt hchild]
  have hrec : le16 (putRecord c no child nrec ft name) (no + 4) = nrec := by
    rw [hput, le16_splice_add hspl (by omega), recBytes,
      show 4 = (toLe32 child).length + 0 from rfl, le16_append_right, le16_append_left (by simp),
      le16_toLe16, Nat.mod_eq_of_lt hnrec]
  have hnl : byte (putRecord c no child nrec ft name) (no + 6) = name.length := by
    rw [hput, byte_splice_add hspl (by omega), recBytes,
      show 6 = (toLe32 child).length + ((toLe16 nrec).length + 0) from rfl, byte_append_right,
      byte_append_right, byte_append_left (by simp), byte, getD_cons_zero, Nat.toUInt8_eq,
      UInt8.toNat_ofNat', Nat.mod_eq_of_lt hname]
  have hsl : slice (putRecord c no child nrec ft name) (no + 8) name.length = name := by
    rw [hput, recBytes, ← append_assoc, ← append_assoc, ← append_assoc,
      ← splice_splice_adjacent (by simp; omega)]
    refine slice_splice_self ?_
    rw [length_splice (by simp; omega)]
    simp
    omega
  have hrecAt : recAt (putRecord c no child nrec ft name) no = ⟨child, nrec, name⟩ := by
    simp only [recAt, hino, hrec, hnl, hsl, if_neg h0]
  refine ⟨hrecAt, ?_, ?_, ?_, ?_⟩ <;> rw [hrecAt]
  · exact (Nat.le_add_right 8 _).trans ((le_round4 _).trans hfit)
  · exact h4
  · rw [length_putRecord hroom]
    exact hin
  · rw [hnl]
    exact fun _ => hfit

end

theorem Tiled.put {name : Bytes} {no nrec : Nat} (h : Tiled c 0 rs no) (ft : UInt8)
    (hchild : child < 2 ^ 32) (h0 : child ≠ 0) (hnrec : nrec < 65536) (hname : name.length < 256)
    (h4 : nrec % 4 = 0) (hfit : round4 (8 + name.length) ≤ nrec) (hin : no + nrec ≤ c.length) :
    Tiled (putRecord c no child nrec ft name) 0 (rs ++ [⟨child, nrec, name⟩]) (no + nrec) := by
  have h8 := (le_round4 _).trans hfit
  have hroom : no + 8 + name.length ≤ c.length := by omega
  obtain ⟨hrec, hgood⟩ := recAt_putRecord hroom ft hchild h0 hnrec hname h4 hfit hin
  have hold : Tiled (putRecord c no child nrec ft name) 0 rs no :=
    h.congr (agree_putRecord hroom (.inl le_rfl)) (length_putRecord hroom).ge
  exact hold.append (.cons_of_eq hrec hgood (.nil _))

theorem tiled_fillGap {rs₁ rs₂ : List Rec} {r : Rec} (h₁ : Tiled c 0 rs₁ off)
    (hr : recAt c off = r) (hgood : GoodAt c off) (h₂ : Tiled c (off + r.len) rs₂ c.length)
    (ft : UInt8) {name : Bytes} (hchild : child < 2 ^ 32) (h0 : child ≠ 0)
    (hname : name.length < 256) (hlen : c.length < 65536)
    (hneed : round4 (8 + name.length) ≤ r.len - r.used) :
    ∃ rs', Tiled (fillGap c off r.used r.len child ft name) 0 rs' c.length ∧
      (fillGap c off r.used r.len child ft name).length = c.length ∧
      ⟨child, r.len - r.used, name⟩ ∈ rs' ∧ ∃ es es', entriesOf (rs₁ ++ r :: rs₂) = es ++ es' ∧
        entriesOf rs' = es ++ ⟨child, name⟩ :: es' := by
  have hused := hgood.used_le
  have hin := hgood.within
  have hal := hgood.aligned
  have hge := hgood.ge
  rw [hr] at hused hin hal hge
  have hal' : r.used % 4 = 0 := by
    rw [Rec.used]
    split_ifs
    · rfl
    · unfold round4
      omega
  have h8 := le_round4 (8 + name.length)
  generalize hc : (if r.used ≠ 0 then splice c (off + 4) (toLe16 r.used) else c) = c₁
  have hlen₁ : c₁.length = c.length := by
    rw [← hc]
    split_ifs
    · rw [length_splice (by rw [length_toLe16]; omega)]
    · rfl
  have hroom : off + r.used + 8 + name.length ≤ c₁.length := by omega
  rw [fillGap, hc]
  generalize hc₂ : putRecord c₁ (off + r.used) child (r.len - r.used) ft name = c₂
  have hlen₂ : c₂.length = c.length := by rw [← hc₂, length_putRecord hroom, hlen₁]
  obtain ⟨hnew, hgoodNew⟩ := recAt_putRecord hroom ft hchild h0 (by omega) hname (by omega) hneed
    (by omega)
  rw [hc₂] at hnew hgoodNew
  -- outside the record nothing has changed
  have hagree : ∀ lo hi, hi ≤ off ∨ off + r.len ≤ lo → Agree c c₂ lo hi := by
    intro lo hi hapart
    rw [← hc₂]
    refine Agree.trans ?_ (agree_putRecord hroom (by omega))
    rw [← hc]
    split_ifs
    · exact agree_splice (by rw [length_toLe16]; omega) (by rw [length_toLe16]; omega)
    · exact fun _ _ _ => rfl
  have ht₁ := h₁.congr (hagree _ _ (.inl le_rfl)) (by omega)
  have ht₂ : Tiled c₂ (off + r.used) (⟨child, r.len - r.used, name⟩ :: rs₂) c.length := by
    refine .cons_of_eq hnew hgoodNew ?_
    have := h₂.congr (hagree _ _ (.inr le_rfl)) (by omega)
    rwa [show off + r.used + (r.len - r.used) = off + r.len by omega]
  by_cases hino : le32 c off = 0
  · -- a free record is taken as a whole
    have hz : r.used = 0 := by simp [Rec.used, ← hr, recAt, hino]
    rw [hz, add_zero] at ht₂
    refine ⟨_, ht₁.append ht₂, hlen₂, by simp [hz], entriesOf rs₁, entriesOf rs₂, ?_, ?_⟩
    · rw [entriesOf_append, entriesOf_cons_of_free (show r.ino = 0 from hr ▸ hino)]
    · rw [entriesOf_append, entriesOf_cons_of_used h0]
  · -- a record in use keeps what it needs
    have hused₀ : r.ino ≠ 0 := hr ▸ hino
    have husedEq : r.used = round4 (8 + byte c (off + 6)) := by
      simp only [Rec.used, ← hr, recAt, if_neg hino, hgood.length_name hino]
    have h8' := (le_round4 _).trans_eq husedEq.symm
    have hc₁ : splice c (off + 4) (toLe16 r.used) = c₁ := by rw [← hc, if_pos (by omega)]
    have hspl : off + 4 + (toLe16 r.used).length ≤ c.length := by
      rw [length_toLe16]
      omega
    have hag : Agree c₁ c₂ off (off + r.used) := by
      rw [← hc₂]
      exact agree_putRecord hroom (by omega)
    have e1 : le32 c₂ off = le32 c off := by
      rw [hag.le32 le_rfl (by omega), ← hc₁, le32_splice_of_apart hspl (by omega)]
    have e2 : le16 c₂ (off + 4) = r.used := by
      rw [hag.le16 (by omega) (by omega), ← hc₁, le16_splice_self (by omega),
        Nat.mod_eq_of_lt (by omega)]
    have e3 : byte c₂ (off + 6) = byte c (off + 6) := by
      rw [hag.byte (by omega) (by omega), ← hc₁, byte_splice_of_apart hspl
        (by rw [length_toLe16]; omega)]
    have e4 : slice c₂ (off + 8) (byte c (off + 6)) = slice c (off + 8) (byte c (off + 6)) := by
      rw [hag.slice (by omega) (by omega), ← hc₁,
        slice_splice_of_apart hspl (by rw [length_toLe16]; omega)]
    have hrec : recAt c₂ off = ⟨r.ino, r.used, r.name⟩ := by
      rw [recAt, e1, e2, e3, e4, ← hr]
      rfl
    have hgood₂ : GoodAt c₂ off := by
      refine ⟨?_, ?_, ?_, ?_⟩ <;> rw [hrec]
      · show 8 ≤ r.used
        omega
      · exact hal'
      · show off + r.used ≤ c₂.length
        omega
      · intro _
        rw [e3]
        exact husedEq.ge
    refine ⟨_, ht₁.append (.cons_of_eq hrec hgood₂ ht₂), hlen₂, by simp,
      entriesOf rs₁ ++ [⟨r.ino, r.name⟩], entriesOf rs₂, ?_, ?_⟩
    · rw [entriesOf_append, entriesOf_cons_of_used hused₀, append_assoc]
      rfl
    · rw [entriesOf_append, entriesOf_cons_of_used (r := ⟨r.ino, r.used, r.name⟩) hused₀,
        entriesOf_cons_of_used h0, append_assoc]
      rfl

/-! ## Blocks of a directory -/

/-- A block of records. -/
structure DirBlock (fs : Ext2) (c : Bytes) : Prop where
  length : c.length = fs.blockSize
  tiled : Tiled c 0 (dirRecords c) c.length

def blockEntries (c : Bytes) : List Entry := entriesOf (dirRecords c)

theorem dirBlock_of_tiled {fs : Ext2} (h : Tiled c 0 rs c.length) (hlen : c.length = fs.blockSize) :
    DirBlock fs c ∧ blockEntries c = entriesOf rs :=
  ⟨⟨hlen, h.dirRecords.symm ▸ h⟩, by rw [blockEntries, h.dirRecords]⟩

/-- `c'` is `c` with one more entry. -/
def Inserted (fs : Ext2) (e : Entry) (c c' : Bytes) : Prop :=
  DirBlock fs c' ∧ ∃ es es', blockEntries c = es ++ es' ∧ blockEntries c' = es ++ e :: es'

def TakesGap (e : Entry) (c c' : Bytes) : Prop :=
  ∃ r ∈ dirRecords c, round4 (8 + e.name.length) ≤ r.len - r.used ∧
    ⟨e.ino, r.len - r.used, e.name⟩ ∈ dirRecords c'

variable {fs : Ext2} (hc : DirBlock fs c) (hbs : fs.blockSize < 65536)
include hc hbs

theorem DirBlock.findGap {name : Bytes} (ft : UInt8) (hchild : child < 2 ^ 32)
    (h0 : child ≠ 0) (hname : name.length < 256) :
    (findGap c (round4 (8 + name.length)) (fs.blockSize + 1) 0 = .none ∧
        ∀ r ∈ dirRecords c, r.len - r.used < round4 (8 + name.length)) ∨
      ∃ off used recLen, findGap c (round4 (8 + name.length)) (fs.blockSize + 1) 0 =
        .at off used recLen ∧
        Inserted fs ⟨child, name⟩ c (fillGap c off used recLen child ft name) ∧
        TakesGap ⟨child, name⟩ c (fillGap c off used recLen child ft name) := by
  have hlen := hc.tiled.length_le
  rw [hc.length] at hlen
  rcases findGap_eq hc.tiled (show _ ≤ fs.blockSize by omega) (round4 (8 + name.length)) with
    h | ⟨rs₁, r, rs₂, off, hrs, h₁, hr, hgood, h₂, hneed, hat⟩
  · exact .inl h
  · refine .inr ⟨off, r.used, r.len, hat, ?_⟩
    obtain ⟨rs', htiled, hlen', hmem, es, es', hes, hes'⟩ :=
      tiled_fillGap h₁ hr hgood h₂ ft hchild h0
      hname (by rw [hc.length]; exact hbs) hneed
    rw [← hlen'] at htiled
    have hrec := htiled.dirRecords
    refine ⟨⟨⟨hlen'.trans hc.length, hrec.symm ▸ htiled⟩, es, es', ?_, ?_⟩, r, ?_, hneed, ?_⟩
    · rw [blockEntries, hrs, hes]
    · rw [blockEntries, hrec, hes']
    · rw [hrs]
      exact mem_append_right _ mem_cons_self
    · rwa [hrec]

end Thos.Ext2
