import Thos.Registry.Tree

/-!
# The hive text format

`serialize_hive` writes a key tree as `thos-hive v1` text, one record a line with
every string field hex-encoded, and `deserialize_hive` rebuilds a tree from such a
text line by line. A line the reader does not understand is skipped.

`&s[i..i + 2]` in `unhex_bytes` panics when the cut falls inside a character, so
the readers return an outer `Option` whose `none` is that panic.

The writer goes through a list of records here as well (`recs`), and `walk_eq_render` says that the
text is exactly those records, rendered. Reading one rendered record applies it with its path parsed
again (`applyLine_render`). For an arbitrary file, `deserializeHive_eq_replay_iff` says when reading
it is the replay of its well-formed lines.
-/

set_option autoImplicit false

namespace Thos.Registry

open Thos.Lib List Utf8 Key

/-! ## Hexadecimal fields -/

/-- `char::from_digit(n, 16)`. -/
def fromDigit (n : Nat) : UInt8 := if n < 10 then 48 + n.toUInt8 else 87 + n.toUInt8

/-- Two hex digits a byte; an empty field is written `-`, so that `split(' ')`
still sees a token. -/
def hex (bytes : Bytes) : Bytes :=
  let s := bytes.flatMap fun b => [fromDigit (b.toNat / 16), fromDigit (b.toNat % 16)]
  if s = [] then [45] else s

/-- `char::to_digit(16)`. -/
def toDigit (b : UInt8) : Option Nat :=
  if 48 ≤ b ∧ b ≤ 57 then some (b.toNat - 48)
  else if 97 ≤ b ∧ b ≤ 102 then some (b.toNat - 87)
  else if 65 ≤ b ∧ b ≤ 70 then some (b.toNat - 55)
  else none

/-- `u8::from_str_radix(.., 16)` of a two-byte string, which may start with `+`. -/
def fromStrRadix (a b : UInt8) : Option UInt8 :=
  if a = 43 then (toDigit b).map Nat.toUInt8
  else (toDigit a).bind fun h => (toDigit b).map fun l => (16 * h + l).toUInt8

/-- A cut before `b` is inside a character. -/
def isContinuation (b : UInt8) : Bool := 0x80 ≤ b ∧ b ≤ 0xBF

/-- The pairs of an even-length field, left to right; `none` is a cut inside a
character, `some none` a pair that is no number. -/
def unhexPairs : Bytes → Option (Option Bytes)
  | a :: b :: rest =>
    if isContinuation a || rest.head?.any isContinuation then none
    else
      match fromStrRadix a b with
      | none => some none
      | some v => (unhexPairs rest).map fun r => r.map (v :: ·)
  | _ => some (some [])

def unhexBytes (s : Bytes) : Option (Option Bytes) :=
  if s = [45] then some (some [])
  else if s.length % 2 ≠ 0 then some none
  else unhexPairs s

/-- `unhex_string`: the bytes must be UTF-8. -/
def unhexString (s : Bytes) : Option (Option Bytes) :=
  (unhexBytes s).map fun r => r.filter fun b => valid b

/-! ## Writing -/

/-- `O <hex relpath> <uid>`, omitted for the system account. -/
def ownerLine (pre : Bytes) (uid : UInt32) : Bytes :=
  if uid = 0 then [] else ascii "O " ++ hex pre ++ ascii " " ++ decimal uid.toNat ++ [lf]

/-- `V <hex relpath> <hex name> <type> <hex data>`. -/
def valueLine (pre : Bytes) (name : Bytes) (v : Value) : Bytes :=
  ascii "V " ++ hex pre ++ ascii " " ++ hex name ++ ascii " " ++ decimal v.ty.toNat ++
    ascii " " ++ hex v.data ++ [lf]

def keyLine (child : Bytes) : Bytes := ascii "K " ++ hex child ++ [lf]

/-- The path of subkey `name` below `pre`. -/
def childPath (pre name : Bytes) : Bytes := if pre = [] then name else pre ++ 92 :: name

mutual
/-- The records of a key and of everything below it. -/
def walk : Key → Bytes → Bytes
  | .mk subs vals uid, pre =>
    ownerLine pre uid ++ vals.flatMap (fun p => valueLine pre p.1 p.2) ++ walkSubkeys subs pre
def walkSubkeys : List (Bytes × Key) → Bytes → Bytes
  | [], _ => []
  | (name, sub) :: rest, pre =>
    keyLine (childPath pre name) ++ walk sub (childPath pre name) ++ walkSubkeys rest pre
end

variable (base : Key)

def serializeHive : Bytes := ascii "thos-hive v1" ++ [lf] ++ walk base []

/-! ## Reading -/

/-- `it.next().and_then(unhex_string)`. -/
def nextString (field : Option Bytes) : Option (Option Bytes) :=
  match field with
  | none => some none
  | some s => unhexString s

/-- `it.next().and_then(unhex_bytes)`. -/
def nextBytes (field : Option Bytes) : Option (Option Bytes) :=
  match field with
  | none => some none
  | some s => unhexBytes s

variable (line : Bytes)

/-- One line of a hive file. -/
def applyLine : Option Key :=
  let it := line.splitOnP (· == 32)
  if it[0]? = some (ascii "K") then
    (nextString it[1]?).map fun
      | some rp => make base (components rp) 0 id
      | none => base
  else if it[0]? = some (ascii "O") then
    (nextString it[1]?).map fun rp =>
      match rp, it[2]?.bind parseU32 with
      | some rp, some uid => make base (components rp) 0 (setOwner uid)
      | _, _ => base
  else if it[0]? = some (ascii "V") then
    (nextString it[1]?).bind fun rp =>
      (nextString it[2]?).bind fun name =>
        (nextBytes it[4]?).map fun data =>
          match rp, name, it[3]?.bind parseU32, data with
          | some rp, some name, some ty, some data =>
            make base (components rp) 0 (insertValue (toAsciiLowercase name) ⟨ty, data⟩)
          | _, _, _, _ => base
  else some base

/-- `deserialize_hive`: the text into `base`, one line at a time. A file that is
not UTF-8 changes nothing. -/
def deserializeHive (bytes : Bytes) : Option Key :=
  if valid bytes then (lines bytes).foldlM applyLine base else some base

/-! ## Records -/

/-- One record of a hive file, its path as components. -/
inductive Rec where
  | key (path : List Bytes)
  | owner (path : List Bytes) (uid : UInt32)
  | value (path : List Bytes) (name : Bytes) (v : Value)

open Rec

/-- The path of a record. -/
def Rec.path : Rec → List Bytes
  | .key p => p
  | .owner p _ => p
  | .value p _ _ => p

/-- The record with its path parsed again. -/
def Rec.reparse : Rec → Rec
  | .key p => .key (stripRegistry p)
  | .owner p uid => .owner (stripRegistry p) uid
  | .value p name v => .value (stripRegistry p) name v

/-- Effect of a record on a tree. -/
def Rec.apply : Rec → Key
  | .key p => make base p 0 id
  | .owner p uid => make base p 0 (setOwner uid)
  | .value p name v => make base p 0 (insertValue name v)

/-- The blank-separated fields of a record's line. -/
def Rec.fields : Rec → List Bytes
  | .key p => [ascii "K", hex (joinPath p)]
  | .owner p uid => [ascii "O", hex (joinPath p), decimal uid.toNat]
  | .value p name v =>
    [ascii "V", hex (joinPath p), hex name, decimal v.ty.toNat, hex v.data]

/-- The line of a record, without its line feed. -/
def Rec.render (r : Rec) : Bytes := [32].intercalate r.fields

mutual
/-- The records `walk` writes for a key at `path`. -/
def recs : Key → List Bytes → List Rec
  | .mk subs vals uid, path =>
    (if uid = 0 then [] else [.owner path uid]) ++
      vals.map (fun p => .value path p.1 p.2) ++ recsSubkeys subs path
/-- The records `walkSubkeys` writes. -/
def recsSubkeys : List (Bytes × Key) → List Bytes → List Rec
  | [], _ => []
  | (name, sub) :: rest, path =>
    .key (path ++ [name]) :: recs sub (path ++ [name]) ++ recsSubkeys rest path
end

/-- A record whose path and names can stand in a tree. -/
def Rec.Wf : Rec → Prop
  | .key p => ∀ c ∈ p, KeyName c
  | .owner p _ => ∀ c ∈ p, KeyName c
  | .value p name _ => (∀ c ∈ p, KeyName c) ∧ toAsciiLowercase name = name ∧ valid name = true

theorem joinPath_eq_nil {p : List Bytes} (hp : ∀ c ∈ p, KeyName c) : joinPath p = [] ↔ p = [] := by
  cases p with
  | nil => simp [joinPath]
  | cons c cs =>
    have hc := (hp c mem_cons_self).ne_nil
    cases cs with
    | nil => simpa [joinPath] using hc
    | cons d ds => simp [joinPath, intercalate_cons_cons, hc]

theorem childPath_joinPath {p : List Bytes} (hp : ∀ c ∈ p, KeyName c) (name : Bytes) :
    childPath (joinPath p) name = joinPath (p ++ [name]) := by
  have happend : ∀ p : List Bytes, p ≠ [] → joinPath (p ++ [name]) = joinPath p ++ 92 :: name := by
    intro p hne
    induction p with
    | nil => exact absurd rfl hne
    | cons c cs ih =>
      cases cs with
      | nil => simp [joinPath, intercalate_cons_cons]
      | cons d ds =>
        have hrest := ih (by simp)
        simp only [joinPath, cons_append, intercalate_cons_cons] at hrest ⊢
        rw [hrest]
        simp
  unfold childPath
  by_cases hnil : p = []
  · subst hnil
    simp [joinPath]
  · rw [if_neg (by rwa [joinPath_eq_nil hp]), happend p hnil]

theorem walk_eq_render {k : Key} (hk : k.Wf) : ∀ {path : List Bytes}, (∀ c ∈ path, KeyName c) →
      walk k (joinPath path) = (recs k path).flatMap fun r => r.render ++ [lf] := by
  induction k using induct with
  | h subs vals uid ih =>
    intro path hpath
    cases hk with
    | mk _ _ hnames hsubs _ _ =>
      have howner : ownerLine (joinPath path) uid =
          (if uid = 0 then ([] : List Rec) else [.owner path uid]).flatMap
            fun r => r.render ++ [lf] := by
        unfold ownerLine
        split_ifs <;> simp [render, fields, intercalate_cons_cons, ascii]
      have hvals : (vals.flatMap fun p => valueLine (joinPath path) p.1 p.2) =
          (vals.map fun p => value path p.1 p.2).flatMap fun r => r.render ++ [lf] := by
        rw [flatMap_map]
        simp [valueLine, render, fields, intercalate_cons_cons, ascii]
      have hwalk : ∀ l : List (Bytes × Key), (∀ p ∈ l, p ∈ subs) → walkSubkeys l (joinPath path) =
            (recsSubkeys l path).flatMap fun r => r.render ++ [lf] := by
        intro l hl
        induction l with
        | nil => simp [walkSubkeys, recsSubkeys]
        | cons p rest ihl =>
          have hp := hl p mem_cons_self
          have hchild := forall_mem_append.2 ⟨hpath, forall_mem_singleton.2 (hnames p hp)⟩
          rw [walkSubkeys, recsSubkeys, childPath_joinPath hpath, ih p hp (hsubs p hp) hchild,
            ihl fun q hq => hl q (mem_cons_of_mem _ hq)]
          simp [keyLine, render, fields, intercalate_cons_cons, ascii]
      rw [walk, recs, howner, hvals, hwalk subs fun p hp => hp]
      simp

theorem wf_of_mem_recs {k : Key} (hk : k.Wf) :
    ∀ {path : List Bytes}, (∀ c ∈ path, KeyName c) → ∀ r ∈ recs k path, r.Wf := by
  induction k using induct with
  | h subs vals uid ih =>
    intro path hpath r hr
    cases hk with
    | mk _ _ hnames hsubs _ hvals =>
      have hsub : ∀ l : List (Bytes × Key), (∀ p ∈ l, p ∈ subs) →
          ∀ r ∈ recsSubkeys l path, r.Wf := by
        intro l hl
        induction l with
        | nil => simp [recsSubkeys]
        | cons p rest ihl =>
          have hp := hl p mem_cons_self
          have hchild := forall_mem_append.2 ⟨hpath, forall_mem_singleton.2 (hnames p hp)⟩
          intro r hr
          simp only [recsSubkeys, cons_append, mem_cons, mem_append] at hr
          rcases hr with rfl | hr | hr
          · exact hchild
          · exact ih p hp (hsubs p hp) hchild r hr
          · exact ihl (fun q hq => hl q (mem_cons_of_mem _ hq)) r hr
      simp only [recs, mem_append, mem_map] at hr
      rcases hr with (hr | ⟨p, hp, rfl⟩) | hr
      · split_ifs at hr with huid
        · simp at hr
        · rw [mem_singleton.1 hr]
          exact hpath
      · exact ⟨hpath, hvals p hp⟩
      · exact hsub subs (fun p hp => hp) r hr

/-! ## Reading a rendered record back -/

theorem toDigit_fromDigit {n : Nat} (hn : n < 16) : toDigit (fromDigit n) = some n := by
  interval_cases n <;> rfl

theorem fromDigit_ascii {n : Nat} (hn : n < 16) :
    fromDigit n < 0x80 ∧ fromDigit n ≠ 43 ∧ fromDigit n ≠ 32 ∧ fromDigit n ≠ 45 ∧
      fromDigit n ≠ lf ∧ fromDigit n ≠ 13 := by
  interval_cases n <;> decide

theorem byte_div_lt (b : UInt8) : b.toNat / 16 < 16 := by
  have := b.toNat_lt
  omega

theorem fromStrRadix_digits (b : UInt8) :
    fromStrRadix (fromDigit (b.toNat / 16)) (fromDigit (b.toNat % 16)) = some b := by
  have hlo : b.toNat % 16 < 16 := Nat.mod_lt _ (by norm_num)
  rw [fromStrRadix, if_neg (fromDigit_ascii (byte_div_lt b)).2.1, toDigit_fromDigit (byte_div_lt b),
    toDigit_fromDigit hlo, Option.bind_some, Option.map_some, Nat.div_add_mod]
  simp

theorem unhexPairs_digits (bytes : Bytes) :
    unhexPairs (bytes.flatMap fun b => [fromDigit (b.toNat / 16), fromDigit (b.toNat % 16)]) =
      some (some bytes) := by
  have hcont : ∀ {n : Nat}, n < 16 → isContinuation (fromDigit n) = false := by
    intro n hn
    interval_cases n <;> rfl
  induction bytes with
  | nil => rfl
  | cons b rest ih =>
    have hhead : (rest.flatMap fun b =>
        [fromDigit (b.toNat / 16), fromDigit (b.toNat % 16)]).head?.any
          isContinuation = false := by
      cases rest with
      | nil => rfl
      | cons c rest => simp [hcont (byte_div_lt c)]
    simp only [flatMap_cons, cons_append, nil_append, unhexPairs,
      hcont (byte_div_lt b), hhead, fromStrRadix_digits, ih]
    simp

theorem unhexBytes_hex (bytes : Bytes) : unhexBytes (hex bytes) = some (some bytes) := by
  cases bytes with
  | nil => rfl
  | cons b rest =>
    have hne : (b :: rest).flatMap
        (fun b => [fromDigit (b.toNat / 16), fromDigit (b.toNat % 16)]) ≠ [] := by simp
    have hdash : (b :: rest).flatMap
        (fun b => [fromDigit (b.toNat / 16), fromDigit (b.toNat % 16)]) ≠ [45] := by simp
    have hlen : ((b :: rest).flatMap
        (fun b => [fromDigit (b.toNat / 16), fromDigit (b.toNat % 16)])).length % 2 = 0 := by
      rw [length_flatMap]
      simp [sum_replicate]
    rw [hex, if_neg hne, unhexBytes, if_neg hdash, if_neg (by simp only [hlen]; decide),
      unhexPairs_digits]

theorem unhexString_hex {s : Bytes} (hs : valid s = true) :
    unhexString (hex s) = some (some s) := by
  simp [unhexString, unhexBytes_hex, hs]

/-- What a field of a record is made of. -/
abbrev fieldByte (b : UInt8) : Prop := b < 0x80 ∧ b ≠ 32 ∧ b ≠ lf ∧ b ≠ 13

theorem fieldByte_of_mem_hex {bytes : Bytes} {b : UInt8} (h : b ∈ hex bytes) : fieldByte b := by
  unfold hex at h
  dsimp only at h
  split_ifs at h with hnil
  · rw [mem_singleton.1 h]
    exact ⟨by decide, by decide, by decide, by decide⟩
  · obtain ⟨a, -, hb⟩ := mem_flatMap.1 h
    have hlo : a.toNat % 16 < 16 := Nat.mod_lt _ (by norm_num)
    simp only [mem_cons, not_mem_nil, or_false] at hb
    rcases hb with rfl | rfl
    · obtain ⟨h1, -, h2, -, h3, h4⟩ := fromDigit_ascii (byte_div_lt a)
      exact ⟨h1, h2, h3, h4⟩
    · obtain ⟨h1, -, h2, -, h3, h4⟩ := fromDigit_ascii hlo
      exact ⟨h1, h2, h3, h4⟩

theorem fieldByte_of_mem_decimal {n : Nat} {b : UInt8} (h : b ∈ decimal n) : fieldByte b := by
  have hd := isDigit_of_mem_decimal h
  simp only [isDigit, Bool.decide_and, Bool.and_eq_true, decide_eq_true_eq] at hd
  refine ⟨UInt8.lt_of_le_of_lt hd.2 (by decide), ?_, ?_, ?_⟩ <;>
    rintro rfl <;> exact absurd hd.1 (by decide)

theorem fieldByte_of_mem_fields (r : Rec) : ∀ f ∈ r.fields, ∀ b ∈ f, fieldByte b := by
  have htag : ∀ t ∈ [ascii "K", ascii "O", ascii "V"], ∀ b ∈ t, fieldByte b := by decide +kernel
  intro f hf
  cases r <;> simp only [fields, mem_cons, not_mem_nil, or_false] at hf <;> rcases hf with rfl | hf
  case key.inl | owner.inl | value.inl => exact htag _ (by simp)
  case key.inr => exact hf ▸ fun b hb => fieldByte_of_mem_hex hb
  case owner.inr =>
    rcases hf with rfl | rfl
    · exact fun b hb => fieldByte_of_mem_hex hb
    · exact fun b hb => fieldByte_of_mem_decimal hb
  case value.inr =>
    rcases hf with rfl | rfl | rfl | rfl
    · exact fun b hb => fieldByte_of_mem_hex hb
    · exact fun b hb => fieldByte_of_mem_hex hb
    · exact fun b hb => fieldByte_of_mem_decimal hb
    · exact fun b hb => fieldByte_of_mem_hex hb

theorem splitOnP_render (r : Rec) : r.render.splitOnP (· == 32) = r.fields := by
  refine splitOnP_intercalate rfl (fun f hf b hb => ?_) (by cases r <;> simp [fields])
  simpa using (fieldByte_of_mem_fields r f hf b hb).2.1

theorem valid_joinPath {p : List Bytes} (hp : ∀ c ∈ p, KeyName c) : valid (joinPath p) = true := by
  induction p with
  | nil => rfl
  | cons c cs ih =>
    have hc := (hp c mem_cons_self).utf8
    cases cs with
    | nil => simpa [joinPath] using hc
    | cons d ds =>
      have hrest := ih fun e he => hp e (mem_cons_of_mem _ he)
      rw [joinPath, intercalate_cons_cons, append_assoc, singleton_append,
        valid_append_ascii c _ (by decide), hc]
      exact hrest

theorem applyLine_render {r : Rec} (hr : r.Wf) (base : Key) :
    applyLine base r.render = some (r.reparse.apply base) := by
  unfold applyLine
  rw [splitOnP_render]
  cases r with
  | key p =>
    have hp : ∀ c ∈ p, KeyName c := hr
    simp [fields, nextString, unhexString_hex (valid_joinPath hp), components_joinPath hp, reparse,
      apply]
  | owner p uid =>
    have hp : ∀ c ∈ p, KeyName c := hr
    have hK : ascii "O" ≠ ascii "K" := by decide
    simp [fields, hK, nextString, unhexString_hex (valid_joinPath hp), components_joinPath hp,
      parseU32_decimal, reparse, apply]
  | value p name v =>
    obtain ⟨hp, hlower, hutf8⟩ := hr
    have hK : ascii "V" ≠ ascii "K" := by decide
    have hO : ascii "V" ≠ ascii "O" := by decide
    simp [fields, hK, hO, nextString, nextBytes, unhexString_hex (valid_joinPath hp),
      unhexString_hex hutf8, unhexBytes_hex, components_joinPath hp, parseU32_decimal, hlower,
      reparse, apply]

theorem ascii_of_mem_render {r : Rec} {b : UInt8} (hb : b ∈ r.render) :
    b < 0x80 ∧ b ≠ lf ∧ b ≠ 13 := by
  rcases eq_sep_or_mem_of_mem_intercalate hb with rfl | ⟨f, hf, hb⟩
  · decide
  · obtain ⟨hascii, -, hlf, hcr⟩ := fieldByte_of_mem_fields r f hf b hb
    exact ⟨hascii, hlf, hcr⟩

/-- Apply a list of records, in file order. -/
def replay (rs : List Rec) (base : Key) : Key := rs.foldl apply base

theorem deserializeHive_serializeHive {k : Key} (hk : k.Wf) (base : Key) :
    deserializeHive base (serializeHive k) = some (replay ((recs k []).map reparse) base) := by
  have htext : serializeHive k =
      (ascii "thos-hive v1" :: (recs k []).map render).flatMap (· ++ [lf]) := by
    have hwalk := @walk_eq_render k hk [] (by simp)
    rw [serializeHive, flatMap_cons, flatMap_map]
    exact congrArg _ hwalk
  have hline : ∀ l ∈ ascii "thos-hive v1" :: (recs k []).map render,
      ∀ b ∈ l, b < 0x80 ∧ b ≠ lf ∧ b ≠ 13 :=
    forall_mem_cons.2 ⟨by decide +kernel, forall_mem_map.2 fun r _ b hb => ascii_of_mem_render hb⟩
  have hvalid : valid (serializeHive k) = true := by
    refine valid_of_ascii fun b hb => ?_
    rw [htext, mem_flatMap] at hb
    obtain ⟨l, hl, hb⟩ := hb
    rcases mem_append.1 hb with hb | hb
    · exact (hline l hl b hb).1
    · rw [mem_singleton.1 hb]
      decide
  have hrun : ∀ (rs : List Rec) (base : Key), (∀ r ∈ rs, r.Wf) →
      (rs.map render).foldlM applyLine base = some (replay (rs.map reparse) base) := by
    intro rs
    induction rs with
    | nil => exact fun base _ => rfl
    | cons r rs ih =>
      intro base hrs
      rw [map_cons, foldlM_cons, applyLine_render (hrs r mem_cons_self)]
      exact ih _ fun r' hr' => hrs r' (mem_cons_of_mem _ hr')
  have hheader : applyLine base (ascii "thos-hive v1") = some base := by
    have hsplit : (ascii "thos-hive v1").splitOnP (· == 32) = [ascii "thos-hive", ascii "v1"] := by
      decide
    unfold applyLine
    rw [hsplit]
    rfl
  rw [deserializeHive, if_pos hvalid, htext, lines_flatMap _
    (fun l hl h => (hline l hl _ h).2.1 rfl) (fun l hl h => (hline l hl _ h).2.2 rfl),
    foldlM_cons, hheader]
  exact hrun _ _ (wf_of_mem_recs hk (by simp))

/-! ## Lines that are no record

`readLine` is the record a line stands for: a tag, and after it every field the tag asks
for, each of them readable. `deserialize_hive` replays these records, except in two
cases. A file that is not UTF-8 is dropped whole, and a field that `unhex_bytes` cuts
inside a character panics. -/

/-- The record of a well-formed line. -/
def readLine : Option Rec :=
  let it := line.splitOnP (· == 32)
  if it[0]? = some (ascii "K") then
    (nextString it[1]?).join.map fun rp => .key (components rp)
  else if it[0]? = some (ascii "O") then
    (nextString it[1]?).join.bind fun rp =>
      (it[2]?.bind parseU32).map fun uid => .owner (components rp) uid
  else if it[0]? = some (ascii "V") then
    (nextString it[1]?).join.bind fun rp =>
      (nextString it[2]?).join.bind fun name =>
        (it[3]?.bind parseU32).bind fun ty =>
          (nextBytes it[4]?).join.map fun data =>
            .value (components rp) (toAsciiLowercase name) ⟨ty, data⟩
  else none

/-- The fields of a line that are read as hex. -/
def hexFields : List Bytes :=
  let it := line.splitOnP (· == 32)
  if it[0]? = some (ascii "K") ∨ it[0]? = some (ascii "O") then it[1]?.toList
  else if it[0]? = some (ascii "V") then it[1]?.toList ++ it[2]?.toList ++ it[4]?.toList
  else []

/-- Two bytes at a time, as long as they are numbers, the text is cut inside a character. -/
inductive CutsChar : Bytes → Prop
  | here {a b : UInt8} {rest : Bytes} (h : isContinuation a ∨ rest.head?.any isContinuation) :
    CutsChar (a :: b :: rest)
  | later {a b v : UInt8} {rest : Bytes} (hab : fromStrRadix a b = some v) (h : CutsChar rest) :
    CutsChar (a :: b :: rest)

theorem unhexPairs_eq_none_iff (s : Bytes) : unhexPairs s = none ↔ CutsChar s := by
  fun_induction unhexPairs s with
  | case1 a b rest hcut => exact iff_of_true rfl (.here (by simpa using hcut))
  | case2 a b rest hcut hnum =>
    refine iff_of_false nofun fun h => ?_
    cases h with
    | here h => exact hcut (by simpa using h)
    | later hab _ => exact nomatch hnum.symm.trans hab
  | case3 a b rest hcut v hnum ih =>
    rw [Option.map_eq_none_iff, ih]
    refine ⟨.later hnum, fun h => ?_⟩
    cases h with
    | here h => exact absurd (by simpa using h) hcut
    | later _ h => exact h
  | case4 s hs => exact iff_of_false nofun fun h => by cases h <;> exact hs _ _ _ rfl

theorem unhexBytes_eq_none_iff (s : Bytes) :
    unhexBytes s = none ↔ s.length % 2 = 0 ∧ CutsChar s := by
  unfold unhexBytes
  split_ifs with hdash hodd
  · simp [hdash]
  · simp [hodd]
  · rw [unhexPairs_eq_none_iff, and_iff_right (not_not.1 hodd)]

/-- A line whose hex fields are all cut between characters. -/
def Uncut : Prop := ∀ f ∈ hexFields line, ¬ (f.length % 2 = 0 ∧ CutsChar f)

theorem nextBytes_eq_none_iff (o : Option Bytes) :
    nextBytes o = none ↔ ∃ f ∈ o.toList, f.length % 2 = 0 ∧ CutsChar f := by
  cases o <;> simp [nextBytes, unhexBytes_eq_none_iff]

theorem nextString_eq_none_iff (o : Option Bytes) :
    nextString o = none ↔ ∃ f ∈ o.toList, f.length % 2 = 0 ∧ CutsChar f := by
  cases o <;> simp [nextString, unhexString, unhexBytes_eq_none_iff]

theorem applyLine_eq_some_iff (base k : Key) (line : Bytes) : applyLine base line = some k ↔
      Uncut line ∧ (readLine line).elim base (apply base) = k := by
  have hs : ∀ o, (∀ f ∈ o.toList, ¬ (f.length % 2 = 0 ∧ CutsChar f)) ↔ nextString o ≠ none := by
    simp [nextString_eq_none_iff]
  have hb : ∀ o, (∀ f ∈ o.toList, ¬ (f.length % 2 = 0 ∧ CutsChar f)) ↔ nextBytes o ≠ none := by
    simp [nextBytes_eq_none_iff]
  simp only [applyLine, readLine, Uncut, hexFields]
  generalize line.splitOnP (· == 32) = it
  by_cases hK : it[0]? = some (ascii "K")
  · simp only [hK, if_true, true_or, hs]
    rcases nextString it[1]? with - | - | rp <;> simp [apply]
  by_cases hO : it[0]? = some (ascii "O")
  · simp only [hO, show ascii "O" ≠ ascii "K" by decide, Option.some.injEq, if_false, if_true,
      or_true, hs]
    rcases nextString it[1]? with - | - | rp <;> rcases it[2]?.bind parseU32 with - | uid <;>
      simp [apply]
  by_cases hV : it[0]? = some (ascii "V")
  · simp only [hV, show ascii "V" ≠ ascii "K" by decide, show ascii "V" ≠ ascii "O" by decide,
      Option.some.injEq, or_self, if_false, if_true, forall_mem_append, hs it[1]?, hs it[2]?, hb]
    rcases nextString it[1]? with - | - | rp <;> rcases nextString it[2]? with - | - | name <;>
      rcases nextBytes it[4]? with - | - | data <;> rcases it[3]?.bind parseU32 with - | ty <;>
      simp [apply]
  · simp [hK, hO, hV]

theorem foldlM_applyLine_eq_some_iff (ls : List Bytes) (base k : Key) :
    ls.foldlM applyLine base = some k ↔
      (∀ l ∈ ls, Uncut l) ∧ replay (ls.filterMap readLine) base = k := by
  induction ls generalizing base with
  | nil => simp [replay]
  | cons l ls ih =>
    simp only [foldlM_cons, Option.bind_eq_bind, Option.bind_eq_some_iff,
      applyLine_eq_some_iff, ih, forall_mem_cons]
    cases hl : readLine l with
    | none => simp [hl, and_assoc]
    | some r => simp [hl, replay, and_assoc]

theorem replay_eq_self_iff (rs : List Rec) :
    (∀ base, replay rs base = base) ↔ ∀ r ∈ rs, r = .key [] := by
  constructor
  · -- after any other record the root has a subkey or a value, or its owner is no longer
    -- the one it had before
    let Marked (k k' : Key) : Prop := k.subkeys ≠ [] ∨ k.values ≠ [] ∨ k.ownerUid = k'.ownerUid
    have hset : ∀ r : Rec, r ≠ .key [] → ∀ k k', Marked (r.apply k) (r.apply k') := by
      intro r hr k k'
      rcases r with p | ⟨p, uid⟩ | ⟨p, n, v⟩ <;> cases p <;> cases k <;> cases k' <;>
        simp_all [Marked, apply, make, setOwner, insertValue, OrdMap.insert_ne_nil]
    have hrun : ∀ (rs : List Rec) k k', Marked k k' → Marked (replay rs k) (replay rs k') := by
      intro rs
      induction rs with
      | nil => exact fun k k' h => h
      | cons r rs ih =>
        intro k k' h
        refine ih _ _ ?_
        by_cases hr : r = .key []
        · rw [hr]
          exact h
        · exact hset r hr k k'
    intro h r hr
    by_contra hne
    obtain ⟨before, after, rfl⟩ := append_of_mem hr
    have hmarked := hrun after _ _
      (hset r hne (replay before (.owned 0)) (replay before (.owned 1)))
    have hsplit : ∀ k, replay after (r.apply (replay before k)) = k := by
      intro k
      simpa [replay] using h k
    rw [hsplit, hsplit] at hmarked
    simp [Marked, owned] at hmarked
  · intro h base
    induction rs with
    | nil => rfl
    | cons r rs ih =>
      obtain ⟨rfl, hrs⟩ := forall_mem_cons.1 h
      exact ih hrs

/-- For every file, `deserialize_hive` gives the replay of the well-formed lines on every
starting key exactly if the file is UTF-8 and no hex field of it is cut inside a
character, or it is not UTF-8 and its well-formed lines say nothing but that the starting
key exists. -/
theorem deserializeHive_eq_replay_iff (bytes : Bytes) : (∀ base, deserializeHive base bytes =
        some (replay ((lines bytes).filterMap readLine) base)) ↔
      (valid bytes = true ∧ ∀ l ∈ lines bytes, Uncut l) ∨
        (valid bytes = false ∧ ∀ l ∈ lines bytes, ∀ r, readLine l = some r → r = .key []) := by
  unfold deserializeHive
  cases valid bytes with
  | true => simp [foldlM_applyLine_eq_some_iff]
  | false =>
    simp only [Bool.false_eq_true, if_false, Option.some.injEq, false_and, true_and, false_or]
    rw [← forall_mem_filterMap, ← replay_eq_self_iff]
    exact forall_congr' fun base => eq_comm

/-- `K aéb` panics: the second and third byte of the field are one character. One byte that
is no UTF-8 makes the reader drop the line `K 61` before it. -/
theorem hive_lines_are_lost :
    deserializeHive new (ascii "K a" ++ [0xC3, 0xA9] ++ ascii "b") = none ∧
      valid (ascii "K a" ++ [0xC3, 0xA9] ++ ascii "b") = true ∧
      deserializeHive new (ascii "K 61" ++ [lf, 0xFF]) = some new ∧
      (lines (ascii "K 61" ++ [lf, 0xFF])).filterMap readLine = [.key [ascii "a"]] :=
  ⟨rfl, by decide +kernel, rfl, rfl⟩

end Thos.Registry
