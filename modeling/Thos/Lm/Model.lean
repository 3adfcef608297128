import Thos.Lib.Greedy
import Thos.Lm.Container
import Thos.Lm.Tokenizer

/-!
# Loading a model

`Model::load` of `thos-lm/src/model.rs` reads a file that may hold anything. It faults on merges
that use ids before they are made and on sizes beyond 64 bits, and it does not compare the ids of
the tokenizer with the vocabulary of the header.

An id comes out of `encode` for some prompt if and only if it stands for itself: the merges make
that id alone of the bytes it stands for (`encode_lt_iff`).
-/

set_option autoImplicit false

namespace Thos.Lm

open Thos.Lib List Tokenizer

/-! ## The tokenizer of a file -/

namespace Tokenizer

def isizeMax : Nat := 9223372036854775807

/-- The loop of `Tokenizer::new`. A vector does not grow beyond `isize::MAX` bytes. -/
def expandRound (expand : List Bytes) (m : UInt32 × UInt32) : Checked TlmError (List Bytes) := do
  let a ← index expand m.1.toNat
  let b ← index expand m.2.toNat
  if a.length + b.length ≤ isizeMax then return expand ++ [a ++ b] else .error .fault

/-- The ids of the bytes. -/
def byteTable : List Bytes := (List.range 256).map fun b => [b.toUInt8]

variable (merges : List (UInt32 × UInt32))

def new : Checked TlmError Tokenizer := do
  let expand ← merges.foldlM expandRound byteTable
  return ⟨merges, expand, 256 + merges.length⟩

/-- Every merge uses ids made before it. -/
def Earlier : Prop := ∀ k m, merges[k]? = some m → m.1.toNat < 256 + k ∧ m.2.toNat < 256 + k

/-- The lengths of what the ids stand for. -/
def lengths : List Nat :=
  merges.foldl (fun ls m => ls ++ [ls.getD m.1.toNat 0 + ls.getD m.2.toNat 0])
    (List.replicate 256 1)

/-- What the ids stand for. -/
def expansions : List Bytes :=
  merges.foldl (fun expand m => expand ++ [expand.getD m.1.toNat [] ++ expand.getD m.2.toNat []])
    byteTable

/-- The merge lists that a tokenizer can be built from. -/
structure Sound (merges : List (UInt32 × UInt32)) : Prop where
  earlier : Earlier merges
  lengths : ∀ n ∈ lengths merges, n ≤ isizeMax

theorem lengths_concat (merges : List (UInt32 × UInt32)) (m : UInt32 × UInt32) :
    lengths (merges ++ [m]) = lengths merges ++
      [(lengths merges).getD m.1.toNat 0 + (lengths merges).getD m.2.toNat 0] :=
  foldl_append

variable {merges : List (UInt32 × UInt32)}

theorem sound_concat {m : UInt32 × UInt32} : Sound (merges ++ [m]) ↔ Sound merges ∧
      (m.1.toNat < 256 + merges.length ∧ m.2.toNat < 256 + merges.length) ∧
      (lengths merges).getD m.1.toNat 0 + (lengths merges).getD m.2.toNat 0 ≤ isizeMax := by
  have hlengths : ∀ n, n ∈ lengths (merges ++ [m]) ↔ n ∈ lengths merges ∨
      n = (lengths merges).getD m.1.toNat 0 + (lengths merges).getD m.2.toNat 0 := by
    intro n
    rw [lengths_concat, mem_append, mem_singleton]
  constructor
  · intro h
    refine ⟨⟨fun k m' hk => h.earlier k m' ?_, fun n hn => h.lengths n ((hlengths n).2 (.inl hn))⟩,
      h.earlier merges.length m (by simp), h.lengths _ ((hlengths _).2 (.inr rfl))⟩
    rwa [getElem?_append_left (List.getElem?_eq_some_iff.1 hk).1]
  · rintro ⟨hsound, hlt, hle⟩
    refine ⟨fun k m' hk => ?_, fun n hn => ?_⟩
    · rcases lt_or_ge k merges.length with hk' | hk'
      · exact hsound.earlier k m' (by rwa [getElem?_append_left hk'] at hk)
      · have hlen := (List.getElem?_eq_some_iff.1 hk).1
        obtain rfl : k = merges.length := by simp at hlen; omega
        obtain rfl : m = m' := by simpa using hk
        exact hlt
    · rcases (hlengths n).1 hn with hn | rfl
      · exact hsound.lengths n hn
      · exact hle

theorem expansions_concat (merges : List (UInt32 × UInt32)) (m : UInt32 × UInt32) :
    expansions (merges ++ [m]) = expansions merges ++
      [(expansions merges).getD m.1.toNat [] ++ (expansions merges).getD m.2.toNat []] :=
  foldl_append

@[simp]
theorem length_expansions (merges : List (UInt32 × UInt32)) :
    (expansions merges).length = 256 + merges.length := by
  induction merges using List.reverseRecOn with
  | nil => simp [expansions, byteTable]
  | append_singleton ms m ih => simp [expansions_concat, ih, add_assoc]

theorem length_getD_expansions (merges : List (UInt32 × UInt32)) (i : Nat) :
    ((expansions merges).getD i []).length = (lengths merges).getD i 0 := by
  have hgetD : ∀ (table : List Bytes) (i : Nat),
      (table.map List.length).getD i 0 = (table.getD i []).length := by
    intro table i
    exact getD_map table [] List.length
  have hmap : (expansions merges).map List.length = lengths merges := by
    induction merges using List.reverseRecOn with
    | nil =>
      rw [expansions, foldl_nil, byteTable, map_map,
        show (List.length ∘ fun b : Nat => [b.toUInt8]) = fun _ => 1 from rfl, map_const',
        length_range, lengths, foldl_nil]
    | append_singleton ms m ih =>
      rw [expansions_concat, lengths_concat, map_append, ← ih, hgetD, hgetD]
      simp
  rw [← hmap, hgetD]

theorem getD_expansions_concat (m : UInt32 × UInt32) {i : Nat} (hi : i < 256 + merges.length) :
    (expansions (merges ++ [m])).getD i [] = (expansions merges).getD i [] := by
  rw [expansions_concat, getD_append _ _ _ _ (by rwa [length_expansions])]

theorem getD_expansions_byte (merges : List (UInt32 × UInt32)) (b : UInt8) :
    (expansions merges).getD b.toNat [] = [b] := by
  have hlt := b.toNat_lt
  induction merges using List.reverseRecOn with
  | nil =>
    rw [expansions, foldl_nil, byteTable, getD_eq_getElem?_getD, getElem?_map,
      getElem?_range hlt]
    simp
  | append_singleton ms m ih => rw [getD_expansions_concat m (by omega), ih]

theorem getD_expansions_merge (h : Earlier merges) {k : Nat} {m : UInt32 × UInt32}
    (hk : merges[k]? = some m) : (expansions merges).getD (256 + k) [] =
      (expansions merges).getD m.1.toNat [] ++ (expansions merges).getD m.2.toNat [] := by
  induction merges using List.reverseRecOn with
  | nil => cases hk
  | append_singleton ms m' ih =>
    have hearlier : Earlier ms := fun k m hk =>
      h k m ((getElem?_append_left (List.getElem?_eq_some_iff.1 hk).1).trans hk)
    obtain ⟨ha, hb⟩ := h k m hk
    have hlen := (List.getElem?_eq_some_iff.1 hk).1
    rw [length_append, length_singleton] at hlen
    rw [getD_expansions_concat m' (i := m.1.toNat) (by omega),
      getD_expansions_concat m' (i := m.2.toNat) (by omega)]
    rcases Nat.lt_succ_iff_lt_or_eq.1 hlen with hlt | rfl
    · rw [getElem?_append_left hlt] at hk
      rw [getD_expansions_concat m' (by omega), ih hearlier hk]
    · obtain rfl : m' = m := by simpa using hk
      rw [expansions_concat, ← length_expansions, getD_eq_getElem?_getD, getElem?_concat_length,
        Option.getD_some]

theorem expandRound_expansions (merges : List (UInt32 × UInt32)) (m : UInt32 × UInt32) :
    expandRound (expansions merges) m =
      if (m.1.toNat < 256 + merges.length ∧ m.2.toNat < 256 + merges.length) ∧
          (lengths merges).getD m.1.toNat 0 + (lengths merges).getD m.2.toNat 0 ≤ isizeMax
      then .ok (expansions (merges ++ [m])) else .error .fault := by
  rw [expandRound, ← length_getD_expansions, ← length_getD_expansions, ← length_expansions,
    expansions_concat]
  rcases lt_or_ge m.1.toNat (expansions merges).length with hx | hx
  · rcases lt_or_ge m.2.toNat (expansions merges).length with hy | hy
    · rw [index_of_lt hx, index_of_lt hy, ok_bind, ok_bind, getD_eq_getElem _ _ hx,
        getD_eq_getElem _ _ hy]
      simp only [hx, hy, true_and, and_self]
      rfl
    · rw [index_of_lt hx, ok_bind, index_of_ge hy, if_neg (fun h => by omega)]
      rfl
  · rw [index_of_ge hx, if_neg (fun h => by omega)]
    rfl

/-- What `Tokenizer::new` builds. -/
def built (merges : List (UInt32 × UInt32)) : Tokenizer :=
  ⟨merges, expansions merges, 256 + merges.length⟩

theorem new_cases (merges : List (UInt32 × UInt32)) :
    (Sound merges ∧ new merges = .ok (built merges)) ∨
      (¬ Sound merges ∧ new merges = .error .fault) := by
  suffices hloop : (Sound merges ∧
        merges.foldlM expandRound byteTable = .ok (expansions merges)) ∨
      (¬ Sound merges ∧ merges.foldlM expandRound byteTable = .error .fault) by
    rcases hloop with ⟨hsound, hok⟩ | ⟨hsound, hfault⟩
    · exact .inl ⟨hsound, by rw [new, hok]; rfl⟩
    · exact .inr ⟨hsound, by rw [new, hfault]; rfl⟩
  induction merges using List.reverseRecOn with
  | nil =>
    refine .inl ⟨⟨fun k m h => (nomatch h), fun n hn => ?_⟩, rfl⟩
    rw [eq_of_mem_replicate hn]
    decide
  | append_singleton ms m ih =>
    rw [sound_concat, foldlM_append]
    rcases ih with ⟨hsound, hok⟩ | ⟨hsound, hfault⟩
    · rw [hok, ok_bind, show [m].foldlM expandRound (expansions ms) = expandRound _ m from
        bind_pure _, expandRound_expansions]
      split
      · next hround => exact .inl ⟨⟨hsound, hround⟩, rfl⟩
      · next hround => exact .inr ⟨fun h => hround h.2, rfl⟩
    · rw [hfault]
      exact .inr ⟨fun h => hsound h.1, rfl⟩

/-! ## The ids of an encoding -/

section Made

variable (merges : List (UInt32 × UInt32))

/-- The rank of a pair of ids. -/
def rank (a b : UInt32) : Option Nat := merges.findIdx? (· == (a, b))

def newId (r : Nat) : UInt32 := 256 + r.toUInt32

/-- The bytes that an id stands for. -/
def bytesOf (x : UInt32) : Bytes := (expansions merges).getD x.toNat []

/-- The ids of the bytes that an id stands for. -/
def spell (x : UInt32) : List UInt32 := (bytesOf merges x).map UInt8.toUInt32

/-- The bytes that the id stands for are one chunk, and the merges make the id alone of them. -/
def Stands (x : UInt32) : Prop :=
  Bpe.Uniform (bytesOf merges x) ∧ Made (rank merges) newId (spell merges x) [x]

theorem toNat_newId {r : Nat} (hr : 256 + r < 2 ^ 32) : (newId r).toNat = 256 + r := by
  rw [newId, UInt32.toNat_add, Nat.toUInt32_eq, UInt32.toNat_ofNat']
  simp
  omega

theorem bytesOf_byte (b : UInt8) : bytesOf merges b.toUInt32 = [b] := by
  rw [bytesOf, UInt8.toNat_toUInt32, getD_expansions_byte]

theorem spell_byte (b : UInt8) : spell merges b.toUInt32 = [b.toUInt32] := by
  rw [spell, bytesOf_byte]
  rfl

theorem stands_byte (b : UInt8) : Stands merges b.toUInt32 := by
  rw [Stands, bytesOf_byte, spell_byte]
  refine ⟨fun x hx y hy => ?_, .refl⟩
  rw [mem_singleton.1 hx, mem_singleton.1 hy]

variable {merges}

theorem spell_newId (hearlier : Earlier merges) (hlen : 256 + merges.length ≤ 2 ^ 32)
    {a b : UInt32} {r : Nat} (hr : rank merges a b = some r) :
    spell merges (newId r) = spell merges a ++ spell merges b := by
  obtain ⟨hlt, heq, -⟩ := findIdx?_eq_some_iff_getElem.1 hr
  have hmerge : merges[r]? = some (a, b) :=
    (getElem?_eq_getElem hlt).trans (congrArg some (eq_of_beq heq))
  rw [spell, bytesOf, toNat_newId (show 256 + r < 2 ^ 32 by omega),
    getD_expansions_merge hearlier hmerge, map_append]
  rfl

theorem toNat_lt_of_made (hlen : 256 + merges.length ≤ 2 ^ 32) {ids ids' : List UInt32}
    (h : Made (rank merges) newId ids ids') (hids : ∀ x ∈ ids, x.toNat < 256 + merges.length) :
    ∀ x ∈ ids', x.toNat < 256 + merges.length := by
  induction h with
  | refl => exact hids
  | tail _ hstep ih =>
    obtain ⟨A, a, b, C, r, rfl, rfl, hr, -⟩ := split_of_mergeOnce hstep
    have hlt := (findIdx?_eq_some_iff_getElem.1 hr).1
    intro x hx
    rcases mem_append.1 hx with hx | hx
    · exact ih x (mem_append_left _ hx)
    · rcases mem_cons.1 hx with rfl | hx
      · rw [toNat_newId (by omega)]
        omega
      · exact ih x (by simp [hx])

end Made

section Ids

variable {t : Tokenizer}

theorem mergeRound_eq_mergeOnce (ht : t.merges.length ≤ usizeMax) (ids : List UInt32) :
    t.mergeRound ids = mergeOnce (rank t.merges) newId ids := by
  have hkey : firstMin (t.position ids) (List.range (ids.length - 1)) =
      firstMin (rankAt (rank t.merges) ids) (List.range (ids.length - 1)) := by
    refine firstMin_congr fun w hw => ?_
    have hw := mem_range.1 hw
    rw [rankAt, getElem?_eq_getElem (by omega), getElem?_eq_getElem (by omega), position,
      pairAt, getD_eq_getElem _ _ (by omega), getD_eq_getElem _ _ (by omega)]
    rfl
  rw [mergeRound_eq t ht, hkey]
  rfl

section

variable (hlen : 256 + t.merges.length ≤ 4294967296)
include hlen

theorem made_mergeAll (ids : List UInt32) : Made (rank t.merges) newId ids (t.mergeAll ids) := by
  rw [mergeAll, funext (mergeRound_eq_mergeOnce (by rw [usizeMax]; omega))]
  exact reaches_iter ..

theorem Stands.mergeAll_spell {x : UInt32} (h : Stands t.merges x) :
    t.mergeAll (spell t.merges x) = [x] := by
  have ht : t.merges.length ≤ usizeMax := by
    rw [usizeMax]
    omega
  have hround : t.mergeRound = mergeOnce (rank t.merges) newId :=
    funext (mergeRound_eq_mergeOnce ht)
  refine iter_eq_of_reaches List.length (fun _ _ h => length_mergeRound ht h) ?_ ?_ le_rfl
  · rw [hround]
    exact h.2
  · rw [hround]
    rfl

theorem stands_of_mem (hearlier : Earlier t.merges) {chunk : Bytes} (hchunk : Bpe.Uniform chunk)
    {x : UInt32} (hx : x ∈ t.mergeAll (chunk.map UInt8.toUInt32)) : Stands t.merges x := by
  have hspell : ∀ a b r, rank t.merges a b = some r →
      spell t.merges (newId r) = spell t.merges a ++ spell t.merges b :=
    fun a b r hr => spell_newId hearlier hlen hr
  have hlet : ∀ y ∈ chunk.map UInt8.toUInt32, spell t.merges y = [y] := by
    intro y hy
    obtain ⟨b, -, rfl⟩ := mem_map.1 hy
    exact spell_byte t.merges b
  have hmade := made_mergeAll hlen (chunk.map UInt8.toUInt32)
  obtain ⟨P, Q, hsplit⟩ := append_of_mem hx
  have hmem : ∀ b ∈ bytesOf t.merges x, b ∈ chunk := by
    intro b hb
    have hin : b.toUInt32 ∈ (t.mergeAll (chunk.map UInt8.toUInt32)).flatMap (spell t.merges) :=
      mem_flatMap.2 ⟨x, hx, mem_map_of_mem hb⟩
    rw [hmade.flatMap_spell hspell] at hin
    obtain ⟨y, hy, hby⟩ := mem_flatMap.1 hin
    rw [hlet y hy, mem_singleton] at hby
    obtain ⟨b', hb', rfl⟩ := mem_map.1 hy
    exact UInt8.toUInt32_inj.1 hby ▸ hb'
  refine ⟨fun b hb b' hb' => hchunk b (hmem b hb) b' (hmem b' hb'), ?_⟩
  have hself := hmade.segment hspell hlet (P := P) (S := [x]) (Q := Q) (by simpa using hsplit)
  simpa using hself

end

/-- The ids that come out of `encode` are those that stand for themselves, cut to 16 bits. -/
theorem encode_lt_iff (hearlier : Earlier t.merges) (hlen : 256 + t.merges.length ≤ 2 ^ 32)
    (v : Nat) : (∀ prompt, ∀ id ∈ t.encode prompt, id.toNat < v) ↔
      ∀ x, Stands t.merges x → x.toNat % 65536 < v := by
  constructor
  · intro h x hx
    have hcut := h (bytesOf t.merges x) x.toUInt16
    rw [UInt32.toNat_toUInt16] at hcut
    refine hcut ?_
    rcases eq_or_ne t.merges [] with hnil | hmerges
    · -- byte mode: nothing is merged, so the id is a byte
      have hspell : spell t.merges x = [x] := by
        rcases Relation.ReflTransGen.cases_head hx.2 with heq | ⟨ids, hround, -⟩
        · exact heq
        · obtain ⟨A, a, b, C, r, -, -, hr, -⟩ := split_of_mergeOnce hround
          simp [rank, hnil] at hr
      obtain ⟨b, hb, hbx⟩ := map_eq_singleton_iff.1 hspell
      rw [encode, if_pos hnil, hb, ← hbx]
      simp
    · have hne : bytesOf t.merges x ≠ [] := by
        intro hnil
        have := hx.mergeAll_spell hlen
        rw [spell, hnil] at this
        cases this
      rw [encode_eq_chunks t hmerges, Bpe.chunks_of_uniform hne hx.1, flatMap_singleton,
        encodeChunk]
      show _ ∈ (t.mergeAll (spell t.merges x)).map _
      rw [hx.mergeAll_spell hlen]
      exact mem_singleton_self _
  · intro h prompt id hid
    rcases eq_or_ne t.merges [] with hnil | hmerges
    · rw [encode, if_pos hnil] at hid
      obtain ⟨b, -, rfl⟩ := mem_map.1 hid
      have := h b.toUInt32 (stands_byte t.merges b)
      simpa using this
    · rw [encode_eq_chunks t hmerges] at hid
      obtain ⟨m, hm, hid⟩ := mem_flatMap.1 hid
      obtain ⟨x, hx, rfl⟩ := mem_map.1 hid
      rw [UInt32.toNat_toUInt16]
      exact h x (stands_of_mem hlen hearlier (Bpe.uniform_of_mem_chunks hm) hx)

/-! ## Decoding -/

/-- `decode`: an id that is not in the table adds nothing. -/
def decode (t : Tokenizer) (tokens : List UInt16) : Bytes :=
  tokens.flatMap fun id => t.expand[id.toNat]?.getD []

theorem decode_encodeChunk (hexpand : t.expand = expansions t.merges)
    (hearlier : Earlier t.merges) (hlen : t.merges.length ≤ 65280) (chunk : Bytes) :
    t.decode (t.encodeChunk chunk) = chunk ∧
      ∀ id ∈ t.encodeChunk chunk, id.toNat < 256 + t.merges.length := by
  have hlen' : 256 + t.merges.length ≤ 2 ^ 32 := by omega
  have hmade := made_mergeAll hlen' (chunk.map UInt8.toUInt32)
  have hlt := toNat_lt_of_made hlen' hmade fun x hx => by
    obtain ⟨b, -, rfl⟩ := mem_map.1 hx
    have := b.toNat_lt
    rw [UInt8.toNat_toUInt32]
    omega
  have hcut : ∀ x ∈ t.mergeAll (chunk.map UInt8.toUInt32), x.toUInt16.toNat = x.toNat := by
    intro x hx
    have := hlt x hx
    rw [UInt32.toNat_toUInt16, Nat.mod_eq_of_lt (by omega)]
  refine ⟨map_injective_iff.2 (fun _ _ => UInt8.toUInt32_inj.1) ?_, fun id hid => ?_⟩
  · calc (t.decode (t.encodeChunk chunk)).map UInt8.toUInt32
        = (t.mergeAll (chunk.map UInt8.toUInt32)).flatMap (spell t.merges) := by
          rw [decode, encodeChunk, flatMap_map, map_flatMap]
          refine flatMap_congr fun x hx => ?_
          rw [hcut x hx, spell, bytesOf, getD_eq_getElem?_getD, hexpand]
      _ = (chunk.map UInt8.toUInt32).flatMap (spell t.merges) :=
          hmade.flatMap_spell fun a b r hr => spell_newId hearlier hlen' hr
      _ = chunk.map UInt8.toUInt32 := by
          simp only [flatMap_map, spell_byte]
          exact map_eq_flatMap.symm
  · obtain ⟨x, hx, rfl⟩ := mem_map.1 hid
    rw [hcut x hx]
    exact hlt x hx

/-- From at most 65280 merges, each made of earlier ids and none standing for more than
`isize::MAX` bytes, a tokenizer is built. The loops of its `encode` end, the ids are below the size
of the vocabulary, and decoding them gives the data back. -/
theorem decode_encode (hlen : merges.length ≤ 65280) (hearlier : Earlier merges)
    (hlengths : ∀ n ∈ lengths merges, n ≤ isizeMax) :
    ∃ t, new merges = .ok t ∧ t.merges = merges ∧ ∀ data : Bytes,
      t.decode (t.encode data) = data ∧ (∀ id ∈ t.encode data, id.toNat < t.vocabSize) ∧
      (∀ ids, t.mergeRound (t.mergeAll ids) = none) ∧
      t.chunkRound data (iter (t.chunkRound data) data.length (0, [])) = none := by
  have hnew : new merges = .ok (built merges) := by
    rcases new_cases merges with ⟨-, hnew⟩ | ⟨hnot, -⟩
    · exact hnew
    · exact absurd ⟨hearlier, hlengths⟩ hnot
  refine ⟨built merges, hnew, rfl, fun data => ⟨?_, ?_, fun ids => iter_ends List.length
    (fun _ _ h => length_mergeRound (by rw [usizeMax]; exact hlen.trans (by decide)) h) le_rfl,
    iter_ends (fun s => data.length - s.1) (fun s s' h => ?_) (Nat.sub_le ..)⟩⟩
  · rcases eq_or_ne (built merges).merges [] with hnil | hne
    · rw [encode, if_pos hnil, decode, flatMap_map]
      simp [built, ← getD_eq_getElem?_getD, getD_expansions_byte]
    · rw [encode_eq_chunks (built merges) hne, decode, flatMap_assoc]
      exact (flatMap_congr fun m _ =>
        (decode_encodeChunk (t := built merges) rfl hearlier hlen m).1).trans
        (by rw [flatMap_id', Bpe.flatten_chunks])
  · intro id hid
    rcases eq_or_ne (built merges).merges [] with hnil | hne
    · rw [encode, if_pos hnil] at hid
      obtain ⟨b, -, rfl⟩ := mem_map.1 hid
      have := b.toNat_lt
      rw [UInt8.toNat_toUInt16]
      exact Nat.lt_add_right _ this
    · rw [encode_eq_chunks (built merges) hne] at hid
      obtain ⟨m, -, hid⟩ := mem_flatMap.1 hid
      exact (decode_encodeChunk (t := built merges) rfl hearlier hlen m).2 id hid
  · rw [chunkRound] at h
    split at h
    · next hi =>
      cases h
      rw [runEnd_eq]
      omega
    · cases h

theorem decode_encode_abc : ∃ t, new [(97, 98), (256, 99)] = .ok t ∧
      t.encode [97, 98, 99, 32] = [257, 32] ∧ t.decode [257, 32] = [97, 98, 99, 32] := by
  have hearlier : Earlier [(97, 98), (256, 99)] := by
    rintro (_ | _ | k) m hk <;> cases hk <;> decide
  obtain ⟨⟨_, expand, size⟩, hnew, rfl, hdecode⟩ :=
    decode_encode (by decide) hearlier (by decide +kernel)
  have hencode : (Tokenizer.mk [(97, 98), (256, 99)] expand size).encode [97, 98, 99, 32] =
      [257, 32] := by
    rfl
  exact ⟨_, hnew, hencode, hencode ▸ (hdecode [97, 98, 99, 32]).1⟩

/-- `n` merges of which each doubles what the one before it stands for. -/
def doublings (n : Nat) : List (UInt32 × UInt32) :=
  (List.range n).map fun k => if k = 0 then (97, 97) else (newId (k - 1), newId (k - 1))

/-- The last of 63 doublings stands for `2 ^ 63` bytes, and `Tokenizer::new` faults on it. -/
theorem new_doublings : (doublings 63).length ≤ 65280 ∧ Earlier (doublings 63) ∧
      new (doublings 63) = .error .fault := by
  have hearlier : ∀ x ∈ (doublings 63).zipIdx,
      x.1.1.toNat < 256 + x.2 ∧ x.1.2.toNat < 256 + x.2 := by
    decide +kernel
  refine ⟨by decide, fun k m hk => hearlier (m, k) (mk_mem_zipIdx_iff_getElem?.2 hk), ?_⟩
  rcases new_cases (doublings 63) with ⟨hsound, -⟩ | ⟨-, hfault⟩
  · exact absurd hsound.lengths (by decide +kernel)
  · exact hfault

end Ids

end Tokenizer

/-! ## Loading -/

structure Model where
  cfg : Config
  w : List UInt32
  lay : Layout
  lref : LayerRef
  tok : Tokenizer

def Model.load (bytes : Bytes) : Checked TlmError Model := do
  let weights ← Weights.parse bytes
  let lay ← Layout.new weights.cfg
  let lref ← LayerRef.new weights.cfg.nEmbd
  let tok ← new weights.merges
  return ⟨weights.cfg, weights.data, lay, lref, tok⟩

/-- The header and the tokenizer blob are well formed: `parse` comes to the tensors. -/
structure HeaderOk (bytes : Bytes) : Prop where
  length : 44 ≤ bytes.length
  magic : slice bytes 0 4 = Thos.Lm.magic
  version : le32 bytes 4 = 1
  config : ¬ (configAt bytes).bad
  blob : 44 + le32 bytes 40 ≤ bytes.length
  merges : 4 ≤ le32 bytes 40 → 4 + 8 * le32 bytes 44 ≤ le32 bytes 40

/-- The merges of a well-formed blob. -/
def blobMerges (bytes : Bytes) : List (UInt32 × UInt32) :=
  if 4 ≤ le32 bytes 40 then mergesAt bytes (le32 bytes 44) else []

/-- What is loaded from a file with all its tensors. -/
structure Loaded (bytes : Bytes) (m : Model) : Prop where
  cfg : m.cfg = configAt bytes
  good : ¬ m.cfg.bad
  size : m.w.length = m.cfg.size
  lay : m.lay = layoutOf m.cfg
  lref : m.lref = layerRefOf m.cfg.nEmbd
  tok : m.tok = built (blobMerges bytes)

/-- The file is as long as its header says. -/
def Complete (bytes : Bytes) : Prop :=
  44 + le32 bytes 40 + 4 * (configAt bytes).size ≤ bytes.length

instance (bytes : Bytes) : Decidable (Complete bytes) := inferInstanceAs (Decidable (_ ≤ _))

variable {bytes : Bytes}

theorem length_blobMerges (h : HeaderOk bytes) : 256 + (blobMerges bytes).length ≤ 2 ^ 32 := by
  have hlt := le32_lt bytes 40
  rw [blobMerges]
  split
  · next hblob =>
      have := h.merges hblob
      rw [mergesAt, length_map, length_range]
      omega
  · simp

theorem readMerges_of_headerOk (h : HeaderOk bytes) :
    Weights.readMerges bytes (le32 bytes 40) = .ok (blobMerges bytes) := by
  rw [readMerges_eq h.blob, blobMerges]
  split
  · next hblob => rw [if_neg (not_lt.2 (h.merges hblob))]
  · rfl

theorem parse_of_headerOk (h : HeaderOk bytes) : Weights.parse bytes =
      if 4 * (configAt bytes).size < 18446744073709551616 then if Complete bytes then
          .ok ⟨configAt bytes, dataAt bytes (44 + le32 bytes 40) (configAt bytes).size,
            le32 bytes 32 % 256, blobMerges bytes⟩ else .error (.err .sizeMismatch)
      else .error .fault := by
  have hlen := h.length
  have hblob := h.blob
  rw [parse_eq, if_neg (by omega), if_neg (by simp [h.magic]), if_neg (by simp [h.version]),
    if_neg h.config, if_neg (by omega), readMerges_of_headerOk h, ok_bind,
    readData_eq (Config.positive_of_not_bad h.config) hblob (le32_lt bytes 40)]
  split
  · by_cases hcompl : Complete bytes
    · rw [if_pos hcompl, if_neg (not_lt.2 hcompl)]
      rfl
    · rw [if_neg hcompl, if_pos (Nat.lt_of_not_le hcompl)]
      rfl
  · rfl

theorem parse_of_not_headerOk (h : ¬ HeaderOk bytes) :
    ∃ e, Weights.parse bytes = .error (.err e) := by
  rw [parse_eq]
  split_ifs with h₁ h₂ h₃ h₄ h₅
  · exact ⟨_, rfl⟩
  · exact ⟨_, rfl⟩
  · exact ⟨_, rfl⟩
  · exact ⟨_, rfl⟩
  · exact ⟨_, rfl⟩
  · rw [readMerges_eq (by omega)]
    split_ifs with h₆ h₇
    · exact ⟨_, rfl⟩
    · exact absurd ⟨by omega, not_not.1 h₂, not_not.1 h₃, h₄, by omega, fun _ => by omega⟩ h
    · exact absurd ⟨by omega, not_not.1 h₂, not_not.1 h₃, h₄, by omega, fun hblob => by omega⟩ h

theorem load_of_complete (h : HeaderOk bytes)
    (hsize : 4 * (configAt bytes).size < 18446744073709551616) (hlen : Complete bytes) :
    (Tokenizer.Sound (blobMerges bytes) ∧ ∃ m, Model.load bytes = .ok m ∧ Loaded bytes m) ∨
      (¬ Tokenizer.Sound (blobMerges bytes) ∧ Model.load bytes = .error .fault) := by
  have hpos := Config.positive_of_not_bad h.config
  have hlayer : layerSize (configAt bytes).nEmbd ≤ (configAt bytes).size := layerSize_le hpos
  rw [Model.load, parse_of_headerOk h, if_pos hsize, if_pos hlen, ok_bind,
    layout_new_eq hpos (by omega), layerRef_new_eq hpos.nEmbd (by omega), ok_bind, ok_bind]
  rcases new_cases (blobMerges bytes) with ⟨hsound, hnew⟩ | ⟨hsound, hfault⟩
  · refine .inl ⟨hsound, _, by rw [hnew]; rfl, rfl, h.config, ?_, rfl, rfl, rfl⟩
    show (dataAt ..).length = _
    rw [dataAt, length_map, length_range]
  · refine .inr ⟨hsound, ?_⟩
    rw [hfault]
    rfl

end Thos.Lm
