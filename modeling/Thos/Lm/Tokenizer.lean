import Thos.Lm.Bpe

/-!
# The tokenizer of the inference engine

`thos-lm/src/tokenizer.rs`. On the merge lists that training makes, `encode` returns the ids of
the tokenizer of `bpe.py` (`encode_eq_bpe`).
-/

set_option autoImplicit false

namespace Thos.Lm

open Thos.Lib List Bpe

structure Tokenizer where
  merges : List (UInt32 × UInt32)
  expand : List Bytes
  vocabSize : Nat

namespace Tokenizer

def usizeMax : Nat := 18446744073709551615

/-! ## Encoding -/

def isWs (b : UInt8) : Bool :=
  b == 0x20 || b == 0x09 || b == 0x0A || b == 0x0D || b == 0x0B || b == 0x0C

/-- The pair at `w`; the loop reads only where there is one. -/
def pairAt (ids : List UInt32) (w : Nat) : UInt32 × UInt32 := (ids.getD w 0, ids.getD (w + 1) 0)

variable (t : Tokenizer) (ids : List UInt32)

/-- `merges.iter().position(|&m| m == pair)` for the pair at `w`. -/
def position (w : Nat) : Option Nat := t.merges.findIdx? (· == pairAt ids w)

/-- The inner loop of `encode_chunk`: `best` and `best_rank`. -/
def bestPair : Option Nat × Nat :=
  (List.range (ids.length - 1)).foldl (fun (best, bestRank) w =>
      match t.position ids w with
      | some r => if r < bestRank then (some w, r) else (best, bestRank)
      | none => (best, bestRank))
    (none, usizeMax)

/-- One round of the outer loop of `encode_chunk`. -/
def mergeRound : Option (List UInt32) :=
  match t.bestPair ids with
  | (some w, bestRank) => some ((ids.set w (256 + bestRank.toUInt32)).eraseIdx (w + 1))
  | (none, _) => none

/-- `encode_chunk` before the ids are cut to 16 bits. A round removes an id, so the length is
enough fuel. -/
def mergeAll : List UInt32 := iter t.mergeRound ids.length ids

/-- What `encode_chunk` appends to `out`. -/
def encodeChunk (chunk : Bytes) : List UInt16 :=
  (t.mergeAll (chunk.map UInt8.toUInt32)).map UInt32.toUInt16

/-- The inner loop of `encode`: the end of the run that starts before `j`. -/
def runEnd (data : Bytes) (ws : Bool) (j : Nat) : Nat :=
  iter (fun j => if j < data.length ∧ isWs (data.getD j 0) = ws then some (j + 1) else none)
    (data.length - j) j

/-- One round of the outer loop of `encode`, on `i` and `out`. -/
def chunkRound (data : Bytes) : Nat × List UInt16 → Option (Nat × List UInt16)
  | (i, out) =>
    if i < data.length then
      let j := runEnd data (isWs (data.getD i 0)) (i + 1)
      some (j, out ++ t.encodeChunk (slice data i (j - i)))
    else none

def encode (data : Bytes) : List UInt16 :=
  if t.merges = [] then data.map UInt8.toUInt16
  else (iter (t.chunkRound data) data.length (0, [])).2

/-! ## The scan for the best pair -/

/-- `best` and `best_rank` for a pair found; `usize::MAX` stands for none. -/
def scanned : Option (Nat × Nat) → Option Nat × Nat
  | some (r, w) => (some w, r)
  | none => (none, usizeMax)

theorem bestPair_eq (t : Tokenizer) (ht : t.merges.length ≤ usizeMax) (ids : List UInt32) :
    t.bestPair ids = scanned (firstMin (t.position ids) (List.range (ids.length - 1))) := by
  unfold bestPair firstMin
  refine foldl_rel (r := fun acc best => acc = scanned best) rfl ?_
  rintro w - _ best rfl
  cases hr : t.position ids w with
  | none => simp only [minRound, hr]
  | some r =>
    have hlt : r < usizeMax := (findIdx?_eq_some_iff_getElem.1 hr).1.trans_le ht
    cases best with
    | none => simp [minRound, hr, scanned, hlt]
    | some b =>
      by_cases hb : r < b.1
      · simp [minRound, hr, scanned, hb]
      · simp [minRound, hr, scanned, hb]

theorem mergeRound_eq (t : Tokenizer) (ht : t.merges.length ≤ usizeMax) (ids : List UInt32) :
    t.mergeRound ids = (firstMin (t.position ids) (List.range (ids.length - 1))).map fun (r, w) =>
        ids.take w ++ [256 + r.toUInt32] ++ ids.drop (w + 2) := by
  rw [mergeRound, bestPair_eq t ht]
  cases hbest : firstMin (t.position ids) (List.range (ids.length - 1)) with
  | none => rfl
  | some best =>
    obtain ⟨r, w⟩ := best
    have hw := mem_range.1 (mem_of_firstMin hbest).1
    show some ((ids.set w _).eraseIdx (w + 1)) = some _
    rw [eraseIdx_eq_take_drop_succ, drop_set_of_lt (by omega),
      take_succ_eq_append_getElem (by simp; omega), take_set_of_le (by omega)]
    simp

variable {t : Tokenizer}

theorem length_mergeRound (ht : t.merges.length ≤ usizeMax) {ids ids' : List UInt32}
    (h : t.mergeRound ids = some ids') : ids'.length < ids.length := by
  rw [mergeRound_eq t ht, Option.map_eq_some_iff] at h
  obtain ⟨⟨r, w⟩, hbest, rfl⟩ := h
  have hw := mem_range.1 (mem_of_firstMin hbest).1
  simp only [length_append, length_take, length_cons, length_nil, length_drop]
  omega

/-! ## The scan for the chunks -/

theorem isWs_eq_space (b : UInt8) : isWs b = space b := by
  rw [Bool.eq_iff_iff]
  simp [isWs, space, or_assoc]

theorem runEnd_eq (data : Bytes) (ws : Bool) (j : Nat) :
    runEnd data ws j = j + ((data.drop j).takeWhile fun x => space x == ws).length := by
  unfold runEnd
  induction hn : data.length - j generalizing j with
  | zero =>
    rw [drop_eq_nil_of_le (by omega)]
    rfl
  | succ n ih =>
    have hj : j < data.length := by omega
    rw [drop_eq_getElem_cons hj, takeWhile_cons, Lib.iter, getD_eq_getElem _ _ hj, isWs_eq_space]
    cases hws : space data[j] == ws with
    | true =>
      rw [if_pos ⟨hj, eq_of_beq hws⟩]
      simp only [if_true, length_cons]
      rw [ih (j + 1) (by omega)]
      omega
    | false =>
      rw [if_neg fun h => ne_of_beq_false hws h.2]
      rfl

theorem chunkRounds (t : Tokenizer) (data : Bytes) {n i : Nat} (hn : data.length - i ≤ n)
    (out : List UInt16) : (iter (t.chunkRound data) n (i, out)).2 =
      out ++ (chunks (data.drop i)).flatMap t.encodeChunk := by
  induction n generalizing i out with
  | zero =>
    rw [drop_eq_nil_of_le (by omega)]
    exact (append_nil out).symm
  | succ n ih =>
    rcases lt_or_ge i data.length with hi | hi
    · rw [drop_eq_getElem_cons hi, chunks_cons, flatMap_cons, Lib.iter, chunkRound, if_pos hi]
      simp only [runEnd_eq, getD_eq_getElem _ _ hi, isWs_eq_space]
      -- the run after the first byte of the chunk, and what comes after the run
      generalize hp : (fun x => space x == space data[i]) = p
      have hrest := takeWhile_append_dropWhile (p := p) (l := data.drop (i + 1))
      have hslice : slice data i (i + 1 + ((data.drop (i + 1)).takeWhile p).length - i) =
          data[i] :: (data.drop (i + 1)).takeWhile p := by
        rw [slice, drop_eq_getElem_cons hi,
          show ∀ k, i + 1 + k - i = k + 1 from fun k => by omega, take_succ_cons]
        congr 1
        conv_lhs => rw [← hrest]
        exact take_left' (by rw [hrest])
      have hdrop : data.drop (i + 1 + ((data.drop (i + 1)).takeWhile p).length) =
          (data.drop (i + 1)).dropWhile p := by
        rw [← drop_drop]
        conv_lhs => rw [← hrest]
        exact drop_left' (by rw [hrest])
      rw [hslice, ih (by omega), hdrop, append_assoc]
    · rw [drop_eq_nil_of_le hi, iter_of_none (by rw [chunkRound, if_neg (by omega)])]
      exact (append_nil out).symm

theorem encode_eq_chunks (t : Tokenizer) (h : t.merges ≠ []) (data : Bytes) :
    t.encode data = (chunks data).flatMap t.encodeChunk := by
  rw [encode, if_neg h, chunkRounds t data (i := 0) (by omega), nil_append, drop_zero]

/-! ## The same ids as in training -/

/-- A merge of `bpe.py` as the engine holds it. -/
def word (m : Nat × Nat) : UInt32 × UInt32 := (m.1.toUInt32, m.2.toUInt32)

/-- Merge lists of training: no duplicates, ids of 16 bits, and each merge made of earlier ids. -/
structure Trained (merges : List (Nat × Nat)) : Prop where
  nodup : merges.Nodup
  length : merges.length ≤ 65280
  earlier : ∀ k a b, merges[k]? = some (a, b) → a < 256 + k ∧ b < 256 + k

variable {merges : List (Nat × Nat)}

theorem Trained.lt (h : Trained merges) {m : Nat × Nat} (hm : m ∈ merges) :
    m.1 < 65536 ∧ m.2 < 65536 := by
  obtain ⟨k, hk⟩ := getElem?_of_mem hm
  have hlt := h.earlier k m.1 m.2 hk
  have hlen := (List.getElem?_eq_some_iff.1 hk).1
  have := h.length
  omega

theorem word_eq_iff {m : Nat × Nat} (h : m.1 < 65536 ∧ m.2 < 65536) (x y : UInt32) :
    word m = (x, y) ↔ m = (x.toNat, y.toNat) := by
  obtain ⟨a, b⟩ := m
  simp only [word, Prod.mk.injEq, ← UInt32.toNat_inj, Nat.toUInt32_eq, UInt32.toNat_ofNat']
  rw [Nat.mod_eq_of_lt (by omega), Nat.mod_eq_of_lt (by omega)]

theorem position_eq (h : Trained merges) (ht : t.merges = merges.map word) (ids : List UInt32)
    (w : Nat) :
    t.position ids w = rankOf merges ((ids.getD w 0).toNat, (ids.getD (w + 1) 0).toNat) := by
  rw [rankOf_eq h.nodup, position, ht, findIdx?_map]
  refine findIdx?_congr fun m hm => ?_
  rw [Bool.eq_iff_iff, Function.comp_apply, beq_iff_eq, beq_iff_eq, pairAt]
  exact word_eq_iff (h.lt hm) ..

theorem zipIdx_pairs (ids : List Nat) : (ids.zip ids.tail).zipIdx =
      (List.range (ids.length - 1)).map fun w => ((ids.getD w 0, ids.getD (w + 1) 0), w) := by
  refine ext_getElem (by simp) fun w hw _ => ?_
  simp only [length_zipIdx, length_zip, length_tail] at hw
  rw [getElem_zipIdx, getElem_zip, getElem_tail, getElem_map,
    getElem_range, getD_eq_getElem _ _ (by omega), getD_eq_getElem _ _ (by omega), zero_add]

theorem bpe_bestPair_eq (p : Bpe.Tokenizer) (ids : List Nat) : p.bestPair ids =
      firstMin (fun w => p.rank (ids.getD w 0, ids.getD (w + 1) 0))
        (List.range (ids.length - 1)) := by
  rw [Bpe.Tokenizer.bestPair, zipIdx_pairs, foldl_map]
  rfl

/-- The ids of the two tokenizers, after the same number of rounds. -/
def Same (ids : List UInt32) (ids' : List Nat) : Prop :=
  ids' = ids.map UInt32.toNat ∧ ∀ x ∈ ids, x.toNat < 65536

theorem same_mergeRound (h : Trained merges) (ht : t.merges = merges.map word) {p : Bpe.Tokenizer}
    (hp : p.rank = rankOf merges) (ids : List UInt32) (ids' : List Nat) (hsame : Same ids ids') :
    Option.Rel Same (t.mergeRound ids) (p.mergeRound ids') := by
  obtain ⟨rfl, hlt⟩ := hsame
  have hlen : t.merges.length ≤ usizeMax := by
    have := h.length
    simp only [ht, length_map, usizeMax]
    omega
  have hbest : p.bestPair (ids.map UInt32.toNat) =
      firstMin (t.position ids) (List.range (ids.length - 1)) := by
    rw [bpe_bestPair_eq, length_map]
    have hget : ∀ k, (ids.map UInt32.toNat).getD k 0 = (ids.getD k 0).toNat := fun k =>
      getD_map ids 0 UInt32.toNat
    refine firstMin_congr fun w _ => ?_
    rw [position_eq h ht, hp, hget, hget]
  rw [mergeRound_eq t hlen, Bpe.Tokenizer.mergeRound, hbest, length_map]
  cases hmin : firstMin (t.position ids) (List.range (ids.length - 1)) with
  | none => simp
  | some best =>
    obtain ⟨r, w⟩ := best
    obtain ⟨hw, hr⟩ := mem_of_firstMin hmin
    rw [mem_range] at hw
    have hrank : r < 65280 := by
      have hr := (findIdx?_eq_some_iff_getElem.1 hr).1
      rw [ht, length_map] at hr
      exact hr.trans_le h.length
    have hid : (256 + r.toUInt32).toNat = 256 + r := by
      simp [UInt32.toNat_add, Nat.toUInt32_eq]
      omega
    rw [if_pos (by omega)]
    refine .some ⟨by simp [hid], fun x hx => ?_⟩
    simp only [mem_append, mem_singleton] at hx
    rcases hx with (hx | rfl) | hx
    · exact hlt x (mem_of_mem_take hx)
    · omega
    · exact hlt x (mem_of_mem_drop hx)

theorem encodeChunk_eq_bpe (h : Trained merges) (hne : merges ≠ [])
    (ht : t.merges = merges.map word) {p : Bpe.Tokenizer} (hp : p.rank = rankOf merges)
    (hpm : p.merges = merges) (chunk : Bytes) :
    (t.encodeChunk chunk).map UInt16.toNat = p.encodeChunk (chunk.map UInt8.toNat) := by
  have hstart : Same (chunk.map UInt8.toUInt32) (chunk.map UInt8.toNat) := by
    refine ⟨by simp, fun x hx => ?_⟩
    obtain ⟨b, -, rfl⟩ := mem_map.1 hx
    have := b.toNat_lt
    rw [UInt8.toNat_toUInt32]
    omega
  have hsame := iter_rel (same_mergeRound h ht hp) hstart chunk.length
  rw [Bpe.Tokenizer.encodeChunk, if_neg (hpm ▸ hne), length_map, hsame.1, encodeChunk,
    mergeAll, length_map, map_map]
  refine map_congr_left fun x hx => ?_
  rw [Function.comp_apply, UInt32.toNat_toUInt16, Nat.mod_eq_of_lt (hsame.2 x hx)]

/-- For every merge list of training, `encode` returns the ids that `bpe.py` returns. -/
theorem encode_eq_bpe (merges : List (Nat × Nat)) (hnodup : merges.Nodup)
    (hlength : merges.length ≤ 65280)
    (hearlier : ∀ k a b, merges[k]? = some (a, b) → a < 256 + k ∧ b < 256 + k) :
    ∃ p, Bpe.Tokenizer.init merges = some p ∧ ∀ t : Tokenizer, t.merges = merges.map word →
      ∀ data, (t.encode data).map UInt16.toNat = p.encode data := by
  have h : Trained merges := ⟨hnodup, hlength, hearlier⟩
  obtain ⟨expand, hexpand, -⟩ := expandOf_isSome hearlier
  refine ⟨⟨merges, rankOf merges, expand, 256 + merges.length⟩,
    by rw [Bpe.Tokenizer.init, hexpand]; rfl, fun t ht data => ?_⟩
  rcases eq_or_ne merges [] with rfl | hne
  · -- byte mode: the chunks put together are the data
    have hencode : t.encode data = data.map UInt8.toUInt16 := if_pos (by simpa using ht)
    rw [hencode, map_map, Bpe.Tokenizer.encode]
    simp only [Bpe.Tokenizer.encodeChunk, if_true]
    rw [← map_flatMap, flatMap_id', flatten_chunks]
    rfl
  · rw [encode_eq_chunks t (by simpa [ht] using hne), map_flatMap, Bpe.Tokenizer.encode]
    exact flatMap_congr fun m _ => encodeChunk_eq_bpe h hne ht rfl rfl m

theorem encode_eq_bpe_abc : ∃ p, Bpe.Tokenizer.init [(97, 98), (256, 99)] = some p ∧
      p.encode [97, 98, 32, 97, 98, 99] = [256, 32, 257] ∧
      (Tokenizer.mk [(97, 98), (256, 99)] [] 258).encode [97, 98, 32, 97, 98, 99] =
        [256, 32, 257] := by
  obtain ⟨p, hp, hencode⟩ := encode_eq_bpe [(97, 98), (256, 99)] (by decide) (by decide) (by
    rintro (_ | _ | k) a b hk <;> simp at hk <;> omega)
  have hrust : (Tokenizer.mk [(97, 98), (256, 99)] [] 258).encode [97, 98, 32, 97, 98, 99] =
      [256, 32, 257] := by decide +kernel
  refine ⟨p, hp, ?_, hrust⟩
  rw [← hencode (Tokenizer.mk [(97, 98), (256, 99)] [] 258) rfl, hrust]
  rfl

end Tokenizer

end Thos.Lm
