import Thos.Lib.LazyHeap
import Thos.Lm.Bpe

/-!
# Training of the merge list

`train_bpe` of `bpe.py` keeps the counts of the adjacent pairs, the index from pairs to chunks and
a heap of counts up to date while it merges. It returns the merges of the trainer that counts
everything anew in every round (`trainBpe_eq_naive`).

Sets are lists without duplicates; the order in which a set is listed is a parameter, for every
round one, and only the least entry of the heap is ever used.
-/

set_option autoImplicit false

namespace Thos.Lm.Bpe

open Thos.Lib Function List

abbrev Pair := Nat × Nat

/-! ## Pairs of a chunk -/

/-- `zip(ids, ids[1:])`. -/
def adjacent (ids : List Nat) : List Pair := ids.zip ids.tail

/-- `_apply`: merge the pair, from left to right. -/
def apply (pair : Pair) (newId : Nat) : List Nat → List Nat
  | x :: y :: rest =>
    if x = pair.1 ∧ y = pair.2 then newId :: apply pair newId rest
    else x :: apply pair newId (y :: rest)
  | ids => ids

theorem adjacent_cons_cons (x y : Nat) (rest : List Nat) :
    adjacent (x :: y :: rest) = (x, y) :: adjacent (y :: rest) := rfl

variable {pair : Pair} {newId : Nat} {ids : List Nat}

theorem apply_of_not_mem (h : pair ∉ adjacent ids) : apply pair newId ids = ids := by
  fun_induction apply pair newId ids with
  | case1 x y rest heq =>
    obtain ⟨rfl, rfl⟩ := heq
    exact absurd mem_cons_self h
  | case2 x y rest _ ih => rw [ih fun hmem => h (mem_cons_of_mem _ hmem)]
  | case3 => rfl

theorem mem_apply {x : Nat} (h : x ∈ apply pair newId ids) : x ∈ ids ∨ x = newId := by
  fun_induction apply pair newId ids with
  | case1 a b rest _ ih =>
    rcases mem_cons.1 h with rfl | h
    · exact .inr rfl
    · exact (ih h).imp_left fun h => mem_cons_of_mem _ (mem_cons_of_mem _ h)
  | case2 a b rest _ ih =>
    rcases mem_cons.1 h with rfl | h
    · exact .inl mem_cons_self
    · exact (ih h).imp_left (mem_cons_of_mem _)
  | case3 => exact .inl h

theorem apply_cons (pair : Pair) (newId y : Nat) (rest : List Nat) :
    ∃ z rest', apply pair newId (y :: rest) = z :: rest' ∧ (z = y ∨ z = newId) := by
  cases rest with
  | nil => exact ⟨y, [], rfl, .inl rfl⟩
  | cons b rest =>
    rw [apply]
    split
    · exact ⟨newId, _, rfl, .inr rfl⟩
    · exact ⟨y, _, rfl, .inl rfl⟩

theorem not_mem_adjacent_apply (h₁ : newId ≠ pair.1) (h₂ : newId ≠ pair.2) (ids : List Nat) :
    pair ∉ adjacent (apply pair newId ids) := by
  fun_induction apply pair newId ids with
  | case1 x y rest _ ih =>
    cases rest with
    | nil => simp [apply, adjacent]
    | cons b rest =>
      obtain ⟨z, rest', happly, -⟩ := apply_cons pair newId b rest
      rw [happly, adjacent_cons_cons, mem_cons, not_or, ← happly]
      exact ⟨fun heq => h₁ (congrArg Prod.fst heq).symm, ih⟩
  | case2 x y rest hne ih =>
    obtain ⟨z, rest', happly, hz⟩ := apply_cons pair newId y rest
    rw [happly, adjacent_cons_cons, mem_cons, not_or, ← happly]
    refine ⟨fun heq => ?_, ih⟩
    rcases hz with rfl | rfl
    · exact hne ⟨(congrArg Prod.fst heq).symm, (congrArg Prod.snd heq).symm⟩
    · exact h₂ (congrArg Prod.snd heq).symm
  | case3 ids hids =>
    match ids, hids with
    | [], _ | [_], _ => simp [adjacent]
    | x :: y :: rest, hids => exact absurd rfl (hids x y rest)

/-! ## The chunks of the corpus -/

/-- A chunk with its ids and the number of times it occurs. -/
structure Word where
  ids : List Nat
  count : Nat
  deriving DecidableEq

/-- `Counter`: count one more of the chunk. -/
def countChunk (m : Bytes) : List (Bytes × Nat) → List (Bytes × Nat)
  | [] => [(m, 1)]
  | (w, c) :: wc => if w = m then (w, c + 1) :: wc else (w, c) :: countChunk m wc

/-- `wc`. -/
def wordCount (data : Bytes) : List (Bytes × Nat) :=
  (chunks data).foldl (fun wc m => countChunk m wc) []

/-- `words`. -/
def wordsOf (data : Bytes) : List Word :=
  (wordCount data).map fun (w, c) => ⟨w.map UInt8.toNat, c⟩

theorem eraseDups_concat (ms : List Bytes) (m : Bytes) :
    (ms ++ [m]).eraseDups = if m ∈ ms then ms.eraseDups else ms.eraseDups ++ [m] := by
  rw [eraseDups_append]
  by_cases hm : m ∈ ms
  · simp [removeAll, hm]
  · simp [removeAll, hm, eraseDups_cons]

theorem nodup_eraseDups (ms : List Bytes) : ms.eraseDups.Nodup := by
  induction ms using reverseRecOn with
  | nil => exact nodup_nil
  | append_singleton ms m ih =>
    rw [eraseDups_concat]
    split_ifs with hm
    · exact ih
    · exact nodup_append.2 ⟨ih, nodup_singleton m, by grind [mem_eraseDups]⟩

theorem countChunk_map (m : Bytes) {ds : List Bytes} (hds : ds.Nodup) {f : Bytes → Nat}
    (hf : m ∉ ds → f m = 0) : countChunk m (ds.map fun w => (w, f w)) =
      (if m ∈ ds then ds else ds ++ [m]).map fun w => (w, f w + if m = w then 1 else 0) := by
  induction ds with
  | nil => simp [countChunk, hf]
  | cons w ds ih =>
    obtain ⟨hw, hds⟩ := nodup_cons.1 hds
    rw [map_cons, countChunk]
    rcases eq_or_ne w m with rfl | hne
    · rw [if_pos rfl, if_pos mem_cons_self, map_cons, if_pos rfl]
      refine congrArg _ (map_congr_left fun x hx => ?_)
      rw [if_neg (ne_of_mem_of_not_mem hx hw).symm, add_zero]
    · rw [if_neg hne, ih hds fun hm => hf (by simp [hne.symm, hm])]
      by_cases hm : m ∈ ds <;> simp [hm, hne.symm]

theorem wordCount_eq (data : Bytes) :
    wordCount data = (chunks data).eraseDups.map fun w => (w, (chunks data).count w) := by
  rw [wordCount]
  induction chunks data using reverseRecOn with
  | nil => rfl
  | append_singleton ms m ih =>
    have hzero : m ∉ ms.eraseDups → ms.count m = 0 := fun hm =>
      count_eq_zero_of_not_mem fun h => hm (mem_eraseDups.2 h)
    rw [foldl_append, ih, foldl_cons, foldl_nil, countChunk_map m (nodup_eraseDups ms) hzero,
      eraseDups_concat]
    simp only [mem_eraseDups, count_append, count_singleton, beq_iff_eq]

def Word.merge (pair : Pair) (newId : Nat) (w : Word) : Word :=
  { w with ids := apply pair newId w.ids }

/-- How often the pair occurs, weighted by the chunk counts. -/
def countOf (words : List Word) (p : Pair) : Int :=
  (words.map fun w => (w.count : Int) * (adjacent w.ids).count p).sum

/-! ## The reference -/

/-- Tuples, as Python compares them. -/
def Tuple : Type := Int ×ₗ (Nat ×ₗ Nat)

instance : LinearOrder Tuple :=
  @Prod.Lex.instLinearOrder Int (Nat ×ₗ Nat) Int.instLinearOrder
    (@Prod.Lex.instLinearOrder Nat Nat Nat.instLinearOrder Nat.instLinearOrder)

/-- Entries of the heap and candidates of the reference are compared as tuples. -/
def entryKey (e : Int × Pair) : Tuple := toLex (e.1, toLex e.2)

/-- The pair of highest count, the smallest of them. -/
def bestPairOf (words : List Word) : Option Pair :=
  (words.flatMap fun w => adjacent w.ids).argmin fun p => entryKey (-(countOf words p), p)

/-- One round of the reference: count all pairs and merge the best one in every chunk. -/
def naiveRound (target : Nat) : List Word × List Pair → Option (List Word × List Pair)
  | (words, merges) =>
    if merges.length < target then
      match bestPairOf words with
      | none => none
      | some pair =>
        if countOf words pair < 2 then none
        else some (words.map (Word.merge pair (256 + merges.length)), merges ++ [pair])
    else none

/-- The chunks of the data, each once, with the number of times it occurs. -/
def countedChunks (data : Bytes) : List Word :=
  (chunks data).eraseDups.map fun w => ⟨w.map UInt8.toNat, (chunks data).count w⟩

theorem wordsOf_eq (data : Bytes) : wordsOf data = countedChunks data := by
  rw [wordsOf, wordCount_eq, map_map]
  rfl

/-- The reference; a round adds a merge, so the number of merges wanted is enough fuel. -/
def naiveBpe (data : Bytes) (vocabSize : Nat) : List Pair :=
  (iter (naiveRound (vocabSize - 256)) (vocabSize - 256) (countedChunks data, [])).2

/-! ## `train_bpe` -/

/-- `stats`. -/
structure Counter where
  keys : List Pair
  count : Pair → Int
  absent : ∀ p, p ∉ keys → count p = 0

/-- `stats[p] += c`. -/
def Counter.add (s : Counter) (p : Pair) (c : Int) : Counter where
  keys := s.keys.insert p
  count := update s.count p (s.count p + c)
  absent q hq := by
    rw [mem_insert_iff, not_or] at hq
    rw [update_of_ne hq.1]
    exact s.absent q hq.2

/-- `stats` and `where`. -/
structure Tables where
  stats : Counter
  places : Pair → List Nat

namespace Tables

/-- Change the count of a pair and the set of its chunks. -/
def touch (f : List Nat → List Nat) (c : Int) (t : Tables) (p : Pair) : Tables :=
  ⟨t.stats.add p c, update t.places p (f (t.places p))⟩

/-- `stats[p] += c`, `where[p].add(i)`. -/
def enter (i c : Nat) : Tables → Pair → Tables := touch (insert i) c

/-- `stats[p] -= c`, `where[p].discard(i)`. -/
def leave (i c : Nat) : Tables → Pair → Tables := touch (filter (· ≠ i)) (-c)

/-- The tables of the words at the start. -/
def init (words : List Word) : Tables :=
  words.zipIdx.foldl (fun t (w, i) => (adjacent w.ids).foldl (enter i w.count) t)
    ⟨⟨[], fun _ => 0, fun _ _ => rfl⟩, fun _ => []⟩

/-- A change of the tables for a pair that also puts the pair in `touched`. -/
def noting (f : Tables → Pair → Tables) (s : Tables × List Pair) (p : Pair) : Tables × List Pair :=
  (f s.1 p, s.2.insert p)

end Tables

open Tables

/-- What the loop over `where[pair]` works on. -/
structure Work where
  words : List Word
  tables : Tables
  touched : List Pair

/-- The loop over `where[pair]`, for the chunk `i`. -/
def Work.visit (pair : Pair) (newId : Nat) (s : Work) (i : Nat) : Work :=
  match s.words[i]? with
  | none => s
  | some w =>
    let w' := w.merge pair newId
    let left := (adjacent w.ids).foldl (noting (leave i w.count))
      (s.tables, s.touched)
    let entered := (adjacent w'.ids).foldl (noting (enter i w.count)) left
    ⟨s.words.set i w', entered.1, entered.2⟩

structure Trainer where
  words : List Word
  tables : Tables
  heap : List (Int × Pair)
  merges : List Pair

/-- The orders in which the sets are listed in the rounds: `where[pair]` and `touched`. -/
structure Orders where
  chunks : Nat → List Nat → List Nat
  touched : Nat → List Pair → List Pair
  permChunks : ∀ n s, (chunks n s).Perm s
  permTouched : ∀ n s, (touched n s).Perm s

namespace Trainer

/-- The state before the loop. -/
def init (words : List Word) : Trainer :=
  let tables := Tables.init words
  ⟨words, tables, tables.stats.keys.map fun p => (-(tables.stats.count p), p), []⟩

/-- The entry has the current count of its pair. -/
def live (t : Trainer) (e : Int × Pair) : Bool := t.tables.stats.count e.2 == -e.1

/-- The search for the pair: the entry found and the heap without the entries popped. -/
def peek (t : Trainer) : Option (Int × Pair) × List (Int × Pair) :=
  peekLive entryKey t.live t.heap.length t.heap

/-- Merge the pair in all its chunks; `heap` is what the search left. -/
def mergePair (o : Orders) (t : Trainer) (pair : Pair) (heap : List (Int × Pair)) : Trainer :=
  let n := t.merges.length
  let work := (o.chunks n (t.tables.places pair)).foldl (Work.visit pair (256 + n))
    ⟨t.words, t.tables, []⟩
  let stats := work.tables.stats
  let pushed := (o.touched n work.touched).filter fun p => 2 ≤ stats.count p
  { words := work.words
    tables := ⟨stats, update work.tables.places pair []⟩
    heap := heap ++ pushed.map fun p => (-(stats.count p), p)
    merges := t.merges ++ [pair] }

/-- One round of the loop. -/
def round (o : Orders) (target : Nat) (t : Trainer) : Option Trainer :=
  if t.merges.length < target then
    match t.peek with
    | (none, _) => none
    | (some (_, pair), heap) =>
      if t.tables.stats.count pair < 2 then none else some (t.mergePair o pair heap)
  else none

end Trainer

/-- `train_bpe`; `none` is the failed assertion. A round adds a merge, so the number of merges
wanted is enough fuel. -/
def trainBpe (o : Orders) (data : Bytes) (vocabSize : Nat) : Option (List Pair) :=
  if 256 ≤ vocabSize then
    let target := vocabSize - 256
    some (iter (Trainer.round o target) target (Trainer.init (wordsOf data))).merges
  else none

/-! ## The tables are exact -/

/-- `stats` has the counts of all pairs, and `where` the chunks each occurs in. -/
structure Exact (words : List Word) (t : Tables) : Prop where
  counts : ∀ p, t.stats.count p = countOf words p
  nodup : ∀ p, (t.places p).Nodup
  mem : ∀ p i, i ∈ t.places p ↔ ∃ w, words[i]? = some w ∧ p ∈ adjacent w.ids

section Tables

variable {f : List Nat → List Nat} {c : Int} {ps : List Pair} {t : Tables}

theorem count_foldl_touch (f : List Nat → List Nat) (c : Int) (ps : List Pair) (t : Tables)
    (q : Pair) : (ps.foldl (touch f c) t).stats.count q = t.stats.count q + c * ps.count q := by
  induction ps generalizing t with
  | nil => simp
  | cons p ps ih =>
    rw [foldl_cons, ih, count_cons]
    rcases eq_or_ne q p with rfl | hne
    · simp only [touch, Counter.add, update_self, beq_self_eq_true, if_true,
        Nat.cast_add, Nat.cast_one]
      ring
    · simp [touch, Counter.add, update_of_ne hne, hne.symm]

theorem places_foldl_touch (hf : ∀ s, f (f s) = f s) (c : Int) (ps : List Pair) (t : Tables)
    (q : Pair) :
    (ps.foldl (touch f c) t).places q = if q ∈ ps then f (t.places q) else t.places q := by
  induction ps generalizing t with
  | nil => simp
  | cons p ps ih =>
    rw [foldl_cons, ih]
    rcases eq_or_ne q p with rfl | hne
    · simp [touch, hf]
    · simp [touch, hne]

theorem foldl_noting (f : Tables → Pair → Tables) (ps : List Pair) (s : Tables × List Pair) :
    (ps.foldl (noting f) s).1 = ps.foldl f s.1 ∧
      ∀ q, q ∈ (ps.foldl (noting f) s).2 ↔ q ∈ ps ∨ q ∈ s.2 := by
  induction ps generalizing s with
  | nil => simp
  | cons p ps ih =>
    refine ⟨(ih _).1, fun q => ?_⟩
    rw [foldl_cons, (ih _).2, noting, mem_insert_iff, mem_cons]
    tauto

theorem places_foldl_enter (i c : Nat) (ps : List Pair) (t : Tables) (q : Pair) :
    (ps.foldl (enter i c) t).places q = if q ∈ ps then (t.places q).insert i else t.places q :=
  places_foldl_touch (fun _ => insert_of_mem mem_insert_self) ..

theorem places_foldl_leave (i c : Nat) (ps : List Pair) (t : Tables) (q : Pair) :
    (ps.foldl (leave i c) t).places q =
      if q ∈ ps then (t.places q).filter (· ≠ i) else t.places q :=
  places_foldl_touch (fun _ => by simp) ..

end Tables

theorem countOf_append (words words' : List Word) (p : Pair) :
    countOf (words ++ words') p = countOf words p + countOf words' p := by
  simp [countOf]

variable {words : List Word}

theorem countOf_set {i : Nat} {w : Word} (h : words[i]? = some w) (w' : Word) (p : Pair) :
    countOf (words.set i w') p = countOf words p - w.count * (adjacent w.ids).count p +
        w'.count * (adjacent w'.ids).count p := by
  induction words generalizing i with
  | nil => cases h
  | cons v words ih =>
    cases i with
    | zero =>
      cases h
      simp only [countOf, set_cons_zero, map_cons, sum_cons]
      ring
    | succ i =>
      have hrest := ih h
      simp only [countOf, set_cons_succ, map_cons, sum_cons] at hrest ⊢
      rw [hrest]
      ring

theorem Exact.replace {t : Tables} (h : Exact words t) {i : Nat} {w : Word}
    (hw : words[i]? = some w) (ids : List Nat) :
    Exact (words.set i { w with ids }) ((adjacent ids).foldl (enter i w.count)
        ((adjacent w.ids).foldl (leave i w.count) t)) := by
  have hi := (List.getElem?_eq_some_iff.1 hw).1
  refine ⟨fun p => ?_, fun p => ?_, fun p j => ?_⟩
  · rw [enter, count_foldl_touch, leave, count_foldl_touch, h.counts, countOf_set hw]
    ring
  · rw [places_foldl_enter, places_foldl_leave]
    have hleave : (if p ∈ adjacent w.ids then (t.places p).filter (· ≠ i)
        else t.places p).Nodup := by
      split
      · exact (h.nodup p).filter _
      · exact h.nodup p
    split
    · exact hleave.insert
    · exact hleave
  · rw [places_foldl_enter, places_foldl_leave]
    rcases eq_or_ne j i with rfl | hne
    · -- the chunk itself: out of the set of its old pairs, in the sets of its new ones
      have hout : j ∉ if p ∈ adjacent w.ids then (t.places p).filter (· ≠ j)
          else t.places p := by
        split
        · simp
        · next hp =>
            rw [h.mem]
            rintro ⟨w', hw', hp'⟩
            exact hp (Option.some.inj (hw.symm.trans hw') ▸ hp')
      rw [getElem?_set_self hi]
      constructor
      · intro hj
        split at hj
        · next hp => exact ⟨_, rfl, hp⟩
        · exact absurd hj hout
      · rintro ⟨w', hw', hp⟩
        cases hw'
        rw [if_pos hp]
        exact mem_insert_self
    · have hsame : (j ∈ if p ∈ adjacent w.ids then (t.places p).filter (· ≠ i)
          else t.places p) ↔ j ∈ t.places p := by
        split <;> simp [hne]
      rw [getElem?_set_ne hne.symm, ← h.mem, ← hsame]
      split <;> simp [hne]

theorem exact_init (words : List Word) : Exact words (init words) := by
  induction words using reverseRecOn with
  | nil => exact ⟨fun _ => rfl, fun _ => .nil, by simp [init]⟩
  | append_singleton words w ih =>
    have hinit : init (words ++ [w]) =
        (adjacent w.ids).foldl (enter words.length w.count) (init words) := by
      simp [init, zipIdx_append]
    refine ⟨fun p => ?_, fun p => ?_, fun p i => ?_⟩
    · rw [hinit, enter, count_foldl_touch, ih.counts, countOf_append]
      simp [countOf]
    · rw [hinit, places_foldl_enter]
      split
      · exact (ih.nodup p).insert
      · exact ih.nodup p
    · have hmem := ih.mem p i
      rw [hinit, places_foldl_enter]
      rcases lt_trichotomy i words.length with hlt | rfl | hgt
      · rw [getElem?_append_left hlt, ← hmem]
        split <;> simp [hlt.ne]
      · have hnot : words.length ∉ (init words).places p := by simp [hmem]
        simp only [getElem?_concat_length]
        constructor
        · intro hi
          split at hi
          · next hp => exact ⟨w, rfl, hp⟩
          · exact absurd hi hnot
        · rintro ⟨w', hw', hp⟩
          cases hw'
          rw [if_pos hp]
          exact mem_insert_self
      · have hnone : (words ++ [w])[i]? = none := getElem?_eq_none (by simp; omega)
        have hnot : i ∉ (init words).places p := by
          rw [hmem, getElem?_eq_none (by omega)]
          simp
        rw [hnone]
        split <;> simp [hnot, hgt.ne']

/-! ## One merge -/

section Visit

variable {s : Work} {i : Nat}

theorem exact_visit (pair : Pair) (newId : Nat) (h : Exact s.words s.tables) {w : Word}
    (hw : s.words[i]? = some w) :
    (s.visit pair newId i).words = s.words.set i (w.merge pair newId) ∧
      Exact (s.visit pair newId i).words (s.visit pair newId i).tables ∧
      ∀ q, q ∉ (s.visit pair newId i).touched →
        q ∉ s.touched ∧ countOf (s.visit pair newId i).words q = countOf s.words q := by
  have hleft := foldl_noting (leave i w.count) (adjacent w.ids) (s.tables, s.touched)
  have hentered := foldl_noting (enter i w.count) (adjacent (w.merge pair newId).ids)
    ((adjacent w.ids).foldl (noting (leave i w.count)) (s.tables, s.touched))
  simp only [Work.visit, hw]
  refine ⟨trivial, ?_, fun q hq => ?_⟩
  · rw [hentered.1, hleft.1]
    exact h.replace hw _
  · rw [hentered.2, hleft.2, not_or, not_or] at hq
    obtain ⟨hnew, hold, htouched⟩ := hq
    refine ⟨htouched, ?_⟩
    rw [countOf_set hw, count_eq_zero_of_not_mem hold, count_eq_zero_of_not_mem hnew]
    simp

theorem exact_visits (pair : Pair) (newId : Nat) {is : List Nat} (h : Exact s.words s.tables)
    (hnodup : is.Nodup) (his : ∀ i ∈ is, i < s.words.length) :
    let s' := is.foldl (Work.visit pair newId) s
    (∀ j, s'.words[j]? = s.words[j]?.map fun w => if j ∈ is then w.merge pair newId else w) ∧
      Exact s'.words s'.tables ∧
      ∀ q, q ∉ s'.touched → q ∉ s.touched ∧ countOf s'.words q = countOf s.words q := by
  induction is generalizing s with
  | nil => exact ⟨fun j => by simp, h, fun q hq => ⟨hq, rfl⟩⟩
  | cons i is ih =>
    obtain ⟨hi, hnodup⟩ := nodup_cons.1 hnodup
    have hlt := his i mem_cons_self
    obtain ⟨hwords, hexact, htouched⟩ := exact_visit pair newId h (getElem?_eq_getElem hlt)
    have hlen : (s.visit pair newId i).words.length = s.words.length := by rw [hwords, length_set]
    obtain ⟨hwords', hexact', htouched'⟩ := ih hexact hnodup fun j hj =>
      hlen ▸ his j (mem_cons_of_mem i hj)
    refine ⟨fun j => ?_, hexact', fun q hq => ?_⟩
    · rw [foldl_cons, hwords', hwords]
      rcases eq_or_ne j i with rfl | hne
      · rw [getElem?_set_self hlt, getElem?_eq_getElem hlt]
        simp [hi]
      · rw [getElem?_set_ne hne.symm]
        simp [hne]
    · obtain ⟨hq₁, hcount₁⟩ := htouched' q hq
      obtain ⟨hq₂, hcount₂⟩ := htouched q hq₁
      exact ⟨hq₂, hcount₁.trans hcount₂⟩

end Visit

theorem mem_of_countOf_ne_zero {p : Pair} (h : countOf words p ≠ 0) :
    ∃ w ∈ words, p ∈ adjacent w.ids := by
  by_contra hnone
  push Not at hnone
  refine h (sum_eq_zero fun x hx => ?_)
  obtain ⟨w, hw, rfl⟩ := mem_map.1 hx
  rw [count_eq_zero_of_not_mem (hnone w hw)]
  simp

theorem mem_of_mem_adjacent {p : Pair} (h : p ∈ adjacent ids) : p.1 ∈ ids ∧ p.2 ∈ ids :=
  ⟨(of_mem_zip h).1, mem_of_mem_tail (of_mem_zip h).2⟩

/-- The state between two rounds: the tables are exact, and every pair that could be merged has its
entry in the heap. -/
structure Trainer.Inv (t : Trainer) : Prop where
  exact : Exact t.words t.tables
  heap : ∀ p, 2 ≤ countOf t.words p → (-(countOf t.words p), p) ∈ t.heap
  ids : ∀ w ∈ t.words, ∀ x ∈ w.ids, x < 256 + t.merges.length

theorem Trainer.inv_init (words : List Word) (h : ∀ w ∈ words, ∀ x ∈ w.ids, x < 256) :
    (Trainer.init words).Inv := by
  refine ⟨exact_init words, fun p hp => ?_, h⟩
  have hcount := (exact_init words).counts p
  have hkey : p ∈ (Tables.init words).stats.keys := by
    by_contra hnot
    have hp' : 2 ≤ countOf words p := hp
    rw [← hcount, (Tables.init words).stats.absent p hnot] at hp'
    omega
  exact mem_map.2 ⟨p, hkey, by rw [hcount]; rfl⟩

section Merge

variable {t : Trainer} {o : Orders} {heap : List (Int × Pair)}

theorem Trainer.Inv.visits (h : t.Inv) (o : Orders) (pair : Pair) :
    let s' := (o.chunks t.merges.length (t.tables.places pair)).foldl
      (Work.visit pair (256 + t.merges.length)) ⟨t.words, t.tables, []⟩
    s'.words = t.words.map (Word.merge pair (256 + t.merges.length)) ∧ Exact s'.words s'.tables ∧
      ∀ q, q ∉ s'.touched → countOf s'.words q = countOf t.words q := by
  have hperm := o.permChunks t.merges.length (t.tables.places pair)
  obtain ⟨hwords, hexact, htouched⟩ := exact_visits pair
    (256 + t.merges.length) (s := ⟨t.words, t.tables, []⟩) h.exact
    (hperm.nodup_iff.2 (h.exact.nodup pair)) (fun i hi => by
      obtain ⟨w, hw, -⟩ := (h.exact.mem pair i).1 (hperm.mem_iff.1 hi)
      exact (List.getElem?_eq_some_iff.1 hw).1)
  refine ⟨ext_getElem? fun j => ?_, hexact, fun q hq => (htouched q hq).2⟩
  rw [hwords, getElem?_map]
  cases hw : t.words[j]? with
  | none => rfl
  | some w =>
    -- a chunk that is not listed does not have the pair
    rw [Option.map_some, Option.map_some]
    split
    · rfl
    · next hj =>
        have hnot : pair ∉ adjacent w.ids := fun hmem =>
          hj (hperm.mem_iff.2 ((h.exact.mem pair j).2 ⟨w, hw, hmem⟩))
        rw [Word.merge, apply_of_not_mem hnot]

theorem Trainer.Inv.mergePair (h : t.Inv)
    (hheap : ∀ p, 2 ≤ countOf t.words p → (-(countOf t.words p), p) ∈ heap)
    (hpair : countOf t.words pair ≠ 0) :
    (t.mergePair o pair heap).words = t.words.map (Word.merge pair (256 + t.merges.length)) ∧
      (t.mergePair o pair heap).Inv := by
  obtain ⟨hwords, hexact, htouched⟩ := h.visits o pair
  obtain ⟨w, hw, hmem⟩ := mem_of_countOf_ne_zero hpair
  have hfst := h.ids w hw pair.1 (mem_of_mem_adjacent hmem).1
  have hsnd := h.ids w hw pair.2 (mem_of_mem_adjacent hmem).2
  refine ⟨hwords, ?_, ?_, ?_⟩
  · refine ⟨hexact.counts, fun p => ?_, fun p i => ?_⟩
    · rcases eq_or_ne p pair with rfl | hne
      · simp [Trainer.mergePair]
      · simpa [Trainer.mergePair, hne] using hexact.nodup p
    · rcases eq_or_ne p pair with rfl | hne
      · -- the pair merged occurs no more
        have hgone : ¬ ∃ w', (t.mergePair o p heap).words[i]? = some w' ∧ p ∈ adjacent w'.ids := by
          rintro ⟨w', hw', hp⟩
          rw [show (t.mergePair o p heap).words = _ from hwords, getElem?_map,
            Option.map_eq_some_iff] at hw'
          obtain ⟨v, -, rfl⟩ := hw'
          exact not_mem_adjacent_apply (by omega) (by omega) v.ids hp
        simp only [hgone, iff_false]
        simp [Trainer.mergePair]
      · simpa [Trainer.mergePair, hne] using hexact.mem p i
  · intro p hp
    have hcount := hexact.counts p
    rw [Trainer.mergePair, mem_append]
    by_cases htouch : p ∈ ((o.chunks t.merges.length (t.tables.places pair)).foldl
        (Work.visit pair (256 + t.merges.length)) ⟨t.words, t.tables, []⟩).touched
    · right
      have hlisted := (o.permTouched t.merges.length _).mem_iff.2 htouch
      refine mem_map.2 ⟨p, mem_filter.2 ⟨hlisted, ?_⟩, by rw [hcount]⟩
      rw [hcount]
      exact decide_eq_true hp
    · left
      have hsame := htouched p htouch
      show (-(countOf _ p), p) ∈ heap
      rw [hsame]
      exact hheap p (hsame ▸ hp)
  · intro w' hw' x hx
    rw [show (t.mergePair o pair heap).words = _ from hwords] at hw'
    obtain ⟨v, hv, rfl⟩ := mem_map.1 hw'
    have hlen : (t.mergePair o pair heap).merges.length = t.merges.length + 1 := by
      simp [Trainer.mergePair]
    rw [hlen]
    rcases mem_apply hx with hx | rfl
    · have := h.ids v hv x hx
      omega
    · omega

end Merge

/-! ## The rounds -/

theorem entryKey_injective : Function.Injective entryKey := by
  intro e e' h
  obtain ⟨hcount, hpair⟩ := Prod.mk.inj (toLex.injective h)
  exact Prod.ext hcount (toLex.injective hpair)

theorem fst_le_of_entryKey_le {e e' : Int × Pair} (h : entryKey e ≤ entryKey e') : e.1 ≤ e'.1 := by
  rcases (Prod.Lex.le_iff).1 h with hlt | ⟨heq, -⟩
  · exact hlt.le
  · exact heq.le

/-- The two trainers after the same number of rounds. -/
def SameState (t : Trainer) (s : List Word × List Pair) : Prop :=
  t.words = s.1 ∧ t.merges = s.2 ∧ t.Inv

section Round

variable {t : Trainer}

theorem Trainer.live_entry (h : t.Inv) (p : Pair) : t.live (-(countOf t.words p), p) = true := by
  simp [Trainer.live, h.exact.counts]

theorem naive_stops (h : ∀ p, countOf t.words p < 2) (target : Nat) :
    naiveRound target (t.words, t.merges) = none := by
  rw [naiveRound]
  split
  · split
    · rfl
    · next p _ => rw [if_pos (h p)]
  · rfl

theorem bestPairOf_eq (h : t.Inv) {e : Int × Pair} (hpeek : t.peek.1 = some e)
    (he : 2 ≤ countOf t.words e.2) : bestPairOf t.words = some e.2 := by
  obtain ⟨hmem, hlive, hleast⟩ := least_of_peekLive hpeek
  have hval : e = (-(countOf t.words e.2), e.2) := by
    have hlive' : t.tables.stats.count e.2 = -e.1 := eq_of_beq hlive
    rw [h.exact.counts] at hlive'
    exact Prod.ext (by simp [hlive']) rfl
  obtain ⟨w, hw, hadj⟩ := mem_of_countOf_ne_zero (by omega : countOf t.words e.2 ≠ 0)
  have hcand : e.2 ∈ t.words.flatMap fun w => adjacent w.ids := mem_flatMap.2 ⟨w, hw, hadj⟩
  cases hbest : bestPairOf t.words with
  | none =>
    rw [argmin_eq_none.1 hbest] at hcand
    cases hcand
  | some p =>
    have hle : entryKey (-(countOf t.words p), p) ≤ entryKey (-(countOf t.words e.2), e.2) :=
      le_of_mem_argmin (f := fun p => entryKey (-(countOf t.words p), p)) hcand hbest
    have hcount := fst_le_of_entryKey_le hle
    have hge := hleast _ (h.heap p (by omega)) (t.live_entry h p)
    rw [hval] at hge
    rw [(Prod.mk.inj (entryKey_injective (hle.antisymm hge))).2]

theorem sameState_round (o : Orders) (target : Nat) (t : Trainer) (s : List Word × List Pair)
    (hsame : SameState t s) : Option.Rel SameState (t.round o target) (naiveRound target s) := by
  obtain ⟨words, merges⟩ := s
  obtain ⟨rfl, rfl, hinv⟩ := hsame
  rcases lt_or_ge t.merges.length target with hlt | hge
  · rw [Trainer.round, if_pos hlt]
    cases hpeek : t.peek.1 with
    | none =>
      have hnone : ∀ p, countOf t.words p < 2 := fun p => by
        by_contra hp
        have hstale := stale_of_peekLive (le_rfl) hpeek (hinv.heap p (by omega))
        rw [t.live_entry hinv p] at hstale
        cases hstale
      rw [naive_stops hnone, show t.peek = (none, t.peek.2) from Prod.ext hpeek rfl]
      exact .none
    | some e =>
      rw [show t.peek = (some e, t.peek.2) from Prod.ext hpeek rfl]
      obtain ⟨v, pair⟩ := e
      obtain ⟨-, hlive, hleast⟩ := least_of_peekLive hpeek
      have hval : countOf t.words pair = -v := by
        rw [← hinv.exact.counts]
        exact eq_of_beq hlive
      dsimp only
      rw [hinv.exact.counts]
      rcases lt_or_ge (countOf t.words pair) 2 with hsmall | hbig
      · have hnone : ∀ p, countOf t.words p < 2 := fun p => by
          by_contra hp
          have hle := fst_le_of_entryKey_le
            (hleast _ (hinv.heap p (by omega)) (t.live_entry hinv p))
          dsimp only at hle
          omega
        rw [if_pos hsmall, naive_stops hnone]
        exact .none
      · have hheap : ∀ p, 2 ≤ countOf t.words p → (-(countOf t.words p), p) ∈ t.peek.2 :=
          fun p hp => mem_peekLive (t.live_entry hinv p) (hinv.heap p hp)
        have hmerge := hinv.mergePair (o := o) hheap (by omega : countOf t.words pair ≠ 0)
        rw [if_neg (by omega), naiveRound, if_pos hlt, bestPairOf_eq hinv hpeek hbig]
        dsimp only
        rw [if_neg (by omega)]
        exact .some ⟨hmerge.1, rfl, hmerge.2⟩
  · rw [Trainer.round, if_neg (by omega), naiveRound, if_neg (by omega)]
    exact .none

end Round

/-- For every order of the sets, every corpus and every size of the vocabulary, `train_bpe` returns
the merges of the reference. -/
theorem trainBpe_eq_naive (o : Orders) (data : Bytes) (vocabSize : Nat) (h : 256 ≤ vocabSize) :
    trainBpe o data vocabSize = some (naiveBpe data vocabSize) := by
  have hids : ∀ w ∈ wordsOf data, ∀ x ∈ w.ids, x < 256 := by
    intro w hw x hx
    obtain ⟨m, -, rfl⟩ := mem_map.1 hw
    obtain ⟨b, -, rfl⟩ := mem_map.1 hx
    exact b.toNat_lt
  have hstart : SameState (Trainer.init (wordsOf data)) (wordsOf data, []) :=
    ⟨rfl, rfl, Trainer.inv_init (wordsOf data) hids⟩
  have hsame := iter_rel (sameState_round o (vocabSize - 256)) hstart (vocabSize - 256)
  rw [trainBpe, if_pos h, naiveBpe, ← wordsOf_eq, ← hsame.2.1]

/-- Sets listed as they are stored. -/
def Orders.stored : Orders := ⟨fun _ s => s, fun _ s => s, fun _ _ => .rfl, fun _ _ => .rfl⟩

theorem trainBpe_eq_naive_abab :
    trainBpe .stored [97, 98, 97, 98, 97, 98] 258 = some [(97, 98), (256, 256)] ∧
      naiveBpe [97, 98, 97, 98, 97, 98] 258 = [(97, 98), (256, 256)] := by
  have hnaive : naiveBpe [97, 98, 97, 98, 97, 98] 258 = [(97, 98), (256, 256)] := by decide +kernel
  exact ⟨by rw [trainBpe_eq_naive .stored _ 258 (by decide), hnaive], hnaive⟩

end Thos.Lm.Bpe
