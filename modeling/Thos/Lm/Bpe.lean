import Mathlib.Data.List.TakeWhile
import Thos.Lib.Buffer
import Thos.Lib.Loop

/-!
# The tokenizer of the training scripts

`bpe.py`: the corpus and every prompt are cut into the matches of `\s+|\S+`, and the tokenizer
merges inside each chunk, the pair of lowest rank first.
-/

set_option autoImplicit false

namespace Thos.Lm.Bpe

open Thos.Lib List

/-! ## Chunks -/

/-- `\s` over bytes. -/
def space (b : UInt8) : Bool := [0x20, 0x09, 0x0A, 0x0D, 0x0B, 0x0C].contains b

/-- One or more bytes of a class, as many as there are: the match and the rest. -/
def plus (p : UInt8 → Bool) (data : Bytes) : Option (Bytes × Bytes) :=
  if data.takeWhile p = [] then none else some (data.takeWhile p, data.dropWhile p)

/-- The match of `_CHUNK_RE` at the beginning of the data. -/
def chunkMatch (data : Bytes) : Option (Bytes × Bytes) :=
  plus space data <|> plus (fun b => !space b) data

/-- The matches one after another. The scan of `finditer` never skips a byte, since every byte
starts a match. -/
def finditer : Nat → Bytes → List Bytes
  | 0, _ => []
  | n + 1, data =>
    match chunkMatch data with
    | none => []
    | some (m, rest) => m :: finditer n rest

/-- `_CHUNK_RE.finditer(data)`. -/
def chunks (data : Bytes) : List Bytes := finditer data.length data

theorem chunkMatch_cons (b : UInt8) (rest : Bytes) :
    chunkMatch (b :: rest) = some (b :: rest.takeWhile (fun x => space x == space b),
      rest.dropWhile (fun x => space x == space b)) := by
  cases hb : space b <;> simp [chunkMatch, plus, hb]

theorem finditer_eq {n : Nat} {data : Bytes} (h : data.length ≤ n) :
    finditer n data = chunks data := by
  induction n using Nat.strong_induction_on generalizing data with
  | _ n ih =>
    cases data with
    | nil =>
      cases n with
      | zero => rfl
      | succ n => simp [finditer, chunks, chunkMatch, plus]
    | cons b rest =>
      obtain ⟨n, rfl⟩ : ∃ m, n = m + 1 := ⟨n - 1, by simp at h; omega⟩
      have hlen := (dropWhile_sublist (fun x => space x == space b) (l := rest)).length_le
      simp only [length_cons] at h
      simp only [chunks, finditer, length_cons, chunkMatch_cons]
      rw [ih n (by omega) (by omega), ih rest.length (by omega) hlen]

theorem chunks_cons (b : UInt8) (rest : Bytes) :
    chunks (b :: rest) = (b :: rest.takeWhile (fun x => space x == space b)) ::
      chunks (rest.dropWhile (fun x => space x == space b)) := by
  have hlen := (dropWhile_sublist (fun x => space x == space b) (l := rest)).length_le
  rw [chunks, length_cons, finditer]
  simp only [chunkMatch_cons, finditer_eq hlen]

theorem flatten_chunks (data : Bytes) : (chunks data).flatten = data := by
  induction hn : data.length using Nat.strong_induction_on generalizing data with
  | _ n ih =>
    cases data with
    | nil => rfl
    | cons b rest =>
      have hlen := (dropWhile_sublist (fun x => space x == space b) (l := rest)).length_le
      rw [chunks_cons, flatten_cons, ih _ (by simp at hn; omega) _ rfl, cons_append,
        takeWhile_append_dropWhile]

/-- All bytes are of one class. -/
def Uniform (data : Bytes) : Prop := ∀ b ∈ data, ∀ b' ∈ data, space b = space b'

theorem uniform_of_mem_chunks {data m : Bytes} (h : m ∈ chunks data) : Uniform m := by
  induction hn : data.length using Nat.strong_induction_on generalizing data with
  | _ n ih =>
    cases data with
    | nil => cases h
    | cons b rest =>
      have hlen := (dropWhile_sublist (fun x => space x == space b) (l := rest)).length_le
      rw [chunks_cons, mem_cons] at h
      rcases h with rfl | h
      · have hclass : ∀ x ∈ b :: rest.takeWhile (fun x => space x == space b),
            space x = space b :=
          forall_mem_cons.2 ⟨rfl, fun x hx => by simpa using mem_takeWhile_imp hx⟩
        intro x hx y hy
        rw [hclass x hx, hclass y hy]
      · exact ih _ (by simp at hn; omega) h rfl

theorem chunks_of_uniform {data : Bytes} (hne : data ≠ []) (h : Uniform data) :
    chunks data = [data] := by
  obtain ⟨b, rest, rfl⟩ := exists_cons_of_ne_nil hne
  have hall : ∀ x ∈ rest, (space x == space b) = true := fun x hx =>
    beq_iff_eq.2 (h x (mem_cons_of_mem b hx) b mem_cons_self)
  rw [chunks_cons, takeWhile_eq_self_iff.2 hall, dropWhile_eq_nil_iff.2 hall]
  rfl

/-! ## The tokenizer -/

/-- `rank`: the dictionary from the merges to their indices. -/
def rankOf (merges : List (Nat × Nat)) : Nat × Nat → Option Nat :=
  merges.zipIdx.foldl (fun rank (m, i) => Function.update rank m (some i)) fun _ => none

/-- The table of the bytes the ids stand for; `none` is an `IndexError`. -/
def expandOf (merges : List (Nat × Nat)) : Option (List Bytes) :=
  merges.foldlM (fun expand (a, b) => do
      let x ← expand[a]?
      let y ← expand[b]?
      return expand ++ [x ++ y])
    ((List.range 256).map fun b => [b.toUInt8])

structure Tokenizer where
  merges : List (Nat × Nat)
  rank : Nat × Nat → Option Nat
  expand : List Bytes
  vocabSize : Nat

namespace Tokenizer

def init (merges : List (Nat × Nat)) : Option Tokenizer :=
  (expandOf merges).map fun expand => ⟨merges, rankOf merges, expand, 256 + merges.length⟩

variable (t : Tokenizer)

/-- The inner loop of `_encode_chunk`: `best_rank` and `best_i`. -/
def bestPair (ids : List Nat) : Option (Nat × Nat) :=
  (ids.zip ids.tail).zipIdx.foldl (fun best (pair, i) =>
      match t.rank pair with
      | some r => if best.all (fun b => decide (r < b.1)) then some (r, i) else best
      | none => best)
    none

/-- One round of the outer loop of `_encode_chunk`. -/
def mergeRound (ids : List Nat) : Option (List Nat) :=
  if 2 ≤ ids.length then
    (t.bestPair ids).map fun (r, i) => ids.take i ++ [256 + r] ++ ids.drop (i + 2)
  else none

/-- `_encode_chunk`. A round makes the list shorter, so its length is enough fuel. -/
def encodeChunk (ids : List Nat) : List Nat :=
  if t.merges = [] then ids else iter t.mergeRound ids.length ids

def encode (data : Bytes) : List Nat :=
  (chunks data).flatMap fun m => t.encodeChunk (m.map UInt8.toNat)

end Tokenizer

theorem rankOf_eq {merges : List (Nat × Nat)} (h : merges.Nodup) (p : Nat × Nat) :
    rankOf merges p = merges.findIdx? (· == p) := by
  induction merges using reverseRecOn with
  | nil => rfl
  | append_singleton ms m ih =>
    obtain ⟨hms, -, hm⟩ := nodup_append.1 h
    rw [rankOf, zipIdx_append, foldl_append, findIdx?_append, ← ih hms]
    show Function.update (rankOf ms) m (some (0 + ms.length)) p = _
    rcases eq_or_ne p m with rfl | hne
    · have hnone : rankOf ms p = none := by
        rw [ih hms, findIdx?_eq_none_iff]
        intro x hx
        exact beq_false_of_ne (hm x hx p (mem_singleton_self p))
      simp [hnone]
    · simp [Function.update_of_ne hne, hne.symm]

theorem expandOf_isSome {merges : List (Nat × Nat)}
    (h : ∀ k a b, merges[k]? = some (a, b) → a < 256 + k ∧ b < 256 + k) :
    ∃ expand, expandOf merges = some expand ∧ expand.length = 256 + merges.length := by
  induction merges using List.reverseRecOn with
  | nil => exact ⟨_, rfl, by simp⟩
  | append_singleton ms m ih =>
    obtain ⟨expand, hexp, hlen⟩ := ih fun k a b hk =>
      h k a b ((getElem?_append_left (List.getElem?_eq_some_iff.1 hk).1).trans hk)
    obtain ⟨ha, hb⟩ := h ms.length m.1 m.2 (by simp)
    rw [← hlen] at ha hb
    refine ⟨expand ++ [expand[m.1] ++ expand[m.2]], ?_, by simp [hlen, add_assoc]⟩
    rw [expandOf, foldlM_append]
    show expandOf ms >>= _ = _
    simp [hexp, ha, hb]

end Thos.Lm.Bpe
