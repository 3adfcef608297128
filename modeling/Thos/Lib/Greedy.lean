import Thos.Lib.Loop

/-!
# Greedy merging of pairs

Some pairs of letters have a rank, and a pair of rank `r` may be merged to the letter `new r`. A
round merges the pair of lowest rank in a list, the leftmost of them. What a letter was merged from
depends on nothing around it: the rounds that made a segment of a list make it from its spelling
alone (`Made.segment`).
-/

set_option autoImplicit false

namespace Thos.Lib

open List

universe u

variable {α : Type u}

/-- The rank of the pair at an index. -/
def rankAt (rank : α → α → Option Nat) (ids : List α) (w : Nat) : Option Nat :=
  match ids[w]?, ids[w + 1]? with
  | some a, some b => rank a b
  | _, _ => none

/-- One round. -/
def mergeOnce (rank : α → α → Option Nat) (new : Nat → α) (ids : List α) : Option (List α) :=
  (firstMin (rankAt rank ids) (List.range (ids.length - 1))).map fun (r, w) =>
    ids.take w ++ [new r] ++ ids.drop (w + 2)

variable {rank : α → α → Option Nat} {new : Nat → α} {ids ids' : List α}

theorem rankAt_append (rank : α → α → Option Nat) (A : List α) (a b : α) (C : List α) :
    rankAt rank (A ++ a :: b :: C) A.length = rank a b := by
  have h₁ : (A ++ a :: b :: C)[A.length]? = some a := by simp
  have h₂ : (A ++ a :: b :: C)[A.length + 1]? = some b := by simp
  rw [rankAt, h₁, h₂]

theorem split_of_rankAt {w r : Nat} (h : rankAt rank ids w = some r) :
    ∃ A a b C, ids = A ++ a :: b :: C ∧ A.length = w ∧ rank a b = some r := by
  rw [rankAt] at h
  split at h
  · next a b ha hb =>
      obtain ⟨hw, rfl⟩ := List.getElem?_eq_some_iff.1 ha
      obtain ⟨hw', rfl⟩ := List.getElem?_eq_some_iff.1 hb
      refine ⟨ids.take w, _, _, ids.drop (w + 2), ?_, by simp; omega, h⟩
      rw [← drop_eq_getElem_cons hw', ← drop_eq_getElem_cons hw, take_append_drop]
  · cases h

/-- No pair has a lower rank, or the same rank further left. -/
def Least (rank : α → α → Option Nat) (ids : List α) (w r : Nat) : Prop :=
  ∀ A a b C r', ids = A ++ a :: b :: C → rank a b = some r' → r < r' ∨ (r = r' ∧ w ≤ A.length)

theorem Least.segment {P S Q : List α} {w r : Nat}
    (h : Least rank (P ++ S ++ Q) (P.length + w) r) : Least rank S w r := by
  rintro A a b C r' rfl hr'
  have hle := h (P ++ A) a b (C ++ Q) r' (by simp) hr'
  rw [length_append] at hle
  omega

theorem split_of_mergeOnce (h : mergeOnce rank new ids = some ids') :
    ∃ A a b C r, ids = A ++ a :: b :: C ∧ ids' = A ++ new r :: C ∧ rank a b = some r ∧
      Least rank ids A.length r := by
  obtain ⟨⟨r, w⟩, hmin, rfl⟩ := Option.map_eq_some_iff.1 h
  obtain ⟨A, a, b, C, rfl, rfl, hr⟩ := split_of_rankAt (mem_of_firstMin hmin).2
  refine ⟨A, a, b, C, r, rfl, ?_, hr, ?_⟩
  · dsimp only
    rw [take_left, ← drop_drop, drop_left]
    simp
  · intro A' a' b' C' r' heq hr'
    have hlen : A'.length < (A ++ a :: b :: C).length - 1 := by
      rw [heq]
      simp
    refine least_of_firstMin hmin hlen ?_
    rw [heq, rankAt_append, hr']

theorem mergeOnce_of_least {A : List α} {a b : α} {C : List α} {r : Nat} (hr : rank a b = some r)
    (h : Least rank (A ++ a :: b :: C) A.length r) :
    mergeOnce rank new (A ++ a :: b :: C) = some (A ++ new r :: C) := by
  have hat : rankAt rank (A ++ a :: b :: C) A.length = some r := (rankAt_append ..).trans hr
  have hlen : A.length < (A ++ a :: b :: C).length - 1 := by simp
  cases hmin : firstMin (rankAt rank (A ++ a :: b :: C))
      (List.range ((A ++ a :: b :: C).length - 1)) with
  | none =>
    rw [firstMin_eq_none hmin _ (mem_range.2 hlen)] at hat
    cases hat
  | some best =>
    obtain ⟨r', w'⟩ := best
    obtain ⟨A', a', b', C', heq, hw', hr'⟩ := split_of_rankAt (mem_of_firstMin hmin).2
    have hle := least_of_firstMin hmin hlen hat
    have hge := h A' a' b' C' r' heq hr'
    obtain ⟨rfl, rfl⟩ : r' = r ∧ w' = A.length := by omega
    rw [mergeOnce, hmin, Option.map_some]
    dsimp only
    rw [take_left, ← drop_drop, drop_left]
    simp

/-- A list is made from another by some rounds. -/
def Made (rank : α → α → Option Nat) (new : Nat → α) : List α → List α → Prop :=
  Relation.ReflTransGen fun l l' => mergeOnce rank new l = some l'

variable {spell : α → List α}

section

variable (hspell : ∀ a b r, rank a b = some r → spell (new r) = spell a ++ spell b)
include hspell

theorem flatMap_spell_of_mergeOnce
    (h : mergeOnce rank new ids = some ids') : ids'.flatMap spell = ids.flatMap spell := by
  obtain ⟨A, a, b, C, r, rfl, rfl, hr, -⟩ := split_of_mergeOnce h
  simp [hspell a b r hr]

theorem Made.flatMap_spell
    (h : Made rank new ids ids') : ids'.flatMap spell = ids.flatMap spell := by
  induction h with
  | refl => rfl
  | tail _ hstep ih => rw [flatMap_spell_of_mergeOnce hspell hstep, ih]

end

theorem segment_cases {A C P S Q : List α} {z : α} (h : A ++ z :: C = P ++ S ++ Q) :
    (∃ C', C = C' ++ S ++ Q) ∨ (∃ A', A = P ++ S ++ A') ∨
      ∃ A' C', A = P ++ A' ∧ S = A' ++ z :: C' ∧ C = C' ++ Q := by
  rw [append_assoc, append_eq_append_iff] at h
  rcases h with ⟨P', rfl, h⟩ | ⟨A', rfl, h⟩
  · rcases cons_eq_append_iff.1 h with ⟨rfl, hS⟩ | ⟨P'', rfl, hC⟩
    · rcases cons_eq_append_iff.1 hS.symm with ⟨rfl, -⟩ | ⟨S', rfl, rfl⟩
      · exact .inr (.inl ⟨[], by simp⟩)
      · exact .inr (.inr ⟨[], S', by simp⟩)
    · exact .inl ⟨P'', by rw [hC, append_assoc]⟩
  · rw [append_eq_append_iff] at h
    rcases h with ⟨X, rfl, rfl⟩ | ⟨X, rfl, h⟩
    · exact .inr (.inl ⟨X, by simp⟩)
    · rcases cons_eq_append_iff.1 h with ⟨rfl, -⟩ | ⟨X', rfl, hC⟩
      · exact .inr (.inl ⟨[], by simp⟩)
      · exact .inr (.inr ⟨A', X', rfl, rfl, hC⟩)

/-- Every segment of what is made from letters that spell themselves is made from its spelling. -/
theorem Made.segment (hspell : ∀ a b r, rank a b = some r → spell (new r) = spell a ++ spell b)
    (hlet : ∀ x ∈ ids, spell x = [x]) (h : Made rank new ids ids') {P S Q : List α}
    (hsplit : ids' = P ++ S ++ Q) : Made rank new (S.flatMap spell) S := by
  induction h generalizing P S Q with
  | refl =>
    have hself : S.map spell = S.map fun x => [x] :=
      map_congr_left fun x hx => hlet x (by simp [hsplit, hx])
    rw [flatMap_def, hself, ← flatMap_def, flatMap_singleton']
    exact .refl
  | tail _ hstep ih =>
    obtain ⟨A, a, b, C, r, rfl, hafter, hr, hleast⟩ := split_of_mergeOnce hstep
    rw [hafter] at hsplit
    rcases segment_cases hsplit with ⟨C', rfl⟩ | ⟨A', rfl⟩ | ⟨A', C', rfl, rfl, rfl⟩
    · exact ih (P := A ++ a :: b :: C') (Q := Q) (by simp)
    · exact ih (P := P) (Q := A' ++ a :: b :: C) (by simp)
    · -- the merge was made in the segment, and is the least one there
      have hbef : (P ++ A') ++ a :: b :: (C' ++ Q) = P ++ (A' ++ a :: b :: C') ++ Q := by simp
      have hmade := ih hbef
      have hround : mergeOnce rank new (A' ++ a :: b :: C') = some (A' ++ new r :: C') := by
        refine mergeOnce_of_least hr (Least.segment (P := P) (Q := Q) ?_)
        rw [← hbef, ← length_append]
        exact hleast
      rw [flatMap_spell_of_mergeOnce hspell hround]
      exact hmade.tail hround

end Thos.Lib
