/-!
# Tilings

`Tiles start len ks a b`: the spans of the keys `ks`, in this order, cover `[a, b)` with no gap and
no overlap.
-/

set_option autoImplicit false

namespace Thos.Lib

open List

universe u v

variable {κ : Type u} {α : Type v} {start len : κ → Nat} {ks ks' : List κ} {a b c : Nat}

def Tiles (start len : κ → Nat) : List κ → Nat → Nat → Prop
  | [], a, b => a = b
  | k :: ks, a, b => start k = a ∧ Tiles start len ks (a + len k) b

theorem Tiles.append (h : Tiles start len ks a b) (h' : Tiles start len ks' b c) :
    Tiles start len (ks ++ ks') a c := by
  induction ks generalizing a with
  | nil =>
    obtain rfl : a = b := h
    exact h'
  | cons k ks ih => exact ⟨h.1, ih h.2⟩

theorem Tiles.flatMap_range {block : Nat → List κ} {size : Nat}
    (h : ∀ i, Tiles start len (block i) (a + i * size) (a + i * size + size)) (n : Nat) :
    Tiles start len ((List.range n).flatMap block) a (a + n * size) := by
  induction n with
  | zero => simp [Tiles]
  | succ n ih =>
    rw [range_succ, flatMap_append, Nat.succ_mul, ← Nat.add_assoc]
    refine ih.append ?_
    simpa using h n

variable (h : Tiles start len ks a b)
include h

theorem Tiles.le : a ≤ b := by
  induction ks generalizing a with
  | nil => exact Nat.le_of_eq h
  | cons k ks ih => exact Nat.le_trans (Nat.le_add_right a (len k)) (ih h.2)

theorem Tiles.span {k : κ} (hk : k ∈ ks) : a ≤ start k ∧ start k + len k ≤ b := by
  induction ks generalizing a with
  | nil => cases hk
  | cons k' ks ih =>
    obtain ⟨rfl, hrest⟩ := h
    rcases mem_cons.1 hk with rfl | hk
    · exact ⟨Nat.le_refl _, hrest.le⟩
    · obtain ⟨hle, hend⟩ := ih hrest hk
      exact ⟨Nat.le_trans (Nat.le_add_right ..) hle, hend⟩

theorem Tiles.slice {f : κ → List α}
    (hlen : ∀ k ∈ ks, (f k).length = len k) {pre : List α} (hpre : pre.length = a) {k : κ}
    (hk : k ∈ ks) : ((pre ++ ks.flatMap f).drop (start k)).take (len k) = f k := by
  induction ks generalizing a pre with
  | nil => cases hk
  | cons k' ks ih =>
    obtain ⟨hstart, hrest⟩ := h
    have hlen' := hlen k' mem_cons_self
    rw [flatMap_cons, ← append_assoc]
    rcases mem_cons.1 hk with rfl | hk
    · rw [append_assoc, drop_left' (hpre.trans hstart.symm), take_left' hlen']
    · exact ih hrest (fun j hj => hlen j (mem_cons_of_mem k' hj))
        (by rw [length_append, hpre, hlen']) hk

theorem Tiles.length_flatMap {f : κ → List α}
    (hlen : ∀ k ∈ ks, (f k).length = len k) : a + (ks.flatMap f).length = b := by
  induction ks generalizing a with
  | nil => exact h
  | cons k ks ih =>
    rw [flatMap_cons, length_append, hlen k mem_cons_self, ← Nat.add_assoc]
    exact ih h.2 fun j hj => hlen j (mem_cons_of_mem k hj)

end Thos.Lib
