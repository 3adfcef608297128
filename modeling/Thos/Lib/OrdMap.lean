/-!
# Ordered association maps

A map with ordered keys is a list of bindings whose keys ascend strictly in the
`compare` order, the shape an in-order walk of a balanced search tree has. Lookup,
replacing insertion and removal work on plain lists, so that a recursive type may
nest a map of itself; `Ascending` states the ordering.
-/

set_option autoImplicit false

namespace Thos.Lib.OrdMap

open List Std.LawfulEqCmp Std.OrientedCmp

universe u v w

variable {κ : Type u} {α : Type v} [Ord κ]

/-- The value bound to `k`. -/
def get? (k : κ) : List (κ × α) → Option α
  | [] => none
  | (k', a) :: m => if compare k k' = .eq then some a else get? k m

/-- Bind `k` to `a`, replacing an earlier binding and keeping the keys in order. -/
def insert (k : κ) (a : α) : List (κ × α) → List (κ × α)
  | [] => [(k, a)]
  | (k', a') :: m =>
    match compare k k' with
    | .lt => (k, a) :: (k', a') :: m
    | .eq => (k, a) :: m
    | .gt => (k', a') :: insert k a m

/-- Drop the binding of `k`. -/
def erase (k : κ) (m : List (κ × α)) : List (κ × α) :=
  m.filter fun p => compare k p.1 ≠ .eq

/-- The keys ascend strictly. -/
def Ascending (m : List (κ × α)) : Prop :=
  m.Pairwise fun p q => compare p.1 q.1 = .lt

@[simp] theorem get?_nil (k : κ) : get? k ([] : List (κ × α)) = none := rfl

@[simp] theorem insert_nil (k : κ) (a : α) : insert k a [] = [(k, a)] := rfl

theorem insert_ne_nil (k : κ) (a : α) (m : List (κ × α)) : insert k a m ≠ [] := by
  cases m with
  | nil => simp
  | cons p m =>
    rw [insert]
    split <;> simp

theorem ascending_nil : Ascending ([] : List (κ × α)) := List.Pairwise.nil

variable {m : List (κ × α)}

theorem ascending_cons {p : κ × α} :
    Ascending (p :: m) ↔ (∀ q ∈ m, compare p.1 q.1 = .lt) ∧ Ascending m :=
  pairwise_cons

variable {k : κ}

theorem get?_eq_none_of_lt [Std.OrientedOrd κ] (h : ∀ q ∈ m, compare q.1 k = .lt) :
    get? k m = none := by
  induction m with
  | nil => rfl
  | cons p m ih =>
    have hp : compare k p.1 = .gt := gt_of_lt (h p mem_cons_self)
    rw [get?, if_neg (by rw [hp]; decide)]
    exact ih fun q hq => h q (mem_cons_of_mem _ hq)

theorem mem_of_get? [Std.LawfulEqOrd κ] {a : α} (h : get? k m = some a) : (k, a) ∈ m := by
  induction m with
  | nil => simp at h
  | cons p m ih =>
    obtain ⟨k', a'⟩ := p
    rw [get?] at h
    split at h
    · rename_i hk
      obtain rfl := eq_of_compare hk
      simp only [Option.some.injEq] at h
      exact h ▸ mem_cons_self
    · exact mem_cons_of_mem _ (ih h)

theorem eq_or_mem_of_mem_insert {a : α} {p : κ × α} (h : p ∈ insert k a m) :
    p = (k, a) ∨ p ∈ m := by
  induction m with
  | nil => exact .inl (by simpa using h)
  | cons q m ih =>
    rw [insert] at h
    split at h
    · simpa using h
    · rcases mem_cons.1 h with rfl | h
      · exact .inl rfl
      · exact .inr (mem_cons_of_mem _ h)
    · rcases mem_cons.1 h with rfl | h
      · exact .inr mem_cons_self
      · exact (ih h).imp_right (mem_cons_of_mem _)

theorem ascending_erase (hm : Ascending m) (k : κ) : Ascending (erase k m) :=
  List.Pairwise.filter _ hm

theorem get?_erase_self (k : κ) (m : List (κ × α)) : get? k (erase k m) = none := by
  induction m with
  | nil => rfl
  | cons p m ih =>
    by_cases hk : compare k p.1 = .eq
    · simpa [erase, hk] using ih
    · simpa [erase, hk, get?] using ih

theorem insert_eq_append [Std.TransOrd κ] (h : ∀ q ∈ m, compare q.1 k = .lt) (a : α) :
    insert k a m = m ++ [(k, a)] := by
  induction m with
  | nil => rfl
  | cons p m ih =>
    have hp : compare k p.1 = .gt := gt_iff_lt.2 (h p mem_cons_self)
    rw [insert, hp]
    simp [ih fun q hq => h q (mem_cons_of_mem _ hq)]

theorem insert_of_get?_none (h : get? k m = none) :
    ∃ l r, m = l ++ r ∧ ∀ a, insert k a m = l ++ (k, a) :: r := by
  induction m with
  | nil => exact ⟨[], [], rfl, fun a => rfl⟩
  | cons p m ih =>
    rw [get?] at h
    split at h
    · cases h
    rename_i hne
    cases hk : compare k p.1 with
    | lt => exact ⟨[], p :: m, rfl, fun a => by simp [insert, hk]⟩
    | eq => exact absurd hk hne
    | gt =>
      obtain ⟨l, r, rfl, hins⟩ := ih h
      exact ⟨p :: l, r, rfl, fun a => by simp [insert, hk, hins]⟩

variable [Std.LawfulEqOrd κ]

theorem get?_insert_self (k : κ) (a : α) (m : List (κ × α)) : get? k (insert k a m) = some a := by
  induction m with
  | nil => simp [get?]
  | cons p m ih =>
    rw [insert]
    split
    · simp [get?]
    · simp [get?]
    · rename_i hgt
      rw [get?, if_neg (by rw [hgt]; decide)]
      exact ih

variable {k' : κ}

theorem get?_insert_of_ne (hne : k' ≠ k) (a : α) (m : List (κ × α)) :
    get? k' (insert k a m) = get? k' m := by
  have hk : compare k' k ≠ .eq := fun h => hne (eq_of_compare h)
  induction m with
  | nil => simp [get?, hk]
  | cons p m ih =>
    rw [insert]
    split
    · rw [get?, if_neg hk]
    · rename_i heq
      obtain rfl := eq_of_compare heq
      simp [get?, hk]
    · simp [get?, ih]

theorem ascending_insert [Std.TransOrd κ] (hm : Ascending m) (k : κ) (a : α) :
    Ascending (insert k a m) := by
  induction m with
  | nil => exact pairwise_singleton _ _
  | cons p m ih =>
    obtain ⟨hlt, hm'⟩ := ascending_cons.1 hm
    rw [insert]
    split
    · rename_i hk
      exact ascending_cons.2 ⟨forall_mem_cons.2
        ⟨hk, fun q hq => Std.TransCmp.lt_trans hk (hlt q hq)⟩, hm⟩
    · rename_i hk
      obtain rfl := eq_of_compare hk
      exact ascending_cons.2 ⟨hlt, hm'⟩
    · rename_i hk
      refine ascending_cons.2 ⟨fun q hq => ?_, ih hm'⟩
      rcases eq_or_mem_of_mem_insert hq with rfl | hq
      · exact gt_iff_lt.1 hk
      · exact hlt q hq

theorem get?_erase_of_ne (hne : k' ≠ k) (m : List (κ × α)) : get? k' (erase k m) = get? k' m := by
  induction m with
  | nil => rfl
  | cons p m ih =>
    by_cases hk : compare k p.1 = .eq
    · have hk' : compare k' p.1 ≠ .eq := by
        intro h
        exact hne ((eq_of_compare h).trans (eq_of_compare hk).symm)
      simpa [erase, hk, get?, hk'] using ih
    · by_cases hk' : compare k' p.1 = .eq
      · simp [erase, hk, get?, hk']
      · simpa [erase, hk, get?, hk'] using ih

variable {a : α}

theorem get?_of_mem [Std.TransOrd κ] (hm : Ascending m) (h : (k, a) ∈ m) : get? k m = some a := by
  induction m with
  | nil => simp at h
  | cons p m ih =>
    obtain ⟨hlt, hm'⟩ := ascending_cons.1 hm
    rcases mem_cons.1 h with rfl | h
    · rw [get?, if_pos Std.ReflCmp.compare_self]
    · have hp : compare k p.1 = .gt := gt_iff_lt.2 (hlt _ h)
      rw [get?, if_neg (by rw [hp]; decide)]
      exact ih hm' h

theorem insert_insert_self (k : κ) (a b : α) (m : List (κ × α)) :
    insert k b (insert k a m) = insert k b m := by
  induction m with
  | nil => simp [insert]
  | cons p m ih =>
    cases hk : compare k p.1 with
    | lt => simp [insert, hk]
    | eq => simp [insert, hk]
    | gt => simp [insert, hk, ih]

theorem mem_keys_insert : k' ∈ (insert k a m).map Prod.fst ↔ k' = k ∨ k' ∈ m.map Prod.fst := by
  induction m with
  | nil => simp
  | cons p m ih =>
    cases hk : compare k p.1 with
    | lt => simp [insert, hk]
    | eq =>
      obtain rfl := eq_of_compare hk
      simp [insert]
    | gt =>
      simp only [insert, hk, map_cons, mem_cons, ih]
      exact or_left_comm

theorem insert_of_get?_some [Std.TransOrd κ] (hm : Ascending m) (h : get? k m = some a) :
    ∃ l r, m = l ++ (k, a) :: r ∧ ∀ b, insert k b m = l ++ (k, b) :: r := by
  induction m with
  | nil => simp at h
  | cons p m ih =>
    obtain ⟨hlt, hm'⟩ := ascending_cons.1 hm
    rw [get?] at h
    split at h
    · rename_i hk
      obtain rfl := eq_of_compare hk
      cases h
      exact ⟨[], m, rfl, fun b => by simp [insert]⟩
    · have hgt : compare k p.1 = .gt := gt_iff_lt.2 (hlt _ (mem_of_get? h))
      obtain ⟨l, r, rfl, hins⟩ := ih hm' h
      exact ⟨p :: l, r, rfl, fun b => by simp [insert, hgt, hins]⟩

/-! ## Other values -/

omit [Std.LawfulEqOrd κ]

variable {β : Type w}

/-- The same keys with other values. -/
def mapValues (g : α → β) (m : List (κ × α)) : List (κ × β) := m.map fun e => (e.1, g e.2)

theorem get?_mapValues (g : α → β) (k : κ) (m : List (κ × α)) :
    get? k (mapValues g m) = (get? k m).map g := by
  induction m with
  | nil => rfl
  | cons e m ih =>
    rw [mapValues, map_cons, get?, get?, ← mapValues, ih]
    split <;> rfl

theorem insert_mapValues (g : α → β) (k : κ) (a : α) (m : List (κ × α)) :
    mapValues g (insert k a m) = insert k (g a) (mapValues g m) := by
  induction m with
  | nil => rfl
  | cons e m ih =>
    obtain ⟨k', a'⟩ := e
    change mapValues g (insert k a ((k', a') :: m)) =
      insert k (g a) ((k', g a') :: mapValues g m)
    rw [insert, insert, ← ih]
    cases compare k k' <;> rfl

end Thos.Lib.OrdMap
