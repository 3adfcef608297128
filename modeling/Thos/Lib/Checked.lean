import Mathlib.Tactic

/-!
# Code with run-time checks

A computation ends with a value, with an error that it reports, or with a fault: an index out of
range, or arithmetic that leaves the 64-bit range.
-/

set_option autoImplicit false

namespace Thos.Lib

open List Nat

universe u v

/-- How a computation ends without a value. -/
inductive Stop (ε : Type u)
  | err (e : ε)
  | fault
  deriving DecidableEq

abbrev Checked (ε : Type u) (α : Type v) := Except (Stop ε) α

/-! ## Arithmetic -/

def Usize (ε : Type u) := Checked ε Nat

variable {i len n start : Nat}

namespace Usize

variable {ε : Type u}

def ofNat (n : Nat) : Usize ε := if n < 18446744073709551616 then .ok n else .error .fault

def lift (op : Nat → Nat → Nat) (x y : Usize ε) : Usize ε :=
  Except.bind x fun a => Except.bind y fun b => ofNat (op a b)

instance : Add (Usize ε) := ⟨lift (· + ·)⟩

instance : Mul (Usize ε) := ⟨lift (· * ·)⟩

instance (n : Nat) : OfNat (Usize ε) n := ⟨ofNat n⟩

theorem ofNat_of_lt (h : n < 2 ^ 64) : (ofNat n : Usize ε) = .ok n :=
  if_pos h

theorem ofNat_of_ge (h : 2 ^ 64 ≤ n) : (ofNat n : Usize ε) = .error .fault :=
  if_neg (by omega)

variable {a b : Nat}

theorem lift_ofNat {op : Nat → Nat → Nat} (ha : a ≤ op a b) (hb : b ≤ op a b) :
    (lift op (ofNat a) (ofNat b) : Usize ε) = ofNat (op a b) := by
  rcases Nat.lt_or_ge a 18446744073709551616 with hlt | hge
  · rcases Nat.lt_or_ge b 18446744073709551616 with hlt' | hge'
    · rw [lift, ofNat_of_lt hlt, ofNat_of_lt hlt']
      rfl
    · rw [lift, ofNat_of_lt hlt, ofNat_of_ge hge', ofNat_of_ge (Nat.le_trans hge' hb)]
      rfl
  · rw [lift, ofNat_of_ge hge, ofNat_of_ge (Nat.le_trans hge ha)]
    rfl

theorem ofNat_add (a b : Nat) : (ofNat a + ofNat b : Usize ε) = ofNat (a + b) :=
  lift_ofNat (le_add_right a b) (le_add_left b a)

theorem ofNat_mul (ha : 0 < a) (hb : 0 < b) : (ofNat a * ofNat b : Usize ε) = ofNat (a * b) :=
  lift_ofNat (Nat.le_mul_of_pos_right a hb) (Nat.le_mul_of_pos_left b ha)

theorem ofNat_mul_of_lt (ha : a < 2 ^ 64) (hb : b < 2 ^ 64) :
    (ofNat a * ofNat b : Usize ε) = ofNat (a * b) := by
  show lift (· * ·) (ofNat a) (ofNat b) = _
  rw [lift, ofNat_of_lt ha, ofNat_of_lt hb]
  rfl

end Usize

/-- `a + b`. -/
def checkedAdd {ε : Type u} (a b : Nat) : Checked ε Nat := Usize.ofNat (a + b)

/-- `a - b`. -/
def checkedSub {ε : Type u} (a b : Nat) : Checked ε Nat :=
  if b ≤ a then .ok (a - b) else .error .fault

/-! ## Slices and loops -/

section

variable {ε : Type u} {α : Type v} {β σ : Type v}

def faults : Checked ε α → Bool
  | .error .fault => true
  | _ => false

theorem eq_of_faults {m : Checked ε α} (h : faults m = true) : m = .error .fault := by
  cases m with
  | ok a => cases h
  | error e =>
    cases e with
    | err e => cases h
    | fault => rfl

theorem ok_bind (a : α) (f : α → Checked ε β) : ((Except.ok a : Checked ε α) >>= f) = f a := rfl

/-- `xs[i]`. -/
def index (xs : List α) (i : Nat) : Checked ε α :=
  match xs[i]? with
  | some x => .ok x
  | none => .error .fault

/-- `&xs[start..start + len]`. -/
def range (xs : List α) (start len : Nat) : Checked ε (List α) :=
  if start + len ≤ xs.length then .ok ((xs.drop start).take len) else .error .fault

variable {xs : List α}

theorem index_of_lt (h : i < xs.length) : (index xs i : Checked ε α) = .ok xs[i] := by
  rw [index, getElem?_eq_getElem h]

theorem index_of_ge (h : xs.length ≤ i) : (index xs i : Checked ε α) = .error .fault := by
  rw [index, getElem?_eq_none h]

theorem range_of_le (h : start + len ≤ xs.length) :
    (range xs start len : Checked ε (List α)) = .ok ((xs.drop start).take len) :=
  if_pos h

/-- `xs[i] = x`. -/
def store (xs : List α) (i : Nat) (x : α) : Checked ε (List α) :=
  if i < xs.length then .ok (xs.set i x) else .error .fault

/-- `xs[start..start + len].copy_from_slice(ys)`. -/
def copyFrom (xs : List α) (start len : Nat) (ys : List α) : Checked ε (List α) :=
  if start + len ≤ xs.length ∧ ys.length = len then
    .ok (xs.take start ++ ys ++ xs.drop (start + len))
  else .error .fault

theorem mapM_pure_of {m : Type v → Type u} [Monad m] [LawfulMonad m] {f : β → m α} {g : β → α}
    {l : List β} (h : ∀ b ∈ l, f b = pure (g b)) : l.mapM f = pure (l.map g) := by
  induction l with
  | nil => simp
  | cons b l ih =>
    rw [mapM_cons, h b mem_cons_self, ih fun b' hb' => h b' (mem_cons_of_mem b hb')]
    simp

end

/-! ## Rules -/

variable {ε : Type u} {α β σ : Type v} {m : Checked ε α} {P : α → Prop} {Q : β → Prop}

def Yields (m : Checked ε α) (P : α → Prop) : Prop := ∃ a, m = .ok a ∧ P a

variable {a : α}

theorem yields_pure (h : P a) : Yields (pure a : Checked ε α) P := ⟨a, rfl, h⟩

theorem Yields.mono {P' : α → Prop} (h : Yields m P) (hP : ∀ a, P a → P' a) : Yields m P' := by
  obtain ⟨a, rfl, ha⟩ := h
  exact ⟨a, rfl, hP a ha⟩

variable {f : α → Checked ε β}

theorem Yields.bind (h : Yields m P) (hf : ∀ a, P a → Yields (f a) Q) : Yields (m >>= f) Q := by
  obtain ⟨a, rfl, ha⟩ := h
  exact hf a ha

variable {xs : List α}

theorem yields_index (h : i < xs.length) : Yields (index xs i : Checked ε α) fun x => x ∈ xs :=
  ⟨xs[i], index_of_lt h, getElem_mem h⟩

theorem yields_range (h : start + len ≤ xs.length) :
    Yields (range xs start len : Checked ε (List α)) fun ys => ys.length = len := by
  refine ⟨_, range_of_le h, ?_⟩
  simp only [length_take, length_drop]
  omega

theorem yields_store (h : i < xs.length) (x : α) :
    Yields (store xs i x : Checked ε (List α)) fun ys => ys.length = xs.length :=
  ⟨_, if_pos h, length_set⟩

theorem yields_copyFrom {ys : List α} (h : start + len ≤ xs.length) (hys : ys.length = len) :
    Yields (copyFrom xs start len ys : Checked ε (List α)) fun zs => zs.length = xs.length := by
  refine ⟨_, if_pos ⟨h, hys⟩, ?_⟩
  simp only [length_append, length_take, length_drop]
  omega

variable {l : List β}

theorem yields_foldlM {f : α → β → Checked ε α} (ha : P a)
    (h : ∀ a b, b ∈ l → P a → Yields (f a b) P) : Yields (l.foldlM f a) P := by
  induction l generalizing a with
  | nil => exact yields_pure ha
  | cons b l ih =>
    rw [foldlM_cons]
    exact (h a b mem_cons_self ha).bind fun a' ha' =>
      ih ha' fun a'' b' hb' => h a'' b' (mem_cons_of_mem b hb')

theorem yields_mapM {f : β → Checked ε α} (hl : l.length = n)
    (h : ∀ b ∈ l, Yields (f b) P) : Yields (l.mapM f) fun ys => ys.length = n := by
  induction l generalizing n with
  | nil => exact ⟨[], rfl, hl⟩
  | cons b l ih =>
    rw [mapM_cons]
    refine (h b mem_cons_self).bind fun a _ => ?_
    refine (ih rfl fun b' hb' => h b' (mem_cons_of_mem b hb')).bind fun as has => ?_
    exact yields_pure (by rw [length_cons, has, ← hl, length_cons])

/-! ## Exact conditions -/

/-- The computation ends with a value that has the property if the condition holds, and with a fault
if not. -/
structure Settles (m : Checked ε α) (C : Prop) (P : α → Prop) : Prop where
  yields : C → Yields m P
  faults : ¬ C → m = .error .fault

variable {C D : Prop}

theorem Yields.settles (h : Yields m P) : Settles m True P :=
  ⟨fun _ => h, fun hC => absurd trivial hC⟩

theorem Settles.congr (h : Settles m C P) (hC : C ↔ D) : Settles m D P :=
  ⟨fun hD => h.yields (hC.2 hD), fun hD => h.faults fun hC' => hD (hC.1 hC')⟩

theorem Settles.mono {P' : α → Prop} (h : Settles m C P) (hP : ∀ a, P a → P' a) : Settles m C P' :=
  ⟨fun hC => (h.yields hC).mono hP, h.faults⟩

theorem Settles.bind (h : Settles m C P) (hf : C → ∀ a, P a → Settles (f a) D Q) :
    Settles (m >>= f) (C ∧ D) Q := by
  refine ⟨fun ⟨hC, hD⟩ => (h.yields hC).bind fun a ha => (hf hC a ha).yields hD, fun hCD => ?_⟩
  by_cases hC : C
  · obtain ⟨a, rfl, ha⟩ := h.yields hC
    exact (hf hC a ha).faults fun hD => hCD ⟨hC, hD⟩
  · rw [h.faults hC]
    rfl

theorem Settles.bind_eq (h : Settles m C fun x => x = a) (hf : C → Settles (f a) D Q) :
    Settles (m >>= f) (C ∧ D) Q :=
  h.bind fun hC x hx => by
    subst hx
    exact hf hC

theorem Settles.ne_fault_iff (h : Settles m C P) : m ≠ .error .fault ↔ C := by
  refine ⟨fun hm => ?_, fun hC hm => ?_⟩
  · by_contra hC
    exact hm (h.faults hC)
  · obtain ⟨a, rfl, -⟩ := h.yields hC
    cases hm

theorem settles_ofNat (n : Nat) :
    Settles (Usize.ofNat n : Checked ε Nat) (n < 2 ^ 64) fun k => k = n :=
  ⟨fun h => ⟨n, Usize.ofNat_of_lt h, rfl⟩, fun h => Usize.ofNat_of_ge (Nat.le_of_not_lt h)⟩

theorem settles_add (a b : Nat) :
    Settles (checkedAdd a b : Checked ε Nat) (a + b < 2 ^ 64) fun x => x = a + b :=
  settles_ofNat (a + b)

theorem settles_sub (a b : Nat) :
    Settles (checkedSub a b : Checked ε Nat) (b ≤ a) fun x => x = a - b :=
  ⟨fun h => ⟨_, if_pos h, rfl⟩, fun h => if_neg h⟩

theorem settles_range (xs : List α) (start len : Nat) :
    Settles (range xs start len : Checked ε (List α)) (start + len ≤ xs.length) fun ys =>
      ys = (xs.drop start).take len :=
  ⟨fun h => ⟨_, range_of_le h, rfl⟩, fun h => if_neg h⟩

/-- The rest of a loop; `I done a` is the state after `done`, and `c done b` the condition of the
next round. -/
theorem settles_foldlM_from {f : α → β → Checked ε α} {I : List β → α → Prop}
    {c : List β → β → Prop}
    (h : ∀ done a, ∀ b ∈ l, I done a → Settles (f a b) (c done b) (I (done ++ [b]))) (done : List β)
    (ha : I done a) :
    Settles (l.foldlM f a) (∀ pre b post, l = pre ++ b :: post → c (done ++ pre) b)
      (I (done ++ l)) := by
  induction l generalizing done a with
  | nil =>
    rw [append_nil]
    refine Settles.congr (Yields.settles (yields_pure ha)) (iff_of_true trivial ?_)
    intro pre b post hl
    simp at hl
  | cons b l ih =>
    have hrest := fun a' ha' => ih (fun done a b' hb' => h done a b' (mem_cons_of_mem b hb'))
      (done ++ [b]) (a := a') ha'
    rw [foldlM_cons]
    refine (((h done a b mem_cons_self ha).bind fun _ => hrest).congr ?_).mono fun a' ha' => ?_
    · constructor
      · rintro ⟨hb, hrest⟩ pre b' post hl
        cases pre with
        | nil =>
          obtain ⟨rfl, -⟩ := cons.inj hl
          rwa [append_nil]
        | cons x pre =>
          obtain ⟨rfl, rfl⟩ := cons.inj hl
          have := hrest pre b' post rfl
          rwa [append_assoc, singleton_append] at this
      · intro hall
        refine ⟨?_, fun pre b' post hl => ?_⟩
        · have := hall [] b l rfl
          rwa [append_nil] at this
        · rw [append_assoc, singleton_append]
          exact hall (b :: pre) b' post (by rw [hl]; rfl)
    · rwa [append_assoc, singleton_append] at ha'

theorem settles_foldlM {f : α → β → Checked ε α} {I : List β → α → Prop} {c : List β → β → Prop}
    (h : ∀ done a, ∀ b ∈ l, I done a → Settles (f a b) (c done b) (I (done ++ [b]))) (ha : I [] a) :
    Settles (l.foldlM f a) (∀ pre b post, l = pre ++ b :: post → c pre b) (I l) :=
  settles_foldlM_from h [] ha

end Thos.Lib
