import Mathlib.Tactic
import Thos.Lib.Buffer

/-!
# Byte strings and the text operations over them

A string is its list of UTF-8 bytes, the representation a systems language gives
it. `Utf8.valid` is the encoding check, as a run of a small automaton, so that it
composes along `++`; an ASCII byte always lands in the start state, so a valid
string cut at ASCII bytes has valid pieces. The rest of the file models the
library operations text formats are written with: lower-casing of the ASCII range,
`lines`, decimal numbers and their checked parser.
-/

set_option autoImplicit false

namespace Thos.Lib

open List Option

/-- The bytes of an ASCII literal. -/
def ascii (s : String) : Bytes := s.toList.map fun c => c.toNat.toUInt8

/-! ## UTF-8 validity -/

variable {p : UInt8 → Bool} {b : UInt8}

namespace Utf8

/-- Automaton state: `need` continuation bytes are missing, and the next of them
lies in `[lo, hi]`. -/
structure State where
  need : Nat
  (lo hi : UInt8)
  deriving DecidableEq

/-- Between two characters. -/
def State.start : State := ⟨0, 0x80, 0xBF⟩

/-- One byte. The bounds on the second byte exclude overlong forms, surrogates and
values above `0x10FFFF`. -/
def step (s : State) (b : UInt8) : Option State :=
  match s.need with
  | 0 =>
    if b < 0x80 then some .start
    else if 0xC2 ≤ b ∧ b ≤ 0xDF then some ⟨1, 0x80, 0xBF⟩
    else if b = 0xE0 then some ⟨2, 0xA0, 0xBF⟩
    else if b = 0xED then some ⟨2, 0x80, 0x9F⟩
    else if 0xE1 ≤ b ∧ b ≤ 0xEF then some ⟨2, 0x80, 0xBF⟩
    else if b = 0xF0 then some ⟨3, 0x90, 0xBF⟩
    else if 0xF1 ≤ b ∧ b ≤ 0xF3 then some ⟨3, 0x80, 0xBF⟩
    else if b = 0xF4 then some ⟨3, 0x80, 0x8F⟩
    else none
  | n + 1 => if s.lo ≤ b ∧ b ≤ s.hi then some ⟨n, 0x80, 0xBF⟩ else none

/-- The automaton on a byte string. -/
def run (s : State) (l : Bytes) : Option State := l.foldlM step s

/-- `l` is well-formed UTF-8. -/
def valid (l : Bytes) : Bool := run .start l = some .start

theorem run_append (s : State) (l l' : Bytes) :
    run s (l ++ l') = (run s l).bind fun t => run t l' :=
  foldlM_append

theorem run_cons (s : State) (b : UInt8) (l : Bytes) :
    run s (b :: l) = (step s b).bind fun t => run t l :=
  foldlM_cons

/-- States the automaton reaches from the start. A continuation byte is never
ASCII, so only the start state accepts an ASCII byte. -/
def State.Proper (s : State) : Prop := 0x80 ≤ s.lo ∧ (s.need = 0 → s = .start)

theorem start_proper : State.start.Proper := ⟨by decide, fun _ => rfl⟩

theorem step_proper {s t : State} (h : step s b = some t) : t.Proper := by
  unfold step at h
  split at h
  · split_ifs at h <;> simp only [some.injEq] at h <;> subst h <;>
      exact ⟨by decide, fun hn => by first | rfl | cases hn⟩
  · split_ifs at h with hb
    simp only [some.injEq] at h
    subst h
    refine ⟨UInt8.le_refl _, fun hn => ?_⟩
    simp only at hn
    subst hn
    rfl

theorem run_proper {s t : State} (hs : s.Proper) {l : Bytes} (h : run s l = some t) : t.Proper := by
  induction l generalizing s with
  | nil =>
    simp only [run, foldlM_nil, Option.pure_def, Option.some.injEq] at h
    exact h ▸ hs
  | cons b l ih =>
    obtain ⟨s', hstep, hrun⟩ := Option.bind_eq_some_iff.1 h
    exact ih (step_proper hstep) hrun

theorem step_ascii {s : State} (hs : s.Proper) (hb : b < 0x80) :
    step s b = if s = .start then some .start else none := by
  obtain ⟨need, lo, hi⟩ := s
  obtain ⟨hlo, hzero⟩ := hs
  cases need with
  | zero => rw [hzero rfl]; simp [step, State.start, hb]
  | succ n =>
    have hnot : ¬ (lo ≤ b ∧ b ≤ hi) := fun h =>
      absurd (UInt8.lt_of_le_of_lt (UInt8.le_trans hlo h.1) hb) (by decide)
    have hne : (⟨n + 1, lo, hi⟩ : State) ≠ .start := fun h => by cases h
    simp only [step, if_neg hnot, if_neg hne]

theorem valid_append_ascii (l l' : Bytes) (hb : b < 0x80) :
    valid (l ++ b :: l') = (valid l && valid l') := by
  unfold valid
  rw [run_append]
  cases hl : run .start l with
  | none => simp
  | some s =>
    have hs := run_proper start_proper hl
    rw [bind_some, run_cons, step_ascii hs hb]
    by_cases hstart : s = .start
    · simp [hstart]
    · simp [hstart]

theorem valid_of_ascii {l : Bytes} (h : ∀ b ∈ l, b < 0x80) : valid l = true := by
  induction l with
  | nil => rfl
  | cons b l ih =>
    have hrest := ih fun c hc => h c (mem_cons_of_mem _ hc)
    have hsplit := valid_append_ascii [] l (h b mem_cons_self)
    rw [nil_append, hrest] at hsplit
    rw [hsplit]
    rfl

/-- Cutting at ASCII separators: the first piece ends the character the automaton is
in, and every later piece starts fresh. -/
theorem splitOnP_run (hp : ∀ b, p b = true → b < 0x80) :
    ∀ (l : Bytes) (s : State), s.Proper → run s l = some .start →
      ∃ x xs, l.splitOnP p = x :: xs ∧ run s x = some .start ∧ ∀ y ∈ xs, valid y = true := by
  intro l
  induction l with
  | nil =>
    intro s _ h
    exact ⟨[], [], rfl, h, by simp⟩
  | cons b l ih =>
    intro s hs h
    obtain ⟨t, hstep, hrun⟩ := bind_eq_some_iff.1 h
    obtain ⟨x, xs, hsplit, hx, hxs⟩ := ih t (step_proper hstep) hrun
    rw [splitOnP_cons_eq_if_modifyHead]
    cases hb : p b with
    | true =>
      rw [step_ascii hs (hp b hb)] at hstep
      split_ifs at hstep with hstart
      simp only [some.injEq] at hstep
      subst hstep hstart
      refine ⟨[], l.splitOnP p, by simp, rfl, ?_⟩
      rw [hsplit]
      exact forall_mem_cons.2 ⟨by simpa [valid] using hx, hxs⟩
    | false =>
      refine ⟨b :: x, xs, by simp [hsplit], ?_, hxs⟩
      rw [run_cons, hstep]
      exact hx

theorem valid_of_mem_splitOnP (hp : ∀ b, p b = true → b < 0x80) {l : Bytes}
    (h : valid l = true) : ∀ x ∈ l.splitOnP p, valid x = true := by
  obtain ⟨x, xs, hsplit, hx, hxs⟩ :=
    splitOnP_run hp l .start start_proper (by simpa [valid] using h)
  rw [hsplit]
  exact forall_mem_cons.2 ⟨by simpa [valid] using hx, hxs⟩

end Utf8

open Utf8

/-! ## ASCII case -/

/-- Lower-case one byte; only `A`-`Z` change. -/
def asciiLower (b : UInt8) : UInt8 := if 0x41 ≤ b ∧ b ≤ 0x5A then b + 0x20 else b

def toAsciiLowercase (s : Bytes) : Bytes := s.map asciiLower

theorem asciiLower_idem (b : UInt8) : asciiLower (asciiLower b) = asciiLower b := by
  simp only [asciiLower]
  split_ifs with h h'
  · simp only [UInt8.le_iff_toNat_le, UInt8.toNat_add, UInt8.reduceToNat] at h h'
    omega
  · rfl
  · rfl

theorem asciiLower_lt_iff (b : UInt8) : asciiLower b < 0x80 ↔ b < 0x80 := by
  unfold asciiLower
  split_ifs with h
  · simp only [UInt8.le_iff_toNat_le, UInt8.lt_iff_toNat_lt, UInt8.toNat_add,
      UInt8.reduceToNat] at h ⊢
    omega
  · rfl

theorem toAsciiLowercase_idem (s : Bytes) :
    toAsciiLowercase (toAsciiLowercase s) = toAsciiLowercase s := by
  simp [toAsciiLowercase, Function.comp_def, asciiLower_idem]

@[simp] theorem toAsciiLowercase_eq_nil (s : Bytes) : toAsciiLowercase s = [] ↔ s = [] := by
  simp [toAsciiLowercase]

theorem step_asciiLower (s : Utf8.State) (b : UInt8) :
    step s (asciiLower b) = step s b ∨ (asciiLower b < 0x80 ∧ b < 0x80) := by
  by_cases hb : b < 0x80
  · exact .inr ⟨(asciiLower_lt_iff b).2 hb, hb⟩
  · left
    have hrange : ¬ (0x41 ≤ b ∧ b ≤ 0x5A) := fun h =>
      hb (UInt8.lt_of_le_of_lt h.2 (by decide))
    rw [asciiLower, if_neg hrange]

theorem run_toAsciiLowercase {s : Utf8.State} (hs : s.Proper) (l : Bytes) :
    run s (toAsciiLowercase l) = run s l := by
  induction l generalizing s with
  | nil => rfl
  | cons b l ih =>
    have hstep : step s (asciiLower b) = step s b := by
      rcases step_asciiLower s b with h | ⟨hl, hb⟩
      · exact h
      · rw [step_ascii hs hl, step_ascii hs hb]
    show run s (asciiLower b :: toAsciiLowercase l) = run s (b :: l)
    rw [run_cons, run_cons, hstep]
    cases hb : step s b with
    | none => rfl
    | some t => exact ih (step_proper hb)

theorem valid_toAsciiLowercase (l : Bytes) : valid (toAsciiLowercase l) = valid l := by
  rw [valid, run_toAsciiLowercase start_proper, valid]

/-- A Rust string: bytes that are UTF-8. -/
structure Str where
  bytes : Bytes
  utf8 : valid bytes = true
  deriving DecidableEq

/-! ## Split and joined fields -/

theorem not_of_mem_splitOnP {l x : Bytes} (hx : x ∈ l.splitOnP p) : ∀ b ∈ x, p b = false := by
  induction l generalizing x with
  | nil =>
    simp only [splitOnP_nil, mem_singleton] at hx
    subst hx
    simp
  | cons a l ih =>
    rw [splitOnP_cons_eq_if_modifyHead] at hx
    split_ifs at hx with ha
    · rcases mem_cons.1 hx with rfl | hx
      · simp
      · exact ih hx
    · cases hs : l.splitOnP p with
      | nil => exact absurd hs (splitOnP_ne_nil _ _)
      | cons y ys =>
        rw [hs, modifyHead_cons] at hx
        rcases mem_cons.1 hx with rfl | hx
        · exact forall_mem_cons.2 ⟨by simpa using ha, ih (hs ▸ mem_cons_self)⟩
        · exact ih (hs ▸ mem_cons_of_mem _ hx)

theorem splitOnP_intercalate {sep : UInt8} (hsep : p sep = true)
    {fs : List Bytes} (hfs : ∀ f ∈ fs, ∀ b ∈ f, p b = false) (hne : fs ≠ []) :
    ([sep].intercalate fs).splitOnP p = fs := by
  induction fs with
  | nil => exact absurd rfl hne
  | cons f fs ih =>
    cases fs with
    | nil => simpa using splitOnP_eq_singleton (hfs f mem_cons_self)
    | cons g fs =>
      have hrest := ih (fun h hh => hfs h (mem_cons_of_mem _ hh)) (by simp)
      rw [intercalate_cons_cons, append_assoc, singleton_append,
        splitOnP_append_cons_of_forall_mem (hfs f mem_cons_self) sep hsep, hrest]

theorem eq_sep_or_mem_of_mem_intercalate {sep : UInt8} {fs : List Bytes}
    (h : b ∈ [sep].intercalate fs) : b = sep ∨ ∃ f ∈ fs, b ∈ f := by
  induction fs with
  | nil => simp at h
  | cons f fs ih =>
    cases fs with
    | nil => exact .inr ⟨f, mem_cons_self, by simpa using h⟩
    | cons g fs =>
      rw [intercalate_cons_cons, append_assoc, singleton_append, mem_append, mem_cons] at h
      rcases h with h | h | h
      · exact .inr ⟨f, mem_cons_self, h⟩
      · exact .inl h
      · rcases ih h with h | ⟨f', hf', hb⟩
        · exact .inl h
        · exact .inr ⟨f', mem_cons_of_mem _ hf', hb⟩

/-! ## Lines -/

/-- The line feed. -/
def lf : UInt8 := 10

/-- A carriage return before a line feed belongs to the line ending. -/
def stripCr (l : Bytes) : Bytes := if l.getLast? = some 13 then l.dropLast else l

/-- `str::lines`: the parts ended by a line feed, then a last part if it is not
empty. -/
def lines (t : Bytes) : List Bytes :=
  let parts := t.splitOnP (· == lf)
  parts.dropLast.map stripCr ++ (parts.getLast?.toList.filter (· ≠ []))

theorem lines_flatMap (ls : List Bytes) (hlf : ∀ l ∈ ls, lf ∉ l)
    (hcr : ∀ l ∈ ls, (13 : UInt8) ∉ l) : lines (ls.flatMap (· ++ [lf])) = ls := by
  have hsplit : ∀ ls : List Bytes, (∀ l ∈ ls, lf ∉ l) →
      (ls.flatMap (· ++ [lf])).splitOnP (· == lf) = ls ++ [[]] := by
    intro ls hls
    induction ls with
    | nil => rfl
    | cons l ls ih =>
      have hl : ∀ b ∈ l, (b == lf) = false := by
        intro b hb
        simp only [beq_eq_false_iff_ne]
        rintro rfl
        exact hls l mem_cons_self hb
      rw [flatMap_cons, append_assoc, singleton_append,
        splitOnP_append_cons_of_forall_mem hl lf (by simp),
        ih fun l' hl' => hls l' (mem_cons_of_mem _ hl')]
      rfl
  have hstrip : ∀ l ∈ ls, stripCr l = l := by
    intro l hl
    rw [stripCr, if_neg]
    intro hlast
    exact hcr l hl (mem_of_getLast? hlast)
  simp only [lines, hsplit ls hlf, dropLast_concat]
  simp [map_congr_left hstrip]

/-! ## Decimal numbers -/

/-- The decimal digits of `n`, as `Display` writes them. -/
def decimal (n : Nat) : Bytes :=
  if n = 0 then [48] else (Nat.digits 10 n).reverse.map fun d => 48 + d.toUInt8

/-- A decimal digit. -/
def isDigit (b : UInt8) : Bool := 48 ≤ b ∧ b ≤ 57

/-- Value of a digit string, most significant digit first. -/
def digitsValue (ds : Bytes) : Nat := ds.foldl (fun v b => v * 10 + (b - 48).toNat) 0

/-- `str::parse::<u32>`: an optional `+`, then at least one digit, and the value
must fit. -/
def parseU32 (s : Bytes) : Option UInt32 :=
  let ds := if s.head? = some 43 then s.tail else s
  if ds = [] ∨ ¬ ds.all isDigit then none
  else if digitsValue ds < 2 ^ 32 then some (UInt32.ofNat (digitsValue ds)) else none

theorem digit_toNat {d : Nat} (hd : d < 10) : ((48 + d.toUInt8) - 48 : UInt8).toNat = d := by
  interval_cases d <;> rfl

theorem isDigit_digit {d : Nat} (hd : d < 10) : isDigit (48 + d.toUInt8) = true := by
  interval_cases d <;> rfl

theorem isDigit_of_mem_decimal {n : Nat} (h : b ∈ decimal n) : isDigit b = true := by
  unfold decimal at h
  split at h
  · simp only [mem_singleton] at h
    subst h
    rfl
  · obtain ⟨d, hd, rfl⟩ := mem_map.1 h
    exact isDigit_digit (Nat.digits_lt_base (by norm_num) (mem_reverse.1 hd))

theorem decimal_ne_nil (n : Nat) : decimal n ≠ [] := by
  unfold decimal
  split
  · simp
  · rename_i h
    simpa using Nat.digits_ne_nil_iff_ne_zero.2 h

theorem digitsValue_decimal (n : Nat) : digitsValue (decimal n) = n := by
  have hfold : ∀ ds : List Nat, (∀ d ∈ ds, d < 10) →
      digitsValue (ds.reverse.map fun d => 48 + d.toUInt8) = Nat.ofDigits 10 ds := by
    intro ds hds
    induction ds with
    | nil => rfl
    | cons d ds ih =>
      have hrest := ih fun e he => hds e (mem_cons_of_mem _ he)
      unfold digitsValue at hrest ⊢
      rw [reverse_cons, map_append, foldl_append, hrest, Nat.ofDigits_cons]
      simp only [map_cons, map_nil, foldl_cons, foldl_nil, digit_toNat (hds d mem_cons_self)]
      omega
  unfold decimal
  split
  · rename_i h
    rw [h]
    rfl
  · rw [hfold _ fun d hd => Nat.digits_lt_base (by norm_num) hd, Nat.ofDigits_digits]

theorem parseU32_decimal (n : UInt32) : parseU32 (decimal n.toNat) = some n := by
  have hhead : (decimal n.toNat).head? ≠ some 43 := by
    intro h
    have hdig := isDigit_of_mem_decimal (mem_of_head? h)
    revert hdig
    decide
  have hall : (decimal n.toNat).all isDigit = true :=
    all_eq_true.2 fun b hb => isDigit_of_mem_decimal hb
  simp only [parseU32, if_neg hhead, hall, decimal_ne_nil, digitsValue_decimal]
  simp [n.toNat_lt]

end Thos.Lib
