import Thos.Lib.Loop
import Thos.Memory.Space

/-!
# Page protection

`Process::protect`, as `NtProtectVirtualMemory` calls it, goes over the pages of a range twice: it
looks whether every page is mapped, and then sets the flags page by page. The first pass takes a
page of the kernel half and a part of a huge page for mapped, and the second one fails on a huge
page after it has changed the pages before it.

An entry of a table is named by the part of the page number that leads to it: the tables of one
address space are four functions of such numbers, the kernel half among them.
-/

set_option autoImplicit false

namespace Thos.Memory

open Thos.Lib List Option

/-! ## Tables -/

/-- `PageTableFlags` of an entry that is present. -/
structure PageFlags where
  (writable userAccessible noExecute : Bool)
  /-- Caching, accessed, dirty, global. -/
  other : Nat
  deriving DecidableEq

def PageFlags.wx (f : PageFlags) : Bool × Bool := (f.writable, !f.noExecute)

/-- A page and its flags. -/
structure PageEntry where
  frame : Frame
  flags : PageFlags
  deriving DecidableEq

/-- An entry that leads to a table, or to a page of 2 MiB or 1 GiB. -/
inductive DirEntry
  | unused
  | table
  | huge (page : PageEntry)
  deriving DecidableEq

/-- The tables under one PML4. -/
@[ext] structure PageTables where
  pml4 : Nat → Bool
  pdpt : Nat → DirEntry
  pd : Nat → DirEntry
  pt : Nat → Option PageEntry

/-- `TranslateResult`. -/
inductive Translation
  | notMapped
  | huge (page : PageEntry)
  | page (page : PageEntry)
  deriving DecidableEq

namespace PageTables

variable (t : PageTables)

/-- The walk of `translate` and `update_flags` to the page number `v`. -/
def walk (v : Nat) : Translation :=
  if t.pml4 (v / 512 ^ 3) then
    match t.pdpt (v / 512 ^ 2) with
    | .unused => .notMapped
    | .huge p => .huge p
    | .table =>
      match t.pd (v / 512) with
      | .unused => .notMapped
      | .huge p => .huge p
      | .table =>
        match t.pt v with
        | none => .notMapped
        | some p => .page p
  else .notMapped

/-- `update_flags`; `none` for the error that there is no page of 4 KiB. -/
def updateFlags (v : Nat) (f : PageFlags) : Option PageTables :=
  match t.walk v with
  | .page p => some { t with pt := Function.update t.pt v (some { p with flags := f }) }
  | _ => none

/-! ## Protecting a range

The outer `none` of a result stands for a panic of the kernel. -/

variable (virt : Nat)

def pagePresentIn : Option Bool :=
  if canonical virt then some (decide (t.walk (pageOf virt) ≠ .notMapped)) else none

/-- The flags that `protect_page_in` sets. -/
def protectFlags (writable exec : Bool) : PageFlags := ⟨writable, true, !exec, 0⟩

def protectPageIn (writable exec : Bool) : Option (Option (Bool × Bool) × PageTables) :=
  if canonical virt then
    match t.walk (pageOf virt) with
    | .notMapped => some (none, t)
    | .huge p | .page p =>
      match t.updateFlags (pageOf virt) (protectFlags writable exec) with
      | some t' => some (some p.flags.wx, t')
      | none => some (none, t)
  else none

/-- The first loop of `protect`. -/
def presentAll (t : PageTables) : List Nat → Option Bool
  | [] => some true
  | v :: vs =>
    match t.pagePresentIn v with
    | none => none
    | some false => some false
    | some true => t.presentAll vs

/-- The second loop of `protect`. -/
def protectAll (writable exec : Bool) : List Nat → Option (Bool × Bool) → PageTables →
    Option (Option (Bool × Bool) × PageTables)
  | [], old, t => some (old, t)
  | v :: vs, old, t =>
    match t.protectPageIn v writable exec with
    | none => none
    | some (none, t') => some (none, t')
    | some (some thisOld, t') => protectAll writable exec vs (some (old.getD thisOld)) t'

/-- The pages of the two loops. The end of the range wraps around at 64 bits. -/
def protectPages (virt len : Nat) : List Nat :=
  pagesUpTo (virt / 4096 * 4096) (pageRound (virt + len))

def protect (virt len : Nat) (writable exec : Bool) : Option (Option (Bool × Bool) × PageTables) :=
  match t.presentAll (protectPages virt len) with
  | none => none
  | some false => some (none, t)
  | some true => protectAll writable exec (protectPages virt len) none t

def win32ProtectToWx (flags : UInt32) : Option (Bool × Bool) :=
  match flags.toNat % 256 with
  | 0x02 => some (false, false)
  | 0x04 | 0x08 => some (true, false)
  | 0x10 | 0x20 => some (false, true)
  | 0x40 | 0x80 => some (true, true)
  | _ => none

def wxToWin32Protect : Bool × Bool → UInt32
  | (false, false) => 0x02
  | (true, false) => 0x04
  | (false, true) => 0x20
  | (true, true) => 0x40

/-- `NtProtectVirtualMemory` with the values that its pointers lead to. The result is the old
protection, or `none` for `STATUS_INVALID_PARAMETER`. -/
def ntProtectVirtualMemory (base size : UInt64) (newProtect : UInt32) :
    Option (Option UInt32 × PageTables) :=
  match win32ProtectToWx newProtect with
  | none => some (none, t)
  | some (w, x) =>
    (t.protect base.toNat (max size.toNat 1) w x).map fun r => (r.1.map wxToWin32Protect, r.2)

/-! ## What the loops do -/

/-- The first loop goes on after the page. -/
def Present : Prop := canonical virt ∧ t.walk (pageOf virt) ≠ .notMapped

instance (t : PageTables) (virt : Nat) : Decidable (t.Present virt) :=
  inferInstanceAs (Decidable (_ ∧ _))

/-- The page is mapped in a table of the last level. -/
def IsPage : Prop := ∃ p, t.walk (pageOf virt) = .page p

instance (t : PageTables) (virt : Nat) : Decidable (t.IsPage virt) :=
  match h : t.walk (pageOf virt) with
  | .page p => isTrue ⟨p, h⟩
  | .notMapped => isFalse fun ⟨_, hp⟩ => by rw [h] at hp; cases hp
  | .huge _ => isFalse fun ⟨_, hp⟩ => by rw [h] at hp; cases hp

def setAll (vs : List Nat) (f : PageFlags) : PageTables :=
  { t with pt := fun v => (t.pt v).map fun p => if v ∈ vs then { p with flags := f } else p }

section

variable {t : PageTables} {f : PageFlags} {v : Nat} {vs : List Nat} {p : PageEntry}

theorem pt_of_walk (h : t.walk v = .page p) : t.pt v = some p := by
  unfold walk at h
  split at h
  · split at h
    · cases h
    · cases h
    · split at h
      · cases h
      · cases h
      · split at h
        · cases h
        · next hpt =>
            cases h
            exact hpt
  · cases h

theorem walk_setAll (t : PageTables) (vs : List Nat) (f : PageFlags) (v : Nat) :
    (t.setAll vs f).walk v = match t.walk v with
      | .page p => .page (if v ∈ vs then { p with flags := f } else p)
      | w => w := by
  unfold walk setAll
  dsimp only
  split
  · cases t.pdpt (v / 512 ^ 2) with
    | unused => rfl
    | huge p => rfl
    | table =>
      cases t.pd (v / 512) with
      | unused => rfl
      | huge p => rfl
      | table =>
        cases t.pt v with
        | none => rfl
        | some p => rfl
  · rfl

theorem setAll_nil (t : PageTables) (f : PageFlags) : t.setAll [] f = t := by
  refine PageTables.ext rfl rfl rfl (funext fun v => ?_)
  simp [setAll]

theorem updateFlags_setAll (h : t.walk v = .page p) (vs : List Nat) :
    (t.setAll vs f).updateFlags v f = some (t.setAll (vs ++ [v]) f) := by
  have hpt := pt_of_walk h
  rw [updateFlags, walk_setAll, h]
  refine congrArg some (PageTables.ext rfl rfl rfl (funext fun u => ?_))
  rcases eq_or_ne u v with rfl | hne
  · simp only [setAll, hpt, Function.update_self, map_some, mem_append,
      mem_singleton, or_true, if_true]
    split
    · rfl
    · rfl
  · simp [setAll, hne]

theorem setAll_eq_self (h : ∀ v ∈ vs, ∀ p, t.pt v = some p → p.flags = f) : t.setAll vs f = t := by
  refine PageTables.ext rfl rfl rfl (funext fun v => ?_)
  show (t.pt v).map _ = t.pt v
  cases hp : t.pt v with
  | none => rfl
  | some p =>
    rw [map_some]
    split
    · next hv => rw [← h v hv p hp]
    · rfl

theorem pt_setAll_ne (h : t.pt v = some p) (hv : v ∈ vs) (hf : p.flags ≠ f) :
    (t.setAll vs f).pt v ≠ t.pt v := by
  intro heq
  have hpage : some { p with flags := f } = some p := by simpa [setAll, h, hv] using heq
  exact hf (congrArg PageEntry.flags (some.inj hpage)).symm

variable {as : List Nat}

theorem presentAll_append (h : ∀ a ∈ as, t.Present a) (bs : List Nat) :
    t.presentAll (as ++ bs) = t.presentAll bs := by
  induction as with
  | nil => rfl
  | cons a as ih =>
    obtain ⟨hcanon, hmap⟩ := h a mem_cons_self
    rw [cons_append, presentAll, pagePresentIn, if_pos hcanon, decide_eq_true hmap]
    exact ih fun b hb => h b (mem_cons_of_mem a hb)

variable {a : Nat}

theorem presentAll_stop (h : ∀ a ∈ as, t.Present a) (ha : ¬ t.Present a) (bs : List Nat) :
    t.presentAll (as ++ a :: bs) = if canonical a then some false else none := by
  rw [presentAll_append h, presentAll, pagePresentIn]
  by_cases hcanon : canonical a
  · have hmap : ¬ t.walk (pageOf a) ≠ .notMapped := fun hmap => ha ⟨hcanon, hmap⟩
    rw [if_pos hcanon, if_pos hcanon, decide_eq_false hmap]
  · rw [if_neg hcanon, if_neg hcanon]

variable {w x : Bool}

theorem protectPageIn_page (ha : canonical a) (h : t.walk (pageOf a) = .page p) (vs : List Nat) :
    ∃ old, (t.setAll vs (protectFlags w x)).protectPageIn a w x =
      some (some old, t.setAll (vs ++ [pageOf a]) (protectFlags w x)) := by
  rw [protectPageIn, if_pos ha, walk_setAll, h]
  dsimp only
  rw [updateFlags_setAll h]
  exact ⟨_, rfl⟩

theorem protectPageIn_of_not_page (ha : canonical a) (h : ¬ t.IsPage a) (vs : List Nat) :
    (t.setAll vs f).protectPageIn a w x = some (none, t.setAll vs f) := by
  rw [protectPageIn, if_pos ha, updateFlags, walk_setAll]
  cases hwalk : t.walk (pageOf a) with
  | notMapped => rfl
  | huge p => rfl
  | page p => exact absurd ⟨p, hwalk⟩ h

theorem protectAll_append (h : ∀ a ∈ as, canonical a ∧ t.IsPage a) (bs : List Nat)
    (old : Option (Bool × Bool)) (vs : List Nat) : ∃ old', (old'.isSome ↔ old.isSome ∨ as ≠ []) ∧
      protectAll w x (as ++ bs) old (t.setAll vs (protectFlags w x)) =
        protectAll w x bs old' (t.setAll (vs ++ as.map pageOf) (protectFlags w x)) := by
  induction as generalizing old vs with
  | nil => exact ⟨old, by simp, by simp⟩
  | cons a as ih =>
    obtain ⟨hcanon, p, hp⟩ := h a mem_cons_self
    obtain ⟨thisOld, hround⟩ := protectPageIn_page (w := w) (x := x) hcanon hp vs
    obtain ⟨old', hsome, hrest⟩ := ih (fun b hb => h b (mem_cons_of_mem a hb))
      (some (old.getD thisOld)) (vs ++ [pageOf a])
    refine ⟨old', iff_of_true (hsome.2 (.inl rfl)) (.inr (cons_ne_nil _ _)), ?_⟩
    rw [cons_append, protectAll, hround]
    dsimp only
    rw [hrest, map_cons, append_assoc, singleton_append]

/-- What `protect` does on the pages `as`: the first loop stops, or the second one stops at a huge
page, or both come to the end. -/
inductive Outcome (t : PageTables) (w x : Bool) (as : List Nat) :
    Option (Option (Bool × Bool) × PageTables) → Prop
  | absent {pre : List Nat} {a : Nat} {post : List Nat} (split : as = pre ++ a :: post)
      (present : ∀ b ∈ pre, t.Present b) (stop : ¬ t.Present a) :
      Outcome t w x as (if canonical a then some (none, t) else none)
  | huge {pre : List Nat} {a : Nat} {post : List Nat} (present : ∀ b ∈ as, t.Present b)
      (split : as = pre ++ a :: post) (pages : ∀ b ∈ pre, t.IsPage b) (stop : ¬ t.IsPage a) :
      Outcome t w x as (some (none, t.setAll (pre.map pageOf) (protectFlags w x)))
  | done {old : Option (Bool × Bool)} (present : ∀ b ∈ as, t.Present b)
      (pages : ∀ b ∈ as, t.IsPage b) (old_iff : old.isSome ↔ as ≠ []) :
      Outcome t w x as (some (old, t.setAll (as.map pageOf) (protectFlags w x)))

theorem protect_outcome (t : PageTables) (virt len : Nat) (w x : Bool) :
    Outcome t w x (protectPages virt len) (t.protect virt len w x) := by
  unfold protect
  generalize protectPages virt len = as
  rcases forall_or_first t.Present as with hpres | ⟨pre, a, post, rfl, hpre, ha⟩
  · have hall : t.presentAll as = some true := by
      have := presentAll_append hpres []
      rwa [append_nil] at this
    rw [hall]
    dsimp only
    rcases forall_or_first t.IsPage as with hpages | ⟨pre, a, post, rfl, hpre, ha⟩
    · obtain ⟨old, hold, hrun⟩ := protectAll_append (w := w) (x := x)
        (fun a ha => ⟨(hpres a ha).1, hpages a ha⟩) [] none []
      rw [setAll_nil, append_nil, nil_append] at hrun
      rw [hrun]
      exact .done hpres hpages (by simpa using hold)
    · obtain ⟨old, -, hrun⟩ := protectAll_append (w := w) (x := x)
        (fun b hb => ⟨(hpres b (mem_append_left _ hb)).1, hpre b hb⟩) (a :: post) none []
      have hcanon := (hpres a (mem_append_right _ mem_cons_self)).1
      rw [setAll_nil, nil_append] at hrun
      rw [hrun, protectAll, protectPageIn_of_not_page hcanon ha]
      exact .huge hpres rfl hpre ha
  · rw [presentAll_stop hpre ha]
    have hstop : Outcome t w x (pre ++ a :: post) (if canonical a then some (none, t) else none) :=
      .absent rfl hpre ha
    split at hstop
    · next hcanon => rwa [if_pos hcanon]
    · next hcanon => rwa [if_neg hcanon]

end

/-! ## The pages of a range -/

section

variable {virt len a : Nat}

theorem pairwise_protectPages (virt len : Nat) : (protectPages virt len).Pairwise (· < ·) :=
  pairwise_lt_range' 4096 (by decide)

theorem mem_protectPages (h : a ∈ protectPages virt len) :
    a % 4096 = 0 ∧ virt < a + 4096 ∧ a < virt + len := by
  obtain ⟨i, hi, rfl⟩ := mem_range'.1 h
  rw [pageRound] at hi
  omega

theorem pageOf_user (h : a < 2 ^ 47) : pageOf a = a / 4096 := by
  rw [pageOf]
  omega

theorem pageOf_kernel (hcanon : canonical a) (h : 2 ^ 47 ≤ a) : 2 ^ 35 ≤ pageOf a := by
  simp only [canonical, Bool.or_eq_true, Bool.and_eq_true, decide_eq_true_eq] at hcanon
  rw [pageOf]
  omega

end

/-! ## All or nothing -/

/-- Only flags change, of pages of 4 KiB that are mapped in the user half and overlap the range. -/
structure OnlyFlags (t t' : PageTables) (base len : Nat) : Prop where
  pml4 : t'.pml4 = t.pml4
  pdpt : t'.pdpt = t.pdpt
  pd : t'.pd = t.pd
  pt : ∀ v, t'.pt v ≠ t.pt v → v < 2 ^ 35 ∧ v * 4096 < base + len ∧ base < v * 4096 + 4096 ∧
    ∃ p f, t.walk v = .page p ∧ t'.pt v = some { p with flags := f }

/-- The entries of the kernel half are the same. -/
structure SameKernel (t t' : PageTables) : Prop where
  pml4 : ∀ i, 256 ≤ i → t'.pml4 i = t.pml4 i
  pdpt : ∀ i, 256 * 512 ≤ i → t'.pdpt i = t.pdpt i
  pd : ∀ i, 256 * 512 ^ 2 ≤ i → t'.pd i = t.pd i
  pt : ∀ v, 256 * 512 ^ 3 ≤ v → t'.pt v = t.pt v

/-- The call returns; without success nothing changes, and with success only flags in the range. -/
def AllOrNothing (base size : UInt64) (newProtect : UInt32) : Prop :=
  ∃ r t', t.ntProtectVirtualMemory base size newProtect = some (r, t') ∧ (r = none → t' = t) ∧
    (r.isSome → OnlyFlags t t' base.toNat (max size.toNat 1)) ∧ SameKernel t t'

/-- The state of the pages `as` before the flags `f` are set. -/
structure Proper (t : PageTables) (as : List Nat) (f : PageFlags) : Prop where
  /-- The first loop does not come to an address that is not canonical. -/
  canonical : ∀ a ∈ as, (∀ b ∈ as, b < a → t.Present b) → canonical a
  /-- If all is mapped, then a page before the first huge one that does not have the flags yet is
  in the user half, and there is no huge one. -/
  pages : (∀ a ∈ as, t.Present a) → ∀ a ∈ as, ∀ p, t.walk (pageOf a) = .page p → p.flags ≠ f →
    (∀ b ∈ as, b < a → t.IsPage b) → a < 2 ^ 47 ∧ ∀ b ∈ as, t.IsPage b

section

variable {t : PageTables} {base size : UInt64} {f : PageFlags} {vs as : List Nat}

theorem SameKernel.refl (t : PageTables) : SameKernel t t :=
  ⟨fun _ _ => rfl, fun _ _ => rfl, fun _ _ => rfl, fun _ _ => rfl⟩

theorem exists_of_pt_setAll_ne {v : Nat} (hpages : ∀ a ∈ as, t.IsPage a)
    (h : (t.setAll (as.map pageOf) f).pt v ≠ t.pt v) :
    ∃ a ∈ as, ∃ p, v = pageOf a ∧ t.walk v = .page p ∧ p.flags ≠ f ∧
      (t.setAll (as.map pageOf) f).pt v = some { p with flags := f } := by
  have hv : v ∈ as.map pageOf := by
    by_contra hnot
    exact h (by simp only [setAll, if_neg hnot, Option.map_id_fun', id])
  obtain ⟨a, ha, rfl⟩ := mem_map.1 hv
  obtain ⟨p, hp⟩ := hpages a ha
  have hset : (t.setAll (as.map pageOf) f).pt (pageOf a) = some { p with flags := f } := by
    simp only [setAll, pt_of_walk hp, Option.map_some, if_pos hv]
  refine ⟨a, ha, p, rfl, hp, fun hflags => h ?_, hset⟩
  rw [hset, pt_of_walk hp, ← hflags]

theorem Proper.pages_of_done (h : Proper t as f) (hpres : ∀ a ∈ as, t.Present a)
    (hpages : ∀ a ∈ as, t.IsPage a) {v : Nat} (hv : (t.setAll (as.map pageOf) f).pt v ≠ t.pt v) :
    ∃ a ∈ as, ∃ p, a < 2 ^ 47 ∧ v = a / 4096 ∧ t.walk v = .page p ∧
      (t.setAll (as.map pageOf) f).pt v = some { p with flags := f } := by
  obtain ⟨a, ha, p, rfl, hp, hflags, hset⟩ := exists_of_pt_setAll_ne hpages hv
  have huser := (h.pages hpres a ha p hp hflags fun b hb _ => hpages b hb).1
  exact ⟨a, ha, p, huser, pageOf_user huser, hp, hset⟩

theorem Proper.onlyFlags {virt len : Nat} (h : Proper t (protectPages virt len) f)
    (hpres : ∀ a ∈ protectPages virt len, t.Present a)
    (hpages : ∀ a ∈ protectPages virt len, t.IsPage a) :
    OnlyFlags t (t.setAll ((protectPages virt len).map pageOf) f) virt len ∧
      SameKernel t (t.setAll ((protectPages virt len).map pageOf) f) := by
  refine ⟨⟨rfl, rfl, rfl, fun v hv => ?_⟩,
    ⟨fun _ _ => rfl, fun _ _ => rfl, fun _ _ => rfl, fun v hv => ?_⟩⟩
  · obtain ⟨a, ha, p, huser, rfl, hp, hset⟩ := h.pages_of_done hpres hpages hv
    obtain ⟨halign, hstart, hend⟩ := mem_protectPages ha
    exact ⟨by omega, by omega, by omega, p, f, hp, hset⟩
  · by_contra hne
    obtain ⟨a, -, p, huser, rfl, -⟩ := h.pages_of_done hpres hpages hne
    omega

variable {pre post : List Nat} {a : Nat}

theorem Proper.setAll_eq (h : Proper t (pre ++ a :: post) f)
    (hsort : (pre ++ a :: post).Pairwise (· < ·)) (hpres : ∀ b ∈ pre ++ a :: post, t.Present b)
    (hpre : ∀ b ∈ pre, t.IsPage b) (ha : ¬ t.IsPage a) : t.setAll (pre.map pageOf) f = t := by
  refine setAll_eq_self fun v hv p hp => ?_
  obtain ⟨b, hb, rfl⟩ := mem_map.1 hv
  obtain ⟨p', hp'⟩ := hpre b hb
  obtain rfl : p' = p := some.inj ((pt_of_walk hp').symm.trans hp)
  by_contra hflags
  have hbef := (mem_before_iff hsort).1 hb
  have hbelow : ∀ c ∈ pre ++ a :: post, c < b → t.IsPage c := fun c hc hcb =>
    hpre c ((mem_before_iff hsort).2 ⟨hc, by omega⟩)
  exact ha ((h.pages hpres b hbef.1 p' hp' hflags hbelow).2 a (by simp))

theorem proper_iff_canonical (hsort : (pre ++ a :: post).Pairwise (· < ·))
    (hpre : ∀ b ∈ pre, t.Present b) (ha : ¬ t.Present a) :
    Proper t (pre ++ a :: post) f ↔ canonical a := by
  have hmem : a ∈ pre ++ a :: post := by simp
  constructor
  · intro h
    exact h.canonical a hmem fun b hb hba => hpre b ((mem_before_iff hsort).2 ⟨hb, hba⟩)
  · intro hcanon
    refine ⟨fun c hc hbelow => ?_, fun hpres => absurd (hpres a hmem) ha⟩
    rcases lt_trichotomy c a with hlt | rfl | hgt
    · exact (hpre c ((mem_before_iff hsort).2 ⟨hc, hlt⟩)).1
    · exact hcanon
    · exact absurd (hbelow a hmem hgt) ha

theorem proper_of_setAll_eq (hsort : (pre ++ a :: post).Pairwise (· < ·))
    (hpres : ∀ b ∈ pre ++ a :: post, t.Present b) (ha : ¬ t.IsPage a)
    (heq : t.setAll (pre.map pageOf) f = t) : Proper t (pre ++ a :: post) f := by
  refine ⟨fun c hc _ => (hpres c hc).1, fun _ c hc p hp hflags hbelow => ?_⟩
  -- such a page is before the huge one, so its flags were changed
  have hlt : c < a := by
    rcases lt_trichotomy c a with hlt | rfl | hgt
    · exact hlt
    · exact absurd ⟨p, hp⟩ ha
    · exact absurd (hbelow a (by simp) hgt) ha
  have hpre := (mem_before_iff hsort).2 ⟨hc, hlt⟩
  exact absurd (congrArg (fun t => t.pt (pageOf c)) heq)
    (pt_setAll_ne (pt_of_walk hp) (mem_map_of_mem hpre) hflags)

theorem proper_of_sameKernel (hpres : ∀ a ∈ as, t.Present a) (hpages : ∀ a ∈ as, t.IsPage a)
    (hkernel : SameKernel t (t.setAll (as.map pageOf) f)) : Proper t as f := by
  refine ⟨fun c hc _ => (hpres c hc).1, fun _ c hc p hp hflags _ => ⟨?_, hpages⟩⟩
  by_contra huser
  have hnum := pageOf_kernel (hpres c hc).1 (Nat.le_of_not_lt huser)
  exact pt_setAll_ne (pt_of_walk hp) (mem_map_of_mem hc) hflags (hkernel.pt _ hnum)

/-- A result of `protect` that is all or nothing. -/
def Good (t : PageTables) (virt len : Nat)
    (out : Option (Option (Bool × Bool) × PageTables)) : Prop :=
  ∃ r t', out = some (r, t') ∧ (r = none → t' = t) ∧ (r.isSome → OnlyFlags t t' virt len) ∧
    SameKernel t t'

theorem Outcome.good_iff {virt len : Nat} {w x : Bool}
    {out : Option (Option (Bool × Bool) × PageTables)}
    (h : Outcome t w x (protectPages virt len) out) :
    Good t virt len out ↔ Proper t (protectPages virt len) (protectFlags w x) := by
  have hsort := pairwise_protectPages virt len
  cases h with
  | absent hsplit hpre ha =>
    rw [hsplit] at hsort ⊢
    rw [proper_iff_canonical hsort hpre ha]
    split
    · next hcanon => exact iff_of_true ⟨none, t, rfl, fun _ => rfl, nofun, .refl t⟩ hcanon
    · next hcanon => exact iff_of_false (fun ⟨_, _, hout, _⟩ => nomatch hout) hcanon
  | huge hpres hsplit hpre ha =>
    rw [hsplit] at hsort hpres ⊢
    constructor
    · rintro ⟨r, t', hout, hnone, -⟩
      cases hout
      exact proper_of_setAll_eq hsort hpres ha (hnone rfl)
    · intro hproper
      rw [hproper.setAll_eq hsort hpres hpre ha]
      exact ⟨none, t, rfl, fun _ => rfl, nofun, .refl t⟩
  | done hpres hpages hold =>
    constructor
    · rintro ⟨r, t', hout, -, -, hkernel⟩
      cases hout
      exact proper_of_sameKernel hpres hpages hkernel
    · intro hproper
      obtain ⟨hflags, hkernel⟩ := hproper.onlyFlags hpres hpages
      refine ⟨_, _, rfl, fun hnone => ?_, fun _ => hflags, hkernel⟩
      have hnil : protectPages virt len = [] := by simpa [hnone] using hold
      rw [hnil, map_nil, setAll_nil]

end

/-- `NtProtectVirtualMemory` is all or nothing and stays in the user half if and only if the pages
of the range are proper for the new flags. -/
theorem allOrNothing_iff (t : PageTables) (base size : UInt64) (newProtect : UInt32) :
    AllOrNothing t base size newProtect ↔ ∀ w x, win32ProtectToWx newProtect = some (w, x) →
      Proper t (protectPages base.toNat (max size.toNat 1)) (protectFlags w x) := by
  rw [AllOrNothing, ntProtectVirtualMemory]
  cases hwx : win32ProtectToWx newProtect with
  | none => exact iff_of_true ⟨none, t, rfl, fun _ => rfl, nofun, .refl t⟩ nofun
  | some wx =>
    obtain ⟨w, x⟩ := wx
    have hgood := (protect_outcome t base.toNat (max size.toNat 1) w x).good_iff
    constructor
    · rintro ⟨r, t', hcall, hnone, hsome, hkernel⟩ w' x' hwx'
      obtain ⟨rfl, rfl⟩ := Prod.mk.inj (some.inj hwx')
      obtain ⟨⟨old, t''⟩, hprotect, ⟨⟩⟩ := map_eq_some_iff.1 hcall
      refine hgood.1 ⟨old, t'', hprotect, fun hold => hnone ?_, fun hold => hsome ?_, hkernel⟩
      · exact map_eq_none_iff.2 hold
      · rwa [isSome_map]
    · intro hproper
      obtain ⟨old, t', hprotect, hnone, hsome, hkernel⟩ := hgood.2 (hproper w x rfl)
      refine ⟨old.map wxToWin32Protect, t', map_eq_some_iff.2 ⟨_, hprotect, rfl⟩, ?_, ?_, hkernel⟩
      · intro hold
        exact hnone (map_eq_none_iff.1 hold)
      · intro hold
        exact hsome (by rwa [isSome_map] at hold)

/-- A page of the kernel text, which may be executed and not written. -/
def kernelText : PageTables where
  pml4 i := i = 511
  pdpt i := if i = 511 * 512 + 510 then .table else .unused
  pd i := if i = (511 * 512 + 510) * 512 then .table else .unused
  pt v := if v = (511 * 512 + 510) * 512 ^ 2 then some ⟨0x200, false, false, false, 0⟩ else none

/-- A page of 4 KiB right before a page of 2 MiB. -/
def beforeHuge : PageTables where
  pml4 i := i = 0
  pdpt i := if i = 0 then .table else .unused
  pd i := if i = 0 then .table else if i = 1 then .huge ⟨0x400, true, true, true, 0⟩ else .unused
  pt v := if v = 511 then some ⟨0x300, true, true, true, 0⟩ else none

/-- `PAGE_READWRITE` on the kernel text makes it writable, also from user mode. `PAGE_READONLY` on a
range that ends in a huge page fails, and takes away the right to write from the page before it. -/
theorem protect_kernel_and_huge :
    (∃ t', kernelText.ntProtectVirtualMemory 0xFFFFFFFF80000000 1 0x04 = some (some 0x20, t') ∧
      t'.pt ((511 * 512 + 510) * 512 ^ 2) = some ⟨0x200, true, true, true, 0⟩) ∧
    ∃ t', beforeHuge.ntProtectVirtualMemory 0x1FF000 0x2000 0x02 = some (none, t') ∧
      t'.pt 511 = some ⟨0x300, false, true, true, 0⟩ := by
  have hkernel : (kernelText.ntProtectVirtualMemory 0xFFFFFFFF80000000 1 0x04).any fun r =>
      decide (r.1 = some 0x20 ∧
        r.2.pt ((511 * 512 + 510) * 512 ^ 2) = some ⟨0x200, true, true, true, 0⟩) := by
    decide +kernel
  have hhuge : (beforeHuge.ntProtectVirtualMemory 0x1FF000 0x2000 0x02).any fun r =>
      decide (r.1 = none ∧ r.2.pt 511 = some ⟨0x300, false, true, true, 0⟩) := by
    decide +kernel
  obtain ⟨⟨r, t'⟩, hcall, hentry⟩ := (any_eq_true _ _).1 hkernel
  obtain ⟨⟨r', t''⟩, hcall', hentry'⟩ := (any_eq_true _ _).1 hhuge
  obtain ⟨rfl, hpt⟩ := of_decide_eq_true hentry
  obtain ⟨rfl, hpt'⟩ := of_decide_eq_true hentry'
  exact ⟨⟨t', hcall, hpt⟩, t'', hcall', hpt'⟩

end PageTables

end Thos.Memory
