import Thos.Memory.Space

/-!
# Loading an image

What `elf::load` and `pe::load` do to memory. An ELF file is checked before anything is
mapped, and a frame that is missing is a panic. A PE file may be rejected at any point, also
for a missing frame, and the pages that are mapped by then stay mapped; the frame of the
static-TLS page is held by the loader until late in the load.
-/

set_option autoImplicit false

namespace Thos.Memory

open Process
open Option (bind_eq_some_iff map_eq_some_iff)

open scoped List

/-! ## Images -/

/-- A `PT_LOAD` program header. -/
structure Segment where
  (vaddr memsz : Nat)

/-- The addresses the loop of `map_segment` maps; its end wraps around at 64 bits. -/
def Segment.addresses (g : Segment) : List Nat :=
  pagesUpTo (g.vaddr / 4096 * 4096) ((g.vaddr + g.memsz) % 2 ^ 64)

/-- An ELF file: whether its header passes the checks of `elf::load`, which come before
anything is mapped, and its segments. -/
structure Elf where
  wellFormed : Bool
  segments : List Segment

def Elf.addresses (elf : Elf) : List Nat := elf.segments.flatMap (·.addresses)

/-- A new address space with the image and a stack. -/
def Elf.image (elf : Elf) (free : List Frame) : Option (Process × List Frame) :=
  (new free).bind fun r => (r.1.mapAll r.2 elf.addresses).bind fun r =>
    r.1.newUserStack r.2

def peTlsAddr : Nat := 0x7FF000008000
def peTeb2Addr : Nat := 0x7FF00000C000
def peThreadStackAddr : Nat := 0x7FF000100000
def peThreadStackBytes : Nat := 0x8000

/-- What `pe::load` does to memory: it maps a page, sees to the static-TLS page of the process
(`tls_add_module`), or returns an error. -/
inductive PeStep
  | page (virt : Nat)
  | tls
  | error

open PeStep

def PeStep.address : PeStep → Option Nat
  | .page virt => some virt
  | _ => none

/-- A PE file: what loading it does before the static-TLS page is mapped, and the pages after
it, where `none` is an error. -/
structure Pe where
  staging : List PeStep
  pages : List (Option Nat)

/-- The state of the loader: the static-TLS frame is held until it is mapped. -/
structure Loading where
  process : Process
  tls : Option Frame
  free : List Frame

namespace Loading

variable (l : Loading)

/-- Map a page; a frame that is missing is an error and not a panic. -/
def page (virt : Nat) : Option (Loading × Bool) :=
  match l.free with
  | [] => some (l, false)
  | frame :: free => (l.process.map virt frame free).map fun r => (⟨r.1, l.tls, r.2⟩, true)

/-- `tls_add_module` takes a frame the first time. -/
def addTls : Loading × Bool :=
  match l.tls, l.free with
  | some _, _ => (l, true)
  | none, [] => (l, false)
  | none, frame :: free => (⟨l.process, some frame, free⟩, true)

def step : PeStep → Option (Loading × Bool)
  | .page virt => l.page virt
  | .tls => some l.addTls
  | .error => some (l, false)

/-- Run the steps up to the first error; the flag says that there was none. -/
def run (l : Loading) : List PeStep → Option (Loading × Bool)
  | [] => some (l, true)
  | st :: steps => (l.step st).bind fun r => if r.2 then r.1.run steps else some r

def mapTls : Option Loading :=
  match l.tls with
  | none => some l
  | some frame => (l.process.map peTlsAddr frame l.free).map fun r => ⟨r.1, none, r.2⟩

end Loading

open Loading

def PeStep.ofPage : Option Nat → PeStep
  | some virt => .page virt
  | none => .error

/-- The addresses of the pages loading maps for itself. -/
def Pe.addresses (pe : Pe) : List Nat :=
  pe.staging.filterMap address ++ (pe.pages.map ofPage).filterMap address

def Pe.load (pe : Pe) (p : Process) (free : List Frame) : Option (Loading × Bool) :=
  ((⟨p, none, free⟩ : Loading).run pe.staging).bind fun r =>
    if r.2 then r.1.mapTls.bind fun l => l.run (pe.pages.map .ofPage) else some r

/-- A new address space with a stack, and then the image. -/
def Pe.image (pe : Pe) (free : List Frame) : Option (Loading × Bool) :=
  (new free).bind fun r => (r.1.newUserStack r.2).bind fun r => pe.load r.1 r.2

/-- The pages of a worker thread: its stack and its TEB. -/
def threadPages : List PeStep :=
  (pagesUpTo peThreadStackAddr (peThreadStackAddr + peThreadStackBytes) ++ [peTeb2Addr]).map .page

/-! ## What loading takes -/

variable {shared free free' : List Frame} {p p' : Process} {steps : List PeStep}

theorem Elf.image_spec {elf : Elf} (h : elf.image free = some (p, free')) :
    p.Ok shared ∧ (p.own ++ free').Perm free := by
  obtain ⟨⟨p₁, free₁⟩, hnew, h⟩ := bind_eq_some_iff.1 h
  obtain ⟨⟨p₂, free₂⟩, hload, hstack⟩ := bind_eq_some_iff.1 h
  obtain ⟨hok, hperm⟩ := new_spec hnew
  have hloaded : Takes shared p₁ free₁ p₂ free₂ := mapAll_takes hok hload
  have hstacked : Takes shared p₂ free₂ p free' := newUserStack_takes hloaded.ok hstack
  exact ⟨hstacked.ok, (hloaded.trans hstacked).moved.trans hperm⟩

namespace Loading

/-- The frames the loader and its address space hold, and the free ones. -/
def all (l : Loading) : List Frame := l.process.own ++ (l.tls.toList ++ l.free)

/-- Loading takes frames off the free list, and keeps hold of them. -/
structure Holds (shared : List Frame) (l l' : Loading) : Prop where
  ok : l'.process.Ok shared
  all : l'.all.Perm l.all

variable {l l' : Loading} {ok : Bool}

theorem Holds.trans {l'' : Loading} (h : Holds shared l l') (h' : Holds shared l' l'') :
    Holds shared l l'' :=
  ⟨h'.ok, h'.all.trans h.all⟩

variable (hok : l.process.Ok shared)
include hok

theorem page_holds {virt : Nat}
    (h : l.page virt = some (l', ok)) : Holds shared l l' ∧ l'.tls = l.tls := by
  obtain ⟨p, tls, free⟩ := l
  cases free with
  | nil =>
    cases h
    exact ⟨⟨hok, .refl _⟩, rfl⟩
  | cons frame free =>
    obtain ⟨⟨p', free'⟩, hmap, ⟨⟩⟩ := map_eq_some_iff.1 h
    have htakes := map_takes hok hmap
    refine ⟨⟨htakes.ok, ?_⟩, rfl⟩
    calc p'.own ++ (tls.toList ++ free') ~ tls.toList ++ (p'.own ++ free') :=
          List.perm_append_comm_assoc ..
      _ ~ tls.toList ++ (p.own ++ frame :: free) := htakes.moved.append_left _
      _ ~ p.own ++ (tls.toList ++ frame :: free) := List.perm_append_comm_assoc ..

theorem addTls_holds : Holds shared l l.addTls.1 := by
  obtain ⟨p, tls, free⟩ := l
  cases tls with
  | some frame => exact ⟨hok, .refl _⟩
  | none =>
    cases free with
    | nil | cons frame free => exact ⟨hok, .refl _⟩

theorem step_holds {st : PeStep} (h : l.step st = some (l', ok)) :
    Holds shared l l' ∧ (st ≠ .tls → l'.tls = l.tls) := by
  cases st with
  | page virt =>
    obtain ⟨hholds, htls⟩ := page_holds hok h
    exact ⟨hholds, fun _ => htls⟩
  | tls =>
    obtain rfl : l.addTls.1 = l' := congrArg Prod.fst (Option.some.inj h)
    exact ⟨addTls_holds hok, fun hne => absurd rfl hne⟩
  | error =>
    cases h
    exact ⟨⟨hok, .refl _⟩, fun _ => rfl⟩

theorem run_holds (h : l.run steps = some (l', ok)) :
    Holds shared l l' ∧ ((∀ st ∈ steps, st ≠ .tls) → l'.tls = l.tls) := by
  induction steps generalizing l with
  | nil =>
    cases h
    exact ⟨⟨hok, .refl _⟩, fun _ => rfl⟩
  | cons st steps ih =>
    obtain ⟨⟨l₁, ok₁⟩, hst, hrest⟩ := bind_eq_some_iff.1 h
    obtain ⟨hfirst, htls⟩ := step_holds hok hst
    split at hrest
    · obtain ⟨hholds, htls'⟩ := ih hfirst.ok hrest
      refine ⟨hfirst.trans hholds, fun hne => ?_⟩
      rw [htls' fun st hst => hne st (List.mem_cons_of_mem _ hst), htls (hne st List.mem_cons_self)]
    · -- an error ends the run
      cases hrest
      exact ⟨hfirst, fun hne => htls (hne st List.mem_cons_self)⟩

theorem mapTls_holds (h : l.mapTls = some l') : Holds shared l l' ∧ l'.tls = none := by
  obtain ⟨p, tls, free⟩ := l
  cases tls with
  | none =>
    cases h
    exact ⟨⟨hok, .refl _⟩, rfl⟩
  | some frame =>
    obtain ⟨⟨p', free'⟩, hmap, rfl⟩ := map_eq_some_iff.1 h
    have htakes := map_takes hok hmap
    exact ⟨⟨htakes.ok, htakes.moved⟩, rfl⟩

end Loading

theorem Pe.load_spec {pe : Pe} {l : Loading} {ok : Bool} (hok : p.Ok shared)
    (h : pe.load p free = some (l, ok)) :
    Loading.Holds shared ⟨p, none, free⟩ l ∧ (ok = true → l.tls = none) := by
  obtain ⟨⟨l₁, ok₁⟩, hstaging, h⟩ := bind_eq_some_iff.1 h
  obtain ⟨hstaged, _⟩ := run_holds hok hstaging
  split at h
  · obtain ⟨l₂, htls, hpages⟩ := bind_eq_some_iff.1 h
    obtain ⟨hmapped, hnone⟩ := mapTls_holds hstaged.ok htls
    obtain ⟨hholds, hkeep⟩ := run_holds hmapped.ok hpages
    refine ⟨(hstaged.trans hmapped).trans hholds, fun _ => ?_⟩
    rw [hkeep ?_, hnone]
    intro st hst
    obtain ⟨page, _, rfl⟩ := List.mem_map.1 hst
    cases page with
    | none => exact nofun
    | some virt => exact nofun
  · rename_i hfailed
    cases h
    exact ⟨hstaged, fun htrue => absurd htrue hfailed⟩

theorem Pe.image_spec {pe : Pe} {l : Loading} {ok : Bool} (h : pe.image free = some (l, ok)) :
    l.process.Ok shared ∧ l.all.Perm free ∧ (ok = true → l.tls = none) := by
  obtain ⟨⟨p₁, free₁⟩, hnew, h⟩ := bind_eq_some_iff.1 h
  obtain ⟨⟨p₂, free₂⟩, hstack, hload⟩ := bind_eq_some_iff.1 h
  obtain ⟨hok, hperm⟩ := new_spec hnew
  have hstacked : Takes shared p₁ free₁ p₂ free₂ := newUserStack_takes hok hstack
  obtain ⟨hholds, hnone⟩ := Pe.load_spec hstacked.ok hload
  exact ⟨hholds.ok, (hholds.all.trans hstacked.moved).trans hperm, hnone⟩

/-! ## Images in the lower half -/

theorem Elf.image_low_iff {elf : Elf} (h : elf.image free = some (p, free')) :
    p.Low ↔ ∀ virt ∈ elf.addresses, virt < 2 ^ 47 := by
  obtain ⟨⟨p₁, free₁⟩, hnew, h⟩ := bind_eq_some_iff.1 h
  obtain ⟨⟨p₂, free₂⟩, hload, hstack⟩ := bind_eq_some_iff.1 h
  obtain ⟨hloaded, hva⟩ := mapAll_low_iff hload
  have hstacked : p.Low ↔ p₂.Low := newUserStack_low_iff (hva.trans (new_nextUserVa hnew)) hstack
  rw [hstacked, hloaded]
  exact and_iff_left (new_low hnew)

namespace Loading

variable {l l' : Loading} {ok : Bool}

theorem step_low {st : PeStep} (h : l.step st = some (l', ok)) :
    (ok = true → (l'.process.Low ↔ (∀ virt ∈ st.address, virt < 2 ^ 47) ∧ l.process.Low)) ∧
      (ok = false → l'.process = l.process) := by
  cases st with
  | page virt =>
    obtain ⟨p, tls, free⟩ := l
    cases free with
    | nil =>
      cases h
      exact ⟨nofun, fun _ => rfl⟩
    | cons frame free =>
      obtain ⟨⟨p', free'⟩, hmap, ⟨⟩⟩ := map_eq_some_iff.1 h
      refine ⟨fun _ => ?_, nofun⟩
      rw [(map_low_iff hmap).1]
      simp [address]
  | tls =>
    obtain rfl : l.addTls.1 = l' := congrArg Prod.fst (Option.some.inj h)
    have hprocess : l.addTls.1.process = l.process := by
      unfold addTls
      split
      all_goals rfl
    rw [hprocess]
    exact ⟨fun _ => (and_iff_right nofun).symm, fun _ => rfl⟩
  | error =>
    cases h
    exact ⟨nofun, fun _ => rfl⟩

theorem forall_mem_address_cons {st : PeStep} {P : Nat → Prop} :
    (∀ virt ∈ (st :: steps).filterMap address, P virt) ↔
      (∀ virt ∈ st.address, P virt) ∧ ∀ virt ∈ steps.filterMap address, P virt := by
  cases st with
  | page virt | tls | error => simp [address]

theorem run_low_iff (h : l.run steps = some (l', true)) : l'.process.Low ↔
      (∀ virt ∈ steps.filterMap address, virt < 2 ^ 47) ∧ l.process.Low := by
  induction steps generalizing l with
  | nil =>
    cases h
    exact (and_iff_right nofun).symm
  | cons st steps ih =>
    obtain ⟨⟨l₁, ok₁⟩, hst, hrest⟩ := bind_eq_some_iff.1 h
    cases ok₁ with
    | true =>
      rw [ih hrest, (step_low hst).1 rfl, forall_mem_address_cons, ← and_assoc,
        and_comm (a := ∀ virt ∈ steps.filterMap address, virt < 2 ^ 47)]
    | false => cases (Prod.mk.inj (Option.some.inj hrest)).2

theorem run_low_of_low (hsteps : ∀ virt ∈ steps.filterMap address, virt < 2 ^ 47)
    (h : l.run steps = some (l', ok)) : l'.process.Low ↔ l.process.Low := by
  induction steps generalizing l with
  | nil =>
    cases h
    exact .rfl
  | cons st steps ih =>
    obtain ⟨⟨l₁, ok₁⟩, hst, hrest⟩ := bind_eq_some_iff.1 h
    obtain ⟨hfirst, hlater⟩ := forall_mem_address_cons.1 hsteps
    cases ok₁ with
    | true =>
      rw [ih hlater hrest, (step_low hst).1 rfl]
      exact and_iff_right hfirst
    | false =>
      cases hrest
      rw [(step_low hst).2 rfl]

theorem mapTls_low_iff (h : l.mapTls = some l') : l'.process.Low ↔ l.process.Low := by
  obtain ⟨p, tls, free⟩ := l
  cases tls with
  | none =>
    cases h
    exact .rfl
  | some frame =>
    obtain ⟨⟨p', free'⟩, hmap, rfl⟩ := map_eq_some_iff.1 h
    have htls : peTlsAddr < 2 ^ 47 := by decide
    exact (map_low_iff hmap).1.trans (and_iff_right htls)

end Loading

theorem Pe.image_low_iff {pe : Pe} {l : Loading} (h : pe.image free = some (l, true)) :
    l.process.Low ↔ ∀ virt ∈ pe.addresses, virt < 2 ^ 47 := by
  obtain ⟨⟨p₁, free₁⟩, hnew, h⟩ := bind_eq_some_iff.1 h
  obtain ⟨⟨p₂, free₂⟩, hstack, hload⟩ := bind_eq_some_iff.1 h
  obtain ⟨⟨l₁, ok₁⟩, hstaging, hload⟩ := bind_eq_some_iff.1 hload
  cases ok₁ with
  | false => cases (Prod.mk.inj (Option.some.inj hload)).2
  | true =>
    obtain ⟨l₂, htls, hpages⟩ := bind_eq_some_iff.1 hload
    have hnewLow : p₂.Low := (newUserStack_low_iff (new_nextUserVa hnew) hstack).2 (new_low hnew)
    rw [run_low_iff hpages, mapTls_low_iff htls, run_low_iff hstaging,
      Pe.addresses, List.forall_mem_append]
    exact ⟨fun h => ⟨h.2.1, h.1⟩, fun h => ⟨h.2, h.1, hnewLow⟩⟩

end Thos.Memory
