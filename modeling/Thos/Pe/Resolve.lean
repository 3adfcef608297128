import Mathlib
import Thos.Lib.Visit
import Thos.Pe.Process

/-!
# What loading DLLs does

Import binding, module loading and forwarders call each other. The functions below
`resolve_module` are described for any resolver that does its work at the loader's depth
(`Resolves`); the resolver then does so by induction on how many loads may still nest.

A run keeps the loader `Sound`: names are registered once, and the file DLLs stand one behind
the other in the arena. What it adds to the loader is a depth-first walk over the modules that
were asked for (`Reached`).
-/

set_option autoImplicit false

namespace Thos.Pe

open Thos.Lib LoadedModule Loader

/-! ## Invariant -/

/-- The names of the modules, in the order in which they were registered. -/
def order (s : Loader) : List Bytes := s.mods.map name

/-- The executable, or a module that is registered. -/
def Known (s : Loader) (who : Option Bytes) : Prop := ∀ n, who = some n → n ∈ order s

/-- What was asked for while the imports of one image were bound. -/
def asksOf (s : Loader) (who : Option Bytes) : List Bytes :=
  (s.links.filter fun l => l.importer = who).map Link.target

/-- Names are registered once; the file DLLs are aligned, in the arena below its mark, and each
ends before the next begins; and only images that are there have asked for modules. -/
structure Sound (s : Loader) : Prop where
  names : (order s).Nodup
  arena : s.arenaNext % 0x10000 = 0 ∧ peDllArena ≤ s.arenaNext ∧ s.arenaNext < peDllArenaEnd
  placed : ∀ m ∈ s.mods, m.isFile → m.base % 0x10000 = 0 ∧ peDllArena ≤ m.base ∧
    m.base + m.size ≤ s.arenaNext
  apart : s.mods.Pairwise fun a b => a.isFile → b.isFile → a.base + a.size ≤ b.base
  links : ∀ l ∈ s.links, Known s l.importer

/-- The invariant, and the order, are about these fields only. -/
structure Alike (s s' : Loader) : Prop where
  mods : s'.mods = s.mods
  arenaNext : s'.arenaNext = s.arenaNext
  links : s'.links = s.links
  depth : s'.depth = s.depth

theorem Alike.refl (s : Loader) : Alike s s := ⟨rfl, rfl, rfl, rfl⟩

variable {α β : Type} {s s₁ s₂ : Loader}

theorem Alike.trans (h : Alike s s₁) (h' : Alike s₁ s₂) : Alike s s₂ :=
  ⟨h'.mods.trans h.mods, h'.arenaNext.trans h.arenaNext, h'.links.trans h.links,
    h'.depth.trans h.depth⟩

variable {s' : Loader} {f : α → LoadM β}

theorem Sound.congr (h : Sound s) (hm : s'.mods = s.mods) (ha : s'.arenaNext = s.arenaNext)
    (hl : s'.links = s.links) : Sound s' := by
  obtain ⟨names, arena, placed, apart, links⟩ := h
  simp only [order, Known] at names links
  constructor <;> simpa only [order, Known, hm, ha, hl]

theorem Alike.sound (h : Alike s s') (hs : Sound s) : Sound s' :=
  hs.congr h.mods h.arenaNext h.links

theorem not_isFile_of_mem_synthModules {m : LoadedModule} (hm : m ∈ synthModules) : ¬ m.isFile := by
  have hall : ∀ m ∈ synthModules, m.isFile = false := by
    simp [synthModules, synthMsvcrt, synthModule]
  simp [hall m hm]

theorem sound_new (pages : List Page) : Sound (new pages) where
  names := by
    show (synthModules.map name).Nodup
    decide
  arena := by
    show peDllArena % 0x10000 = 0 ∧ peDllArena ≤ peDllArena ∧ peDllArena < peDllArenaEnd
    decide
  placed := fun m hm hfile => absurd hfile (not_isFile_of_mem_synthModules hm)
  apart :=
    List.Pairwise.imp_of_mem (fun ha _ _ hfile => absurd hfile (not_isFile_of_mem_synthModules ha))
      (List.pairwise_of_forall (R := fun _ _ => True) fun _ _ => trivial)
  links := fun l hl => absurd hl List.not_mem_nil

/-! ## Specifications -/

/-- From `s` the program ends as `Q` says or stops with a fault, and the loader is sound all
along. -/
def Keeps {α : Type} (s : Loader) (p : LoadM α) (Q : α → Loader → Prop) : Prop :=
  Meets Eq Eq s p Q (fun e s' => e ≠ .steps ∧ Sound s') Sound

section Keeps

variable {Q : β → Loader → Prop}

theorem Keeps.mono {p : LoadM β} {Q' : β → Loader → Prop} (h : Keeps s p Q)
    (hQ : ∀ x s', Q x s' → Q' x s') : Keeps s p Q' :=
  Meets.mono h hQ (fun _ _ h => h) fun _ h => h

theorem Keeps.pure {x : β} (h : Q x s) : Keeps s (pure x) Q := Meets.pure h

theorem Keeps.fault (hs : Sound s) (f : Fault) : Keeps s (.stop (.fault f)) Q :=
  Meets.stop ⟨Stop.noConfusion, hs⟩

theorem Keeps.bind {p : LoadM α} (h : Keeps s p fun x s' => Keeps s' (f x) Q) :
    Keeps s (p >>= f) Q :=
  Meets.bind h

theorem Keeps.get {f : Loader → LoadM β} (h : Keeps s (f s) Q) : Keeps s (getLoader >>= f) Q := by
  refine Meets.read (fun s' hs' => ?_) h
  rw [hs']
  rfl

theorem Keeps.modify {g : Loader → Loader} {Q : Unit → Loader → Prop} (hs : Sound (g s))
    (h : Q () (g s)) : Keeps s (modifyLoader g) Q := by
  rintro s' rfl
  refine ⟨⟨g s', rfl, h⟩, fun t ht => ⟨t, rfl, ?_⟩⟩
  obtain rfl : t = g s' := by simpa [modifyLoader, Prog.write_run] using ht
  exact hs

theorem Keeps.ite {c : Prop} [Decidable c] {p q : LoadM β} (hp : c → Keeps s p Q)
    (hq : ¬ c → Keeps s q Q) : Keeps s (if c then p else q) Q := by
  split
  · exact hp ‹c›
  · exact hq ‹¬ c›

theorem Keeps.liftE {e : Except Fault α} (hs : Sound s)
    (h : ∀ x, e = .ok x → Keeps s (f x) Q) : Keeps s (liftE e >>= f) Q := by
  cases e with
  | error f => exact Keeps.fault hs f
  | ok x => exact h x rfl

end Keeps

/-! ## Programs that leave the modules alone -/

/-- A program that registers nothing and asks for nothing. -/
def Aside {α : Type} (p : LoadM α) : Prop := ∀ s, Sound s → Keeps s p fun _ s' => Alike s s'

namespace Aside

theorem pure (x : α) : Aside (Pure.pure x) := fun s _ => Keeps.pure (Alike.refl s)

theorem fault (f : Fault) : Aside (.stop (.fault f) : LoadM α) := fun _ hs => Keeps.fault hs f

theorem liftE (e : Except Fault α) : Aside (Pe.liftE e) := by
  cases e with
  | error f => exact fault f
  | ok x => exact pure x

theorem bind {p : LoadM α} (hp : Aside p) (hf : ∀ x, Aside (f x)) : Aside (p >>= f) := by
  intro s hs
  refine Keeps.bind ((hp s hs).mono fun x s₁ h₁ => ?_)
  exact (hf x s₁ (h₁.sound hs)).mono fun _ s₂ h₂ => h₁.trans h₂

theorem get {f : Loader → LoadM β} (hf : ∀ s, Aside (f s)) : Aside (getLoader >>= f) :=
  fun s hs => Keeps.get (hf s s hs)

theorem when {c : Bool} {p : LoadM Unit} (hp : Aside p) : Aside (.when c p) := by
  cases c with
  | true => exact hp
  | false => exact pure ()

theorem modify {g : Loader → Loader} (hg : ∀ s, Alike s (g s)) : Aside (modifyLoader g) :=
  fun s hs => Keeps.modify ((hg s).sound hs) (hg s)

theorem ite {c : Prop} [Decidable c] {p q : LoadM α} (hp : Aside p) (hq : Aside q) :
    Aside (if c then p else q) := by
  split
  · exact hp
  · exact hq

theorem forEach {f : α → LoadM Unit} (hf : ∀ a, Aside (f a)) (as : List α) :
    Aside (Pe.forEach f as) := by
  induction as with
  | nil => exact pure ()
  | cons a as ih => exact bind (hf a) fun _ => ih

end Aside

theorem aside_mapPage (page : Page) : Aside (mapPage page) :=
  Aside.get fun _ => .ite (.fault _) (.ite (.fault _) (.modify fun _ => ⟨rfl, rfl, rfl, rfl⟩))

theorem aside_mapSegPage (img : Bytes) (vaddr imgOff fileSize : Nat) (exec : Bool) (k : Nat) :
    Aside (mapSegPage img vaddr imgOff fileSize exec k) := by
  refine .ite ?_ (aside_mapPage _)
  split
  · exact .fault _
  · exact aside_mapPage _

theorem aside_mapSeg (img : Bytes) (vaddr imgOff fileSize : Nat) (exec : Bool) :
    Aside (mapSeg img vaddr imgOff fileSize exec) :=
  .ite (.fault _) (.forEach (aside_mapSegPage img vaddr imgOff fileSize exec) _)

variable (staged : StagedImage)

theorem aside_mapImage (img : Bytes) : Aside (mapImage staged img) :=
  .bind (aside_mapSeg _ _ _ _ _) fun _ => .forEach (fun _ => aside_mapSeg _ _ _ _ _) _

theorem aside_tlsAddModule (base : Nat) (img : Bytes) (t : TlsInfo) :
    Aside (tlsAddModule base img t) := by
  refine .bind (.modify fun _ => ⟨rfl, rfl, rfl, rfl⟩) fun _ => .get fun s => ?_
  refine .ite (.fault _) (.ite (.fault _) (.ite (.fault _) ?_))
  refine .ite (.fault _) (.ite (.fault _) (.ite (.fault _) (.ite (.fault _) (.ite (.fault _) ?_))))
  exact .ite (.fault _) (.bind (.modify fun _ => ⟨rfl, rfl, rfl, rfl⟩) fun _ => .pure _)

theorem aside_addTls (img : Bytes) : Aside (addTls staged img) := by
  unfold addTls
  split
  · exact aside_tlsAddModule _ _ _
  · exact .pure _

theorem aside_getModule (midx : Nat) : Aside (getModule midx) := by
  refine .get fun s => ?_
  split
  · exact .fault _
  · exact .pure _

theorem aside_nameSlot (midx : Nat) (name : Bytes) : Aside (nameSlot midx name) := by
  refine .bind (aside_getModule midx) fun m => ?_
  split
  · exact .fault _
  · exact .pure _

theorem aside_ordinalSlot (midx ord : Nat) : Aside (ordinalSlot midx ord) :=
  .bind (aside_getModule midx) fun _ => .ite (.fault _) (.pure _)

theorem aside_forwardSlot (midx : Nat) (fn : Bytes) : Aside (forwardSlot midx fn) := by
  unfold forwardSlot
  split
  · split
    · exact .fault _
    · exact aside_ordinalSlot _ _
  · exact aside_nameSlot _ _

/-! ## What is reached -/

/-- The loader went from `s` to `s'` by walking `ns` depth first, each module's own requests
below it. `busy` is the image, if any, whose requests `ns` are. -/
structure Reached (busy : Option (Option Bytes)) (ns : List Bytes) (s s' : Loader) : Prop where
  sound : Sound s'
  depth : s'.depth = s.depth
  mods : s.mods <+: s'.mods
  asks : ∀ who, Known s who → busy ≠ some who → asksOf s' who = asksOf s who
  visit : ∀ succ : Bytes → List Bytes,
    (∀ n ∈ order s', n ∉ order s → succ n = asksOf s' (some n)) → Visit succ (order s) ns (order s')

theorem order_subset (h : s.mods <+: s'.mods) : order s ⊆ order s' := (h.map name).subset

theorem Known.mono {who : Option Bytes} (hk : Known s who) (h : s.mods <+: s'.mods) :
    Known s' who :=
  fun n hn => order_subset h (hk n hn)

theorem Alike.reached (h : Alike s s') (hs : Sound s) (busy : Option (Option Bytes)) :
    Reached busy [] s s' where
  __ := h
  sound := h.sound hs
  mods := by rw [h.mods]
  asks := fun who _ _ => by simp only [asksOf, h.links]
  visit := fun succ _ => by
    rw [show order s' = order s by simp only [order, h.mods]]
    exact .nil _

theorem Reached.trans {busy : Option (Option Bytes)} {ns ms : List Bytes}
    (hbusy : ∀ who, busy = some who → Known s who) (h : Reached busy ns s s₁)
    (h' : Reached busy ms s₁ s₂) : Reached busy (ns ++ ms) s s₂ where
  sound := h'.sound
  depth := h'.depth.trans h.depth
  mods := h.mods.trans h'.mods
  asks := fun who hk hne => by rw [h'.asks who (hk.mono h.mods) hne, h.asks who hk hne]
  visit := by
    intro succ hsucc
    refine (h.visit succ fun n hn hnew => ?_).append (h'.visit succ fun n hn hnew => ?_)
    · have hk : Known s₁ (some n) := fun m hm => by
        cases hm
        exact hn
      have hne : busy ≠ some (some n) := fun heq => hnew (hbusy _ heq n rfl)
      rw [hsucc n (order_subset h'.mods hn) hnew, h'.asks _ hk hne]
    · exact hsucc n hn fun hold => hnew (order_subset h.mods hold)

/-! ## Binding imports -/

/-- The image `who` asked for some modules, and these were walked. -/
def Bound (who : Option Bytes) (s s' : Loader) : Prop :=
  ∃ ns, Reached (some who) ns s s' ∧ asksOf s' who = asksOf s who ++ ns

theorem Bound.trans {who : Option Bytes} (hk : Known s who) (h : Bound who s s₁)
    (h' : Bound who s₁ s₂) : Bound who s s₂ := by
  obtain ⟨ns, hr, hasks⟩ := h
  obtain ⟨ms, hr', hasks'⟩ := h'
  refine ⟨ns ++ ms, hr.trans (fun w hw => ?_) hr', ?_⟩
  · cases hw
    exact hk
  · rw [hasks', hasks, List.append_assoc]

theorem Alike.bound (h : Alike s s') (hs : Sound s) (who : Option Bytes) : Bound who s s' :=
  ⟨[], h.reached hs _, by simp [asksOf, h.links]⟩

/-- A program that binds imports of `who` with loads at depth `d`. -/
def Binds {α : Type} (who : Option Bytes) (d : Nat) (p : LoadM α) : Prop :=
  ∀ s, Sound s → s.depth = d → Known s who → Keeps s p fun _ s' => Bound who s s'

/-- A resolver that loads at depth `d`. -/
def Resolves (d : Nat) (resolve : Bytes → LoadM Nat) : Prop :=
  ∀ s raw, Sound s → s.depth = d →
    Keeps s (resolve raw) fun _ s' => Reached none [normalizeDllName raw] s s'

section Binds

variable {who : Option Bytes} {d : Nat} {resolve : Bytes → LoadM Nat} {p : LoadM α}

theorem Aside.binds (hp : Aside p) : Binds who d p :=
  fun s hs _ _ => (hp s hs).mono fun _ _ h => h.bound hs who

theorem Binds.bind (hp : Binds who d p) (hf : ∀ x, Binds who d (f x)) : Binds who d (p >>= f) := by
  intro s hs hd hk
  refine Keeps.bind ((hp s hs hd hk).mono fun x s₁ h₁ => ?_)
  have ⟨ns, hr, _⟩ := h₁
  exact (hf x s₁ hr.sound (hr.depth.trans hd) (hk.mono hr.mods)).mono fun _ s₂ h₂ => h₁.trans hk h₂

theorem Binds.ite {c : Prop} [Decidable c] {q : LoadM α} (hp : c → Binds who d p)
    (hq : ¬ c → Binds who d q) : Binds who d (if c then p else q) := by
  split
  · exact hp ‹c›
  · exact hq ‹¬ c›

variable (hr : Resolves d resolve)
include hr

theorem ask_binds (dll : Bytes) (forwarder : Bool) :
    Binds who d (ask resolve who dll forwarder) := by
  intro s hs hd hk
  refine Keeps.bind ((hr s dll hs hd).mono fun midx s₁ h₁ => ?_)
  have hs₂ : Sound { s₁ with links := s₁.links ++ [⟨who, normalizeDllName dll, forwarder⟩] } :=
    { h₁.sound with
      links := List.forall_mem_append.2
        ⟨h₁.sound.links, List.forall_mem_singleton.2 (hk.mono h₁.mods)⟩ }
  refine Keeps.bind (Keeps.modify hs₂ (Keeps.pure ⟨[normalizeDllName dll], ?_, ?_⟩))
  · have hasks : ∀ w, w ≠ who →
        asksOf { s₁ with links := s₁.links ++ [⟨who, normalizeDllName dll, forwarder⟩] } w =
          asksOf s₁ w := by
      intro w hw
      simp [asksOf, hw.symm]
    refine ⟨hs₂, h₁.depth, h₁.mods, fun w hkw hne => ?_, fun succ hsucc => h₁.visit succ
      fun n hn hnew => ?_⟩
    · rw [hasks w fun heq => hne (by rw [heq]), h₁.asks w hkw fun h => nomatch h]
    · rw [hsucc n hn hnew, hasks]
      exact fun heq => hnew (hk n heq.symm)
  · rw [← h₁.asks who hk fun h => nomatch h]
    simp [asksOf]

theorem resolveExportIdx_binds (n : Nat) : ∀ midx i depth, depth ≤ 9 → 10 ≤ n + depth →
    Binds who d (resolveExportIdx resolve who n midx i depth) := by
  induction n with
  | zero =>
    intro midx i depth hle hge
    omega
  | succ n ih =>
    intro midx i depth hle hge
    unfold resolveExportIdx
    split
    · exact (Aside.fault _).binds
    · refine (aside_getModule midx).binds.bind fun m => ?_
      split
      · exact (Aside.fault _).binds
      · exact (Aside.pure _).binds
      · exact (Aside.fault _).binds
      · split
        · exact (Aside.fault _).binds
        · refine (ask_binds hr _ _).bind fun tmidx =>
            (aside_forwardSlot _ _).binds.bind fun slot => ?_
          exact ih tmidx slot (depth + 1) (by omega) (by omega)

theorem resolveThunk_binds (img : Bytes) (midx thunk : Nat) :
    Binds who d (resolveThunk resolve who img midx thunk) := by
  have hidx : ∀ slot, Binds who d (resolveExportIdx resolve who 10 midx slot 0) :=
    fun slot => resolveExportIdx_binds hr 10 midx slot 0 (by omega) (by omega)
  unfold resolveThunk
  split
  · exact (aside_ordinalSlot _ _).binds.bind hidx
  · exact (Aside.liftE _).binds.bind fun func => (aside_nameSlot _ _).binds.bind hidx

theorem bindThunks_binds (size midx namesRva iatRva n : Nat) :
    ∀ i img, i ≤ size / 8 → size / 8 + 2 ≤ n + i →
      Binds who d (bindThunks resolve who size midx namesRva iatRva n i img) := by
  induction n with
  | zero =>
    intro i img hle hge
    omega
  | succ n ih =>
    intro i img hle hge
    refine Binds.ite (fun _ => (Aside.fault _).binds) fun hin => ?_
    refine (Aside.liftE _).binds.bind fun b =>
      Binds.ite (fun _ => (Aside.pure _).binds) fun _ => ?_
    refine (resolveThunk_binds hr _ _ _).bind fun addr =>
      (Aside.liftE _).binds.bind fun img' => ?_
    exact ih (i + 1) img' (by omega) (by omega)

theorem bindDescriptors_binds (size n : Nat) : ∀ idt img, size + 20 ≤ 20 * n + idt → 0 < n →
    Binds who d (bindDescriptors resolve who size n idt img) := by
  induction n with
  | zero =>
    intro idt img _ hpos
    omega
  | succ n ih =>
    intro idt img hge _
    refine Binds.ite (fun _ => (Aside.fault _).binds) fun hin => ?_
    refine (Aside.liftE _).binds.bind fun ilt => (Aside.liftE _).binds.bind fun nm => ?_
    refine (Aside.liftE _).binds.bind fun iat =>
      Binds.ite (fun _ => (Aside.pure _).binds) fun _ => ?_
    refine (Aside.liftE _).binds.bind fun dll => (ask_binds hr dll false).bind fun midx => ?_
    refine (bindThunks_binds hr _ _ _ _ _ 0 img (by omega) (by omega)).bind fun img' => ?_
    exact ih (idt + 20) img' (by omega) (by omega)

theorem bindAndMap_binds (staged : StagedImage) : Binds who d (bindAndMap resolve who staged) := by
  refine Binds.bind ?_ fun img => (aside_addTls staged img).binds.bind fun img' =>
    (aside_mapImage _ _).binds
  refine Binds.ite (fun _ => ?_) fun _ => (Aside.pure _).binds
  exact bindDescriptors_binds hr _ _ _ _ (by omega) (by omega)

end Binds

/-! ## Loading a DLL -/

theorem bind_ok {α β : Type} {x : Except Fault α} {f : α → Except Fault β} {r : β} :
    (x >>= f) = .ok r ↔ ∃ a, x = .ok a ∧ f a = .ok r := by
  cases x with
  | error e => simp [bind, Except.bind]
  | ok a => simp [bind, Except.bind]

theorem ensure_ok {c : Prop} [Decidable c] {msg : String} {u : Unit} :
    ensure c msg = .ok u ↔ c := by
  unfold ensure fail
  split <;> simp [*]

theorem peekSizeOfImage_of_readHeaders {file : Bytes} {h : Headers}
    (hh : readHeaders file = .ok h) : peekSizeOfImage file = .ok h.sizeOfImage := by
  simp only [readHeaders, bind_ok, ensure_ok] at hh
  obtain ⟨_, -, peOff, hoff, _, hsig, _, -, _, -, _, -, _, -, _, -, _, -, _, -, _, -, hh⟩ := hh
  obtain ⟨_, -, _, -, _, -, soi, hsoi, _, -, _, -, _, -, _, -, _, hle, hh⟩ := hh
  obtain ⟨_, -, _, -, _, -, _, -, _, -, _, -, ⟨⟩⟩ := hh
  simp only [peekSizeOfImage, bind_ok, ensure_ok]
  exact ⟨peOff, hoff, (), hsig, soi, hsoi, (), hle, rfl⟩

theorem sizeOfImage_of_stageImage {file : Bytes} {base : Option Nat} {staged : StagedImage}
    (hst : stageImage file base = .ok staged) : peekSizeOfImage file = .ok staged.sizeOfImage := by
  simp only [stageImage, bind_ok] at hst
  obtain ⟨h, hh, _, -, _, -, ⟨img, segs⟩, -, _, -, _, -, _, -, ⟨⟩⟩ := hst
  exact peekSizeOfImage_of_readHeaders hh

theorem arenaAlloc_keeps (hs : Sound s) (size : Nat) : Keeps s (arenaAlloc size) fun base s' =>
      base = s.arenaNext ∧ ∃ fin, base + size ≤ fin ∧ s' = { s with arenaNext := fin } ∧
        Sound s' := by
  refine Keeps.get (Keeps.ite (fun hfin => ?_) fun _ => Keeps.fault hs _)
  obtain ⟨hal, hlo, hhi⟩ := hs.arena
  have hs' : Sound { s with arenaNext := s.arenaNext + (size + 0xFFFF) / 0x10000 * 0x10000 } :=
    { hs with
      arena := ⟨by simp only; omega, by simp only; omega, hfin⟩
      placed := fun m hm hfile => by
        obtain ⟨hmal, hmlo, hmhi⟩ := hs.placed m hm hfile
        exact ⟨hmal, hmlo, by simp only; omega⟩ }
  exact Keeps.bind (Keeps.modify hs' (Keeps.pure ⟨rfl, _, by omega, rfl, hs'⟩))

theorem Sound.push {m : LoadedModule} (hs : Sound s) (hnew : m.name ∉ order s)
    (hal : m.base % 0x10000 = 0) (hlo : peDllArena ≤ m.base) (hhi : m.base + m.size ≤ s.arenaNext)
    (hend : ∀ m' ∈ s.mods, m'.isFile → m'.base + m'.size ≤ m.base) :
    Sound { s with mods := s.mods ++ [m] } where
  __ := hs
  names := by
    show ((s.mods ++ [m]).map name).Nodup
    rw [List.map_append, List.nodup_append_comm]
    exact List.nodup_cons.2 ⟨hnew, hs.names⟩
  placed := List.forall_mem_append.2
    ⟨hs.placed, List.forall_mem_singleton.2 fun _ => ⟨hal, hlo, hhi⟩⟩
  apart := by
    refine List.pairwise_append.2 ⟨hs.apart, List.pairwise_singleton .., fun a ha b hb hfa _ => ?_⟩
    obtain rfl := List.mem_singleton.1 hb
    exact hend a ha hfa
  links := fun l hl => (hs.links l hl).mono (List.prefix_append ..)

theorem Bound.entered {name : Bytes} {s s₁ s₂ : Loader} (hs : Sound s) (hnew : name ∉ order s)
    (hmods : s.mods <+: s₁.mods) (horder : order s₁ = order s ++ [name])
    (hlinks : s₁.links = s.links)
    (hdepth : s₁.depth = s.depth) (h : Bound (some name) s₁ s₂) : Reached none [name] s s₂ := by
  obtain ⟨ns, hr, hasks⟩ := h
  have hnone : asksOf s₁ (some name) = [] := by
    simp only [asksOf, List.map_eq_nil_iff, List.filter_eq_nil_iff, hlinks, decide_eq_true_eq]
    exact fun l hl heq => hnew (hs.links l hl name heq)
  rw [hnone, List.nil_append] at hasks
  refine ⟨hr.sound, hr.depth.trans hdepth, hmods.trans hr.mods, fun who hk _ => ?_,
    fun succ hsucc => ?_⟩
  · have hne : some (some name) ≠ some who := by
      rintro heq
      cases heq
      exact hnew (hk name rfl)
    rw [hr.asks who (hk.mono hmods) hne, asksOf, asksOf, hlinks]
  · have hmem : name ∈ order s₂ := order_subset hr.mods (by simp [horder])
    refine .enter hnew ?_ (.nil _)
    rw [hsucc name hmem hnew, hasks, ← horder]
    exact hr.visit succ fun n hn hne => hsucc n hn fun hold => hne (order_subset hmods hold)

theorem loadDll_reaches {d : Nat} {resolve : Bytes → LoadM Nat} (hr : Resolves d resolve)
    {name : Bytes} (bytes : Bytes) (hs : Sound s) (hd : s.depth = d) (hnew : name ∉ order s) :
    Keeps s (loadDll resolve name bytes) fun _ s' => Reached none [name] s s' := by
  refine Keeps.liftE hs fun soi hsoi => Keeps.bind ((arenaAlloc_keeps hs soi).mono ?_)
  rintro base s₁ ⟨rfl, fin, hfin, rfl, hs₁⟩
  refine Keeps.liftE hs₁ fun staged hst => Keeps.liftE hs₁ fun table _ => Keeps.get ?_
  -- the image is as long as the arena was asked for
  have hsize : staged.sizeOfImage = soi := by
    rw [sizeOfImage_of_stageImage hst] at hsoi
    cases hsoi
    rfl
  have hs₂ := hs₁.push (m := fileModule name s.arenaNext staged table) hnew hs.arena.1 hs.arena.2.1
    (by simpa only [fileModule, hsize] using hfin) fun m hm hfile => (hs.placed m hm hfile).2.2
  refine Keeps.bind (Keeps.modify hs₂ (Keeps.bind ?_))
  have hk : Known { s with
      arenaNext := fin, mods := s.mods ++ [fileModule name s.arenaNext staged table] }
      (some name) := by
    intro n hn
    cases hn
    simp [order, fileModule]
  refine (bindAndMap_binds hr staged _ hs₂ hd hk).mono fun _ s₃ h₃ => Keeps.pure ?_
  refine Bound.entered hs hnew ?_ ?_ ?_ ?_ h₃
  · exact List.prefix_append ..
  · simp [order, fileModule]
  · rfl
  · rfl

/-! ## The resolver -/

theorem Reached.at_depth {ns : List Bytes} {d d' : Nat}
    (h : Reached none ns { s with depth := d } s') (hd : s.depth = d') :
    Reached none ns s { s' with depth := d' } :=
  ⟨h.sound.congr rfl rfl rfl, hd.symm, h.mods, h.asks, h.visit⟩

theorem resolveModule_resolves (sys : System32) (n : Nat) :
    ∀ d, d ≤ maxDllDepth → maxDllDepth < n + d → Resolves d (resolveModule sys n) := by
  induction n with
  | zero =>
    intro d hle hlt
    omega
  | succ n ih =>
    intro d hle hlt s raw hs hd
    refine Keeps.get ?_
    split
    · rename_i i hi
      have hold : normalizeDllName raw ∈ order s := by
        obtain ⟨hlt, hname, -⟩ := List.findIdx?_eq_some_iff_getElem.1 hi
        rw [← of_decide_eq_true hname]
        exact List.mem_map_of_mem (List.getElem_mem hlt)
      exact Keeps.pure ⟨hs, rfl, List.prefix_refl _, fun _ _ _ => rfl,
        fun _ _ => .skip hold (.nil _)⟩
    · rename_i hnone
      have hnew : normalizeDllName raw ∉ order s := by simpa [order] using hnone
      split
      · exact Keeps.fault hs _
      · split
        · exact Keeps.fault hs _
        · split
          · exact Keeps.fault hs _
          · rename_i hdepth _ _ bytes _
            have hs₁ : Sound { s with depth := s.depth + 1 } := hs.congr rfl rfl rfl
            refine Keeps.bind (Keeps.modify hs₁ (Keeps.bind ?_))
            have hr := ih (d + 1) (by omega) (by omega)
            refine (loadDll_reaches hr bytes hs₁ (by rw [hd]) hnew).mono fun idx s₂ h₂ => ?_
            refine Keeps.bind (Keeps.modify (h₂.sound.congr rfl rfl rfl)
              (Keeps.pure (h₂.at_depth ?_)))
            rw [h₂.depth]
            rfl

/-! ## Loading an executable -/

theorem aside_mapSynthDll (base : Nat) (name : String) (table : List String) (selFlag : Nat)
    (dataExports : List Nat) : Aside (mapSynthDll base name table selFlag dataExports) :=
  .bind (.liftE _) fun _ => aside_mapPage _

theorem aside_mapSystemPages : Aside mapSystemPages := by
  have hsynth := aside_mapSynthDll
  have hpage := aside_mapPage
  refine .bind (hsynth _ _ _ _ _) fun _ => .bind (hsynth _ _ _ _ _) fun _ =>
    .bind (hsynth _ _ _ _ _) fun _ => ?_
  refine .bind (hsynth _ _ _ _ _) fun _ => .bind (hsynth _ _ _ _ _) fun _ =>
    .bind (hpage _) fun _ => ?_
  refine .bind (hpage _) fun _ => .bind (hpage _) fun _ => .bind (hpage _) fun _ => ?_
  exact .bind (hpage _) fun _ => .bind (hpage _) fun _ => hpage _

theorem aside_mapTebPeb (stackTop : Nat) (fileMods : List LoadedModule) (tlsPtr : Nat) :
    Aside (mapTebPeb stackTop fileMods tlsPtr) := by
  refine .bind (aside_mapPage _) fun _ => .bind (aside_mapPage _) fun _ =>
    .bind (aside_mapPage _) fun _ => ?_
  exact .ite (.pure _) (.bind (.liftE _) fun _ => aside_mapPage _)

theorem aside_mapBootstrap (init : List (Nat × Nat)) (exeEntry : Nat) :
    Aside (mapBootstrap init exeEntry) :=
  .ite (.fault _) (.ite (.fault _) (aside_mapPage _))

theorem aside_finishLoad (stackTop : Nat) : Aside (finishLoad staged stackTop) := by
  refine aside_mapSystemPages.bind fun _ => .get fun s => ?_
  refine .bind (.when (aside_mapPage _)) fun _ => .bind (aside_mapTebPeb _ _ _) fun _ => ?_
  exact .ite (.pure _) (.bind (aside_mapBootstrap _ _) fun _ => .pure _)

theorem load_binds (sys : System32) (k : Nat) (file : Bytes) (stackTop : Nat) :
    Binds none 0 (load sys (maxDllDepth + 1 + k) file stackTop) := by
  have hr : Resolves 0 (resolveModule sys (maxDllDepth + 1 + k)) :=
    resolveModule_resolves sys _ 0 (Nat.zero_le _) (by omega)
  refine (Aside.liftE _).binds.bind fun staged => (bindAndMap_binds hr staged).bind fun _ => ?_
  exact (aside_finishLoad staged stackTop).binds

/-- The addresses of a module. -/
def LoadedModule.range (m : LoadedModule) : Set Nat := Set.Ico m.base (m.base + m.size)

/-- A name is registered at most once, and the ranges of the file DLLs are aligned, apart from
each other, and in the arena. -/
structure WellPlaced (s : Loader) : Prop where
  once : (s.mods.map name).Nodup
  aligned : ∀ m ∈ s.mods, m.isFile → m.base % (64 * 1024) = 0
  apart : (s.mods.filter isFile).Pairwise fun a b => Disjoint a.range b.range
  inside : ∀ m ∈ s.mods, m.isFile → m.range ⊆ Set.Ico peDllArena peDllArenaEnd

theorem Sound.wellPlaced (hs : Sound s) : WellPlaced s where
  once := hs.names
  aligned := fun m hm hfile => (hs.placed m hm hfile).1
  apart := by
    refine (List.pairwise_filter.2 (hs.apart.imp fun h ha hb => ?_))
    rw [LoadedModule.range, LoadedModule.range, Set.Ico_disjoint_Ico]
    exact (min_le_left ..).trans ((h ha hb).trans (le_max_right ..))
  inside := by
    intro m hm hfile
    obtain ⟨-, hlo, hhi⟩ := hs.placed m hm hfile
    exact Set.Ico_subset_Ico hlo (hhi.trans hs.arena.2.2.le)

/-- Whatever the files are, loading ends, with an image or with a fault, once loads may nest as
deep as `MAX_DLL_DEPTH` allows. -/
theorem dll_resolution_terminates_well_placed (sys : System32) (file : Bytes) (stackTop : Nat)
    (pages : List Page) (k : Nat) :
    ((load sys (maxDllDepth + 1 + k) file stackTop) (new pages)).out ≠ .error .steps ∧
      WellPlaced ((load sys (maxDllDepth + 1 + k) file stackTop) (new pages)).state ∧
      ∀ s ∈ ((load sys (maxDllDepth + 1 + k) file stackTop) (new pages)).trace, WellPlaced s := by
  have hknown : Known (new pages) none := fun n hn => nomatch hn
  obtain ⟨⟨s', rfl, hout⟩, htr⟩ :=
    load_binds sys k file stackTop _ (sound_new pages) rfl hknown _ rfl
  refine ⟨fun he => ?_, ?_, fun s hs => ?_⟩
  · rw [he] at hout
    exact hout.1 rfl
  · cases h : ((load sys (maxDllDepth + 1 + k) file stackTop) (new pages)).out with
    | ok image =>
      rw [h] at hout
      obtain ⟨ns, hr, -⟩ := hout
      exact hr.sound.wellPlaced
    | error e =>
      rw [h] at hout
      exact hout.2.wellPlaced
  · obtain ⟨s', rfl, hsound⟩ := htr s hs
    exact hsound.wellPlaced

end Thos.Pe
