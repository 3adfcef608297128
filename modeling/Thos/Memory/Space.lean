import Thos.Lib.PageTable
import Thos.Lib.Run

/-!
# Address spaces and the frames they take

`Process` is an address space: a four-level page table, the next free user address, the
program break and the section views. The functions below take frames off the free list, one
for each page and one for each table that is missing, and map them; `none` stands for a
panic of the kernel, which ends every run: no frame is left, the page is mapped already, or
the address is not canonical.

The frames an address space owns are those of its tables and of the pages outside its
views. Every function moves frames between the free list and what the space owns, and
`teardown` gives back what is owned below the upper half.
-/

set_option autoImplicit false

namespace Thos.Memory

open Thos.Lib List Table Nat
open scoped List

/-- A physical frame, by number. -/
abbrev Frame := Nat

def userAllocBase : Nat := 0x700000000000
def userStackSize : Nat := 64 * 1024
def brkBase : Nat := 0x680000000000
def brkMax : Nat := brkBase + 256 * 1024 * 1024

/-- A view of the section `sec`: its base address and its number of pages. -/
structure SectionView where
  (base pages sec : Nat)

/-- An address space. The entries of the upper half that it shares with the kernel are not
in its table. -/
structure Process where
  table : Table Frame 4
  (nextUserVa brk : Nat)
  views : List SectionView

/-- The backing store of a section. -/
structure Section where
  size : Nat
  frames : List Frame

/-! ## Mapping pages -/

/-- `VirtAddr::new` accepts the address. -/
def canonical (virt : Nat) : Bool :=
  virt < 2 ^ 47 || (2 ^ 64 - 2 ^ 47 ≤ virt && virt < 2 ^ 64)

/-- The page number in the four levels of tables. -/
def pageOf (virt : Nat) : Nat := virt / 4096 % 512 ^ 4

/-- The addresses of a loop that starts at `v` and goes on by pages while it is below `stop`. -/
def pagesUpTo (v stop : Nat) : List Nat := range' v ((stop - v + 4095) / 4096) 4096

/-- Round up to a page, in 64 bits. -/
def pageRound (n : Nat) : Nat := (n + 0xFFF) % 2 ^ 64 / 4096 * 4096

namespace Process

/-- `Process::new`: a frame for the PML4, with an empty lower half. -/
def new : List Frame → Option (Process × List Frame)
  | [] => none
  | frame :: free =>
    some (⟨(⟨frame, []⟩ : Node Frame (Table Frame 3)), userAllocBase, brkBase, []⟩, free)

variable (p : Process)

/-- `map_page_in`, which panics when the mapper returns an error. -/
def map (virt : Nat) (phys : Frame) (free : List Frame) : Option (Process × List Frame) :=
  if canonical virt then
    (Table.map 512 4 (pageOf virt) phys p.table free).map fun r => ({ p with table := r.1 }, r.2)
  else none

def mapZeroed (virt : Nat) : List Frame → Option (Process × List Frame)
  | [] => none
  | frame :: free => p.map virt frame free

/-- `map_zeroed` at each address in turn. -/
def mapAll (p : Process) (free : List Frame) : List Nat → Option (Process × List Frame)
  | [] => some (p, free)
  | virt :: virts => (p.mapZeroed virt free).bind fun r => r.1.mapAll r.2 virts

/-- `brk`: going down only moves the break. -/
def setBrk (req : Nat) (free : List Frame) : Option (Process × List Frame) :=
  if req < brkBase ∨ brkMax < req then some (p, free)
  else (p.mapAll free (pagesUpTo (pageRound p.brk) (pageRound req))).map fun r =>
    ({ r.1 with brk := req }, r.2)

/-- The `fetch_add` on the next free user address. -/
def reserve (len : Nat) : Process := { p with nextUserVa := (p.nextUserVa + len) % 2 ^ 64 }

def copyAllocStateFrom (p other : Process) : Process :=
  { p with nextUserVa := other.nextUserVa, brk := other.brk }

/-- The addresses `mmap_anon` maps. The end of the range wraps around at 64 bits. -/
def mmapPages (len : Nat) : List Nat :=
  pagesUpTo p.nextUserVa ((p.nextUserVa + pageRound len) % 2 ^ 64)

def mmapAnon (len : Nat) (free : List Frame) : Option (Process × List Frame) :=
  (p.reserve (pageRound len + 0x1000)).mapAll free (p.mmapPages len)

/-- The addresses of the stack `new_user_stack` maps. -/
def stackPages : List Nat := pagesUpTo p.nextUserVa (p.nextUserVa + userStackSize)

def newUserStack (free : List Frame) : Option (Process × List Frame) :=
  (p.reserve (userStackSize + 0x1000)).mapAll free p.stackPages

end Process

open Process

/-! ## Views -/

/-- `Section::new`: one frame at least; `none` when the frames run out. -/
def Section.new (len : Nat) (free : List Frame) : Option (Section × List Frame) :=
  let pages := max ((len + 4095) / 4096) 1
  if pages ≤ free.length then some (⟨len, free.take pages⟩, free.drop pages) else none

/-- The section is as `Section::new` makes it: enough frames, all of them different. -/
structure Section.Wf (sec : Section) : Prop where
  length : sec.size ≤ sec.frames.length * 4096
  nodup : sec.frames.Nodup

theorem Section.new_wf {len : Nat} {free free' : List Frame} {sec : Section} (hfree : free.Nodup)
    (h : Section.new len free = some (sec, free')) : sec.Wf ∧ sec.frames ≠ [] := by
  obtain ⟨hle, ⟨⟩⟩ := Option.ite_none_right_eq_some.1 h
  have hlen : (free.take (max ((len + 4095) / 4096) 1)).length = max ((len + 4095) / 4096) 1 :=
    length_take_of_le hle
  refine ⟨⟨?_, hfree.sublist (take_sublist ..)⟩, ne_nil_of_length_pos ?_⟩
  all_goals
    dsimp only
    omega

/-- `frames_for`; the slice panics when it starts after its end. -/
def Section.framesFor (sec : Section) (offset len : Nat) : Option (List Frame) :=
  let first := offset / 4096
  let last := min ((offset + len + 4095) / 4096) sec.frames.length
  if first ≤ last then some ((sec.frames.take last).drop first) else none

def SectionView.addresses (v : SectionView) : List Nat :=
  (List.range v.pages).map fun i => (v.base + i * 4096) % 2 ^ 64

def SectionView.numbers (v : SectionView) : List Nat := v.addresses.map pageOf

namespace Process

/-- Map the given frames one page after the other. -/
def mapFrames (p : Process) (free : List Frame) : List (Nat × Frame) → Option (Process × List Frame)
  | [] => some (p, free)
  | (virt, frame) :: rest => (p.map virt frame free).bind fun r => r.1.mapFrames r.2 rest

variable (p : Process)

/-- Map the frames of a section at the next free address and remember the view. -/
def mapSectionView (sec : Nat) (frames : List Frame) (free : List Frame) :
    Option (Process × List Frame) :=
  let v : SectionView := ⟨p.nextUserVa, frames.length, sec⟩
  ((p.reserve (frames.length * 4096 + 0x1000)).mapFrames free (v.addresses.zip frames)).map
    fun r => ({ r.1 with views := r.1.views ++ [v] }, r.2)

/-- The part of a section a call of `NtMapViewOfSection` asks for. -/
def viewSize (size offset want : Nat) : Nat :=
  if want ≠ 0 then min want (size - offset) else size - offset

/-- `swap_remove`: the last element takes the place of the removed one. -/
def swapRemove {α : Type} (l : List α) (i : Nat) : List α :=
  match l.getLast? with
  | none => l
  | some last => (l.set i last).dropLast

def clear (table : Table Frame 4) (numbers : List Nat) : Table Frame 4 :=
  numbers.foldl (fun t page => unmap 512 4 page t) table

/-- `unmap_view`: clear the entries of the first view at `base` and forget it. -/
def unmapView (base : Nat) : Process :=
  match p.views.findIdx? (·.base == base) with
  | none => p
  | some i =>
    match p.views[i]? with
    | none => p
    | some v => { p with views := swapRemove p.views i, table := clear p.table v.numbers }

/-- The first loop of `teardown`: every base is read first and then unmapped. -/
def unmapViews : Process := (p.views.map (·.base)).foldl unmapView p

/-- The frames `free_user_address_space` pushes, in its order: those under the entries of the
lower half, and then the PML4. -/
def freed : List Frame := walk 4 (lower 256 p.table)

/-- The frames it leaves: those under the entries of the upper half. -/
def left : List Frame := upper 256 p.table

/-- The user pages `for_each_user_page` visits. -/
def userPages : List Nat := (pages 512 4 (lower 256 p.table)).map fun q => q.1 * 4096

/-- The copy of an address space that `fork` makes: views become private pages. -/
def copy (free : List Frame) : Option (Process × List Frame) :=
  (new free).bind fun r => (r.1.copyAllocStateFrom p).mapAll r.2 p.userPages

end Process

/-- What `NtMapViewOfSection` returns, and the address space after it. -/
structure MappedView where
  (base size : Nat)
  proc : Process
  free : List Frame

/-- `NtMapViewOfSection` of section number `n`; `none` if it is refused or panics. A view size of
zero asks for the rest of the section. -/
def ntMapViewOfSection (p : Process) (n : Nat) (sec : Section) (offset want : Nat)
    (free : List Frame) : Option MappedView :=
  if sec.size ≤ offset then none
  else
    let view := viewSize sec.size offset want
    (sec.framesFor offset view).bind fun frames =>
      (p.mapSectionView n frames free).map fun r => ⟨p.nextUserVa, view, r.1, r.2⟩

/-! ## What an address space owns -/

def viewPages (views : List SectionView) : List Nat := views.flatMap (·.numbers)

/-- The frames of the tables and of the pages outside the views. -/
def owned (table : Table Frame 4) (views : List SectionView) : List Frame :=
  tables 4 table ++ ((pages 512 4 table).filter fun q => q.1 ∉ viewPages views).map Prod.snd

/-- The tables are ordered, no two views overlap, and every page of a view is mapped to a frame
of a section. -/
structure Mapped (shared : List Frame) (table : Table Frame 4) (views : List SectionView) :
    Prop where
  ordered : Table.Ordered 512 4 table
  distinct : (viewPages views).Nodup
  backed : ∀ page ∈ viewPages views, ∃ frame ∈ shared, (page, frame) ∈ pages 512 4 table

def Process.own (p : Process) : List Frame := owned p.table p.views

/-- The pages are in order, and the next free address starts a page. -/
structure Process.Ok (shared : List Frame) (p : Process) : Prop
    extends Mapped shared p.table p.views where
  aligned : 4096 ∣ p.nextUserVa

variable {shared : List Frame} {table table' : Table Frame 4} {views : List SectionView}

section

variable (h : Mapped shared table views)
include h

theorem Mapped.mono {shared' : List Frame}
    (hsub : shared ⊆ shared') : Mapped shared' table views where
  __ := h
  backed page hpage := by
    obtain ⟨frame, hframe, hmem⟩ := h.backed page hpage
    exact ⟨frame, hsub hframe, hmem⟩

theorem Mapped.mem_walk {frame : Frame}
    (hframe : frame ∈ walk 4 table) : frame ∈ owned table views ∨ frame ∈ shared := by
  rw [(walk_perm 512 4 table).mem_iff, mem_append] at hframe
  rcases hframe with hframe | hframe
  · obtain ⟨⟨page, frame⟩, hmem, rfl⟩ := mem_map.1 hframe
    by_cases hview : page ∈ viewPages views
    · -- the page of a view has one frame, that of the section
      obtain ⟨frame', hshar, hmem'⟩ := h.backed page hview
      have heq := inj_on_of_nodup_map (nodup_pages h.ordered) hmem hmem' rfl
      obtain rfl := (Prod.mk.inj heq).2
      exact .inr hshar
    · refine .inl (mem_append.2 (.inr (mem_map.2 ⟨(page, frame), ?_, rfl⟩)))
      exact mem_filter.2 ⟨hmem, decide_eq_true hview⟩
  · exact .inl (mem_append.2 (.inl hframe))

theorem Mapped.grow {added : List (Nat × Frame)} {new : List Frame}
    (hgrow : Table.Grows 512 4 table table' added new) : Mapped shared table' views ∧
      (owned table' views).Perm (new ++ added.map Prod.snd ++ owned table views) := by
  have hmapped (q : Nat × Frame) (hq : q ∈ pages 512 4 table) : q ∈ pages 512 4 table' :=
    hgrow.pages.mem_iff.2 (mem_append.2 (.inr hq))
  have hout : ∀ q ∈ added, q.1 ∉ viewPages views := by
    intro q hq hview
    obtain ⟨frame, _, hmem⟩ := h.backed q.1 hview
    exact hgrow.disjoint.2 (mem_map_of_mem hq) (mem_map.2 ⟨_, hmem, rfl⟩)
  refine ⟨⟨hgrow.ordered, h.distinct, fun page hpage => ?_⟩, ?_⟩
  · obtain ⟨frame, hframe, hmem⟩ := h.backed page hpage
    exact ⟨frame, hframe, hmapped _ hmem⟩
  · have hpages := (hgrow.pages.filter fun q => q.1 ∉ viewPages views).map Prod.snd
    rw [filter_append, filter_eq_self.2 fun q hq => decide_eq_true (hout q hq),
      map_append] at hpages
    refine (hgrow.tables.append hpages).trans ?_
    rw [owned, append_assoc, append_assoc]
    exact (perm_append_comm_assoc ..).append_left _

end

theorem viewPages_append_singleton (views : List SectionView) (v : SectionView) :
    viewPages (views ++ [v]) = viewPages views ++ v.numbers := by
  rw [viewPages, flatMap_append, flatMap_singleton]
  rfl

theorem Mapped.share (h : Mapped shared table views) {v : SectionView} {added : List (Nat × Frame)}
    {new : List Frame} (hgrow : Table.Grows 512 4 table table' added new)
    (hnums : added.map Prod.fst = v.numbers) (hfrs : ∀ q ∈ added, q.2 ∈ shared) :
    Mapped shared table' (views ++ [v]) ∧
      (owned table' (views ++ [v])).Perm (new ++ owned table views) := by
  have hmem : ∀ q ∈ added ++ pages 512 4 table, q ∈ pages 512 4 table' :=
    fun q hq => hgrow.pages.mem_iff.2 hq
  obtain ⟨hnodup, hdisj⟩ := hgrow.disjoint
  rw [hnums] at hnodup hdisj
  refine ⟨⟨hgrow.ordered, ?_, ?_⟩, ?_⟩
  · rw [viewPages_append_singleton, nodup_append']
    refine ⟨h.distinct, hnodup, fun page hold hnew => ?_⟩
    obtain ⟨frame, _, hpage⟩ := h.backed page hold
    exact hdisj hnew (mem_map.2 ⟨_, hpage, rfl⟩)
  · intro page hpage
    rw [viewPages_append_singleton, mem_append, ← hnums] at hpage
    rcases hpage with hold | hnew
    · obtain ⟨frame, hframe, hpage⟩ := h.backed page hold
      exact ⟨frame, hframe, hmem _ (mem_append.2 (.inr hpage))⟩
    · obtain ⟨q, hq, rfl⟩ := mem_map.1 hnew
      exact ⟨q.2, hfrs q hq, hmem q (mem_append.2 (.inl hq))⟩
  · -- the new pages are all in the view, and the old ones are none of them
    have hadded : added.filter (fun q => q.1 ∉ viewPages (views ++ [v])) = [] := by
      refine filter_eq_nil_iff.2 fun q hq hout => ?_
      refine of_decide_eq_true hout ?_
      rw [viewPages_append_singleton, mem_append, ← hnums]
      exact .inr (mem_map_of_mem hq)
    have hpages : (pages 512 4 table).filter (fun q => q.1 ∉ viewPages (views ++ [v])) =
        (pages 512 4 table).filter fun q => q.1 ∉ viewPages views := by
      refine filter_congr fun q hq => decide_eq_decide.2 (not_congr ?_)
      rw [viewPages_append_singleton, mem_append]
      exact or_iff_left fun hnew => hdisj hnew (mem_map_of_mem hq)
    have hperm := (hgrow.pages.filter fun q => q.1 ∉ viewPages (views ++ [v])).map Prod.snd
    rw [filter_append, hadded, hpages, nil_append] at hperm
    refine (hgrow.tables.append hperm).trans ?_
    rw [owned, append_assoc]

namespace Process

theorem ordered_clear (hord : Table.Ordered 512 4 table) (numbers : List Nat) :
    Table.Ordered 512 4 (clear table numbers) := by
  induction numbers generalizing table with
  | nil => exact hord
  | cons page numbers ih => exact ih (ordered_unmap page hord)

theorem tables_clear (table : Table Frame 4) (numbers : List Nat) :
    tables 4 (clear table numbers) = tables 4 table := by
  induction numbers generalizing table with
  | nil => rfl
  | cons page numbers ih => exact (ih _).trans (tables_unmap 4 page table)

theorem pages_clear (hord : Table.Ordered 512 4 table) (numbers : List Nat) :
    pages 512 4 (clear table numbers) = (pages 512 4 table).filter fun q => q.1 ∉ numbers := by
  induction numbers generalizing table with
  | nil =>
    symm
    exact filter_eq_self.2 fun q _ => decide_eq_true (not_mem_nil)
  | cons page numbers ih =>
    have hfirst := ih (ordered_unmap page hord)
    rw [pages_unmap page hord, filter_filter] at hfirst
    refine hfirst.trans (filter_congr fun q _ => ?_)
    rw [← Bool.decide_and, decide_eq_decide, mem_cons, not_or, and_comm]

end Process

theorem Mapped.unshare (h : Mapped shared table views) {v : SectionView} {views' : List SectionView}
    (hviews : views.Perm (v :: views')) : Mapped shared (clear table v.numbers) views' ∧
      owned (clear table v.numbers) views' = owned table views := by
  have hperm : (viewPages views).Perm (v.numbers ++ viewPages views') := hviews.flatMap_right _
  obtain ⟨_, hnodup, hdisj⟩ := nodup_append'.1 (hperm.nodup_iff.1 h.distinct)
  refine ⟨⟨ordered_clear h.ordered _, hnodup, fun page hpage => ?_⟩, ?_⟩
  · obtain ⟨frame, hframe, hmem⟩ := h.backed page (hperm.mem_iff.2 (mem_append.2 (.inr hpage)))
    refine ⟨frame, hframe, ?_⟩
    rw [pages_clear h.ordered, mem_filter]
    exact ⟨hmem, decide_eq_true fun hnum => hdisj hnum hpage⟩
  · rw [owned, owned, tables_clear, pages_clear h.ordered, filter_filter]
    congr 2
    refine filter_congr fun q _ => ?_
    rw [← Bool.decide_and, decide_eq_decide, hperm.mem_iff, mem_append, not_or, and_comm]

/-! ## Functions that take frames -/

/-- From `p` and the free list to `p'` and what is left of it: the frames that left the list
are owned. -/
structure Takes (shared : List Frame) (p : Process) (free : List Frame) (p' : Process)
    (free' : List Frame) : Prop where
  ok : p'.Ok shared
  moved : (p'.own ++ free').Perm (p.own ++ free)

variable {p p' : Process} {free free' : List Frame}

theorem Takes.refl (h : p.Ok shared) : Takes shared p free p free := ⟨h, .refl _⟩

theorem Takes.trans {p'' : Process} {free'' : List Frame} (h : Takes shared p free p' free')
    (h' : Takes shared p' free' p'' free'') : Takes shared p free p'' free'' :=
  ⟨h'.ok, h'.moved.trans h.moved⟩

theorem Takes.of_reserve (len : Nat) (h : Takes shared (p.reserve len) free p' free') :
    Takes shared p free p' free' := by
  have hown : (p.reserve len).own = p.own := rfl
  exact ⟨h.ok, hown ▸ h.moved⟩

namespace Process

theorem pageOf_lt (virt : Nat) : pageOf virt < 512 ^ 4 := mod_lt _ (by decide)

variable {virt : Nat} {frame : Frame}

theorem map_grows (hord : Table.Ordered 512 4 p.table)
    (h : p.map virt frame free = some (p', free')) :
    ∃ table' new, p' = { p with table := table' } ∧ free = new ++ free' ∧
      Table.Grows 512 4 p.table table' [(pageOf virt, frame)] new := by
  obtain ⟨_, ⟨table', rest⟩, hmap, ⟨⟩⟩ := ite_map_eq_some.1 h
  obtain ⟨new, hfree, hgrow⟩ := Table.map_spec (pageOf_lt virt) hord hmap
  exact ⟨table', new, rfl, hfree, hgrow⟩

theorem dvd_pageRound (n : Nat) : 4096 ∣ pageRound n := dvd_mul_left ..

variable {req len : Nat} (hok : p.Ok shared)
include hok

theorem map_takes (h : p.map virt frame free = some (p', free')) :
    Takes shared p (frame :: free) p' free' := by
  obtain ⟨table', new, rfl, rfl, hgrow⟩ := map_grows hok.ordered h
  obtain ⟨hmapped, hperm⟩ := hok.grow hgrow
  refine ⟨⟨hmapped, hok.aligned⟩, ?_⟩
  calc owned table' p.views ++ free'
      ~ new ++ [frame] ++ p.own ++ free' := hperm.append_right free'
    _ ~ p.own ++ (new ++ [frame]) ++ free' := perm_append_comm.append_right free'
    _ ~ p.own ++ (frame :: new) ++ free' :=
        ((perm_append_singleton frame new).append_left p.own).append_right free'
    _ = p.own ++ frame :: (new ++ free') := append_assoc ..

theorem mapZeroed_takes (h : p.mapZeroed virt free = some (p', free')) :
    Takes shared p free p' free' := by
  cases free with
  | nil => cases h
  | cons frame free => exact map_takes hok h

variable {virts : List Nat}

theorem mapAll_takes (h : p.mapAll free virts = some (p', free')) :
    Takes shared p free p' free' := by
  induction virts generalizing p free with
  | nil =>
    cases h
    exact .refl hok
  | cons virt virts ih =>
    obtain ⟨⟨q, rest⟩, hq, hrest⟩ := Option.bind_eq_some_iff.1 h
    have hfirst := mapZeroed_takes hok hq
    exact hfirst.trans (ih hfirst.ok hrest)

variable {q : Process}

theorem Ok.reserve (hlen : 4096 ∣ len) : (p.reserve len).Ok shared :=
  ⟨hok.toMapped, (dvd_mod_iff (by decide)).2 (Nat.dvd_add hok.aligned hlen)⟩

theorem setBrk_takes (h : p.setBrk req free = some (p', free')) : Takes shared p free p' free' := by
  unfold setBrk at h
  split at h
  · cases h
    exact .refl hok
  · obtain ⟨⟨q, rest⟩, hq, ⟨⟩⟩ := Option.map_eq_some_iff.1 h
    obtain ⟨hok', hmoved⟩ := mapAll_takes hok hq
    exact ⟨⟨hok'.toMapped, hok'.aligned⟩, hmoved⟩

theorem mmapAnon_takes
    (h : p.mmapAnon len free = some (p', free')) : Takes shared p free p' free' := by
  rw [mmapAnon] at h
  have hnext := hok.reserve (Nat.dvd_add (dvd_pageRound len) (Nat.dvd_refl 4096))
  exact (mapAll_takes hnext h).of_reserve _

theorem newUserStack_takes (h : p.newUserStack free = some (p', free')) :
    Takes shared p free p' free' := by
  rw [newUserStack] at h
  exact (mapAll_takes (hok.reserve (by decide)) h).of_reserve _

omit hok in
theorem new_spec (h : new free = some (p, free')) : p.Ok shared ∧ (p.own ++ free').Perm free := by
  cases free with
  | nil => cases h
  | cons frame free =>
    cases h
    refine ⟨⟨⟨⟨OrdMap.ascending_nil, nofun⟩, nodup_nil, nofun⟩, ⟨0x700000000, rfl⟩⟩, ?_⟩
    exact .refl _

theorem copy_spec (h : p.copy free = some (q, free')) :
    q.Ok shared ∧ (q.own ++ free').Perm free := by
  obtain ⟨⟨child, rest⟩, hnew, hcopy⟩ := Option.bind_eq_some_iff.1 h
  obtain ⟨hchild, hperm⟩ := new_spec hnew
  obtain ⟨hok', hmoved⟩ := mapAll_takes (p := child.copyAllocStateFrom p)
    ⟨hchild.toMapped, hok.aligned⟩ hcopy
  exact ⟨hok', hmoved.trans hperm⟩

/-! ## Views move no frame -/

omit hok in
theorem mapFrames_grows {l : List (Nat × Frame)} (hord : Table.Ordered 512 4 p.table)
    (h : p.mapFrames free l = some (p', free')) :
    ∃ table' new, p' = { p with table := table' } ∧ free = new ++ free' ∧
      Table.Grows 512 4 p.table table' (l.map fun q => (pageOf q.1, q.2)) new := by
  induction l generalizing p free with
  | nil =>
    cases h
    exact ⟨_, [], rfl, rfl, .refl hord⟩
  | cons q l ih =>
    obtain ⟨⟨p₁, free₁⟩, hfirst, hrest⟩ := Option.bind_eq_some_iff.1 h
    obtain ⟨table₁, new₁, rfl, rfl, hgrow₁⟩ := map_grows hord hfirst
    obtain ⟨table', new, rfl, rfl, hgrow⟩ := ih hgrow₁.ordered hrest
    refine ⟨table', new₁ ++ new, rfl, (append_assoc ..).symm, ?_⟩
    exact (hgrow₁.trans hgrow).perm perm_append_comm perm_append_comm

theorem mapSectionView_takes {sec : Nat} {frames : List Frame} (hshar : frames ⊆ shared)
    (h : p.mapSectionView sec frames free = some (p', free')) : Takes shared p free p' free' := by
  obtain ⟨⟨q, rest⟩, hq, ⟨⟩⟩ := Option.map_eq_some_iff.1 h
  have hnext := hok.reserve (Nat.dvd_add (Nat.dvd_mul_left 4096 frames.length) (Nat.dvd_refl 4096))
  refine Takes.of_reserve (frames.length * 4096 + 0x1000) ?_
  generalize p.reserve (frames.length * 4096 + 0x1000) = next at hq hnext ⊢
  obtain ⟨table', new, rfl, rfl, hgrow⟩ := mapFrames_grows hnext.ordered hq
  set v : SectionView := ⟨p.nextUserVa, frames.length, sec⟩ with hv
  have hlen : v.addresses.length = frames.length := by simp [SectionView.addresses, hv]
  have hnums : ((v.addresses.zip frames).map fun q => (pageOf q.1, q.2)).map Prod.fst =
      v.numbers := by
    have hfst : (v.addresses.zip frames).map Prod.fst = v.addresses := map_fst_zip hlen.le
    calc ((v.addresses.zip frames).map fun q => (pageOf q.1, q.2)).map Prod.fst
        = ((v.addresses.zip frames).map Prod.fst).map pageOf := by
          rw [map_map, map_map]
          rfl
      _ = v.numbers := by rw [hfst, SectionView.numbers]
  have hfrs : ∀ q ∈ (v.addresses.zip frames).map fun q => (pageOf q.1, q.2), q.2 ∈ shared := by
    intro q hq
    obtain ⟨r, hr, rfl⟩ := mem_map.1 hq
    exact hshar (of_mem_zip hr).2
  obtain ⟨hmapped, hperm⟩ := hnext.share hgrow hnums hfrs
  refine ⟨⟨hmapped, hnext.aligned⟩, ?_⟩
  calc owned table' (next.views ++ [v]) ++ rest
      ~ new ++ next.own ++ rest := hperm.append_right _
    _ ~ next.own ++ new ++ rest := perm_append_comm.append_right _
    _ = next.own ++ (new ++ rest) := append_assoc ..

theorem ntMapViewOfSection_takes {sec : Section} {n offset want : Nat} {v : MappedView}
    (hshar : sec.frames ⊆ shared) (h : ntMapViewOfSection p n sec offset want free = some v) :
    Takes shared p free v.proc v.free := by
  obtain ⟨-, h⟩ := Option.ite_none_left_eq_some.1 h
  obtain ⟨frames, hfrs, h⟩ := Option.bind_eq_some_iff.1 h
  obtain ⟨⟨p', free'⟩, hmap, rfl⟩ := Option.map_eq_some_iff.1 h
  obtain ⟨-, ⟨⟩⟩ := Option.ite_none_right_eq_some.1 hfrs
  refine mapSectionView_takes hok (fun frame hframe => hshar ?_) hmap
  exact mem_of_mem_take (mem_of_mem_drop hframe)

omit hok in
theorem swapRemove_perm {α : Type} {l : List α} {i : Nat} {x : α} (h : l[i]? = some x) :
    l.Perm (x :: swapRemove l i) := by
  rcases eq_nil_or_concat' l with rfl | ⟨init, last, rfl⟩
  · simp at h
  · have hlast : swapRemove (init ++ [last]) i = ((init ++ [last]).set i last).dropLast := by
      rw [swapRemove, getLast?_concat]
    rw [hlast]
    rcases lt_or_ge i init.length with hi | hi
    · rw [set_append_left _ _ hi, dropLast_concat]
      rw [getElem?_append_left hi, getElem?_eq_getElem hi] at h
      cases h
      calc init ++ [last] ~ last :: init := perm_append_singleton last init
        _ ~ last :: init[i] :: init.eraseIdx i :=
          (getElem_cons_eraseIdx_perm hi).symm.cons last
        _ ~ init[i] :: last :: init.eraseIdx i := .swap ..
        _ ~ init[i] :: init.set i last := (set_perm_cons_eraseIdx hi last).symm.cons _
    · -- the last element itself goes
      rw [getElem?_append_right hi] at h
      obtain ⟨hzero, rfl⟩ := List.getElem?_eq_some_iff.1 h
      have hself : ([last] : List α).set (i - init.length) last = [last] := by
        rw [lt_one_iff.1 hzero]
        rfl
      rw [set_append_right _ _ hi, hself, dropLast_concat, getElem_singleton]
      exact perm_append_singleton last init

omit hok in
theorem unmapView_cases (p : Process) (base : Nat) :
    (p.unmapView base = p ∧ ∀ v ∈ p.views, v.base ≠ base) ∨
      ∃ v views', p.views.Perm (v :: views') ∧ v.base = base ∧
        p.unmapView base = { p with views := views', table := clear p.table v.numbers } := by
  rw [unmapView]
  cases hfind : p.views.findIdx? (·.base == base) with
  | none =>
    refine .inl ⟨rfl, fun v hv heq => ?_⟩
    have := findIdx?_eq_none_iff.1 hfind v hv
    simp [heq] at this
  | some i =>
    obtain ⟨hi, hbase, _⟩ := findIdx?_eq_some_iff_getElem.1 hfind
    have hget : p.views[i]? = some p.views[i] := getElem?_eq_getElem hi
    refine .inr ⟨p.views[i], swapRemove p.views i, swapRemove_perm hget, ?_, ?_⟩
    · simpa using hbase
    · simp only [hget]

theorem unmapView_spec (base : Nat) :
    (p.unmapView base).Ok shared ∧ (p.unmapView base).own = p.own := by
  rcases p.unmapView_cases base with ⟨heq, _⟩ | ⟨v, views', hviews, _, heq⟩
  · rw [heq]
    exact ⟨hok, rfl⟩
  · rw [heq]
    obtain ⟨hmapped, hown⟩ := hok.unshare hviews
    exact ⟨⟨hmapped, hok.aligned⟩, hown⟩

theorem unmapViews_spec :
    p.unmapViews.Ok shared ∧ p.unmapViews.own = p.own ∧ p.unmapViews.views = [] := by
  have hall : ∀ (bases : List Nat) (p : Process), p.Ok shared → (p.views.map (·.base)).Perm bases →
      (bases.foldl unmapView p).Ok shared ∧ (bases.foldl unmapView p).own = p.own ∧
        (bases.foldl unmapView p).views = [] := by
    intro bases
    induction bases with
    | nil =>
      intro p hok hperm
      exact ⟨hok, rfl, map_eq_nil_iff.1 hperm.eq_nil⟩
    | cons base bases ih =>
      intro p hok hperm
      obtain ⟨hok', hown⟩ := unmapView_spec hok base
      have hbases : ((p.unmapView base).views.map (·.base)).Perm bases := by
        obtain ⟨v, hv, hbase⟩ := mem_map.1 (hperm.mem_iff.2 mem_cons_self)
        rcases p.unmapView_cases base with ⟨_, hnone⟩ | ⟨w, views', hviews, rfl, heq⟩
        · exact absurd hbase (hnone v hv)
        · rw [heq]
          exact ((hviews.map (·.base)).symm.trans hperm).cons_inv
      obtain ⟨hok'', hown', hnil⟩ := ih _ hok' hbases
      exact ⟨hok'', hown'.trans hown, hnil⟩
  exact hall _ p hok (.refl _)

theorem freed_left_perm : (p.unmapViews.freed ++ p.unmapViews.left).Perm p.own := by
  obtain ⟨_, hown, hnil⟩ := unmapViews_spec hok
  have hwalk := walk_perm 512 4 p.unmapViews.table
  rw [← hown, own, hnil, owned]
  have hpages : (pages 512 4 p.unmapViews.table).filter (fun q => q.1 ∉ viewPages []) =
      pages 512 4 p.unmapViews.table :=
    filter_eq_self.2 fun q _ => decide_eq_true not_mem_nil
  rw [hpages]
  exact ((walk_lower_upper 256 _).symm.trans hwalk).trans perm_append_comm

omit hok

/-! ## The lower half -/

/-- Nothing is mapped in the upper half. -/
def Low (p : Process) : Prop := ∀ i ∈ indices p.table, i < 256

theorem own_ne_nil (p : Process) : p.own ≠ [] := by
  obtain ⟨⟨frame, entries⟩, va, brk, views⟩ := p
  rw [own, owned, tables_node, append_assoc]
  exact append_ne_nil_of_right_ne_nil _ (cons_ne_nil _ _)

theorem left_eq_nil_iff : p.left = [] ↔ p.Low := upper_eq_nil_iff

theorem new_low (h : new free = some (p, free')) : p.Low := by
  cases free with
  | nil => cases h
  | cons frame free =>
    cases h
    exact nofun

theorem new_nextUserVa (h : new free = some (p, free')) : p.nextUserVa = userAllocBase := by
  cases free with
  | nil => cases h
  | cons frame free =>
    cases h
    rfl

theorem index_lt_iff (h : canonical virt) : pageOf virt / 512 ^ 3 < 256 ↔ virt < 2 ^ 47 := by
  rw [canonical, Bool.or_eq_true, Bool.and_eq_true, decide_eq_true_iff, decide_eq_true_iff,
    decide_eq_true_iff] at h
  rw [pageOf]
  omega

theorem map_low_iff (h : p.map virt frame free = some (p', free')) :
    (p'.Low ↔ virt < 2 ^ 47 ∧ p.Low) ∧ p'.nextUserVa = p.nextUserVa := by
  obtain ⟨hcanon, ⟨table', rest⟩, hmap, ⟨⟩⟩ := ite_map_eq_some.1 h
  refine ⟨?_, rfl⟩
  rw [← index_lt_iff hcanon]
  constructor
  · intro hlow
    exact ⟨hlow _ ((Table.mem_indices_map hmap).2 (.inl rfl)),
      fun i hi => hlow i ((Table.mem_indices_map hmap).2 (.inr hi))⟩
  · rintro ⟨hvirt, hlow⟩ i hi
    rcases (Table.mem_indices_map hmap).1 hi with rfl | hi
    · exact hvirt
    · exact hlow i hi

theorem mapAll_low_iff (h : p.mapAll free virts = some (p', free')) :
    (p'.Low ↔ (∀ virt ∈ virts, virt < 2 ^ 47) ∧ p.Low) ∧ p'.nextUserVa = p.nextUserVa := by
  induction virts generalizing p free with
  | nil =>
    cases h
    exact ⟨(and_iff_right nofun).symm, rfl⟩
  | cons virt virts ih =>
    obtain ⟨⟨q, rest⟩, hq, hrest⟩ := Option.bind_eq_some_iff.1 h
    cases free with
    | nil => cases hq
    | cons frame free =>
      obtain ⟨hfirst, hva⟩ := map_low_iff hq
      obtain ⟨hlow, hva'⟩ := ih hrest
      refine ⟨?_, hva'.trans hva⟩
      rw [hlow, hfirst, forall_mem_cons, ← and_assoc, and_comm (a := virt < 2 ^ 47)]

theorem lt_of_mem_pagesUpTo {v stop : Nat} (h : virt ∈ pagesUpTo v stop) : virt < stop := by
  obtain ⟨i, hi, rfl⟩ := mem_range'.1 h
  have hle : 4096 * (i + 1) ≤ stop - v + 4095 :=
    (mul_le_mul_left 4096 hi).trans (mul_div_le ..)
  omega

theorem setBrk_low_iff (h : p.setBrk req free = some (p', free')) : p'.Low ↔ p.Low := by
  unfold setBrk at h
  split at h
  · cases h
    exact .rfl
  · rename_i hreq
    obtain ⟨⟨q, rest⟩, hq, ⟨⟩⟩ := Option.map_eq_some_iff.1 h
    -- the break stays below its maximum, far below the upper half
    have hround : pageRound req ≤ req + 0xFFF := (div_mul_le_self ..).trans (mod_le ..)
    have hmax : brkMax = 0x680000000000 + 256 * 1024 * 1024 := rfl
    have hend : pageRound req ≤ 2 ^ 47 := by omega
    have hlow : q.Low ↔ p.Low := by
      rw [(mapAll_low_iff hq).1]
      exact and_iff_right fun virt hvirt => lt_of_lt_of_le (lt_of_mem_pagesUpTo hvirt) hend
    exact hlow

theorem reserve_low (p : Process) (len : Nat) : (p.reserve len).Low ↔ p.Low := .rfl

theorem copyAllocStateFrom_low (p other : Process) : (p.copyAllocStateFrom other).Low ↔ p.Low :=
  .rfl

theorem mmapAnon_low_iff (h : p.mmapAnon len free = some (p', free')) :
    p'.Low ↔ (∀ virt ∈ p.mmapPages len, virt < 2 ^ 47) ∧ p.Low := by
  rw [mmapAnon] at h
  rw [(mapAll_low_iff h).1, reserve_low]

theorem newUserStack_low_iff (hva : p.nextUserVa = userAllocBase)
    (h : p.newUserStack free = some (p', free')) : p'.Low ↔ p.Low := by
  rw [newUserStack] at h
  rw [(mapAll_low_iff h).1, reserve_low]
  have hend : p.nextUserVa + userStackSize ≤ 2 ^ 47 := by
    rw [hva]
    decide
  exact and_iff_right fun virt hvirt => lt_of_lt_of_le (lt_of_mem_pagesUpTo hvirt) hend

theorem copy_low (hord : Table.Ordered 512 4 q.table) (h : q.copy free = some (p, free')) :
    p.Low := by
  obtain ⟨⟨child, rest⟩, hnew, hcopy⟩ := Option.bind_eq_some_iff.1 h
  have hchild : (child.copyAllocStateFrom q).Low :=
    (copyAllocStateFrom_low child q).2 (new_low hnew)
  refine (mapAll_low_iff hcopy).1.2 ⟨fun virt hvirt => ?_, hchild⟩
  obtain ⟨page, hpage, rfl⟩ := mem_map.1 hvirt
  have hnum := lt_of_mem_lower hord hpage
  omega

theorem unmapView_low_iff (base : Nat) : (p.unmapView base).Low ↔ p.Low := by
  have hclear (numbers : List Nat) (table : Table Frame 4) :
      indices (clear table numbers) = indices table := by
    induction numbers generalizing table with
    | nil => rfl
    | cons page numbers ih => exact (ih _).trans (indices_unmap page table)
  rcases p.unmapView_cases base with ⟨heq, _⟩ | ⟨v, views', _, _, heq⟩
  · rw [heq]
  · rw [heq, Low, Low, hclear]

theorem unmapViews_low_iff : p.unmapViews.Low ↔ p.Low := by
  have hall : ∀ (bases : List Nat) (p : Process), (bases.foldl unmapView p).Low ↔ p.Low := by
    intro bases
    induction bases with
    | nil => intro p; exact .rfl
    | cons base bases ih => intro p; exact (ih _).trans (unmapView_low_iff base)
  exact hall _ p

end Process

end Thos.Memory
