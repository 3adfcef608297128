import Thos.Memory.Exec
import Thos.Memory.Fork
import Thos.Memory.Protect

/-!
# One address space

The address spaces of the other modules are four descriptions of one. `UserSpace` has the tables
with the permissions of every entry. Without the permissions it is a `Process`, and a fork of the
one is a copy of the other. Its tables are the `PageTables` that `protect` works on, as long as no
page is huge. And a `Space` of the loader shows its pages with their bytes; it grows by the same
page when both map one.
-/

set_option autoImplicit false

namespace Thos.Memory

open Thos.Lib Table OrdMap List UserSpace

/-! ## The pages that calls ask for -/

namespace Process

variable {p p' : Process} {free free' : List Frame} {virts : List Nat} {table : Table Frame 4}

/-- Map pages on free frames, in the tables alone. -/
def mapTables (table : Table Frame 4) : List Frame → List Nat → Option (Table Frame 4 × List Frame)
  | free, [] => some (table, free)
  | [], _ :: _ => none
  | frame :: free, virt :: virts =>
    if canonical virt then
      (Table.map 512 4 (pageOf virt) frame table free).bind fun r => mapTables r.1 r.2 virts
    else none

theorem mapAll_eq_mapTables : p.mapAll free virts =
    (mapTables p.table free virts).map fun r => ({ p with table := r.1 }, r.2) := by
  induction virts generalizing p free with
  | nil => cases free <;> rfl
  | cons virt virts ih =>
    cases free with
    | nil => rfl
    | cons frame free =>
      rw [mapAll, mapZeroed, map, mapTables]
      split_ifs
      · rw [Option.bind_map, Option.map_bind]
        exact Option.bind_congr fun r _ => ih
      · rfl

theorem mapTables_append {virts' : List Nat} : mapTables table free (virts ++ virts') =
    (mapTables table free virts).bind fun r => mapTables r.1 r.2 virts' := by
  induction virts generalizing table free with
  | nil => cases free <;> rfl
  | cons virt virts ih =>
    cases free with
    | nil => rfl
    | cons frame free =>
      rw [cons_append, mapTables, mapTables]
      split_ifs
      · rw [Option.bind_assoc]
        exact Option.bind_congr fun r _ => ih
      · rfl

/-- One call on an address space and the free list. -/
def alloc : Process × List Frame → AllocCall → Option (Process × List Frame)
  | (p, free), .brk req => p.setBrk req free
  | (p, free), .mmapAnon len => p.mmapAnon len free

theorem mapTables_requests {calls : List AllocCall}
    (h : runAll alloc (p, free) calls = some (p', free')) :
    mapTables p.table free (requests p.nextUserVa p.brk calls) = some (p'.table, free') := by
  induction calls generalizing p free with
  | nil =>
    cases h
    cases free' <;> rfl
  | cons c calls ih =>
    obtain ⟨⟨q, rest⟩, hq, hrest⟩ := Option.bind_eq_some_iff.1 h
    have hnext := ih hrest
    cases c with
    | brk req =>
      rw [alloc, setBrk] at hq
      rw [requests]
      split_ifs at hq ⊢
      · cases hq
        exact hnext
      · rw [mapAll_eq_mapTables, Option.map_map] at hq
        obtain ⟨⟨table', rest'⟩, htable, ⟨⟩⟩ := Option.map_eq_some_iff.1 hq
        rw [mapTables_append, htable]
        exact hnext
    | mmapAnon len =>
      rw [alloc, mmapAnon, mapAll_eq_mapTables, reserve, mmapPages] at hq
      obtain ⟨⟨table', rest'⟩, htable, ⟨⟩⟩ := Option.map_eq_some_iff.1 hq
      dsimp only at htable hnext
      rw [requests, mapTables_append, htable]
      exact hnext

end Process

namespace UserSpace

variable {s s' : UserSpace} {free free' : List Frame} {virt : Nat} {f : Frame} {w x : Bool}

/-! ## Without the permissions -/

/-- The address space, as the books of the frames see it. -/
def process (s : UserSpace) : Process := ⟨mapFrames Entry.frame 4 s.table, s.nextUserVa, s.brk, []⟩

theorem map_process (s : UserSpace) (virt : Nat) (f : Frame) (w x : Bool) (free : List Frame) :
    s.process.map virt f free = (s.map virt f w x free).map (Prod.map process id) := by
  have hmap := map_mapFrames (b := 512) Entry.frame 4 (pageOf virt) ⟨f, true, w, x⟩ s.table
    (free.map tableEntry)
  have hfree : (free.map tableEntry).map Entry.frame = free := map_map.trans (map_id free)
  rw [hfree] at hmap
  rw [Process.map, map]
  split_ifs
  · rw [process, hmap, Option.map_map, Option.map_map]
    rfl
  · rfl

theorem copyPages_process {c : UserSpace} {mem : Frame → PageBytes} {rest : List (Nat × Entry)} :
    c.process.mapAll free (rest.map Prod.fst) =
      (c.copyPages mem free rest).map fun r => (r.1.process, r.2.2) := by
  induction rest generalizing c free mem with
  | nil => cases free <;> rfl
  | cons r rest ih =>
    cases free with
    | nil => rfl
    | cons f free =>
      rw [List.map_cons, Process.mapAll, Process.mapZeroed,
        map_process c r.1 f r.2.writable r.2.exec, copyPages]
      cases c.map r.1 f r.2.writable r.2.exec free with
      | none => rfl
      | some q => exact ih

theorem fork_process {p : UserSpace} (hp : Table.Ordered 512 4 p.table)
    (huser : ∀ q ∈ pages 512 4 (lower 256 p.table), q.2.user) (mem : Frame → PageBytes) :
    p.process.copy free = (p.fork mem free).map fun r => (r.1.process, r.2.2) := by
  have hpages : p.process.userPages = p.forEachUserPage.map Prod.fst := by
    have hlower : lower 256 p.process.table = mapFrames Entry.frame 4 (lower 256 p.table) :=
      congrArg (Node.mk _) filter_map
    rw [forEachUserPage_eq hp, userPages, filter_eq_self.2 huser, Process.userPages, hlower,
      pages_mapFrames, mapValues, map_map, map_map]
    rfl
  cases free with
  | nil => rfl
  | cons root free =>
    rw [Process.copy, hpages]
    exact copyPages_process (c := ⟨emptyTable root, p.nextUserVa, p.brk⟩)

/-! ## As entries by their numbers -/

def entry {n : Nat} (i : Nat) (t : Table Entry (n + 1)) : Option (Table Entry n) :=
  get? i (Node.entries t)

/-- An entry of a table above the last ones. -/
def dirEntry {α : Type} : Option α → DirEntry
  | none => .unused
  | some _ => .table

def pageEntry (e : Entry) : PageEntry := ⟨e.frame, e.writable, e.user, !e.exec, 0⟩

/-- The tables, by the parts of a page number that lead to their entries. -/
def pageTables (s : UserSpace) : PageTables where
  pml4 i := (entry i s.table).isSome
  pdpt i := dirEntry ((entry (i / 512) s.table).bind (entry (i % 512)))
  pd i := dirEntry (((entry (i / 512 ^ 2) s.table).bind (entry (i / 512 % 512))).bind
    (entry (i % 512)))
  pt i := (find 512 4 i s.table).map pageEntry

theorem walk_pageTables (s : UserSpace) (v : Nat) :
    s.pageTables.walk v = (find 512 4 v s.table).elim .notMapped (.page ∘ pageEntry) := by
  have hdigits : v % 512 ^ 3 / 512 ^ 2 = v / 512 ^ 2 % 512 ∧
      v % 512 ^ 3 % 512 ^ 2 / 512 ^ 1 = v / 512 % 512 ∧
      v % 512 ^ 3 % 512 ^ 2 % 512 ^ 1 / 512 ^ 0 = v % 512 ∧ v / 512 ^ 2 / 512 = v / 512 ^ 3 ∧
      v / 512 / 512 ^ 2 = v / 512 ^ 3 ∧ v / 512 / 512 % 512 = v / 512 ^ 2 % 512 := by omega
  obtain ⟨htwo, hone, hzero, hpdpt, hpd, hpd'⟩ := hdigits
  have hfind : find 512 4 v s.table = (entry (v / 512 ^ 3) s.table).bind fun pdpt =>
      (entry (v / 512 ^ 2 % 512) pdpt).bind fun pd => (entry (v / 512 % 512) pd).bind fun pt =>
        (entry (v % 512) pt).bind some := by
    rw [← htwo, ← hone, ← hzero]
    rfl
  simp only [PageTables.walk, pageTables, hpdpt, hpd, hpd', hfind]
  cases entry (v / 512 ^ 3) s.table with
  | none => rfl
  | some pdpt =>
    simp only [Option.bind_some]
    cases entry (v / 512 ^ 2 % 512) pdpt with
    | none => rfl
    | some pd =>
      simp only [Option.bind_some]
      cases entry (v / 512 % 512) pd with
      | none => rfl
      | some pt =>
        simp only [Option.bind_some]
        cases entry (v % 512) pt with
        | none => rfl
        | some e => rfl

/-! ## With the bytes of the pages -/

/-- The page as the loader fills it. -/
def userPage (mem : Frame → PageBytes) (e : Entry) : UserPage :=
  ⟨(mem e.frame).toList, e.writable, e.exec⟩

/-- The space of the loader has the pages of the tables, with their bytes. -/
def ShownBy (s : UserSpace) (mem : Frame → PageBytes) (space : Space) : Prop :=
  ∀ v < 512 ^ 4, space.pages v = (find 512 4 v s.table).map (userPage mem)

theorem ShownBy.map {space : Space} {mem : Frame → PageBytes} (h : s.ShownBy mem space)
    (hs : Table.Ordered 512 4 s.table)
    (hlow : pageOf virt < 2 ^ 35)
    (hmap : s.map virt f w x free = some (s', free')) :
    ∃ space', space.map virt ⟨(mem f).toList, w, x⟩ = .ok space' ∧ s'.ShownBy mem space' := by
  obtain ⟨hcanon, ⟨table', rest⟩, htable, ⟨⟩⟩ := ite_map_eq_some.1 hmap
  have hlt := Process.pageOf_lt virt
  have hfree : space.pages (pageOf virt) = none := by
    obtain ⟨-, -, new, -, hgrow⟩ := map_grows hs hmap
    rw [h _ hlt, Option.map_eq_none_iff]
    refine Option.eq_none_iff_forall_ne_some.2 fun e he => ?_
    exact hgrow.disjoint.2 mem_cons_self (mem_map.2 ⟨_, mem_pages_of_find hlt he, rfl⟩)
  have htaken : space.taken (pageOf virt) = false := by
    rw [Space.taken, decide_eq_false (Nat.not_le.2 hlow), hfree]
    rfl
  refine ⟨space.setPage (pageOf virt) ⟨(mem f).toList, w, x⟩, ?_, fun v hv => ?_⟩
  · rw [Space.map, if_pos ⟨hcanon, htaken⟩]
  · rw [find_map hlt hv hs htable, Space.setPage]
    dsimp only
    rw [Function.update_apply]
    split_ifs
    · rfl
    · exact h v hv

end UserSpace

end Thos.Memory
