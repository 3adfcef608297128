import Thos.Memory.Space

/-!
# The address space of a fork

`fork` visits the present user pages of the lower half of the parent's tables, rebuilds the
address of each from its indices, copies its bytes to a frame of its own and maps that in the
child with the same permissions. Here an entry has its permissions and a frame has its bytes.

The loops meet every user page once (`forEachUserPage_eq`), and walking down the tables from a
rebuilt address leads back to the page, so the child shows what the parent shows
(`fork_copies`).
-/

set_option autoImplicit false

namespace Thos.Memory

open Thos.Lib Function Table

/-! ## Address spaces with permissions -/

/-- An entry of a page table: a frame and the flags that a mapping sets. -/
structure Entry where
  frame : Frame
  (user writable exec : Bool)

open Entry

/-- The flags `map_page_in` asks for in the entries of the tables. -/
def tableEntry (frame : Frame) : Entry := ⟨frame, true, true, true⟩

/-- The bytes of a frame. -/
abbrev PageBytes := Vector UInt8 4096

open List
open scoped List

/-- An address space with the permissions of its pages. -/
structure UserSpace where
  table : Table Entry 4
  (nextUserVa brk : Nat)

/-- A call that maps new pages in the calling process. -/
inductive AllocCall where
  | brk (req : Nat)
  | mmapAnon (len : Nat)

namespace UserSpace

/-- A PML4 with an empty lower half. -/
def emptyTable (frame : Frame) : Table Entry 4 :=
  (⟨tableEntry frame, []⟩ : Node Entry (Table Entry 3))

/-- `Process::new`. -/
def new : List Frame → Option (UserSpace × List Frame)
  | [] => none
  | frame :: free => some (⟨emptyTable frame, userAllocBase, brkBase⟩, free)

/-- `map`: a user page with the given permissions. -/
def map (s : UserSpace) (virt : Nat) (frame : Frame) (writable exec : Bool) (free : List Frame) :
    Option (UserSpace × List Frame) :=
  if canonical virt then
    (Table.map 512 4 (pageOf virt) ⟨frame, true, writable, exec⟩ s.table
      (free.map tableEntry)).map fun r => ({ s with table := r.1 }, r.2.map Entry.frame)
  else none

/-- What `for_each_user_page` visits: the address and the entry of each page, in four loops. -/
def forEachUserPage (s : UserSpace) : List (Nat × Entry) :=
  ((Node.entries s.table).filter fun e => e.1 < 256).flatMap fun e4 =>
    (Node.entries e4.2).flatMap fun e3 =>
      (Node.entries e3.2).flatMap fun e2 =>
        (Node.entries e2.2).flatMap fun e1 =>
          if user e1.2 then
            [(e4.1 <<< 39 ||| e3.1 <<< 30 ||| e2.1 <<< 21 ||| e1.1 <<< 12, e1.2)]
          else []

def copyAllocStateFrom (s other : UserSpace) : UserSpace :=
  { s with nextUserVa := other.nextUserVa, brk := other.brk }

/-- The closure of `fork` at each page in turn. -/
def copyPages (c : UserSpace) (mem : Frame → PageBytes) :
    List Frame → List (Nat × Entry) → Option (UserSpace × (Frame → PageBytes) × List Frame)
  | free, [] => some (c, mem, free)
  | [], _ :: _ => none
  | f :: free, (virt, e) :: rest =>
    (c.map virt f e.writable e.exec free).bind fun r =>
      r.1.copyPages (update mem f (mem e.frame)) r.2 rest

/-- `fork`: the child's address space and the memory; `none` when no frame is left. -/
def fork (p : UserSpace) (mem : Frame → PageBytes) (free : List Frame) :
    Option (UserSpace × (Frame → PageBytes) × List Frame) :=
  (new free).bind fun r => (r.1.copyAllocStateFrom p).copyPages mem r.2 p.forEachUserPage

/-- The addresses that `brk` and `mmap_anon` map in turn, one call after another. They depend on
the break and on the next free address only. -/
def requests : Nat → Nat → List AllocCall → List Nat
  | _, _, [] => []
  | va, brk, .brk req :: calls =>
    if req < brkBase ∨ brkMax < req then requests va brk calls
    else pagesUpTo (pageRound brk) (pageRound req) ++ requests va req calls
  | va, brk, .mmapAnon len :: calls =>
    pagesUpTo va ((va + pageRound len) % 2 ^ 64) ++
      requests ((va + (pageRound len + 0x1000)) % 2 ^ 64) brk calls

/-- The present pages of the lower half that a program may access. -/
def userPages (s : UserSpace) : List (Nat × Entry) :=
  (pages 512 4 (lower 256 s.table)).filter fun q => q.2.user

/-- What a program sees of a page: its number, its permissions and its bytes. -/
def shown (mem : Frame → PageBytes) (q : Nat × Entry) : Nat × Bool × Bool × Bool × PageBytes :=
  (q.1, q.2.user, q.2.writable, q.2.exec, mem q.2.frame)

/-! ## The loops meet the user pages -/

variable {p c c' : UserSpace} {free free' : List Frame} {mem mem' : Frame → PageBytes}

theorem address_eq {i4 i3 i2 i1 : Nat} (h3 : i3 < 512) (h2 : i2 < 512) (h1 : i1 < 512) :
    i4 <<< 39 ||| i3 <<< 30 ||| i2 <<< 21 ||| i1 <<< 12 =
      (i4 * 512 ^ 3 + (i3 * 512 ^ 2 + (i2 * 512 ^ 1 + (i1 * 512 ^ 0 + 0)))) * 4096 := by
  have h12 : i1 <<< 12 < 2 ^ 21 := by omega
  have h21 : i2 <<< 21 + i1 <<< 12 < 2 ^ 30 := by omega
  have h30 : i3 <<< 30 + (i2 <<< 21 + i1 <<< 12) < 2 ^ 39 := by omega
  rw [Nat.or_assoc, Nat.or_assoc, ← Nat.shiftLeft_add_eq_or_of_lt h12,
    ← Nat.shiftLeft_add_eq_or_of_lt h21, ← Nat.shiftLeft_add_eq_or_of_lt h30]
  omega

theorem flatMap_pages {α : Type} {n : Nat} (t : Table Entry (n + 1)) (g : Nat × Entry → List α) :
    (pages 512 (n + 1) t).flatMap g = (Node.entries t).flatMap fun e =>
      (pages 512 n e.2).flatMap fun q => g (e.1 * 512 ^ n + q.1, q.2) := by
  rw [pages, flatMap_assoc]
  simp only [flatMap_map]

theorem forEachUserPage_eq (hp : Table.Ordered 512 4 p.table) :
    p.forEachUserPage = p.userPages.map fun q => (q.1 * 4096, q.2) := by
  have hvisit : p.userPages.map (fun q => (q.1 * 4096, q.2)) =
      (pages 512 4 (lower 256 p.table)).flatMap fun q =>
        if q.2.user then [(q.1 * 4096, q.2)] else [] := by
    rw [userPages]
    induction pages 512 4 (lower 256 p.table) with
    | nil => rfl
    | cons q pages ih => cases huser : q.2.user <;> simp [huser, ih]
  rw [hvisit, flatMap_pages]
  refine flatMap_congr fun e4 h4 => ?_
  have ho4 := (hp.2 e4 (mem_of_mem_filter h4)).2
  rw [flatMap_pages]
  refine flatMap_congr fun e3 h3 => ?_
  obtain ⟨hi3, ho3⟩ := ho4.2 e3 h3
  rw [flatMap_pages]
  refine flatMap_congr fun e2 h2 => ?_
  obtain ⟨hi2, ho2⟩ := ho3.2 e2 h2
  rw [flatMap_pages]
  refine flatMap_congr fun e1 h1 => ?_
  rw [address_eq hi3 hi2 (ho2.2 e1 h1).1, pages, flatMap_singleton]

theorem pageOf_of_mem_userPages (hp : Table.Ordered 512 4 p.table) {q : Nat × Entry}
    (hq : q ∈ p.userPages) : canonical (q.1 * 4096) ∧ pageOf (q.1 * 4096) = q.1 := by
  have hlt := lt_of_mem_lower hp (mem_of_mem_filter hq)
  refine ⟨?_, ?_⟩
  · rw [canonical, Bool.or_eq_true]
    exact .inl (decide_eq_true (by omega))
  · rw [pageOf]
    omega

/-! ## Copying the pages -/

section

variable (hord : Table.Ordered 512 4 c.table)
include hord

theorem map_grows {virt : Nat} {f : Frame} {w x : Bool}
    (h : c.map virt f w x free = some (c', free')) :
    c'.nextUserVa = c.nextUserVa ∧ c'.brk = c.brk ∧ ∃ new, free = new.map Entry.frame ++ free' ∧
      Table.Grows 512 4 c.table c'.table [(pageOf virt, ⟨f, true, w, x⟩)] new := by
  obtain ⟨_, ⟨table', rest⟩, hmap, ⟨⟩⟩ := ite_map_eq_some.1 h
  obtain ⟨new, hnew, hgrow⟩ := Table.map_spec (Process.pageOf_lt virt) hord hmap
  refine ⟨rfl, rfl, new, ?_, hgrow⟩
  rw [← map_append, ← hnew, map_map]
  exact (map_id free).symm

/-- The page of a visited address, with the same permissions, on another frame. -/
def copied (r : Nat × Entry) (f : Frame) : Nat × Entry :=
  (pageOf r.1, ⟨f, true, r.2.writable, r.2.exec⟩)

/-- Every visited page is mapped on a frame of its own, which gets its bytes; these frames and
those of the new tables are what the free list loses. -/
theorem copyPages_spec {rest : List (Nat × Entry)}
    (hnodup : free.Nodup) (hrest : ∀ r ∈ rest, r.2.frame ∉ free)
    (h : c.copyPages mem free rest = some (c', mem', free')) :
    c'.nextUserVa = c.nextUserVa ∧ c'.brk = c.brk ∧ ∃ frames new, frames.length = rest.length ∧
      free ~ frames ++ (new.map frame ++ free') ∧
      Table.Grows 512 4 c.table c'.table (zipWith copied rest frames) new ∧
      frames.map mem' = rest.map (fun r => mem r.2.frame) ∧ ∀ f ∉ free, mem' f = mem f := by
  induction rest generalizing c free mem with
  | nil =>
    rw [copyPages, Option.some.injEq, Prod.mk.injEq, Prod.mk.injEq] at h
    obtain ⟨rfl, rfl, rfl⟩ := h
    exact ⟨rfl, rfl, [], [], rfl, .refl _, .refl hord, rfl, fun _ _ => rfl⟩
  | cons r rest ih =>
    cases free with
    | nil => cases h
    | cons f free =>
      obtain ⟨⟨c₁, free₁⟩, hmap, hcopy⟩ := Option.bind_eq_some_iff.1 h
      obtain ⟨hva₁, hbrk₁, new₁, rfl, hgrow₁⟩ := map_grows hord hmap
      obtain ⟨hf, hnodup'⟩ := nodup_cons.1 hnodup
      have hsub : free₁ ⊆ new₁.map frame ++ free₁ := subset_append_right ..
      obtain ⟨hva, hbrk, frames, new, hlen, hperm, hgrow, hbytes, hkept⟩ :=
        ih hgrow₁.ordered (nodup_append'.1 hnodup').2.1
          (fun r' hr' hmem => hrest r' (.tail _ hr') (.tail _ (hsub hmem))) hcopy
      refine ⟨hva.trans hva₁, hbrk.trans hbrk₁, f :: frames, new ++ new₁,
        congrArg Nat.succ hlen, ?_, ?_, ?_, ?_⟩
      · refine List.Perm.cons f ((hperm.append_left _).trans ?_)
        rw [map_append, append_assoc]
        refine (perm_append_comm_assoc ..).trans (List.Perm.append_left _ ?_)
        exact perm_append_comm_assoc ..
      · exact (hgrow₁.trans hgrow).perm (perm_append_singleton ..) (.refl _)
      · rw [map_cons, map_cons, hbytes, hkept f fun hmem => hf (hsub hmem), update_self]
        refine congrArg _ (map_congr_left fun r' hr' => update_of_ne ?_ ..)
        exact fun heq => hrest r' (.tail _ hr') (heq ▸ .head _)
      · intro g hg
        rw [mem_cons, not_or] at hg
        exact (hkept g fun hmem => hg.2 (hsub hmem)).trans (update_of_ne hg.1 ..)

theorem copyPages_returns {rest : List (Nat × Entry)}
    (hcanon : ∀ r ∈ rest, canonical r.1) (hdist : (rest.map fun r => pageOf r.1).Nodup)
    (hnew : ∀ r ∈ rest, ∀ e, (pageOf r.1, e) ∉ Table.pages 512 4 c.table)
    (hfree : 5 * rest.length ≤ free.length) : (c.copyPages mem free rest).isSome := by
  induction rest generalizing c free mem with
  | nil => rfl
  | cons r rest ih =>
    obtain ⟨virt, e⟩ := r
    obtain ⟨hne, hdist⟩ := nodup_cons.1 hdist
    rw [length_cons] at hfree
    cases free with
    | nil => cases hfree
    | cons f free =>
      rw [length_cons] at hfree
      have hroom : 4 ≤ (free.map tableEntry).length := by rw [length_map]; omega
      obtain ⟨table', k, hk, hmap⟩ := Table.map_returns (f := ⟨f, true, e.writable, e.exec⟩)
        (Process.pageOf_lt virt) (hnew _ (.head _)) hroom
      have hstep : c.map virt f e.writable e.exec free =
          some ({ c with table := table' }, free.drop k) := by
        rw [map, if_pos (hcanon _ (.head _)), hmap, ← map_drop, Option.map_some, map_map]
        exact congrArg (fun l => some (_, l)) (map_id _)
      obtain ⟨-, -, new, -, hgrow⟩ := map_grows hord hstep
      rw [copyPages, hstep]
      refine ih hgrow.ordered (fun r hr => hcanon r (.tail _ hr)) hdist ?_ ?_
      · intro r hr e' hmem
        rcases mem_cons.1 (hgrow.pages.subset hmem) with heq | hmem
        · exact hne (mem_map.2 ⟨r, hr, congrArg Prod.fst heq⟩)
        · exact hnew r (.tail _ hr) e' hmem
      · rw [length_drop]
        omega

end

theorem shown_copied {pages : List (Nat × Entry)} {frames : List Frame}
    (hpages : ∀ q ∈ pages, pageOf (q.1 * 4096) = q.1 ∧ q.2.user)
    (hbytes : frames.map mem' = pages.map fun q => mem q.2.frame) :
    (zipWith copied (pages.map fun q => (q.1 * 4096, q.2)) frames).map (shown mem') =
      pages.map (shown mem) ∧
    (zipWith copied (pages.map fun q => (q.1 * 4096, q.2)) frames).map (·.2.frame) = frames := by
  induction pages generalizing frames with
  | nil => exact ⟨rfl, (map_eq_nil_iff.1 hbytes).symm⟩
  | cons q pages ih =>
    cases frames with
    | nil => cases hbytes
    | cons f frames =>
      obtain ⟨hbyte, hbytes⟩ := cons.inj hbytes
      obtain ⟨hpage, huser⟩ := hpages q (.head _)
      obtain ⟨hshown, hframes⟩ := ih (fun q hq => hpages q (.tail _ hq)) hbytes
      refine ⟨cons_eq_cons.2 ⟨?_, hshown⟩, cons_eq_cons.2 ⟨rfl, hframes⟩⟩
      simp only [shown, copied, hpage, huser, hbyte]

/-- The page of the address is mapped. -/
def Maps (s : UserSpace) (virt : Nat) : Prop := ∃ e, (pageOf virt, e) ∈ pages 512 4 s.table

/-- A fork returns if there are frames enough. Then the child has exactly the user pages of the
parent, with their permissions and bytes, on frames that were free, so none of them is mapped in
the parent, whose bytes stay. Both ask for the same pages in later calls of `brk` and `mmap`, and
those that the child finds mapped the parent has mapped too. -/
theorem fork_copies (hp : Table.Ordered 512 4 p.table) (hnodup : free.Nodup)
    (hused : ∀ q ∈ pages 512 4 p.table, q.2.frame ∉ free) :
    (5 * p.userPages.length < free.length → (p.fork mem free).isSome) ∧
    ∀ c mem' free', p.fork mem free = some (c, mem', free') →
      (pages 512 4 c.table).map (shown mem') ~ p.userPages.map (shown mem) ∧
      free ~ (pages 512 4 c.table).map (·.2.frame) ++ ((tables 4 c.table).map frame ++ free') ∧
      (∀ q ∈ pages 512 4 c.table, ∀ q' ∈ pages 512 4 p.table,
        q.2.frame ≠ q'.2.frame ∧ mem' q'.2.frame = mem q'.2.frame) ∧
      c.nextUserVa = p.nextUserVa ∧ c.brk = p.brk ∧
      ∀ calls, requests c.nextUserVa c.brk calls = requests p.nextUserVa p.brk calls ∧
        ∀ virt ∈ requests c.nextUserVa c.brk calls, c.Maps virt → p.Maps virt := by
  have hsub : p.userPages <+ pages 512 4 p.table := filter_sublist.trans pages_lower_sublist
  have hpages (q : Nat × Entry) (hq : q ∈ p.userPages) : pageOf (q.1 * 4096) = q.1 ∧ q.2.user :=
    ⟨(pageOf_of_mem_userPages hp hq).2, (mem_filter.1 hq).2⟩
  cases free with
  | nil => exact ⟨nofun, nofun⟩
  | cons root free =>
    have hempty : Table.Ordered 512 4 (emptyTable root) := ⟨List.Pairwise.nil, nofun⟩
    have hfork : p.fork mem (root :: free) = copyPages ⟨emptyTable root, p.nextUserVa, p.brk⟩
        mem free (p.userPages.map fun q => (q.1 * 4096, q.2)) := by
      rw [← forEachUserPage_eq hp]
      rfl
    rw [hfork]
    refine ⟨fun hroom => copyPages_returns hempty ?_ ?_ nofun ?_, ?_⟩
    · intro r hr
      obtain ⟨q, hq, rfl⟩ := mem_map.1 hr
      exact (pageOf_of_mem_userPages hp hq).1
    · rw [map_map]
      refine (map_congr_left fun q hq => ?_).symm ▸ (nodup_pages hp).sublist (hsub.map Prod.fst)
      exact (hpages q hq).1
    · rw [length_map]
      exact Nat.le_of_lt_succ hroom
    · intro c mem' free' h
      have hrest : ∀ r ∈ p.userPages.map fun q => (q.1 * 4096, q.2), r.2.frame ∉ free := by
        intro r hr hmem
        obtain ⟨q, hq, rfl⟩ := mem_map.1 hr
        exact hused q (hsub.subset hq) (.tail _ hmem)
      obtain ⟨hva, hbrk, frames, new, -, hperm, hgrow, hbytes, hkept⟩ :=
        copyPages_spec hempty (nodup_cons.1 hnodup).2 hrest h
      rw [map_map] at hbytes
      obtain ⟨hshown, hframes⟩ := shown_copied hpages hbytes
      have hall := hgrow.pages.trans (.of_eq (append_nil _))
      have hshows := (hall.map (shown mem')).trans (.of_eq hshown)
      have hlie := (hall.map fun q => q.2.frame).trans (.of_eq hframes)
      refine ⟨hshows, ?_, ?_, hva, hbrk, fun calls => ⟨by rw [hva, hbrk], ?_⟩⟩
      · have htables : (tables 4 c.table).map frame ~ new.map frame ++ [root] :=
          (hgrow.tables.map frame).trans (.of_eq map_append)
        refine (hperm.cons root).trans (.trans ?_ (hlie.append (htables.append_right _)).symm)
        rw [append_assoc]
        exact (perm_middle.symm).trans (List.Perm.append_left _ perm_middle.symm)
      · intro q hq q' hq'
        have hfree := hused q' hq'
        refine ⟨fun heq => hfree (heq ▸ .tail _ ?_), hkept _ fun hmem => hfree (.tail _ hmem)⟩
        exact hperm.symm.subset (mem_append_left _ (hlie.subset (mem_map.2 ⟨q, hq, rfl⟩)))
      · rintro virt - ⟨e, he⟩
        obtain ⟨q, hq, heq⟩ := mem_map.1 (hshows.subset (mem_map.2 ⟨_, he, rfl⟩))
        have hnumber : q.1 = pageOf virt := congrArg Prod.fst heq
        exact ⟨q.2, hnumber ▸ hsub.subset hq⟩

/-- Tables on three frames that lead to one page. -/
def column (f i j k : Nat) (e : Entry) : Table Entry 3 :=
  let t1 : Node Entry (Table Entry 0) := ⟨tableEntry (f + 2), [(k, e)]⟩
  let t2 : Node Entry (Table Entry 1) := ⟨tableEntry (f + 1), [(j, t1)]⟩
  (⟨tableEntry f, [(i, t2)]⟩ : Node Entry (Table Entry 2))

/-- A page of code at the address of a static program, and a page of its stack. -/
def codeSpace : UserSpace where
  table := (⟨tableEntry 0, [(0, column 1 0 2 0 ⟨4, true, false, true⟩),
    (224, column 5 0 0 0 ⟨8, true, true, false⟩)]⟩ : Node Entry (Table Entry 3))
  nextUserVa := userAllocBase
  brk := brkBase

theorem fork_copies_code : ∃ c mem' free',
    codeSpace.fork (fun f => .replicate 4096 f.toUInt8) (range' 9 11) = some (c, mem', free') ∧
    (pages 512 4 c.table).map (shown mem') ~ [(1024, true, false, true, .replicate 4096 4),
      (224 * 512 ^ 3, true, true, false, .replicate 4096 8)] := by
  have hcolumn : ∀ (f i j k : Nat) (e : Entry), i < 512 → j < 512 → k < 512 →
      Table.Ordered 512 3 (column f i j k e) := fun f i j k e hi hj hk =>
    ordered_singleton hi (ordered_singleton hj (ordered_singleton hk trivial))
  have hord : Table.Ordered 512 4 codeSpace.table := by
    refine ⟨pairwise_pair.2 (by decide), fun e he => ?_⟩
    rcases mem_cons.1 he with rfl | he
    · exact ⟨by decide, hcolumn _ _ _ _ _ (by decide) (by decide) (by decide)⟩
    · obtain rfl := mem_singleton.1 he
      exact ⟨by decide, hcolumn _ _ _ _ _ (by decide) (by decide) (by decide)⟩
  obtain ⟨hreturns, hcopy⟩ := @fork_copies codeSpace (range' 9 11)
    (fun f => .replicate 4096 f.toUInt8) hord nodup_range' (by decide)
  obtain ⟨⟨c, mem', free'⟩, h⟩ := Option.isSome_iff_exists.1 (hreturns (by decide))
  exact ⟨c, mem', free', h, (hcopy c mem' free' h).1⟩

end UserSpace

end Thos.Memory
