import Mathlib.Tactic
import Thos.Ext2.Records

/-!
# Names

The directories of a file system seen as a graph: which inodes are live, which of them are
directories, what each directory holds, and what the link counts say. `Names.Ok` is what a
checker asks of it: every entry names a live inode, the counts are the numbers of entries,
and `.` and `..` lead where they should. Creating and removing files and directories keep
it.
-/

set_option autoImplicit false

namespace Thos.Ext2

open Thos.Lib List
open Finset (mem_insert mem_insert_of_mem mem_insert_self sum_congr)

/-- An entry other than `.` and `..`. -/
def Entry.Proper (e : Entry) : Prop := e.name ≠ dot ∧ e.name ≠ dotdot

instance (e : Entry) : Decidable e.Proper := inferInstanceAs (Decidable (_ ∧ _))

/-! ## One entry more -/

/-- The second list is the first with one more entry. -/
def Adds (e : Entry) (l l' : List Entry) : Prop := ∃ es es', l = es ++ es' ∧ l' = es ++ e :: es'

section

variable {e : Entry} {l l' : List Entry} (h : Adds e l l')
include h

theorem Adds.countP (P : Entry → Prop) [DecidablePred P] :
    l'.countP (P ·) = l.countP (P ·) + if P e then 1 else 0 := by
  obtain ⟨es, es', rfl, rfl⟩ := h
  rw [countP_append, countP_append, countP_cons, add_assoc]
  simp

theorem Adds.filter_eq {P : Entry → Prop} [DecidablePred P] (hP : ¬ P e) :
    l'.filter (P ·) = l.filter (P ·) := by
  obtain ⟨es, es', rfl, rfl⟩ := h
  rw [filter_append, filter_append, filter_cons_of_neg (by simpa using hP)]

theorem Adds.mem_iff {x : Entry} : x ∈ l' ↔ x = e ∨ x ∈ l := by
  obtain ⟨es, es', rfl, rfl⟩ := h
  simp only [mem_append, mem_cons]
  tauto

theorem Adds.find_self (hnew : ∀ x ∈ l, x.name ≠ e.name) :
    l'.find? (fun x => x.name = e.name) = some e := by
  obtain ⟨es, es', rfl, rfl⟩ := h
  rw [find?_append, find?_eq_none.2, find?_cons_of_pos (by simp)]
  · rfl
  · exact fun x hx => by simpa using hnew x (mem_append_left _ hx)

theorem Adds.find_of_ne {name : Bytes} (hne : e.name ≠ name) :
    l'.find? (fun x => x.name = name) = l.find? (fun x => x.name = name) := by
  obtain ⟨es, es', rfl, rfl⟩ := h
  rw [find?_append, find?_append, find?_cons_of_neg (by simpa using hne)]

end

/-! ## The graph -/

/-- The names on a volume. -/
structure Names where
  (live dirs : Finset Nat)
  entries : Nat → List Entry
  links : Nat → Nat

namespace Names

/-- The number of entries that name an inode. -/
def refs (N : Names) (i : Nat) : Nat := ∑ d ∈ N.dirs, (N.entries d).countP (·.ino = i)

/-- The number of entries of `u`, other than `.` and `..`, that name `d`. -/
def holds (N : Names) (u d : Nat) : Nat := (N.entries u).countP fun e => e.Proper ∧ e.ino = d

/-- Where `..` leads. -/
def up (N : Names) (d : Nat) : Nat :=
  (((N.entries d).filter (·.name = dotdot)).head?.map Entry.ino).getD 0

/-- Every directory has one `.`, one `..`, and, but for the root, one name of its own, which
stands in the directory that `..` leads to. -/
structure Tree (N : Names) : Prop where
  sub : N.dirs ⊆ N.live
  root : rootIno ∈ N.dirs
  self : ∀ d ∈ N.dirs, (N.entries d).filter (·.name = dot) = [⟨d, dot⟩]
  parent : ∀ d ∈ N.dirs, (N.entries d).filter (·.name = dotdot) = [⟨N.up d, dotdot⟩]
  up_mem : ∀ d ∈ N.dirs, N.up d ∈ N.dirs
  up_root : N.up rootIno = rootIno
  held : ∀ d ∈ N.dirs, ∀ u ∈ N.dirs, N.holds u d = if d ≠ rootIno ∧ u = N.up d then 1 else 0

/-- Entries name live inodes, live inodes are named, and the link counts are right. -/
structure Counted (N : Names) : Prop where
  named : ∀ d ∈ N.dirs, ∀ e ∈ N.entries d, e.ino ∈ N.live
  links : ∀ i ∈ N.live, N.links i = N.refs i
  used : ∀ i ∈ N.live, 0 < N.refs i

structure Ok (N : Names) : Prop extends Tree N, Counted N

variable {N N' : Names} {p d u : Nat} {e : Entry}

theorem refs_pos_iff {i : Nat} : 0 < N.refs i ↔ ∃ d ∈ N.dirs, ∃ e ∈ N.entries d, e.ino = i := by
  simp only [refs, Finset.sum_pos_iff, countP_pos_iff, decide_eq_true_eq]

theorem Counted.refs_eq_zero (h : N.Counted) {i : Nat} (hi : i ∉ N.live) : N.refs i = 0 := by
  by_contra hne
  obtain ⟨d, hd, e, he, rfl⟩ := refs_pos_iff.1 (Nat.pos_of_ne_zero hne)
  exact hi (h.named d hd e he)

theorem holds_pos (he : e ∈ N.entries u) (hprop : e.Proper) (hino : e.ino = d) : 0 < N.holds u d :=
  countP_pos_iff.2 ⟨e, he, by simpa using ⟨hprop, hino⟩⟩

theorem holds_eq_zero (h : ∀ e ∈ N.entries u, e.Proper → e.ino ≠ d) : N.holds u d = 0 := by
  rw [holds, countP_eq_zero]
  intro e he
  simpa using h e he

theorem Tree.up_eq (h : N.Tree) (hd : d ∈ N.dirs) (hu : u ∈ N.dirs) (he : e ∈ N.entries u)
    (hprop : e.Proper) (hino : e.ino = d) : d ≠ rootIno ∧ u = N.up d := by
  have hpos := holds_pos he hprop hino
  rw [h.held d hd u hu] at hpos
  by_contra hno
  rw [if_neg hno] at hpos
  exact absurd hpos (lt_irrefl 0)

theorem Tree.congr (h : N.Tree) (hdirs : N'.dirs = N.dirs) (hsub : N'.dirs ⊆ N'.live)
    (hdot : ∀ d ∈ N.dirs, (N'.entries d).filter (·.name = dot) =
      (N.entries d).filter (·.name = dot)) (hdotdot : ∀ d ∈ N.dirs,
      (N'.entries d).filter (·.name = dotdot) = (N.entries d).filter (·.name = dotdot))
    (hholds : ∀ d ∈ N.dirs, ∀ u ∈ N.dirs, N'.holds u d = N.holds u d) : N'.Tree := by
  have hup : ∀ d ∈ N.dirs, N'.up d = N.up d := fun d hd => by rw [up, up, hdotdot d hd]
  refine ⟨hsub, hdirs ▸ h.root, ?_, ?_, ?_, by rw [hup _ h.root, h.up_root], ?_⟩ <;> rw [hdirs]
  · exact fun d hd => (hdot d hd).trans (h.self d hd)
  · exact fun d hd => by rw [hdotdot d hd, hup d hd, h.parent d hd]
  · exact fun d hd => (hup d hd).symm ▸ h.up_mem d hd
  · exact fun d hd u hu => by rw [hholds d hd u hu, hup d hd, h.held d hd u hu]

/-! ## An entry more in one directory -/

/-- The directory `p` has one more entry, and otherwise the directories hold the same. -/
structure AddsAt (N : Names) (p : Nat) (e : Entry) (N' : Names) : Prop where
  mem : p ∈ N.dirs
  dirs : N'.dirs = N.dirs
  other : ∀ d ∈ N.dirs, d ≠ p → N'.entries d = N.entries d
  adds : Adds e (N.entries p) (N'.entries p)

section

variable (h : AddsAt N p e N')
include h

theorem AddsAt.refs (i : Nat) : N'.refs i = N.refs i + if e.ino = i then 1 else 0 := by
  have hsum : ∀ d ∈ N.dirs, (N'.entries d).countP (·.ino = i) =
      (N.entries d).countP (·.ino = i) + if d = p then (if e.ino = i then 1 else 0) else 0 := by
    intro d hd
    by_cases hdp : d = p
    · rw [hdp, h.adds.countP (·.ino = i), if_pos rfl]
    · rw [h.other d hd hdp, if_neg hdp, add_zero]
  rw [Names.refs, h.dirs, sum_congr rfl hsum, Finset.sum_add_distrib, Finset.sum_ite_eq',
    if_pos h.mem]
  rfl

theorem AddsAt.filter_eq {P : Entry → Prop} [DecidablePred P] (hP : ¬ P e)
    (hd : d ∈ N.dirs) : (N'.entries d).filter (P ·) = (N.entries d).filter (P ·) := by
  by_cases hdp : d = p
  · rw [hdp, h.adds.filter_eq hP]
  · rw [h.other d hd hdp]

theorem AddsAt.holds (hne : e.ino ≠ d) (hu : u ∈ N.dirs) : N'.holds u d = N.holds u d := by
  rw [Names.holds, Names.holds, countP_eq_length_filter, countP_eq_length_filter]
  exact congrArg length (h.filter_eq (P := fun e => e.Proper ∧ e.ino = d) (fun hP => hne hP.2) hu)

theorem AddsAt.mem_of (hd : d ∈ N.dirs) {x : Entry} (hx : x ∈ N'.entries d) :
    x = e ∧ d = p ∨ x ∈ N.entries d := by
  by_cases hdp : d = p
  · subst hdp
    rcases h.adds.mem_iff.1 hx with rfl | hx
    · exact .inl ⟨rfl, rfl⟩
    · exact .inr hx
  · exact .inr (h.other d hd hdp ▸ hx)

variable (hprop : e.Proper) (hfile : e.ino ∉ N.dirs)
include hprop hfile

theorem AddsAt.tree (ht : N.Tree) (hsub : N'.dirs ⊆ N'.live) : N'.Tree :=
  ht.congr h.dirs hsub (fun _ hd => h.filter_eq hprop.1 hd) (fun _ hd => h.filter_eq hprop.2 hd)
    fun _ hd _ hu => h.holds (fun heq => hfile (heq ▸ hd)) hu

end

/-! ## An empty root directory -/

theorem Ok.root_only (hlive : N.live = {rootIno}) (hdirs : N.dirs = {rootIno})
    (hents : N.entries rootIno = [⟨rootIno, dot⟩, ⟨rootIno, dotdot⟩])
    (hlinks : N.links rootIno = 2) : N.Ok := by
  have hall : ∀ {P : Nat → Prop}, P rootIno → ∀ d ∈ N.dirs, P d := by
    intro P h d hd
    rw [hdirs, Finset.mem_singleton] at hd
    exact hd ▸ h
  have hup : N.up rootIno = rootIno := by
    rw [up, hents]
    rfl
  have hrefs : N.refs rootIno = 2 := by
    rw [refs, hdirs, Finset.sum_singleton, hents]
    rfl
  refine ⟨⟨by rw [hlive, hdirs], by
    rw [hdirs]; exact Finset.mem_singleton_self _, hall ?_, hall ?_, hall ?_,
    hup, hall (hall ?_)⟩, hall ?_, ?_, ?_⟩
  · rw [hents]
    rfl
  · rw [hup, hents]
    rfl
  · rw [hup, hdirs]
    exact Finset.mem_singleton_self _
  · rw [holds, hents, hup]
    rfl
  · rw [hents, hlive]
    simp
  · rw [hlive, ← hdirs]
    exact hall (hlinks.trans hrefs.symm)
  · rw [hlive, ← hdirs]
    exact hall (by omega)

/-! ## Files -/

theorem Ok.congr (h : N.Ok) (hlive : N'.live = N.live) (hdirs : N'.dirs = N.dirs)
    (hents : ∀ d ∈ N.dirs, N'.entries d = N.entries d)
    (hlinks : ∀ i ∈ N.live, N'.links i = N.links i) : N'.Ok := by
  have hrefs : ∀ i, N'.refs i = N.refs i := fun i => by
    rw [refs, refs, hdirs]
    exact sum_congr rfl fun d hd => by rw [hents d hd]
  refine ⟨h.toTree.congr hdirs (by rw [hlive, hdirs]; exact h.sub) ?_ ?_ ?_, ?_, ?_, ?_⟩
  · exact fun d hd => by rw [hents d hd]
  · exact fun d hd => by rw [hents d hd]
  · exact fun d _ u hu => by rw [holds, holds, hents u hu]
  · rw [hdirs, hlive]
    exact fun d hd => by rw [hents d hd]; exact h.named d hd
  · rw [hlive]
    exact fun i hi => by rw [hlinks i hi, hrefs, h.links i hi]
  · rw [hlive]
    exact fun i hi => by rw [hrefs]; exact h.used i hi

theorem Ok.create (h : N.Ok) (ha : AddsAt N p e N') (hprop : e.Proper) (hfresh : e.ino ∉ N.live)
    (hlive : N'.live = insert e.ino N.live) (hold : ∀ i ∈ N.live, N'.links i = N.links i)
    (hnew : N'.links e.ino = 1) : N'.Ok := by
  have hsub : N'.dirs ⊆ N'.live := by
    rw [ha.dirs, hlive]
    exact h.sub.trans (Finset.subset_insert ..)
  refine ⟨ha.tree hprop (fun hd => hfresh (h.sub hd)) h.toTree hsub, ?_, ?_, ?_⟩
  · rw [ha.dirs, hlive]
    intro d hd x hx
    rcases ha.mem_of hd hx with ⟨rfl, -⟩ | hx
    · exact mem_insert_self ..
    · exact mem_insert_of_mem (h.named d hd x hx)
  · rw [hlive]
    intro i hi
    rw [ha.refs]
    rcases mem_insert.1 hi with rfl | hi
    · rw [hnew, h.toCounted.refs_eq_zero hfresh, if_pos rfl]
    · rw [hold i hi, h.links i hi, if_neg (by rintro rfl; exact hfresh hi), add_zero]
  · rw [hlive]
    intro i hi
    rw [ha.refs]
    rcases mem_insert.1 hi with rfl | hi
    · rw [if_pos rfl]
      omega
    · have := h.used i hi
      omega

/-! ## Directories -/

/-- The directory `p` holds the new directory `e.ino`, which holds `.` and `..` only. -/
structure AddsDir (N : Names) (p : Nat) (e : Entry) (N' : Names) : Prop where
  mem : p ∈ N.dirs
  fresh : e.ino ∉ N.dirs
  dirs : N'.dirs = insert e.ino N.dirs
  other : ∀ d ∈ N.dirs, d ≠ p → N'.entries d = N.entries d
  adds : Adds e (N.entries p) (N'.entries p)
  own : (N'.entries e.ino).Perm [⟨e.ino, dot⟩, ⟨p, dotdot⟩]

section

variable (h : AddsDir N p e N')
include h

theorem AddsDir.ne : e.ino ≠ p := fun heq => h.fresh (heq ▸ h.mem)

theorem AddsDir.addsAt : AddsAt N p e { N' with dirs := N.dirs } := ⟨h.mem, rfl, h.other, h.adds⟩

theorem AddsDir.self : (N'.entries e.ino).filter (·.name = dot) = [⟨e.ino, dot⟩] :=
  perm_singleton.1 (h.own.filter _)

theorem AddsDir.parent : (N'.entries e.ino).filter (·.name = dotdot) = [⟨p, dotdot⟩] :=
  perm_singleton.1 (h.own.filter _)

theorem AddsDir.up_self : N'.up e.ino = p := by
  rw [up, h.parent]
  rfl

theorem AddsDir.not_proper {x : Entry} (hx : x ∈ N'.entries e.ino) : ¬ x.Proper := by
  have hmem := h.own.mem_iff.1 hx
  rw [mem_cons, mem_singleton] at hmem
  rcases hmem with rfl | rfl
  · exact fun hprop => hprop.1 rfl
  · exact fun hprop => hprop.2 rfl

theorem AddsDir.holds_self (d : Nat) : N'.holds e.ino d = 0 :=
  holds_eq_zero fun _ hx hprop => absurd hprop (h.not_proper hx)

theorem AddsDir.up (hprop : e.Proper) (hd : d ∈ N.dirs) : N'.up d = N.up d := by
  have hfilter : (N'.entries d).filter (·.name = dotdot) = (N.entries d).filter (·.name = dotdot) :=
    h.addsAt.filter_eq hprop.2 hd
  rw [Names.up, Names.up, hfilter]

theorem AddsDir.refs (i : Nat) :
    N'.refs i = N.refs i + (if e.ino = i then 2 else 0) + if p = i then 1 else 0 := by
  have hat := h.addsAt.refs i
  have hown : (N'.entries e.ino).countP (·.ino = i) =
      (if e.ino = i then 1 else 0) + if p = i then 1 else 0 := by
    rw [h.own.countP_eq, countP_cons, countP_singleton, add_comm]
    simp
  rw [Names.refs, h.dirs, Finset.sum_insert h.fresh, hown]
  change _ + ({ N' with dirs := N.dirs } : Names).refs i = _
  rw [hat]
  split_ifs <;> omega

end

theorem Ok.mkdir (h : N.Ok) (ha : AddsDir N p e N') (hprop : e.Proper) (hfresh : e.ino ∉ N.live)
    (hlive : N'.live = insert e.ino N.live) (hold : ∀ i ∈ N.live, i ≠ p → N'.links i = N.links i)
    (hpar : N'.links p = N.links p + 1) (hnew : N'.links e.ino = 2) : N'.Ok := by
  have hzero : ∀ u ∈ N.dirs, N.holds u e.ino = 0 := fun u hu =>
    holds_eq_zero fun x hx _ heq => hfresh (heq ▸ h.named u hu x hx)
  have hup := fun {d : Nat} (hd : d ∈ N.dirs) => ha.up hprop hd
  refine ⟨⟨?_, ?_, ?_, ?_, ?_, ?_, ?_⟩, ?_, ?_, ?_⟩
  · rw [ha.dirs, hlive]
    exact Finset.insert_subset_insert _ h.sub
  · rw [ha.dirs]
    exact mem_insert_of_mem h.root
  · rw [ha.dirs]
    intro d hd
    rcases mem_insert.1 hd with rfl | hd
    · exact ha.self
    · exact (ha.addsAt.filter_eq hprop.1 hd).trans (h.self d hd)
  · rw [ha.dirs]
    intro d hd
    rcases mem_insert.1 hd with rfl | hd
    · rw [ha.up_self]
      exact ha.parent
    · rw [hup hd]
      exact (ha.addsAt.filter_eq hprop.2 hd).trans (h.parent d hd)
  · rw [ha.dirs]
    intro d hd
    rcases mem_insert.1 hd with rfl | hd
    · rw [ha.up_self]
      exact mem_insert_of_mem ha.mem
    · rw [hup hd]
      exact mem_insert_of_mem (h.up_mem d hd)
  · rw [hup h.root, h.up_root]
  · rw [ha.dirs]
    intro d hd u hu
    rcases mem_insert.1 hd with rfl | hd <;> rcases mem_insert.1 hu with rfl | hu
    · rw [ha.holds_self, ha.up_self, if_neg fun hand => ha.ne hand.2]
    · -- the one name of the new directory is the one in `p`
      have hroot : e.ino ≠ rootIno := fun heq => ha.fresh (heq ▸ h.root)
      by_cases hup' : u = p
      · have hcount : N'.holds p e.ino = N.holds p e.ino + 1 := by
          rw [holds, ha.adds.countP fun x => x.Proper ∧ x.ino = e.ino, if_pos ⟨hprop, rfl⟩]
          rfl
        rw [hup', hcount, hzero p ha.mem, ha.up_self, if_pos ⟨hroot, rfl⟩]
      · rw [ha.up_self, if_neg fun hand => hup' hand.2]
        rw [holds, ha.other u hu hup']
        exact hzero u hu
    · have hne : e.ino ≠ N.up d := fun heq => ha.fresh (heq ▸ h.up_mem d hd)
      rw [ha.holds_self, hup hd, if_neg fun hand => hne hand.2]
    · have hsame : N'.holds u d = N.holds u d := ha.addsAt.holds (fun heq => ha.fresh (heq ▸ hd)) hu
      rw [hsame, hup hd, h.held d hd u hu]
  · rw [ha.dirs, hlive]
    intro d hd x hx
    rcases mem_insert.1 hd with rfl | hd
    · have hmem := ha.own.mem_iff.1 hx
      rw [mem_cons, mem_singleton] at hmem
      rcases hmem with rfl | rfl
      · exact mem_insert_self ..
      · exact mem_insert_of_mem (h.sub ha.mem)
    · rcases ha.addsAt.mem_of hd hx with ⟨rfl, -⟩ | hx
      · exact mem_insert_self ..
      · exact mem_insert_of_mem (h.named d hd x hx)
  · rw [hlive]
    intro i hi
    rw [ha.refs]
    rcases mem_insert.1 hi with rfl | hi
    · rw [hnew, h.toCounted.refs_eq_zero hfresh, if_pos rfl, if_neg ha.ne.symm]
    · rw [if_neg (show e.ino ≠ i by rintro rfl; exact hfresh hi), add_zero]
      by_cases hip : i = p
      · rw [hip, hpar, h.links p (hip ▸ hi), if_pos rfl]
      · rw [hold i hi hip, h.links i hi, if_neg (Ne.symm hip), add_zero]
  · rw [hlive]
    intro i hi
    rw [ha.refs]
    rcases mem_insert.1 hi with rfl | hi
    · rw [if_pos rfl]
      omega
    · have := h.used i hi
      omega

end Names

end Thos.Ext2
