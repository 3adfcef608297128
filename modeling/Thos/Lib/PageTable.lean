import Mathlib.Tactic
import Thos.Lib.OrdMap

/-!
# Page tables as radix trees

A table of depth `n + 1` is a frame that holds entries, each an index and a table of depth
`n`; a table of depth 0 is the frame of a page. The number of a page is read in base `b`, one
digit for each depth. Mapping a page takes a frame from a list of free ones for each table
that is missing on the way down; unmapping clears the last entry only, and keeps the tables.

A table is described by two lists: its pages, each a number and a frame, and the frames of
its tables. `Grows` says what mapping adds to them, and composes along a sequence of
mappings.
-/

set_option autoImplicit false

namespace Thos.Lib

/-- A table: the frame it is stored in and its present entries. -/
structure Node (φ α : Type) where
  frame : φ
  entries : List (Nat × α)

/-- A table of the given depth. -/
def Table (φ : Type) : Nat → Type
  | 0 => φ
  | n + 1 => Node φ (Table φ n)

namespace Table

open List OrdMap Node
open scoped List

variable {φ : Type}

/-! ## Operations -/

/-- The pages: number and frame, in the order of the numbers. -/
def pages (b : Nat) : (n : Nat) → Table φ n → List (Nat × φ)
  | 0, f => [(0, f)]
  | n + 1, t =>
    (entries t).flatMap fun e => (pages b n e.2).map fun p => (e.1 * b ^ n + p.1, p.2)

/-- The frames of the tables. -/
def tables : (n : Nat) → Table φ n → List φ
  | 0, _ => []
  | n + 1, t => (entries t).flatMap (fun e => tables n e.2) ++ [frame t]

/-- All frames, each table's after those under it. -/
def walk : (n : Nat) → Table φ n → List φ
  | 0, f => [f]
  | n + 1, t => (entries t).flatMap (fun e => walk n e.2) ++ [frame t]

/-- New tables down to a page, the outermost first. -/
def chain (b : Nat) : (n : Nat) → Nat → φ → List φ → Option (Table φ n × List φ)
  | 0, _, f, free => some (f, free)
  | _ + 1, _, _, [] => none
  | n + 1, v, f, a :: free =>
    (chain b n (v % b ^ n) f free).map fun r => (⟨a, [(v / b ^ n, r.1)]⟩, r.2)

/-- Map a page; `none` if it is mapped already or there is no frame for a table. -/
def map (b : Nat) : (n : Nat) → Nat → φ → Table φ n → List φ → Option (Table φ n × List φ)
  | 0, _, _, _, _ => none
  | n + 1, v, f, t, free =>
    (match get? (v / b ^ n) (entries t) with
      | some c => map b n (v % b ^ n) f c free
      | none => chain b n (v % b ^ n) f free).map fun (r : Table φ n × List φ) =>
        (⟨frame t, insert (v / b ^ n) r.1 (entries t)⟩, r.2)

/-- Clear the entry of a page. -/
def unmap (b : Nat) : (n : Nat) → Nat → Table φ n → Table φ n
  | 0, _, f => f
  | 1, v, t => (⟨frame t, erase v (entries t)⟩ : Node φ (Table φ 0))
  | n + 2, v, t =>
    (⟨frame t, (entries t).map fun e =>
      if e.1 = v / b ^ (n + 1) then (e.1, unmap b (n + 1) (v % b ^ (n + 1)) e.2) else e⟩ :
      Node φ (Table φ (n + 1)))

/-- Walk down to a page. -/
def find (b : Nat) : (n : Nat) → Nat → Table φ n → Option φ
  | 0, _, f => some f
  | n + 1, v, t => (get? (v / b ^ n) (entries t)).bind fun c => find b n (v % b ^ n) c

/-- The indices of every table ascend and are digits. -/
def Ordered (b : Nat) : (n : Nat) → Table φ n → Prop
  | 0, _ => True
  | n + 1, t => OrdMap.Ascending (entries t) ∧ ∀ e ∈ entries t, e.1 < b ∧ Ordered b n e.2

def indices {n : Nat} (t : Table φ (n + 1)) : List Nat := (entries t).map Prod.fst

/-- The table with the entries below `k` only. -/
def lower {n : Nat} (k : Nat) (t : Table φ (n + 1)) : Table φ (n + 1) :=
  (⟨frame t, (entries t).filter fun e => e.1 < k⟩ : Node φ (Table φ n))

/-- The frames under the entries from `k` on. -/
def upper {n : Nat} (k : Nat) (t : Table φ (n + 1)) : List φ :=
  ((entries t).filter fun e => k ≤ e.1).flatMap fun e => walk n e.2

/-! ## The pages and the tables of a node -/

variable {b n : Nat}

def under (b : Nat) {n : Nat} (e : Nat × Table φ n) : List (Nat × φ) :=
  (pages b n e.2).map fun p => (e.1 * b ^ n + p.1, p.2)

variable (frame : φ) (entries : List (Nat × Table φ n)) {t t' : Table φ n}

@[simp] theorem pages_node :
    pages b (n + 1) (⟨frame, entries⟩ : Node φ (Table φ n)) = entries.flatMap (under b) :=
  rfl

@[simp] theorem tables_node : tables (n + 1) (⟨frame, entries⟩ : Node φ (Table φ n)) =
      entries.flatMap (fun e => tables n e.2) ++ [frame] :=
  rfl

@[simp] theorem walk_node : walk (n + 1) (⟨frame, entries⟩ : Node φ (Table φ n)) =
      entries.flatMap (fun e => walk n e.2) ++ [frame] :=
  rfl

theorem ordered_node {frame : φ} {entries : List (Nat × Table φ n)} :
    Ordered b (n + 1) (⟨frame, entries⟩ : Node φ (Table φ n)) ↔
      OrdMap.Ascending entries ∧ ∀ e ∈ entries, e.1 < b ∧ Ordered b n e.2 :=
  Iff.rfl

theorem ordered_singleton {frame : φ} {i : Nat} (hi : i < b)
    (ht : Ordered b n t) : Ordered b (n + 1) (⟨frame, [(i, t)]⟩ : Node φ (Table φ n)) := by
  refine ⟨pairwise_singleton .., fun e he => ?_⟩
  obtain rfl := mem_singleton.1 he
  exact ⟨hi, ht⟩

theorem walk_perm (b : Nat) : ∀ (n : Nat) (t : Table φ n),
    (walk n t).Perm ((pages b n t).map Prod.snd ++ tables n t) := by
  intro n
  induction n with
  | zero => intro t; exact List.Perm.refl _
  | succ n ih =>
    rintro ⟨frame, entries⟩
    rw [walk_node, pages_node, tables_node, ← append_assoc]
    refine List.Perm.append_right _ ?_
    induction entries with
    | nil => exact List.Perm.refl _
    | cons e entries ihe =>
      have hunder : (under b e).map Prod.snd = (pages b n e.2).map Prod.snd := by
        simp [under, Function.comp_def]
      simp only [flatMap_cons, map_append, hunder, append_assoc]
      refine ((ih e.2).append ihe).trans ?_
      rw [append_assoc]
      refine List.Perm.append_left _ ?_
      rw [← append_assoc, ← append_assoc]
      exact perm_append_comm.append_right _

theorem lt_of_mem_pages : ∀ {n : Nat} {t : Table φ n}, Ordered b n t →
    ∀ p ∈ pages b n t, p.1 < b ^ n := by
  intro n
  induction n with
  | zero =>
    intro t _ p hp
    rw [pages, mem_singleton] at hp
    simp [hp]
  | succ n ih =>
    rintro ⟨frame, entries⟩ ⟨_, hall⟩ p hp
    obtain ⟨e, he, hp⟩ := mem_flatMap.1 hp
    obtain ⟨q, hq, rfl⟩ := mem_map.1 hp
    have hdigit : e.1 + 1 ≤ b := (hall e he).1
    have hrest : q.1 < b ^ n := ih (hall e he).2 q hq
    calc e.1 * b ^ n + q.1 < e.1 * b ^ n + b ^ n := Nat.add_lt_add_left hrest _
      _ = (e.1 + 1) * b ^ n := (Nat.succ_mul ..).symm
      _ ≤ b * b ^ n := Nat.mul_le_mul_right _ hdigit
      _ = b ^ (n + 1) := (Nat.pow_succ').symm

theorem digits_of_mem_under {e : Nat × Table φ n} (he : Ordered b n e.2) {p : Nat × φ}
    (hp : p ∈ under b e) : p.1 / b ^ n = e.1 ∧ (p.1 % b ^ n, p.2) ∈ pages b n e.2 := by
  obtain ⟨q, hq, rfl⟩ := mem_map.1 hp
  have hlt : q.1 < b ^ n := lt_of_mem_pages he q hq
  have hpos : 0 < b ^ n := Nat.zero_lt_of_lt hlt
  refine ⟨?_, ?_⟩
  · rw [Nat.add_comm, Nat.add_mul_div_right _ _ hpos, Nat.div_eq_of_lt hlt, Nat.zero_add]
  · rw [Nat.add_comm, Nat.add_mul_mod_self_right, Nat.mod_eq_of_lt hlt]
    exact hq

theorem nodup_pages : ∀ {n : Nat} {t : Table φ n}, Ordered b n t →
    ((pages b n t).map Prod.fst).Nodup := by
  intro n
  induction n with
  | zero => intro t _; exact nodup_singleton _
  | succ n ih =>
    rintro ⟨frame, entries⟩ hord
    obtain ⟨hasc, hall⟩ := ordered_node.1 hord
    rw [pages_node, map_flatMap, nodup_flatMap]
    constructor
    · intro e he
      have hinj : Function.Injective fun v : Nat => e.1 * b ^ n + v :=
        fun v v' h => Nat.add_left_cancel h
      have hmap : (under b e).map Prod.fst =
          ((pages b n e.2).map Prod.fst).map fun v => e.1 * b ^ n + v := by
        simp [under, Function.comp_def]
      rw [hmap]
      exact (ih (hall e he).2).map hinj
    · -- entries apart in the list have different digits
      have hdigits : entries.Pairwise fun e e' => e.1 ≠ e'.1 := by
        refine List.Pairwise.imp ?_ hasc
        intro e e' hlt
        exact Nat.ne_of_lt (Nat.compare_eq_lt.1 hlt)
      refine List.Pairwise.imp_of_mem (fun {e e'} he he' hne => ?_) hdigits
      intro v hv hv'
      obtain ⟨p, hp, rfl⟩ := mem_map.1 hv
      obtain ⟨p', hp', heq⟩ := mem_map.1 hv'
      have hdigit := (digits_of_mem_under (hall e he).2 hp).1
      have hdigit' := (digits_of_mem_under (hall e' he').2 hp').1
      exact hne (by rw [← hdigit, ← hdigit', heq])

theorem find_of_mem_pages : ∀ {n v : Nat} {f : φ} {t : Table φ n}, Ordered b n t →
    (v, f) ∈ pages b n t → find b n v t = some f := by
  intro n
  induction n with
  | zero =>
    intro v f t _ hmem
    obtain ⟨-, rfl⟩ := Prod.mk.inj (mem_singleton.1 hmem)
    rfl
  | succ n ih =>
    rintro v f ⟨frame, entries⟩ ⟨hasc, hent⟩ hmem
    obtain ⟨e, he, hmem⟩ := mem_flatMap.1 hmem
    obtain ⟨hdiv, hmod⟩ := digits_of_mem_under (hent e he).2 hmem
    have hget : get? (v / b ^ n) entries = some e.2 := get?_of_mem hasc (hdiv ▸ he)
    exact (congrArg (Option.bind · _) hget).trans (ih (hent e he).2 hmod)

theorem mem_pages_of_find : ∀ {n v : Nat} {f : φ} {t : Table φ n}, v < b ^ n →
    find b n v t = some f → (v, f) ∈ pages b n t := by
  intro n
  induction n with
  | zero =>
    intro v f t hv h
    obtain rfl : v = 0 := by simpa using hv
    exact mem_singleton.2 (congrArg _ (Option.some.inj h).symm)
  | succ n ih =>
    rintro v f ⟨frame, entries⟩ hv h
    obtain ⟨c, hget, hfind⟩ := Option.bind_eq_some_iff.1 h
    have hpos : 0 < b ^ n := Nat.pos_of_ne_zero fun hzero => by
      rw [Nat.pow_succ, hzero, Nat.zero_mul] at hv
      exact Nat.not_lt_zero v hv
    refine mem_flatMap.2 ⟨_, mem_of_get? hget, mem_map.2 ⟨_, ih (Nat.mod_lt v hpos) hfind, ?_⟩⟩
    rw [Nat.div_add_mod']

/-! ## Mapping -/

/-- What mapping pages adds: pages, and the tables that were missing. -/
structure Grows (b n : Nat) (t t' : Table φ n) (added : List (Nat × φ)) (new : List φ) : Prop where
  ordered : Ordered b n t'
  pages : (pages b n t').Perm (added ++ pages b n t)
  tables : (tables n t').Perm (new ++ tables n t)

theorem Grows.refl (h : Ordered b n t) : Grows b n t t [] [] :=
  ⟨h, .refl _, .refl _⟩

theorem Grows.trans {t'' : Table φ n} {added added' : List (Nat × φ)} {new new' : List φ}
    (h : Grows b n t t' added new) (h' : Grows b n t' t'' added' new') :
    Grows b n t t'' (added' ++ added) (new' ++ new) where
  ordered := h'.ordered
  pages := by
    rw [append_assoc]
    exact h'.pages.trans (h.pages.append_left _)
  tables := by
    rw [append_assoc]
    exact h'.tables.trans (h.tables.append_left _)

theorem Grows.perm {added added' : List (Nat × φ)} {new new' : List φ}
    (h : Grows b n t t' added new) (hadded : added.Perm added') (hnew : new.Perm new') :
    Grows b n t t' added' new' :=
  ⟨h.ordered, h.pages.trans (hadded.append_right _), h.tables.trans (hnew.append_right _)⟩

theorem Grows.disjoint {added : List (Nat × φ)} {new : List φ}
    (h : Grows b n t t' added new) : (added.map Prod.fst).Nodup ∧ (added.map Prod.fst).Disjoint
    ((Table.pages b n t).map Prod.fst) := by
  have hnodup := (h.pages.map Prod.fst).nodup_iff.1 (nodup_pages h.ordered)
  rw [map_append, nodup_append'] at hnodup
  exact ⟨hnodup.1, hnodup.2.2⟩

theorem chain_spec : ∀ {n v : Nat} {f : φ} {free free' : List φ} {t : Table φ n}, v < b ^ n →
    chain b n v f free = some (t, free') →
    Ordered b n t ∧ pages b n t = [(v, f)] ∧ ∃ new, free = new ++ free' ∧
    (tables n t).Perm new := by
  intro n
  induction n with
  | zero =>
    intro v f free free' t hv h
    cases h
    have hzero : v = 0 := by simpa using hv
    exact ⟨trivial, by rw [hzero]; rfl, [], rfl, .refl _⟩
  | succ n ih =>
    intro v f free free' t hv h
    cases free with
    | nil => cases h
    | cons a free =>
      obtain ⟨⟨c, rest⟩, hc, ⟨⟩⟩ := Option.map_eq_some_iff.1 h
      have hpow : b ^ (n + 1) = b * b ^ n := Nat.pow_succ'
      have hpos : 0 < b ^ n := by
        rcases Nat.eq_zero_or_pos (b ^ n) with hzero | hpos
        · rw [hpow, hzero, Nat.mul_zero] at hv
          exact absurd hv (Nat.not_lt_zero v)
        · exact hpos
      obtain ⟨hord, hpages, new, rfl, htabs⟩ := ih (Nat.mod_lt v hpos) hc
      have hdigit : v / b ^ n < b := Nat.div_lt_of_lt_mul (by rwa [hpow, Nat.mul_comm] at hv)
      refine ⟨ordered_singleton hdigit hord, ?_, a :: new, rfl, ?_⟩
      · rw [pages_node, flatMap_singleton, under, hpages, map_singleton, Nat.div_add_mod']
      · rw [tables_node, flatMap_singleton]
        exact (perm_append_singleton a _).trans (htabs.cons a)

theorem perm_flatMap_replace {α β : Type} {g : α → List β} {l old r : List α} {x : α}
    {added : List β} (h : (g x).Perm (added ++ old.flatMap g)) :
    ((l ++ x :: r).flatMap g).Perm (added ++ (l ++ (old ++ r)).flatMap g) := by
  simp only [flatMap_append, flatMap_cons]
  calc l.flatMap g ++ (g x ++ r.flatMap g)
      ~ l.flatMap g ++ (added ++ old.flatMap g ++ r.flatMap g) :=
        (h.append_right _).append_left _
    _ ~ added ++ (l.flatMap g ++ (old.flatMap g ++ r.flatMap g)) := by
        rw [append_assoc]
        exact perm_append_comm_assoc ..

theorem map_node {v : Nat} {f frame : φ} {entries : List (Nat × Table φ n)}
    {free free' : List φ} {t' : Table φ (n + 1)} :
    map b (n + 1) v f (⟨frame, entries⟩ : Node φ (Table φ n)) free = some (t', free') ↔
      ∃ c, (match get? (v / b ^ n) entries with
        | some c => map b n (v % b ^ n) f c free
        | none => chain b n (v % b ^ n) f free) = some (c, free') ∧
        (⟨frame, insert (v / b ^ n) c entries⟩ : Node φ (Table φ n)) = t' := by
  refine Option.map_eq_some_iff.trans ⟨?_, ?_⟩
  · rintro ⟨⟨c, rest⟩, hc, heq⟩
    cases heq
    exact ⟨c, hc, rfl⟩
  · rintro ⟨c, hc, rfl⟩
    exact ⟨(c, free'), hc, rfl⟩

theorem map_spec : ∀ {n v : Nat} {f : φ} {t t' : Table φ n} {free free' : List φ}, v < b ^ n →
    Ordered b n t → map b n v f t free = some (t', free') →
    ∃ new, free = new ++ free' ∧ Grows b n t t' [(v, f)] new := by
  intro n
  induction n with
  | zero =>
    intro v f t t' free free' _ _ h
    cases h
  | succ n ih =>
    rintro v f ⟨frame, entries⟩ t' free free' hv hord h
    obtain ⟨hasc, hall⟩ := ordered_node.1 hord
    obtain ⟨c', hbelow, rfl⟩ := map_node.1 h
    have hpow : b ^ (n + 1) = b ^ n * b := Nat.pow_succ b n
    have hpos : 0 < b ^ n := Nat.pos_of_ne_zero fun hzero => by
      rw [hpow, hzero, Nat.zero_mul] at hv
      exact Nat.not_lt_zero v hv
    have hmod : v % b ^ n < b ^ n := Nat.mod_lt v hpos
    have hdigit : v / b ^ n < b := Nat.div_lt_of_lt_mul (hpow ▸ hv)
    -- the entry is there and its table grows, or it is new and holds the page alone
    have hentry : ∃ l old r new, entries = l ++ (old ++ r) ∧
        insert (v / b ^ n) c' entries = l ++ (v / b ^ n, c') :: r ∧
        free = new ++ free' ∧ Ordered b n c' ∧
        (under b (v / b ^ n, c')).Perm ([(v, f)] ++ old.flatMap (under b)) ∧
        (tables n c').Perm (new ++ old.flatMap fun e => tables n e.2) := by
      split at hbelow
      · rename_i c hget
        obtain ⟨l, r, hsplit, hins⟩ := insert_of_get?_some hasc hget
        have hc := (hall (v / b ^ n, c) (mem_of_get? hget)).2
        obtain ⟨new, hfree, hgrow⟩ := ih hmod hc hbelow
        refine ⟨l, [(v / b ^ n, c)], r, new, hsplit, hins c', hfree, hgrow.ordered, ?_, ?_⟩
        · have hunder := hgrow.pages.map fun p => (v / b ^ n * b ^ n + p.1, p.2)
          simpa [under, Nat.div_add_mod'] using hunder
        · simpa using hgrow.tables
      · rename_i hget
        obtain ⟨l, r, hsplit, hins⟩ := insert_of_get?_none hget
        obtain ⟨hord, hpages, new, hfree, htabs⟩ := chain_spec hmod hbelow
        refine ⟨l, [], r, new, hsplit, hins c', hfree, hord, ?_, by simpa using htabs⟩
        simp [under, hpages, Nat.div_add_mod']
    obtain ⟨l, old, r, new, rfl, hins, hfree, hord', hunder, htabs⟩ := hentry
    refine ⟨new, hfree, ?_, ?_, ?_⟩
    · refine ordered_node.2 ⟨ascending_insert hasc .., fun e he => ?_⟩
      rcases eq_or_mem_of_mem_insert he with rfl | he
      · exact ⟨hdigit, hord'⟩
      · exact hall e he
    · rw [pages_node, pages_node, hins]
      exact perm_flatMap_replace hunder
    · rw [tables_node, tables_node, hins, ← append_assoc]
      exact (perm_flatMap_replace htabs).append_right _

theorem find_map {n v w : Nat} {f : φ} {t t' : Table φ n} {free free' : List φ} (hv : v < b ^ n)
    (hw : w < b ^ n) (ht : Ordered b n t) (h : map b n v f t free = some (t', free')) :
    find b n w t' = if w = v then some f else find b n w t := by
  obtain ⟨new, -, hgrow⟩ := map_spec hv ht h
  have hmem (x : φ) : find b n w t' = some x ↔ (w, x) ∈ (v, f) :: pages b n t :=
    ⟨fun hx => hgrow.pages.mem_iff.1 (mem_pages_of_find hw hx),
      fun hx => find_of_mem_pages hgrow.ordered (hgrow.pages.mem_iff.2 hx)⟩
  split_ifs with heq
  · exact (hmem f).2 (heq ▸ mem_cons_self)
  · refine Option.ext fun x => (hmem x).trans ?_
    rw [mem_cons, or_iff_right fun h => heq (congrArg Prod.fst h)]
    exact ⟨find_of_mem_pages ht, mem_pages_of_find hw⟩

variable (v : Nat) {k : Nat} {t : Table φ (n + 1)}

theorem chain_returns (f : φ) : ∀ {n : Nat} {free : List φ}, n ≤ free.length →
    ∃ t, chain b n v f free = some (t, free.drop n) := by
  intro n
  induction n generalizing v with
  | zero => exact fun _ => ⟨f, rfl⟩
  | succ n ih =>
    intro free hfree
    cases free with
    | nil => cases hfree
    | cons a free =>
      obtain ⟨t, ht⟩ := ih (v % b ^ n) (Nat.le_of_succ_le_succ hfree)
      exact ⟨_, congrArg (Option.map _) ht⟩

theorem map_returns : ∀ {n v : Nat} {f : φ} {t : Table φ n} {free : List φ}, v < b ^ n →
    (∀ f', (v, f') ∉ pages b n t) → n ≤ free.length →
    ∃ t' k, k ≤ n ∧ map b n v f t free = some (t', free.drop k) := by
  intro n
  induction n with
  | zero =>
    intro v f t free hv hnew _
    have hzero : v = 0 := by simpa using hv
    exact absurd (mem_singleton.2 (by rw [hzero])) (hnew t)
  | succ n ih =>
    rintro v f ⟨frame, entries⟩ free hv hnew hfree
    have hle : n ≤ free.length := Nat.le_of_succ_le hfree
    have hbelow : ∃ c k, k ≤ n ∧ (match get? (v / b ^ n) entries with
        | some c => map b n (v % b ^ n) f c free
        | none => chain b n (v % b ^ n) f free) = some (c, free.drop k) := by
      split
      · rename_i c hget
        have hpos : 0 < b ^ n := Nat.pos_of_ne_zero fun hzero => by
          rw [Nat.pow_succ, hzero, Nat.zero_mul] at hv
          exact Nat.not_lt_zero v hv
        refine ih (Nat.mod_lt v hpos) (fun f' hmem => hnew f' ?_) hle
        refine mem_flatMap.2 ⟨_, mem_of_get? hget, mem_map.2 ⟨_, hmem, ?_⟩⟩
        rw [Nat.div_add_mod']
      · obtain ⟨c, hc⟩ := chain_returns (v % b ^ n) f hle
        exact ⟨c, n, Nat.le_refl n, hc⟩
    obtain ⟨c, k, hk, hc⟩ := hbelow
    exact ⟨_, k, Nat.le_succ_of_le hk, map_node.2 ⟨c, hc, rfl⟩⟩

/-! ## Unmapping -/

theorem unmap_last (entries : List (Nat × Table φ 0)) :
    unmap b 1 v (⟨frame, entries⟩ : Node φ (Table φ 0)) =
      (⟨frame, erase v entries⟩ : Node φ (Table φ 0)) :=
  rfl

/-- Unmapping in the table under the entry that leads to the page. -/
def unmapUnder (b : Nat) {n : Nat} (v : Nat) (e : Nat × Table φ (n + 1)) : Nat × Table φ (n + 1) :=
  if e.1 = v / b ^ (n + 1) then (e.1, unmap b (n + 1) (v % b ^ (n + 1)) e.2) else e

theorem unmap_node (entries : List (Nat × Table φ (n + 1))) :
    unmap b (n + 2) v (⟨frame, entries⟩ : Node φ (Table φ (n + 1))) =
      (⟨frame, entries.map (unmapUnder b v)⟩ : Node φ (Table φ (n + 1))) :=
  rfl

@[simp] theorem unmapUnder_fst (e : Nat × Table φ (n + 1)) : (unmapUnder b v e).1 = e.1 := by
  unfold unmapUnder
  split
  · rfl
  · rfl

theorem tables_unmap : ∀ (n v : Nat) (t : Table φ n), tables n (unmap b n v t) = tables n t := by
  intro n
  induction n with
  | zero => intro v t; rfl
  | succ n ih =>
    rintro v ⟨frame, entries⟩
    cases n with
    | zero =>
      have hnil (m : List (Nat × Table φ 0)) : m.flatMap (fun e => tables 0 e.2) = [] :=
        flatMap_eq_nil_iff.2 fun _ _ => rfl
      rw [unmap_last, tables_node, tables_node, hnil, hnil]
    | succ n =>
      rw [unmap_node, tables_node, tables_node, flatMap_map]
      congr 2
      funext e
      unfold unmapUnder
      split
      · exact ih ..
      · rfl

theorem ordered_unmap : ∀ {n : Nat} (v : Nat) {t : Table φ n}, Ordered b n t →
    Ordered b n (unmap b n v t) := by
  intro n
  induction n with
  | zero => intro v t h; exact h
  | succ n ih =>
    rintro v ⟨frame, entries⟩ hord
    obtain ⟨hasc, hall⟩ := ordered_node.1 hord
    cases n with
    | zero =>
      rw [unmap_last]
      exact ordered_node.2 ⟨ascending_erase hasc v, fun e he => hall e (mem_of_mem_filter he)⟩
    | succ n =>
      rw [unmap_node]
      refine ordered_node.2 ⟨pairwise_map.2 ?_, fun e he => ?_⟩
      · simpa [OrdMap.Ascending] using hasc
      · obtain ⟨e, hmem, rfl⟩ := mem_map.1 he
        unfold unmapUnder
        split
        · exact ⟨(hall e hmem).1, ih _ (hall e hmem).2⟩
        · exact hall e hmem

theorem pages_last (entries : List (Nat × φ)) :
    pages b 1 (⟨frame, entries⟩ : Node φ (Table φ 0)) = entries := by
  induction entries with
  | nil => rfl
  | cons e entries ih =>
    have hunder : (e.1 * b ^ 0 + 0, e.2) = e := by rw [Nat.pow_zero, Nat.mul_one]; rfl
    calc pages b 1 (⟨frame, e :: entries⟩ : Node φ (Table φ 0))
        = (e.1 * b ^ 0 + 0, e.2) :: pages b 1 (⟨frame, entries⟩ : Node φ (Table φ 0)) := rfl
      _ = e :: entries := by rw [hunder, ih]

theorem pages_unmap : ∀ {n : Nat} (v : Nat) {t : Table φ (n + 1)}, Ordered b (n + 1) t →
    pages b (n + 1) (unmap b (n + 1) v t) = (pages b (n + 1) t).filter fun p => p.1 ≠ v := by
  intro n
  induction n with
  | zero =>
    rintro v ⟨frame, entries⟩ _
    have herase : erase v entries = entries.filter fun p : Nat × φ => p.1 ≠ v := by
      refine filter_congr fun p _ => ?_
      exact decide_eq_decide.2 (not_congr (Nat.compare_eq_eq.trans eq_comm))
    exact (pages_last frame (erase v entries)).trans
      (herase.trans (congrArg (filter _) (pages_last frame entries).symm))
  | succ n ih =>
    rintro v ⟨frame, entries⟩ hord
    obtain ⟨hasc, hall⟩ := ordered_node.1 hord
    rw [unmap_node, pages_node, pages_node, flatMap_map, filter_flatMap]
    refine flatMap_congr fun e he => ?_
    have hmem {p : Nat × φ} (hp : p ∈ under b e) := digits_of_mem_under (hall e he).2 hp
    unfold unmapUnder
    split
    · rename_i hdigit
      rw [under, ih _ (hall e he).2, under, filter_map]
      congr 1
      refine filter_congr fun p _ => ?_
      have hv : e.1 * b ^ (n + 1) + v % b ^ (n + 1) = v := by rw [hdigit, Nat.div_add_mod']
      have hiff : p.1 ≠ v % b ^ (n + 1) ↔ e.1 * b ^ (n + 1) + p.1 ≠ v := by omega
      simp [hiff]
    · rename_i hdigit
      symm
      refine filter_eq_self.2 fun p hp => ?_
      have hne : p.1 ≠ v := fun heq => hdigit (by rw [← heq, (hmem hp).1])
      simpa using hne

/-! ## The lower and the upper half -/

theorem mem_indices_map {v : Nat} {f : φ} {t' : Table φ (n + 1)} {free free' : List φ}
    (h : map b (n + 1) v f t free = some (t', free')) {i : Nat} :
    i ∈ indices t' ↔ i = v / b ^ n ∨ i ∈ indices t := by
  obtain ⟨frame, entries⟩ := t
  obtain ⟨c, _, rfl⟩ := map_node.1 h
  exact mem_keys_insert

theorem indices_unmap (t : Table φ (n + 2)) : indices (unmap b (n + 2) v t) = indices t := by
  obtain ⟨frame, entries⟩ := t
  rw [unmap_node]
  exact map_map.trans (map_congr_left fun e _ => unmapUnder_fst v e)

theorem walk_ne_nil : ∀ (n : Nat) (t : Table φ n), walk n t ≠ [] := by
  intro n t
  cases n with
  | zero => exact cons_ne_nil _ _
  | succ n =>
    obtain ⟨frame, entries⟩ := t
    rw [walk_node]
    exact append_ne_nil_of_right_ne_nil _ (cons_ne_nil _ _)

theorem upper_eq_nil_iff : upper k t = [] ↔ ∀ i ∈ indices t, i < k := by
  obtain ⟨frame, entries⟩ := t
  refine flatMap_eq_nil_iff.trans ⟨?_, ?_⟩
  · intro h i hi
    obtain ⟨e, he, rfl⟩ := mem_map.1 hi
    by_contra hge
    exact walk_ne_nil n e.2 (h e (mem_filter.2 ⟨he, decide_eq_true (Nat.not_lt.1 hge)⟩))
  · intro h e he
    obtain ⟨hmem, hge⟩ := mem_filter.1 he
    exact absurd (h e.1 (mem_map_of_mem hmem)) (Nat.not_lt.2 (of_decide_eq_true hge))

theorem walk_lower_upper (k : Nat) (t : Table φ (n + 1)) :
    (walk (n + 1) t).Perm (walk (n + 1) (lower k t) ++ upper k t) := by
  obtain ⟨frame, entries⟩ := t
  have hsplit : (entries.filter (fun e => e.1 < k) ++ entries.filter fun e => k ≤ e.1).Perm
      entries := by
    have hnot : (fun e : Nat × Table φ n => decide (k ≤ e.1)) = fun e => !decide (e.1 < k) := by
      funext e
      rw [← decide_not]
      exact decide_eq_decide.2 Nat.not_lt.symm
    rw [hnot]
    exact filter_append_perm ..
  have hwalk := hsplit.symm.flatMap_right fun e => walk n e.2
  rw [flatMap_append] at hwalk
  have hlower : lower k (⟨frame, entries⟩ : Node φ (Table φ n)) =
      (⟨frame, entries.filter fun e => e.1 < k⟩ : Node φ (Table φ n)) := rfl
  rw [hlower, walk_node, walk_node, append_assoc]
  refine (hwalk.append_right _).trans ?_
  rw [append_assoc]
  exact perm_append_comm.append_left _

theorem pages_lower_sublist : (pages b (n + 1) (lower k t)).Sublist (pages b (n + 1) t) :=
  filter_sublist.flatMap _

theorem lt_of_mem_lower (hord : Ordered b (n + 1) t)
    {p : Nat × φ} (hp : p ∈ pages b (n + 1) (lower k t)) : p.1 < k * b ^ n := by
  obtain ⟨frame, entries⟩ := t
  obtain ⟨e, he, hmem⟩ := mem_flatMap.1 hp
  obtain ⟨hentry, hlt⟩ := mem_filter.1 he
  have hbelow := ((ordered_node.1 hord).2 e hentry).2
  obtain ⟨hdigit, hrest⟩ := digits_of_mem_under hbelow hmem
  have hpos : 0 < b ^ n := Nat.zero_lt_of_lt (lt_of_mem_pages hbelow _ hrest)
  rw [← Nat.div_lt_iff_lt_mul hpos, hdigit]
  exact of_decide_eq_true hlt

/-! ## Other frames -/

variable {ψ : Type}

def mapFrames (g : φ → ψ) : (n : Nat) → Table φ n → Table ψ n
  | 0, f => g f
  | n + 1, t => (⟨g (Node.frame t), mapValues (mapFrames g n) (Node.entries t)⟩ :
    Node ψ (Table ψ n))

theorem pages_mapFrames (g : φ → ψ) : ∀ (n : Nat) (t : Table φ n),
    pages b n (mapFrames g n t) = mapValues g (pages b n t) := by
  intro n
  induction n with
  | zero => exact fun t => rfl
  | succ n ih =>
    rintro ⟨frame, entries⟩
    simp only [mapFrames, pages, mapValues, flatMap_map, map_flatMap, map_map] at ih ⊢
    simp only [ih, map_map]
    rfl

theorem chain_mapFrames (g : φ → ψ) : ∀ (n v : Nat) (f : φ) (free : List φ),
    chain b n v (g f) (free.map g) =
      (chain b n v f free).map (Prod.map (mapFrames g n) (List.map g)) := by
  intro n
  induction n with
  | zero => exact fun v f free => rfl
  | succ n ih =>
    rintro v f (_ | ⟨a, free⟩)
    · rfl
    · rw [map_cons, chain, chain, ih, Option.map_map, Option.map_map]
      rfl

theorem map_mapFrames (g : φ → ψ) : ∀ (n v : Nat) (f : φ) (t : Table φ n) (free : List φ),
    map b n v (g f) (mapFrames g n t) (free.map g) =
      (map b n v f t free).map (Prod.map (mapFrames g n) (List.map g)) := by
  intro n
  induction n with
  | zero => exact fun v f t free => rfl
  | succ n ih =>
    rintro v f ⟨frame, entries⟩ free
    have hnode (x : Option (Table φ n × List φ)) :
        (x.map (Prod.map (mapFrames g n) (List.map g))).map (fun r => ((⟨g frame,
            insert (v / b ^ n) r.1 (mapValues (mapFrames g n) entries)⟩ :
              Node ψ (Table ψ n)), r.2)) =
          (x.map fun r => ((⟨frame, insert (v / b ^ n) r.1 entries⟩ : Node φ (Table φ n)),
            r.2)).map (Prod.map (mapFrames g (n + 1)) (List.map g)) := by
      cases x with
      | none => rfl
      | some r =>
        exact congrArg (fun m => some ((⟨g frame, m⟩ : Node ψ (Table ψ n)), r.2.map g))
          (insert_mapValues (mapFrames g n) (v / b ^ n) r.1 entries).symm
    refine Eq.trans (congrArg (Option.map _) ?_) (hnode _)
    change (match get? (v / b ^ n) (mapValues (mapFrames g n) entries) with
      | some c => map b n (v % b ^ n) (g f) c (free.map g)
      | none => chain b n (v % b ^ n) (g f) (free.map g)) = _
    rw [get?_mapValues]
    cases get? (v / b ^ n) entries with
    | none => exact chain_mapFrames g n _ f free
    | some c => exact ih _ f c free

end Table

end Thos.Lib
