import Thos.Lib.OrdMap
import Thos.Lib.Text

/-!
# The registry key tree

`registry.rs` keeps one global tree of keys. A key has subkeys and typed values,
each in a map ordered by name, and an owner uid. Paths are split into lower-case
components (`components`), and every operation walks the tree along them: `find`
reads, `make` creates what is missing, `findMut` changes an existing key.

`make` and `findMut` hand out a mutable reference in the source. Here they take the
update to perform at the key that was reached and return the changed tree.

`Key.Wf` is the shape every tree built through these operations has: ordered maps,
key names that are path components, lower-case value names. The last section shows
that the operations keep it.
-/

set_option autoImplicit false

namespace Thos.Registry

open Thos.Lib List OrdMap Option

/-! ## Data model -/

/-- One stored value: a `REG_*` type tag plus its raw bytes. -/
structure Value where
  ty : UInt32
  data : Bytes
  deriving DecidableEq

/-- A registry key: subkeys, values, and the uid that owns it. -/
inductive Key where
  | mk (subkeys : List (Bytes × Key)) (values : List (Bytes × Value)) (ownerUid : UInt32)

namespace Key

/-- The subkeys, in name order. -/
def subkeys : Key → List (Bytes × Key)
  | .mk subs _ _ => subs

/-- The values, in name order. -/
def values : Key → List (Bytes × Value)
  | .mk _ vals _ => vals

def ownerUid : Key → UInt32
  | .mk _ _ uid => uid

/-- An empty key of the system account. -/
def new : Key := .mk [] [] 0

instance : Inhabited Key := ⟨.new⟩

/-- An empty key owned by `uid`. -/
def owned (uid : UInt32) : Key := .mk [] [] uid

def setOwner (uid : UInt32) : Key → Key
  | .mk subs vals _ => .mk subs vals uid

/-- `values.insert`. -/
def insertValue (name : Bytes) (v : Value) : Key → Key
  | .mk subs vals uid => .mk subs (insert name v vals) uid

/-- `subkeys.remove`. -/
def removeSubkey (name : Bytes) : Key → Key
  | .mk subs vals uid => .mk (erase name subs) vals uid

variable (subs : List (Bytes × Key)) (vals : List (Bytes × Value)) (uid : UInt32)

@[simp] theorem subkeys_mk : (Key.mk subs vals uid).subkeys = subs := rfl

@[simp] theorem values_mk : (Key.mk subs vals uid).values = vals := rfl

@[simp] theorem ownerUid_mk : (Key.mk subs vals uid).ownerUid = uid := rfl

@[simp] theorem subkeys_insertValue (name : Bytes) (v : Value) (k : Key) :
    (k.insertValue name v).subkeys = k.subkeys := by cases k; rfl

@[simp] theorem subkeys_removeSubkey (leaf : Bytes) (k : Key) :
    (k.removeSubkey leaf).subkeys = erase leaf k.subkeys := by cases k; rfl

@[simp] theorem subkeys_setOwner (k : Key) : (k.setOwner uid).subkeys = k.subkeys := by cases k; rfl

theorem induct {motive : Key → Prop}
    (h : ∀ subs vals uid, (∀ p ∈ subs, motive p.2) → motive (.mk subs vals uid)) :
    ∀ k, motive k := by
  intro k
  refine @Key.rec motive (fun subs => ∀ p ∈ subs, motive p.2) (fun p => motive p.2) ?_ ?_ ?_ ?_ k
  · exact h
  · exact nofun
  · exact fun p subs hp hsubs => forall_mem_cons.2 ⟨hp, hsubs⟩
  · exact fun name k hk => hk

end Key

open Key

/-! ## Paths -/

/-- `\` and `/` separate path components. -/
def isSep (b : UInt8) : Bool := b == 92 || b == 47

/-- Drop a leading `registry` component. -/
def stripRegistry (c : List Bytes) : List Bytes :=
  if c.head? = some (ascii "registry") then c.tail else c

/-- The non-empty parts of a path between separators, lowercased. -/
def parts (path : Bytes) : List Bytes :=
  ((path.splitOnP isSep).filter (· ≠ [])).map toAsciiLowercase

/-- Split a path into normalised components (lowercased, non-empty), without a
leading `registry`. -/
def components (path : Bytes) : List Bytes := stripRegistry (parts path)

/-- The `\`-joined form of a component list. -/
def joinPath (comps : List Bytes) : Bytes := [92].intercalate comps

/-- The canonical `\`-joined form of `path`: what a key handle stores. -/
def canon (path : Bytes) : Bytes := joinPath (components path)

/-- A path component as `components` produces it. -/
structure KeyName (n : Bytes) : Prop where
  ne_nil : n ≠ []
  noSep : ∀ b ∈ n, isSep b = false
  lower : toAsciiLowercase n = n
  utf8 : Utf8.valid n = true

theorem isSep_ascii (b : UInt8) (h : isSep b = true) : b < 0x80 := by
  simp only [isSep, Bool.or_eq_true, beq_iff_eq] at h
  rcases h with rfl | rfl <;> decide

theorem isSep_asciiLower (b : UInt8) (h : isSep b = false) : isSep (asciiLower b) = false := by
  unfold asciiLower
  split_ifs with hr
  · simp only [isSep, Bool.or_eq_false_iff, beq_eq_false_iff_ne, ne_eq, ← UInt8.toNat_inj,
      UInt8.toNat_add, UInt8.reduceToNat, UInt8.le_iff_toNat_le] at hr ⊢
    omega
  · exact h

variable {path x : Bytes}

theorem mem_stripRegistry {c : List Bytes} (h : x ∈ stripRegistry c) : x ∈ c := by
  unfold stripRegistry at h
  split_ifs at h
  · exact mem_of_mem_tail h
  · exact h

theorem keyName_of_mem_parts (hpath : Utf8.valid path = true) (hx : x ∈ parts path) :
    KeyName x := by
  obtain ⟨y, hy, rfl⟩ := mem_map.1 hx
  rw [mem_filter, decide_eq_true_eq] at hy
  refine ⟨?_, ?_, toAsciiLowercase_idem y, ?_⟩
  · simpa using hy.2
  · intro b hb
    obtain ⟨a, ha, rfl⟩ := mem_map.1 hb
    exact isSep_asciiLower a (not_of_mem_splitOnP hy.1 a ha)
  · rw [valid_toAsciiLowercase]
    exact Utf8.valid_of_mem_splitOnP isSep_ascii hpath y hy.1

theorem keyName_of_mem_components (hpath : Utf8.valid path = true) (hx : x ∈ components path) :
    KeyName x :=
  keyName_of_mem_parts hpath (mem_stripRegistry hx)

theorem parts_append (a b : Bytes) : parts (a ++ 92 :: b) = parts a ++ parts b := by
  have hsplit : (a ++ 92 :: b).splitOnP isSep = a.splitOnP isSep ++ b.splitOnP isSep :=
    splitOnP_append_cons a b rfl
  simp [parts, hsplit]

variable {comps : List Bytes}

theorem parts_joinPath (h : ∀ c ∈ comps, KeyName c) : parts (joinPath comps) = comps := by
  cases comps with
  | nil => rfl
  | cons c cs =>
    have hsplit : (joinPath (c :: cs)).splitOnP isSep = c :: cs :=
      splitOnP_intercalate rfl (fun d hd => (h d hd).noSep) (by simp)
    have hfilter : (c :: cs).filter (· ≠ []) = c :: cs :=
      filter_eq_self.2 fun d hd => by simpa using (h d hd).ne_nil
    rw [parts, hsplit, hfilter]
    exact (map_congr_left fun d hd => (h d hd).lower).trans (map_id _)

theorem components_joinPath (h : ∀ c ∈ comps, KeyName c) :
    components (joinPath comps) = stripRegistry comps := by
  rw [components, parts_joinPath h]

theorem stripRegistry_eq_self_iff {c : List Bytes} :
    stripRegistry c = c ↔ c.head? ≠ some (ascii "registry") := by
  unfold stripRegistry
  split_ifs with h
  · refine iff_of_false (fun htail => ?_) (not_not.2 h)
    cases c with
    | nil => simp at h
    | cons x xs => exact absurd (congrArg length htail) (by simp)
  · exact iff_of_true rfl h

/-! ## Walking the tree -/

/-- Find-or-create the key at `comps` and update it by `f`. Keys created along the
way are owned by `uid`; an existing key keeps its owner. -/
def make (root : Key) (comps : List Bytes) (uid : UInt32) (f : Key → Key) : Key :=
  match comps with
  | [] => f root
  | c :: cs =>
    let child := (get? c root.subkeys).getD (.owned uid)
    .mk (insert c (make child cs uid f) root.subkeys) root.values root.ownerUid

/-- The key at `comps`. -/
def find (root : Key) : List Bytes → Option Key
  | [] => some root
  | c :: cs => (get? c root.subkeys).bind fun k => find k cs

/-- Update the key at `comps` by `f`, if it exists. -/
def findMut (root : Key) (comps : List Bytes) (f : Key → Key) : Option Key :=
  match comps with
  | [] => some (f root)
  | c :: cs =>
    (get? c root.subkeys).bind fun k =>
      (findMut k cs f).map fun k' =>
        .mk (insert c k' root.subkeys) root.values root.ownerUid

section

variable (root : Key)
include root

@[simp] theorem make_nil (uid : UInt32) (f : Key → Key) : make root [] uid f = f root := rfl

@[simp] theorem find_nil : find root [] = some root := rfl

variable (p q : List Bytes)

theorem find_append : find root (p ++ q) = (find root p).bind fun k => find k q := by
  induction p generalizing root with
  | nil => rfl
  | cons c p ih =>
    simp only [cons_append, find, bind_assoc]
    congr 1
    funext k
    exact ih k

theorem make_make_append (uid : UInt32) (f g : Key → Key) :
    make (make root p uid f) (p ++ q) uid g = make root p uid fun k => make (f k) q uid g := by
  induction p generalizing root with
  | nil => rfl
  | cons c p ih =>
    simp [make, subkeys_mk, values_mk, ownerUid_mk, get?_insert_self, insert_insert_self, ih]

theorem find_make_self (p : List Bytes) (uid : UInt32) (f : Key → Key) :
    find (make root p uid f) p = some (f ((find root p).getD (.owned uid))) := by
  induction p generalizing root with
  | nil => rfl
  | cons c p ih =>
    simp only [make, find, subkeys_mk, get?_insert_self, bind_some, ih]
    congr 2
    cases hc : get? c root.subkeys with
    | none =>
      -- nothing below a fresh key, so both sides fall back to it
      cases p with
      | nil => rfl
      | cons d p => simp [find, owned]
    | some k => rfl

theorem findMut_eq (p : List Bytes) (uid : UInt32) (f : Key → Key) :
    findMut root p f = (find root p).map fun _ => make root p uid f := by
  induction p generalizing root with
  | nil => rfl
  | cons c p ih =>
    simp only [findMut, find, make]
    cases hc : get? c root.subkeys with
    | none => rfl
    | some k =>
      simp only [bind_some, getD_some, ih]
      cases hk : find k p with
      | none => rfl
      | some k' => rfl

theorem make_append (uid : UInt32) (f : Key → Key) :
    make root (p ++ q) uid f = make root p uid fun k => make k q uid f := by
  induction p generalizing root with
  | nil => rfl
  | cons c p ih => simp [make, ih]

end

variable {k : Key} {p q : List Bytes}

theorem find_isSome_above (hpq : p <+: q) (h : (find k q).isSome) : (find k p).isSome := by
  obtain ⟨t, rfl⟩ := hpq
  rw [find_append] at h
  cases hp : find k p with
  | none => simp [hp] at h
  | some k' => rfl

variable {root : Key}

theorem find_make_of_apart (hpq : ¬ p <+: q) (hqp : ¬ q <+: p) (uid : UInt32) (f : Key → Key)
    (hq : (find root q).isSome) : find (make root p uid f) q = find root q := by
  induction p generalizing root q with
  | nil => simp at hpq
  | cons c p ih =>
    cases q with
    | nil => simp at hqp
    | cons d q =>
      by_cases hcd : d = c
      · subst hcd
        simp only [cons_prefix_cons, true_and] at hpq hqp
        cases hget : get? d root.subkeys with
        | none => simp [find, hget] at hq
        | some k =>
          have hk : (find k q).isSome := by simpa [find, hget] using hq
          simp [make, find, subkeys_mk, get?_insert_self, hget, ih hpq hqp hk]
      · simp [make, find, get?_insert_of_ne hcd]

variable {f : Key → Key}

theorem find_make_below {c : Bytes} {t : List Bytes} (uid : UInt32)
    (hf : ∀ k, get? c (f k).subkeys = get? c k.subkeys)
    (hq : (find root (p ++ c :: t)).isSome) :
    find (make root p uid f) (p ++ c :: t) = find root (p ++ c :: t) := by
  obtain ⟨k, hk⟩ := isSome_iff_exists.1 (find_isSome_above (prefix_append p _) hq)
  rw [find_append, find_append, find_make_self, hk]
  simp [find, hf]

theorem find_make_of_subkeys (hqp : ¬ q <+: p) (uid : UInt32) (hf : ∀ k, (f k).subkeys = k.subkeys)
    (hq : (find root q).isSome) : find (make root p uid f) q = find root q := by
  by_cases hpq : p <+: q
  · obtain ⟨t, rfl⟩ := hpq
    cases t with
    | nil => simp at hqp
    | cons c t => exact find_make_below uid (fun k => by rw [hf]) hq
  · exact find_make_of_apart hpq hqp uid f hq

theorem find_make_removeSubkey {leaf : Bytes} (hqp : ¬ q <+: p ++ [leaf])
    (hpq : ¬ p ++ [leaf] <+: q) (uid : UInt32) (hq : (find root q).isSome) :
    find (make root p uid (removeSubkey leaf)) q = find root q := by
  by_cases hp : p <+: q
  · obtain ⟨t, rfl⟩ := hp
    cases t with
    | nil => simp at hqp
    | cons c t =>
      have hc : c ≠ leaf := by
        rintro rfl
        exact hpq (by simp)
      exact find_make_below uid (fun k => by simp [get?_erase_of_ne hc]) hq
  · exact find_make_of_apart hp (fun h => hqp (h.trans (prefix_append ..))) uid _ hq

theorem find_make_isSome {uid : UInt32} (hf : ∀ k t, (find (f k) t).isSome → (find k t).isSome)
    (h : (find (make root q uid f) p).isSome) : (find root p).isSome ∨ p <+: q := by
  induction q generalizing root p with
  | nil => exact .inl (hf root p h)
  | cons d q ih =>
    cases p with
    | nil => exact .inl rfl
    | cons c p =>
      by_cases hcd : c = d
      · subst hcd
        simp only [make, find, subkeys_mk, get?_insert_self, bind_some] at h
        rcases ih h with h | h
        · cases hget : get? c root.subkeys with
          | none =>
            cases p with
            | nil => exact .inr (by simp)
            | cons e p => simp [hget, find, owned] at h
          | some k => exact .inl (by simpa [find, hget] using h)
        · exact .inr (cons_prefix_cons.2 ⟨rfl, h⟩)
      · left
        simpa [make, find, get?_insert_of_ne hcd] using h

theorem find_isSome_of_subkeys (hf : ∀ k, (f k).subkeys = k.subkeys) (k : Key) (t : List Bytes)
    (h : (find (f k) t).isSome) : (find k t).isSome := by
  cases t with
  | nil => rfl
  | cons c t => simpa [find, hf] using h

theorem find_isSome_of_removeSubkey (leaf : Bytes) (k : Key) (t : List Bytes)
    (h : (find (k.removeSubkey leaf) t).isSome) : (find k t).isSome := by
  cases t with
  | nil => rfl
  | cons c t =>
    by_cases hc : c = leaf
    · subst hc
      simp [find, get?_erase_self] at h
    · simpa [find, get?_erase_of_ne hc] using h

/-! ## Well-formed trees -/

/-- Ordered maps, component key names and lower-case value names, all the way
down. -/
inductive Key.Wf : Key → Prop
  | mk {subs : List (Bytes × Key)} {vals : List (Bytes × Value)} (uid : UInt32) :
      OrdMap.Ascending subs → (∀ p ∈ subs, KeyName p.1) → (∀ p ∈ subs, Key.Wf p.2) →
      OrdMap.Ascending vals → (∀ p ∈ vals, toAsciiLowercase p.1 = p.1 ∧ Utf8.valid p.1 = true) →
      Key.Wf (.mk subs vals uid)

theorem wf_owned (uid : UInt32) : (owned uid).Wf :=
  .mk uid ascending_nil (by simp) (by simp) ascending_nil (by simp)

theorem wf_new : new.Wf := wf_owned 0

theorem wf_insertValue (hk : k.Wf) {name : Bytes} (hn : toAsciiLowercase name = name)
    (hu : Utf8.valid name = true) (v : Value) : (k.insertValue name v).Wf := by
  cases hk with
  | mk uid h1 h2 h3 h4 h5 =>
    refine .mk uid h1 h2 h3 (ascending_insert h4 name v) fun p hp => ?_
    rcases eq_or_mem_of_mem_insert hp with rfl | hp
    · exact ⟨hn, hu⟩
    · exact h5 p hp

theorem wf_removeSubkey (hk : k.Wf) (name : Bytes) : (k.removeSubkey name).Wf := by
  cases hk with
  | mk uid h1 h2 h3 h4 h5 =>
    refine .mk uid (ascending_erase h1 name) ?_ ?_ h4 h5
    · exact fun p hp => h2 p (mem_of_mem_filter hp)
    · exact fun p hp => h3 p (mem_of_mem_filter hp)

theorem wf_of_get? {sub : Key} (hk : k.Wf) {c : Bytes} (h : get? c k.subkeys = some sub) :
    sub.Wf := by
  cases hk with
  | mk uid h1 h2 h3 h4 h5 => exact h3 (c, sub) (mem_of_get? h)

theorem wf_find {sub : Key} (hk : k.Wf) (h : find k p = some sub) : sub.Wf := by
  induction p generalizing k with
  | nil =>
    simp only [find_nil, some.injEq] at h
    exact h ▸ hk
  | cons c p ih =>
    obtain ⟨k', hk', hfind⟩ := bind_eq_some_iff.1 h
    exact ih (wf_of_get? hk hk') hfind

theorem wf_make (hroot : root.Wf) (hc : ∀ c ∈ comps, KeyName c) (uid : UInt32)
    (hf : ∀ k, k.Wf → (f k).Wf) : (make root comps uid f).Wf := by
  induction comps generalizing root with
  | nil => exact hf root hroot
  | cons c cs ih =>
    have hchild : ((get? c root.subkeys).getD (.owned uid)).Wf := by
      cases hget : get? c root.subkeys with
      | none => exact wf_owned uid
      | some k => exact wf_of_get? hroot hget
    have hnew := ih hchild fun d hd => hc d (mem_cons_of_mem _ hd)
    cases hroot with
    | mk o h1 h2 h3 h4 h5 =>
      refine .mk o (ascending_insert h1 c _) ?_ ?_ h4 h5
      · intro p hp
        rcases eq_or_mem_of_mem_insert hp with rfl | hp
        · exact hc c mem_cons_self
        · exact h2 p hp
      · intro p hp
        rcases eq_or_mem_of_mem_insert hp with rfl | hp
        · exact hnew
        · exact h3 p hp

end Thos.Registry
